import Mathlib.Data.List.Basic
import Mathlib.Data.List.Dedup
import Mathlib.Data.List.Flatten
import Mathlib.Data.List.Perm.Basic
import Mathlib.Order.Lattice

/-! Locality: operations with a key each, in flight for an interval of time each. Orders of the operations of every
key that respect real time can be interleaved to one that respects it for all, and a run of independent objects is a
run of each. -/
namespace Parallax.Linear
variable {α κ σ τ : Type}

def Steps (step : σ → α → σ → Prop) : σ → List α → σ → Prop
  | s, [], s' => s = s'
  | s, x :: l, s' => ∃ s₁, step s x s₁ ∧ Steps step s₁ l s'

theorem Steps.append {step : σ → α → σ → Prop} {l l' : List α} :
    ∀ {s s' s'' : σ}, Steps step s l s' → Steps step s' l' s'' → Steps step s (l ++ l') s'' := by
  induction l with
  | nil =>
    rintro s s' s'' rfl h'
    exact h'
  | cons x l ih =>
    rintro s s' s'' ⟨s₁,hx,hl⟩ h'
    exact ⟨s₁,hx,ih hl h'⟩

/-- Steps that may leave the state alone. -/
theorem Steps.of_const {step : σ → α → σ → Prop} {s : σ} {l : List α} (h : ∀ x ∈ l, step s x s) : Steps step s l s := by
  induction l with
  | nil => rfl
  | cons x l ih => exact ⟨s,h x List.mem_cons_self,ih fun y hy => h y (List.mem_cons_of_mem _ hy)⟩

/-- A view of one system that is a step of another, both ways. -/
theorem steps_view {ρ : Type} {step : σ → α → σ → Prop} {step' : ρ → α → ρ → Prop} (view : σ → ρ)
    (hto : ∀ s x s', step s x s' → step' (view s) x (view s'))
    (hfrom : ∀ s x r, step' (view s) x r → ∃ s', step s x s' ∧ view s' = r) {l : List α} :
    ∀ s, (∃ s', Steps step s l s') ↔ ∃ r, Steps step' (view s) l r := by
  induction l with
  | nil => exact fun s => ⟨fun _ => ⟨_,rfl⟩,fun _ => ⟨_,rfl⟩⟩
  | cons x l ih =>
    intro s
    constructor
    · rintro ⟨s',s₁,hs,hl⟩
      obtain ⟨r,hr⟩ := (ih s₁).mp ⟨s',hl⟩
      exact ⟨r,_,hto s x s₁ hs,hr⟩
    rintro ⟨r,r₁,hr,hl⟩
    obtain ⟨s₁,hs,rfl⟩ := hfrom s x r₁ hr
    obtain ⟨s',hs'⟩ := (ih s₁).mpr ⟨r,hl⟩
    exact ⟨s',s₁,hs,hs'⟩

variable [DecidableEq κ] {key : α → κ}

/-- An operation moves the object of its key and no other. -/
def Pointwise (key : α → κ) (step : σ → α → σ → Prop) (f : κ → σ) (x : α) (g : κ → σ) : Prop :=
  step (f (key x)) x (g (key x)) ∧ ∀ k, k ≠ key x → g k = f k

theorem steps_pointwise_iff {step : σ → α → σ → Prop} {l : List α} {g : κ → σ} :
    ∀ f, Steps (Pointwise key step) f l g ↔ ∀ k, Steps step (f k) (l.filter (key · = k)) (g k) := by
  induction l with
  | nil => exact fun f => funext_iff
  | cons x l ih =>
    intro f
    constructor
    · rintro ⟨f',⟨hx,hframe⟩,hl⟩ k
      have hk := (ih f').mp hl k
      by_cases h : key x = k
      · obtain rfl := h
        rw [List.filter_cons_of_pos (by simp)]
        exact ⟨_,hx,hk⟩
      · rw [List.filter_cons_of_neg (by simpa using h)]
        rwa [hframe k (Ne.symm h)] at hk
    intro h
    have hx := h (key x)
    rw [List.filter_cons_of_pos (by simp)] at hx
    obtain ⟨s₁,hs,hl⟩ := hx
    refine ⟨Function.update f (key x) s₁,⟨?_,fun k hk => Function.update_of_ne hk ..⟩,(ih _).mpr fun k => ?_⟩
    · rwa [Function.update_self]
    by_cases hk : k = key x
    · obtain rfl := hk
      rwa [Function.update_self]
    have hk' := h k
    rw [List.filter_cons_of_neg (by simpa using Ne.symm hk)] at hk'
    rwa [Function.update_of_ne hk]

theorem flatMap_filter_perm {ks : List κ} (hks : ks.Nodup) {xs : List α} (hcover : ∀ x ∈ xs, key x ∈ ks) :
    (ks.flatMap fun k => xs.filter (key · = k)).Perm xs := by
  induction ks generalizing xs with
  | nil =>
    obtain rfl := List.eq_nil_iff_forall_not_mem.mpr fun x hx => List.not_mem_nil (hcover x hx)
    exact .refl _
  | cons k ks ih =>
    have hrest : ∀ k' ∈ ks, xs.filter (key · = k') = (xs.filter (key · ≠ k)).filter (key · = k') := by
      intro k' hk'
      rw [List.filter_filter]
      refine List.filter_congr fun x _ => ?_
      have hne : k ≠ k' := fun h => (List.nodup_cons.mp hks).1 (h ▸ hk')
      by_cases h : key x = k'
      · simp [h,hne.symm]
      · simp [h]
    have htail : (ks.flatMap fun k' => (xs.filter (key · ≠ k)).filter (key · = k')).Perm (xs.filter (key · ≠ k)) := by
      refine ih (List.nodup_cons.mp hks).2 fun x hx => ?_
      obtain ⟨hx,hk⟩ := List.mem_filter.mp hx
      exact (List.mem_cons.mp (hcover x hx)).resolve_left (by simpa using hk)
    rw [List.flatMap_cons,List.flatMap_congr hrest]
    refine (htail.append_left _).trans ?_
    have := List.filter_append_perm (fun x => decide (key x = k)) xs
    simpa using this

variable [LinearOrder τ] {call ret : α → τ}

/-- None stands before one that had ended when it began. -/
def Respects (call ret : α → τ) (l : List α) : Prop := l.Pairwise fun x y => ¬ ret y < call x

/-- A moment for each operation: when it and all before it have begun. -/
def stamp (call : α → τ) : τ → List α → List (τ × α)
  | _, [] => []
  | t, x :: l => (max t (call x),x) :: stamp call (max t (call x)) l

theorem map_stamp (t : τ) (l : List α) : (stamp call t l).map (·.2) = l := by
  induction l generalizing t with
  | nil => rfl
  | cons x l ih => rw [stamp,List.map_cons,ih]

theorem le_stamp {t : τ} {l : List α} : (stamp call t l).Pairwise (·.1 ≤ ·.1) ∧ ∀ p ∈ stamp call t l, t ≤ p.1 := by
  induction l generalizing t with
  | nil => simp [stamp]
  | cons x l ih =>
    obtain ⟨hpair,hle⟩ := ih (t := max t (call x))
    refine ⟨List.pairwise_cons.mpr ⟨hle,hpair⟩,?_⟩
    rintro p hp
    rcases List.mem_cons.mp hp with rfl | hp
    · exact le_max_left ..
    · exact (le_max_left ..).trans (hle p hp)

theorem stamp_within {t : τ} {l : List α} (hl : Respects call ret l) (hproper : ∀ x ∈ l, call x ≤ ret x)
    (ht : ∀ x ∈ l, t ≤ ret x) : ∀ p ∈ stamp call t l, call p.2 ≤ p.1 ∧ p.1 ≤ ret p.2 := by
  induction l generalizing t with
  | nil => simp [stamp]
  | cons x l ih =>
    obtain ⟨hx,hl⟩ := List.pairwise_cons.mp hl
    rintro p hp
    rcases List.mem_cons.mp hp with rfl | hp
    · exact ⟨le_max_right ..,max_le (ht x (by simp)) (hproper x (by simp))⟩
    · refine ih hl (fun y hy => hproper y (by simp [hy])) (fun y hy => ?_) p hp
      exact max_le (ht y (by simp [hy])) (not_lt.mp (hx y hy))

/-- The moments of a whole order. -/
def stamps (call : α → τ) : List α → List (τ × α)
  | [] => []
  | x :: l => stamp call (call x) (x :: l)

theorem map_stamps (l : List α) : (stamps call l).map (·.2) = l := by
  cases l with
  | nil => rfl
  | cons x l => exact map_stamp _ _

theorem stamps_sorted (l : List α) : (stamps call l).Pairwise (·.1 ≤ ·.1) := by
  cases l with
  | nil => exact .nil
  | cons x l => exact le_stamp.1

theorem stamps_within {l : List α} (hl : Respects call ret l) (hproper : ∀ x ∈ l, call x ≤ ret x) :
    ∀ p ∈ stamps call l, call p.2 ≤ p.1 ∧ p.1 ≤ ret p.2 := by
  cases l with
  | nil => simp [stamps]
  | cons x l =>
    refine stamp_within hl hproper fun y hy => ?_
    rcases List.mem_cons.mp hy with rfl | hy'
    · exact hproper y hy
    · exact not_lt.mp ((List.pairwise_cons.mp hl).1 y hy')

theorem interleave {xs : List α} {order : κ → List α} (hproper : ∀ x ∈ xs, call x ≤ ret x)
    (hperm : ∀ k, (order k).Perm (xs.filter (key · = k))) (hresp : ∀ k, Respects call ret (order k)) :
    ∃ l, l.Perm xs ∧ Respects call ret l ∧ ∀ k, l.filter (key · = k) = order k := by
  let ks := (xs.map key).dedup
  let all := ks.flatMap fun k => stamps call (order k)
  let le : τ × α → τ × α → Bool := fun p q => decide (p.1 ≤ q.1)
  have htrans : ∀ a b c : τ × α, le a b → le b c → le a c := by
    intro a b c hab hbc
    exact decide_eq_true ((of_decide_eq_true hab).trans (of_decide_eq_true hbc))
  have htotal : ∀ a b : τ × α, le a b || le b a := by
    intro a b
    simpa [le] using le_total a.1 b.1
  have hkey : ∀ k, ∀ x ∈ order k, x ∈ xs ∧ key x = k := by
    intro k x hx
    simpa using (hperm k).mem_iff.mp hx
  have hwithin : ∀ p ∈ all, call p.2 ≤ p.1 ∧ p.1 ≤ ret p.2 := by
    intro p hp
    obtain ⟨k,_,hp⟩ := List.mem_flatMap.mp hp
    exact stamps_within (hresp k) (fun x hx => hproper x (hkey k x hx).1) p hp
  have hall : (all.map (·.2)).Perm xs := by
    have hmap : all.map (·.2) = ks.flatMap order := by
      rw [List.map_flatMap]
      exact List.flatMap_congr fun k _ => map_stamps (order k)
    rw [hmap]
    refine (List.Perm.flatMap_left ks fun k _ => hperm k).trans ?_
    exact flatMap_filter_perm (List.nodup_dedup _) fun x hx => List.mem_dedup.mpr (List.mem_map_of_mem hx)
  have hsorted := List.mergeSort_perm all le
  refine ⟨(all.mergeSort le).map (·.2),(hsorted.map _).trans hall,?_,fun k => ?_⟩
  · rw [Respects,List.pairwise_map]
    refine (List.pairwise_mergeSort htrans htotal all).imp_of_mem fun {p q} hp hq hpq => not_lt.mpr ?_
    have hp := (hwithin p (hsorted.mem_iff.mp hp)).1
    have hq := (hwithin q (hsorted.mem_iff.mp hq)).2
    exact hp.trans ((of_decide_eq_true hpq).trans hq)
  -- The order of a key is a sublist of the sorted list, and as long as its part of it.
  have hsub : List.Sublist (order k) ((all.mergeSort le).map (·.2)) := by
    by_cases hk : k ∈ ks
    · have hle : (stamps call (order k)).Pairwise (fun p q => le p q = true) :=
        (stamps_sorted (order k)).imp fun h => decide_eq_true h
      have hin : List.Sublist (stamps call (order k)) all := by
        have := (List.singleton_sublist.mpr hk).flatMap fun k => stamps call (order k)
        rwa [List.flatMap_singleton] at this
      have := (List.sublist_mergeSort htrans htotal hle hin).map (·.2)
      rwa [map_stamps] at this
    have hnil : order k = [] := by
      refine List.eq_nil_iff_forall_not_mem.mpr fun x hx => hk ?_
      obtain ⟨hxs,rfl⟩ := hkey k x hx
      exact List.mem_dedup.mpr (List.mem_map_of_mem hxs)
    rw [hnil]
    exact List.nil_sublist _
  have hlen := ((hsorted.map (·.2)).trans hall).filter (key · = k)
  have hfilter := hsub.filter (key · = k)
  rw [List.filter_eq_self.mpr fun x hx => by simpa using (hkey k x hx).2] at hfilter
  exact (hfilter.eq_of_length ((hperm k).trans hlen.symm).length_eq).symm

theorem exists_order_iff (key : α → κ) (step : σ → α → σ → Prop) (init : κ → σ) {xs : List α} (hproper : ∀ x ∈ xs, call x ≤ ret x) :
    (∃ l : List α, l.Perm xs ∧ Respects call ret l ∧ ∃ g, Steps (Pointwise key step) init l g) ↔
      ∀ k, ∃ l : List α, l.Perm (xs.filter (key · = k)) ∧ Respects call ret l ∧ ∃ s, Steps step (init k) l s := by
  constructor
  · rintro ⟨l,hl,hresp,g,hg⟩ k
    exact ⟨l.filter (key · = k),hl.filter _,hresp.filter _,g k,(steps_pointwise_iff init).mp hg k⟩
  intro h
  choose order hperm hresp g hg using h
  obtain ⟨l,hl,hr,hfilter⟩ := interleave hproper hperm hresp
  refine ⟨l,hl,hr,g,(steps_pointwise_iff init).mpr fun k => ?_⟩
  rw [hfilter k]
  exact hg k

end Parallax.Linear
