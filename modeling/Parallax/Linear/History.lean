import Mathlib.Data.List.Basic
import Mathlib.Data.List.Pairwise
import Mathlib.Data.List.Range

/-! Linearizability of concurrent histories with respect to a sequential object, and the linearization of a
history whose updates take effect in numbered stages with the queries in between. -/
namespace Parallax.Linear
variable {σ ι Op Res : Type}

/-- A sequential object: its first state, and what an operation makes of a state and answers. -/
structure Object (σ Op Res : Type) where
  init : σ
  step : σ → Op → σ × Res

inductive Event (ι Op Res : Type) where
  | call (id : ι) (op : Op)
  | ret (id : ι) (res : Res)
  deriving DecidableEq, Repr

/-- An operation in a sequential order, with its answer. -/
structure Placed (ι Op Res : Type) where
  id : ι
  op : Op
  res : Res
  deriving DecidableEq, Repr

/-- Run one after the other from `s`, the operations give their answers and end in `s'`. -/
def Object.Runs (O : Object σ Op Res) (s : σ) : List (Placed ι Op Res) → σ → Prop
  | [], s' => s = s'
  | x :: l, s' => (O.step s x.op).2 = x.res ∧ O.Runs (O.step s x.op).1 l s'

/-- Operation `a` had returned before `b` was called. -/
def Precedes (h : List (Event ι Op Res)) (a b : ι) : Prop :=
  ∃ h₁ h₂, h = h₁ ++ h₂ ∧ (∃ res, .ret a res ∈ h₁) ∧ ∃ op, .call b op ∈ h₂

/-- The order `l` explains the history `h`: it is a run of the object, every answered operation is in it with its
answer, others that were called may be, none twice, and none stands before one it follows in time. -/
structure Linearizes (O : Object σ Op Res) (h : List (Event ι Op Res)) (l : List (Placed ι Op Res)) : Prop where
  legal : ∃ s, O.Runs O.init l s
  nodup : (l.map (·.id)).Nodup
  called : ∀ x ∈ l, .call x.id x.op ∈ h
  returned : ∀ id res, .ret id res ∈ h → ∃ x ∈ l, x.id = id ∧ x.res = res
  order : l.Pairwise fun x y => ¬ Precedes h y.id x.id

def Linearizable (O : Object σ Op Res) (h : List (Event ι Op Res)) : Prop := ∃ l, Linearizes O h l

theorem Object.Runs.append {O : Object σ Op Res} {l l' : List (Placed ι Op Res)} :
    ∀ {s s' s'' : σ}, O.Runs s l s' → O.Runs s' l' s'' → O.Runs s (l ++ l') s'' := by
  induction l with
  | nil =>
    rintro s s' s'' rfl h'
    exact h'
  | cons x l ih =>
    intro s s' s'' h h'
    exact ⟨h.1,ih h.2 h'⟩

theorem Object.runs_of_const {O : Object σ Op Res} {s : σ} {l : List (Placed ι Op Res)}
    (h : ∀ x ∈ l, O.step s x.op = (s,x.res)) : O.Runs s l s := by
  induction l with
  | nil => exact rfl
  | cons x l ih =>
    have hx := h x (by simp)
    refine ⟨by rw [hx],?_⟩
    rw [hx]
    exact ih fun y hy => h y (by simp [hy])

variable {h : List (Event ι Op Res)} {a b : ι}

theorem Precedes.of_snoc {e : Event ι Op Res} (hp : Precedes (h ++ [e]) a b) :
    Precedes h a b ∨ ((∃ op, e = .call b op) ∧ ∃ res, .ret a res ∈ h) := by
  obtain ⟨h₁,h₂,heq,⟨res,hr⟩,op,hc⟩ := hp
  rcases List.eq_nil_or_concat h₂ with rfl | ⟨h₂,e',rfl⟩
  · cases hc
  rw [List.concat_eq_append,← List.append_assoc] at heq
  obtain ⟨rfl,he⟩ := List.append_inj' heq rfl
  obtain rfl := List.singleton_inj.mp he
  rw [List.concat_eq_append,List.mem_append,List.mem_singleton] at hc
  rcases hc with hc | hc
  · exact .inl ⟨h₁,h₂,rfl,⟨res,hr⟩,op,hc⟩
  · exact .inr ⟨⟨op,hc.symm⟩,res,List.mem_append_left _ hr⟩

theorem Precedes.returned (hp : Precedes h a b) : ∃ res, .ret a res ∈ h := by
  obtain ⟨h₁,h₂,rfl,⟨res,hr⟩,_⟩ := hp
  exact ⟨res,List.mem_append_left _ hr⟩

theorem Precedes.called (hp : Precedes h a b) : ∃ op, .call b op ∈ h := by
  obtain ⟨h₁,h₂,rfl,_,op,hc⟩ := hp
  exact ⟨op,List.mem_append_right _ hc⟩

/-- Every operation is called once and answered at most once, after its call. -/
inductive WellFormed : List (Event ι Op Res) → Prop
  | nil : WellFormed []
  | call {h : List (Event ι Op Res)} {id : ι} (op : Op) : WellFormed h → (∀ op', .call id op' ∉ h) →
      WellFormed (h ++ [.call id op])
  | ret {h : List (Event ι Op Res)} {id : ι} {op : Op} (res : Res) : WellFormed h → .call id op ∈ h →
      (∀ res', .ret id res' ∉ h) → WellFormed (h ++ [.ret id res])

namespace WellFormed

theorem called (hw : WellFormed h) {id : ι} {res : Res} (hr : .ret id res ∈ h) : ∃ op, .call id op ∈ h := by
  induction hw with
  | nil => cases hr
  | call op _ _ ih =>
    obtain ⟨op',hop⟩ := ih (by simpa using hr)
    exact ⟨op',List.mem_append_left _ hop⟩
  | ret res' _ hc _ ih =>
    rcases List.mem_append.mp hr with hr | hr
    · obtain ⟨op',hop⟩ := ih hr
      exact ⟨op',List.mem_append_left _ hop⟩
    · obtain ⟨rfl,_⟩ : id = _ ∧ res = _ := by simpa using hr
      exact ⟨_,List.mem_append_left _ hc⟩

theorem call_unique (hw : WellFormed h) {id : ι} {op op' : Op} (hc : .call id op ∈ h) (hc' : .call id op' ∈ h) :
    op = op' := by
  induction hw with
  | nil => cases hc
  | call op₀ _ hnew ih =>
    simp only [List.mem_append,List.mem_singleton,Event.call.injEq] at hc hc'
    rcases hc with hc | ⟨rfl,rfl⟩ <;> rcases hc' with hc' | ⟨h₁,rfl⟩
    · exact ih hc hc'
    · exact absurd (h₁ ▸ hc) (hnew op)
    · exact absurd hc' (hnew op')
    · rfl
  | ret res _ _ _ ih => exact ih (by simpa using hc) (by simpa using hc')

end WellFormed

/-- The answered operations, in the order of their answers; `f` says which operation an id names. -/
def answers (f : ι → Op) (h : List (Event ι Op Res)) : List (Placed ι Op Res) :=
  h.filterMap fun
    | .ret id res => some ⟨id,f id,res⟩
    | .call _ _ => none

theorem mem_answers {f : ι → Op} {x : Placed ι Op Res} :
    x ∈ answers f h ↔ .ret x.id x.res ∈ h ∧ x.op = f x.id := by
  simp only [answers,List.mem_filterMap]
  constructor
  · rintro ⟨e,he,hx⟩
    cases e with
    | call id op => cases hx
    | ret id res =>
      obtain rfl := Option.some.inj hx
      exact ⟨he,rfl⟩
  · rintro ⟨hr,hop⟩
    exact ⟨_,hr,by simp [← hop]⟩

/-- No operation had returned before one answered earlier was called. -/
theorem WellFormed.answers_pairwise (hw : WellFormed h) (f : ι → Op) :
    (answers f h).Pairwise fun x y => x.id ≠ y.id ∧ ¬ Precedes h y.id x.id := by
  induction hw with
  | nil => exact List.Pairwise.nil
  | @call h id op hw hnew ih =>
    have hsame : answers f (h ++ [.call id op]) = answers f h := by simp [answers]
    rw [hsame]
    refine ih.imp_of_mem fun {x y} hx _ hxy => ⟨hxy.1,fun hp => ?_⟩
    rcases hp.of_snoc with hp | ⟨⟨op',he⟩,_⟩
    · exact hxy.2 hp
    · obtain ⟨op₁,hc⟩ := hw.called (mem_answers.mp hx).1
      exact hnew op₁ ((Event.call.inj he).1 ▸ hc)
  | @ret h id op res hw hc hnew ih =>
    have hsnoc : answers f (h ++ [.ret id res]) = answers f h ++ [⟨id,f id,res⟩] := by simp [answers]
    have hold : ∀ {a b}, Precedes (h ++ [.ret id res]) a b → Precedes h a b := fun hp => by
      rcases hp.of_snoc with hp | ⟨⟨_,he⟩,_⟩
      · exact hp
      · cases he
    rw [hsnoc,List.pairwise_append]
    refine ⟨ih.imp fun hxy => ⟨hxy.1,fun hp => hxy.2 (hold hp)⟩,List.pairwise_singleton _ _,fun x hx y hy => ?_⟩
    obtain rfl := List.mem_singleton.mp hy
    refine ⟨fun (heq : x.id = id) => hnew x.res (heq ▸ (mem_answers.mp hx).1),fun hp => ?_⟩
    obtain ⟨res',hr⟩ := (hold hp).returned
    exact hnew res' hr

/-- In each stage at most one update, then queries. -/
def staged (update : Nat → Option (Placed ι Op Res)) (queries : Nat → List (Placed ι Op Res)) (n : Nat) :
    List (Placed ι Op Res) := (List.range n).flatMap fun k => (update k).toList ++ queries k

variable {update : Nat → Option (Placed ι Op Res)} {queries : Nat → List (Placed ι Op Res)} {n : Nat}

theorem mem_staged {x : Placed ι Op Res} :
    x ∈ staged update queries n ↔ ∃ k < n, update k = some x ∨ x ∈ queries k := by
  simp [staged]

/-- `st k` is the state in front of stage `k`. -/
theorem Object.runs_staged {O : Object σ Op Res} {st : Nat → σ}
    (hup : ∀ k < n, (update k = none ∧ st (k + 1) = st k) ∨
      ∃ x, update k = some x ∧ O.step (st k) x.op = (st (k + 1),x.res))
    (hq : ∀ k < n, ∀ x ∈ queries k, O.step (st (k + 1)) x.op = (st (k + 1),x.res)) :
    O.Runs (st 0) (staged update queries n) (st n) := by
  induction n with
  | zero => exact rfl
  | succ n ih =>
    have hrun := ih (fun k hk => hup k (by omega)) fun k hk => hq k (by omega)
    rw [staged,List.range_succ,List.flatMap_append,List.flatMap_singleton]
    refine hrun.append (Object.Runs.append ?_ (runs_of_const (hq n (by omega))))
    rcases hup n (by omega) with ⟨hnone,hst⟩ | ⟨x,hx,hst⟩
    · rw [hnone]
      exact hst.symm
    · rw [hx]
      exact ⟨by rw [hst],by rw [hst]; exact rfl⟩

theorem pairwise_staged {R : Placed ι Op Res → Placed ι Op Res → Prop}
    (hlt : ∀ i j, i < j → j < n → ∀ x y, (update i = some x ∨ x ∈ queries i) → (update j = some y ∨ y ∈ queries j) → R x y)
    (hup : ∀ k < n, ∀ x y, update k = some x → y ∈ queries k → R x y)
    (hq : ∀ k < n, (queries k).Pairwise R) : (staged update queries n).Pairwise R := by
  rw [staged,List.pairwise_flatMap]
  have hmem : ∀ k x, x ∈ (update k).toList ++ queries k → update k = some x ∨ x ∈ queries k := by
    intro k x hx
    simpa using hx
  refine ⟨fun k hk => List.pairwise_append.mpr ⟨?_,hq k (List.mem_range.mp hk),fun x hx y hy => ?_⟩,?_⟩
  · cases update k <;> simp
  · exact hup k (List.mem_range.mp hk) x y (by simpa using hx) hy
  refine List.Pairwise.imp_of_mem ?_ List.pairwise_lt_range
  intro i j _ hj hij x hx y hy
  exact hlt i j hij (List.mem_range.mp hj) x y (hmem i x hx) (hmem j y hy)

end Parallax.Linear
