import Mathlib.Data.List.Basic

/-! Scanning a file of self-delimiting frames. A scan hands the frames to a consumer and stops
at the first place where no frame can be read or the consumer refuses one. A file that was cut
off anywhere holds whole frames and a stub of the next. -/
namespace Parallax.Scan
variable {α σ : Type}

/-- `none` ends the file, `some off` is the place where the scan stopped early. -/
def scan (read : List UInt8 → Nat → Option (α × Nat)) (step : σ → α → Option σ) (data : List UInt8) :
    Nat → Nat → σ → σ × Option Nat
  | 0, _, s => (s,none)
  | fuel + 1, off, s =>
    if off < data.length then
      match read data off with
      | none => (s,some off)
      | some (a,n) =>
        match step s a with
        | none => (s,some off)
        | some s => scan read step data fuel (off + n) s
    else (s,none)

/-- `read` finds the frames that `enc` writes, and rejects any proper part of one. -/
structure Frames (enc : α → List UInt8) (read : List UInt8 → Nat → Option (α × Nat)) (ok : α → Prop) : Prop where
  pos : ∀ a, ok a → 0 < (enc a).length
  whole : ∀ a, ok a → ∀ front back, read (front ++ (enc a ++ back)) front.length = some (a,(enc a).length)
  short : ∀ a, ok a → ∀ front k, k < (enc a).length → read (front ++ (enc a).take k) front.length = none

/-- A frame that was cut off, or nothing. -/
def Stub (enc : α → List UInt8) (ok : α → Prop) (t : List UInt8) : Prop :=
  t = [] ∨ ∃ a k, ok a ∧ k < (enc a).length ∧ t = (enc a).take k

variable {enc : α → List UInt8} {read : List UInt8 → Nat → Option (α × Nat)} {ok : α → Prop}
  {step : σ → α → Option σ}

theorem Stub.nil : Stub enc ok [] := .inl rfl

/-- The consumer's state after all of `as`, if it takes them. -/
def feed (step : σ → α → Option σ) (s : σ) (as : List α) : Option σ := as.foldlM step s

@[simp] theorem feed_nil (s : σ) : feed step s [] = some s := rfl

theorem feed_cons (s : σ) (a : α) (as : List α) : feed step s (a :: as) = (step s a).bind (feed step · as) := by
  simp [feed]

theorem feed_append (s : σ) (as bs : List α) :
    feed step s (as ++ bs) = (feed step s as).bind (feed step · bs) := by
  simp [feed,List.foldlM_append]

@[simp] theorem feed_singleton (s : σ) (a : α) : feed step s [a] = step s a := by
  rw [feed_cons]
  cases step s a <;> rfl

/-- The first one that is refused. -/
theorem feed_eq_none {s : σ} {as : List α} (h : feed step s as = none) :
    ∃ front a back s', as = front ++ a :: back ∧ feed step s front = some s' ∧ step s' a = none := by
  induction as generalizing s with
  | nil => cases h
  | cons a as ih =>
    rw [feed_cons] at h
    cases hs : step s a with
    | none => exact ⟨[],a,as,s,rfl,rfl,hs⟩
    | some s₁ =>
      rw [hs,Option.bind_some] at h
      obtain ⟨front,b,back,s',rfl,hf,hb⟩ := ih h
      exact ⟨a :: front,b,back,s',rfl,by rw [feed_cons,hs]; exact hf,hb⟩

/-- A consumer that follows another one takes what the other takes. -/
theorem feed_follows {τ : Type} {step' : τ → α → Option τ} {R : σ → τ → Prop} {as : List α}
    (h : ∀ a ∈ as, ∀ s t s', R s t → step s a = some s' → ∃ t', step' t a = some t' ∧ R s' t')
    {s s' : σ} {t : τ} (hst : R s t) (hs : feed step s as = some s') : ∃ t', feed step' t as = some t' ∧ R s' t' := by
  induction as generalizing s t with
  | nil =>
    obtain rfl : s = s' := Option.some.inj hs
    exact ⟨t,rfl,hst⟩
  | cons a as ih =>
    rw [feed_cons] at hs
    obtain ⟨s₁,hs₁,hs'⟩ := Option.bind_eq_some_iff.mp hs
    obtain ⟨t₁,ht₁,hst₁⟩ := h a (by simp) s t s₁ hst hs₁
    obtain ⟨t',ht',hst'⟩ := ih (fun a' ha' => h a' (by simp [ha'])) hst₁ hs'
    exact ⟨t',by rw [feed_cons,ht₁]; exact ht',hst'⟩

theorem Frames.scan_stub (h : Frames enc read ok) {as : List α} (ha : ∀ a ∈ as, ok a) {t : List UInt8}
    (ht : Stub enc ok t) :
    ∀ (front : List UInt8) (fuel : Nat) (s s' : σ), (as.flatMap enc).length < fuel → feed step s as = some s' →
      scan read step (front ++ (as.flatMap enc ++ t)) fuel front.length s =
        (s',if t = [] then none else some (front.length + (as.flatMap enc).length)) := by
  induction as with
  | nil =>
    intro front fuel s s' hf hs
    obtain rfl : s = s' := Option.some.inj hs
    obtain ⟨fuel,rfl⟩ : ∃ k, fuel = k + 1 := ⟨fuel - 1,by omega⟩
    by_cases htn : t = []
    · simp [scan,htn]
    obtain ⟨a,k,hok,hk,rfl⟩ := ht.resolve_left htn
    have hlt : front.length < (front ++ (enc a).take k).length := by
      have := List.length_pos_iff.mpr htn
      rw [List.length_append]
      omega
    rw [List.flatMap_nil,List.nil_append,scan,if_pos hlt,h.short a hok front k hk,if_neg htn]
    rfl
  | cons a as ih =>
    intro front fuel s s' hf hs
    have hpos := h.pos a (ha a (by simp))
    rw [List.flatMap_cons,List.length_append] at hf
    rw [feed_cons] at hs
    obtain ⟨s₁,hs₁,hs'⟩ := Option.bind_eq_some_iff.mp hs
    obtain ⟨fuel,rfl⟩ : ∃ k, fuel = k + 1 := ⟨fuel - 1,by omega⟩
    have hlt : front.length < (front ++ (enc a ++ (as.flatMap enc ++ t))).length := by simp; omega
    rw [List.flatMap_cons,List.append_assoc,scan,if_pos hlt,h.whole a (ha a (by simp))]
    simp only [hs₁]
    have := ih (fun a' ha' => ha a' (by simp [ha'])) (front ++ enc a) fuel s₁ s' (by omega) hs'
    rw [List.append_assoc,List.length_append] at this
    rw [this,List.length_append,Nat.add_assoc]

theorem take_flatMap (enc : α → List UInt8) {as : List α} (ha : ∀ a ∈ as, ok a) (k : Nat) :
    ∃ j t, j ≤ as.length ∧ Stub enc ok t ∧ (as.flatMap enc).take k = (as.take j).flatMap enc ++ t ∧
      (j < as.length → k < ((as.take (j + 1)).flatMap enc).length) := by
  induction as generalizing k with
  | nil => exact ⟨0,[],Nat.le_refl _,.nil,by simp,by simp⟩
  | cons a as ih =>
    rcases Nat.lt_or_ge k (enc a).length with hk | hk
    · refine ⟨0,(enc a).take k,Nat.zero_le _,.inr ⟨a,k,ha a (by simp),hk,rfl⟩,?_,?_⟩
      · rw [List.flatMap_cons,List.take_append_of_le_length (Nat.le_of_lt hk)]
        rfl
      · intro _
        simpa using hk
    obtain ⟨j,t,hj,ht,htake,hnext⟩ := ih (fun a' ha' => ha a' (by simp [ha'])) (k - (enc a).length)
    refine ⟨j + 1,t,Nat.succ_le_succ hj,ht,?_,?_⟩
    · rw [List.flatMap_cons,List.take_append,List.take_of_length_le hk,htake,List.take_succ_cons,
        List.flatMap_cons,List.append_assoc]
    intro hlt
    have := hnext (Nat.lt_of_succ_lt_succ hlt)
    rw [List.take_succ_cons,List.flatMap_cons,List.length_append]
    omega

/-- The items in the leading frames of a file, and the place where reading them stops early. -/
def parsed {β : Type} (read : List UInt8 → Nat → Option (α × Nat)) (parse : α → Option β) (data : List UInt8) :
    Nat → Nat → List β × Option Nat
  | 0, _ => ([],none)
  | fuel + 1, off =>
    if off < data.length then
      match read data off with
      | none => ([],some off)
      | some (a,n) =>
        match parse a with
        | none => ([],some off)
        | some b =>
          let (bs,stop) := parsed read parse data fuel (off + n)
          (b :: bs,stop)
    else ([],none)

section Parsed
variable {β : Type} {parse : α → Option β} {step' : σ → β → Option σ}

theorem scan_parsed {data : List UInt8} : ∀ {fuel off : Nat} {s s' : σ},
    feed step' s (parsed read parse data fuel off).1 = some s' →
    scan read (fun s a => (parse a).bind (step' s)) data fuel off s = (s',(parsed read parse data fuel off).2) := by
  intro fuel
  induction fuel with
  | zero =>
    intro off s s' h
    obtain rfl : s = s' := Option.some.inj h
    rfl
  | succ fuel ih =>
    intro off s s' h
    rw [parsed] at h ⊢
    rw [scan]
    split_ifs at h ⊢ with hlt
    · cases hr : read data off with
      | none =>
        simp only [hr] at h ⊢
        rw [Option.some.inj h]
      | some f =>
        obtain ⟨a,n⟩ := f
        simp only [hr] at h ⊢
        cases hp : parse a with
        | none =>
          simp only [hp] at h ⊢
          rw [Option.some.inj h]
          rfl
        | some b =>
          simp only [hp,feed_cons] at h ⊢
          obtain ⟨s₁,hs₁,h⟩ := Option.bind_eq_some_iff.mp h
          simp only [Option.bind_some,hs₁]
          exact ih h
    · rw [Option.some.inj h]

/-- A scan of items that reaches the end took them all. -/
theorem parsed_of_scan {data : List UInt8} : ∀ {fuel off : Nat} {s s' : σ},
    scan read (fun s a => (parse a).bind (step' s)) data fuel off s = (s',none) →
    feed step' s (parsed read parse data fuel off).1 = some s' ∧ (parsed read parse data fuel off).2 = none := by
  intro fuel
  induction fuel with
  | zero =>
    intro off s s' h
    rw [← (Prod.mk.inj h).1]
    exact ⟨rfl,rfl⟩
  | succ fuel ih =>
    intro off s s' h
    rw [scan] at h
    rw [parsed]
    split_ifs at h ⊢ with hlt
    · cases hr : read data off with
      | none => simp [hr] at h
      | some f =>
        obtain ⟨a,n⟩ := f
        simp only [hr] at h ⊢
        cases hp : parse a with
        | none => simp [hp] at h
        | some b =>
          simp only [hp,Option.bind_some] at h ⊢
          cases hs : step' s b with
          | none => simp [hs] at h
          | some s₁ =>
            simp only [hs] at h
            rw [feed_cons,hs]
            exact ih h
    · rw [← (Prod.mk.inj h).1]
      exact ⟨rfl,rfl⟩

theorem Frames.parsed_stub (h : Frames enc read ok) {as : List α} (ha : ∀ a ∈ as, ok a) {bs : List β}
    (hb : as.map parse = bs.map some) {t : List UInt8} (ht : Stub enc ok t) {fuel : Nat}
    (hf : (as.flatMap enc).length < fuel) :
    parsed read parse (as.flatMap enc ++ t) fuel 0 = (bs,if t = [] then none else some (as.flatMap enc).length) := by
  -- The consumer that collects the items.
  let collect : List β → β → Option (List β) := fun bs b => some (bs ++ [b])
  have hcollect : ∀ bs front : List β, feed collect front bs = some (front ++ bs) := by
    intro bs
    induction bs with
    | nil => simp
    | cons b bs ih =>
      intro front
      rw [feed_cons,Option.bind_some,ih]
      simp
  have hfeed : ∀ (as : List α) (bs front : List β), as.map parse = bs.map some →
      feed (fun bs a => (parse a).bind (collect bs)) front as = some (front ++ bs) := by
    intro as
    induction as with
    | nil =>
      intro bs front heq
      cases bs with
      | nil => simp
      | cons b bs => simp at heq
    | cons a as ih =>
      intro bs front heq
      cases bs with
      | nil => simp at heq
      | cons b bs =>
        simp only [List.map_cons,List.cons.injEq] at heq
        rw [feed_cons,heq.1,Option.bind_some,Option.bind_some,ih bs _ heq.2]
        simp
  have hscan := h.scan_stub ha ht [] fuel [] _ hf (hfeed as bs [] hb)
  have hparsed : scan read (fun bs a => (parse a).bind (collect bs)) (as.flatMap enc ++ t) fuel 0 [] = _ :=
    scan_parsed (hcollect (parsed read parse (as.flatMap enc ++ t) fuel 0).1 [])
  rw [List.nil_append,List.length_nil,Nat.zero_add,List.nil_append] at hscan
  rw [hscan,List.nil_append] at hparsed
  exact Prod.ext (Prod.mk.inj hparsed).1.symm (Prod.mk.inj hparsed).2.symm

end Parsed

/-- The frames that a scan takes, with their places. -/
def taken (read : List UInt8 → Nat → Option (α × Nat)) (step : σ → α → Option σ) (data : List UInt8) :
    Nat → Nat → σ → List (Nat × α)
  | 0, _, _ => []
  | fuel + 1, off, s =>
    if off < data.length then
      match read data off with
      | none => []
      | some (a,n) =>
        match step s a with
        | none => []
        | some s => (off,a) :: taken read step data fuel (off + n) s
    else []

/-- A frame has bytes and is read from them alone. -/
structure Local (read : List UInt8 → Nat → Option (α × Nat)) : Prop where
  pos : ∀ data off a n, read data off = some (a,n) → 0 < n
  take : ∀ data off a n k, read data off = some (a,n) → off + n ≤ k → read (data.take k) off = some (a,n)
  extend : ∀ data off a n k, read (data.take k) off = some (a,n) → read data off = some (a,n) ∧ off + n ≤ k

theorem scan_stop {data : List UInt8} : ∀ {fuel off : Nat} {s s' : σ} {stop : Nat},
    scan read step data fuel off s = (s',some stop) →
    off ≤ stop ∧ stop < data.length ∧ ((read data stop).bind fun f => step s' f.1) = none := by
  intro fuel
  induction fuel with
  | zero => intro off s s' stop h; cases h
  | succ fuel ih =>
    intro off s s' stop h
    rw [scan] at h
    split_ifs at h with hlt
    · split at h
      · next hr =>
        cases h
        exact ⟨Nat.le_refl _,hlt,by rw [hr]; rfl⟩
      next hr =>
      split at h
      · next hs =>
        cases h
        exact ⟨Nat.le_refl _,hlt,by rw [hr]; exact hs⟩
      · obtain ⟨hle,hlt',hbad⟩ := ih h
        exact ⟨by omega,hlt',hbad⟩
    · cases h

theorem Local.scan_take (h : Local read) {data : List UInt8} : ∀ {fuel off : Nat} {s s' : σ} {stop : Nat} (fuel' : Nat),
    scan read step data fuel off s = (s',some stop) → stop - off < fuel' →
    scan read step (data.take stop) fuel' off s = (s',none) ∧
      taken read step (data.take stop) fuel' off s = taken read step data fuel off s := by
  intro fuel
  induction fuel with
  | zero => intro off s s' stop fuel' hs; cases hs
  | succ fuel ih =>
    intro off s s' stop fuel' hs hf
    obtain ⟨fuel',rfl⟩ : ∃ k, fuel' = k + 1 := ⟨fuel' - 1,by omega⟩
    have hlen : (data.take stop).length = stop := List.length_take_of_le (Nat.le_of_lt (scan_stop hs).2.1)
    rw [scan] at hs
    rw [scan,taken,taken,hlen]
    split_ifs at hs with hlt
    · rw [if_pos hlt]
      split at hs
      · cases hs; simp
      next a n hr =>
      split at hs
      · cases hs; simp
      next s₁ hstep =>
      have hle := (scan_stop hs).1
      have hn := h.pos _ _ _ _ hr
      have hr' := h.take _ _ _ _ _ hr hle
      rw [if_pos (by omega),if_pos (by omega)]
      simp only [hr',hstep]
      obtain ⟨h₁,h₂⟩ := ih fuel' hs (by omega)
      exact ⟨h₁,by rw [h₂]⟩
    · cases hs

theorem Local.scan_stopped (h : Local read) {data : List UInt8} {stop : Nat} {s' : σ} (hstop : stop < data.length)
    (hbad : ((read data stop).bind fun f => step s' f.1) = none) : ∀ {fuel off : Nat} {s : σ} (fuel' : Nat), off ≤ stop →
    scan read step (data.take stop) fuel off s = (s',none) → stop - off < fuel → stop - off < fuel' →
    scan read step data fuel' off s = (s',some stop) := by
  have hlen : (data.take stop).length = stop := List.length_take_of_le (Nat.le_of_lt hstop)
  intro fuel
  induction fuel with
  | zero => intro off s fuel' _ _ hf; omega
  | succ fuel ih =>
    intro off s fuel' hoff hs hf hf'
    obtain ⟨fuel',rfl⟩ : ∃ k, fuel' = k + 1 := ⟨fuel' - 1,by omega⟩
    rw [scan,hlen] at hs
    rw [scan,if_pos (by omega)]
    split_ifs at hs with hlt
    · split at hs
      · cases hs
      next a n hr =>
      obtain ⟨hr',hn⟩ := h.extend _ _ _ _ _ hr
      have hpos := h.pos _ _ _ _ hr'
      simp only [hr']
      cases hstep : step s a with
      | none => simp [hstep] at hs
      | some s₁ =>
        simp only [hstep] at hs
        exact ih fuel' hn hs (by omega) (by omega)
    obtain rfl : s = s' := (Prod.mk.inj hs).1
    obtain rfl : off = stop := by omega
    cases hr : read data off with
    | none => rfl
    | some f =>
      rw [hr] at hbad
      simp only
      rw [show step s f.1 = none from hbad]

end Parallax.Scan
