import Mathlib.Data.List.Basic

/-! Readers over a byte buffer: a cursor that moves on or an error. A reader *takes* a byte string
if it takes exactly these bytes wherever they stand and rejects every strict prefix of them at the
end of the input. Composition keeps this. The converse direction, from a success back to the bytes
that were there, goes by the span of the buffer that was read. -/
namespace Parallax

def Reader (ε α : Type) : Type := List UInt8 → Nat → Except ε (α × Nat)

namespace Reader
variable {ε α β : Type}

instance : Monad (Reader ε) where
  pure a _ off := .ok (a,off)
  bind p f buf off := (p buf off).bind fun r => f r.1 buf r.2

/-- The error may name the offset. -/
def fail (e : Nat → ε) : Reader ε α := fun _ off => .error (e off)

/-- `n` times, in order. -/
def times (p : Reader ε α) : Nat → Reader ε (List α)
  | 0 => pure []
  | n + 1 => do
    let a ← p
    let as ← times p n
    pure (a :: as)

/-- Looks at the number of bytes left without taking any. -/
def guard (ok : Nat → Bool) (e : ε) : Reader ε Unit := fun buf off =>
  if ok (buf.length - off) then .ok ((),off) else .error e

structure Takes (p : Reader ε α) (bs : List UInt8) (a : α) : Prop where
  whole : ∀ front back, p (front ++ (bs ++ back)) front.length = .ok (a,front.length + bs.length)
  short : ∀ front k, k < bs.length → ∃ e, p (front ++ bs.take k) front.length = .error e

theorem bind_eq (p : Reader ε α) (f : α → Reader ε β) (buf : List UInt8) (off : Nat) :
    (p >>= f) buf off = (p buf off).bind fun r => f r.1 buf r.2 := rfl

/-- What the second of two readers returned, the first left to it. -/
theorem bind_ok {p : Reader ε α} {f : α → Reader ε β} {buf : List UInt8} {off : Nat} {r : β × Nat}
    (h : (p >>= f) buf off = .ok r) : ∃ a off', p buf off = .ok (a,off') ∧ f a buf off' = .ok r := by
  rw [bind_eq] at h
  cases hp : p buf off with
  | error e =>
    rw [hp] at h
    cases h
  | ok q =>
    rw [hp] at h
    exact ⟨q.1,q.2,rfl,h⟩

theorem takes_pure (a : α) : Takes (pure a : Reader ε α) [] a where
  whole _ _ := rfl
  short _ k hk := absurd hk (Nat.not_lt_zero k)

theorem Takes.andThen {p : Reader ε α} {f : α → Reader ε β} {bs bs' : List UInt8} {a : α} {b : β}
    (hp : Takes p bs a) (hf : Takes (f a) bs' b) : Takes (p >>= f) (bs ++ bs') b where
  whole front back := by
    have := hf.whole (front ++ bs) back
    rw [bind_eq,List.append_assoc,hp.whole]
    simp only [Except.bind]
    rw [List.append_assoc,List.length_append] at this
    rw [this,List.length_append,Nat.add_assoc]
  short front k hk := by
    rw [bind_eq]
    rcases Nat.lt_or_ge k bs.length with h | h
    · obtain ⟨e,he⟩ := hp.short front k h
      exact ⟨e,by rw [List.take_append_of_le_length (Nat.le_of_lt h),he]; rfl⟩
    rw [List.length_append] at hk
    obtain ⟨e,he⟩ := hf.short (front ++ bs) (k - bs.length) (by omega)
    refine ⟨e,?_⟩
    rw [List.take_append,List.take_of_length_le h,hp.whole]
    simp only [Except.bind]
    rwa [List.append_assoc,List.length_append] at he

theorem Takes.map {p : Reader ε α} {bs : List UInt8} {a : α} (hp : Takes p bs a) (f : α → β) :
    Takes (do let a ← p; pure (f a)) bs (f a) := by
  have := hp.andThen (f := fun a => pure (f a)) (takes_pure (f a))
  rwa [List.append_nil] at this

theorem takes_times {p : Reader ε α} {enc : α → List UInt8} {as : List α} (h : ∀ a ∈ as, Takes p (enc a) a) :
    Takes (times p as.length) (as.flatMap enc) as := by
  induction as with
  | nil => exact takes_pure []
  | cons a as ih =>
    have htail := (ih fun a' ha' => h a' (List.mem_cons_of_mem _ ha')).map (a :: ·)
    exact (h a (List.mem_cons_self ..)).andThen htail

theorem Takes.guarded {p : Reader ε α} {bs : List UInt8} {a : α} (hp : Takes p bs a) {ok : Nat → Bool} {e : ε}
    (hok : ∀ n, bs.length ≤ n → ok n = true) : Takes (do guard ok e; p) bs a where
  whole front back := by
    have hlen : (front ++ (bs ++ back)).length - front.length = bs.length + back.length := by
      simp only [List.length_append]
      omega
    rw [bind_eq,guard,hlen,if_pos (hok _ (Nat.le_add_right ..))]
    exact hp.whole front back
  short front k hk := by
    rw [bind_eq,guard]
    split
    · exact hp.short front k hk
    · exact ⟨e,rfl⟩

/-- Between the two offsets the buffer holds these bytes. -/
structure Spans (buf : List UInt8) (off : Nat) (bs : List UInt8) (off' : Nat) : Prop where
  here : buf.drop off = bs ++ buf.drop off'
  next : off' = off + bs.length

theorem Spans.append {buf bs bs' : List UInt8} {off off₁ off₂ : Nat} (h : Spans buf off bs off₁)
    (h' : Spans buf off₁ bs' off₂) : Spans buf off (bs ++ bs') off₂ where
  here := by rw [h.here,h'.here,List.append_assoc]
  next := by rw [h'.next,h.next,List.length_append,Nat.add_assoc]

theorem spans_take {buf : List UInt8} {off n : Nat} (h : n ≤ buf.length - off) :
    Spans buf off ((buf.drop off).take n) (off + n) where
  here := by rw [← List.drop_drop,List.take_append_drop]
  next := by rw [List.length_take,List.length_drop,Nat.min_eq_left h]

end Reader
end Parallax
