import Mathlib.Data.Nat.Basic
import Mathlib.Tactic.Ring

/-! Naturals as big-endian byte strings of a fixed width. -/
namespace Parallax.BigEndian

/-- The last `w` base-256 digits of `n`, most significant first. -/
def put : Nat → Nat → List UInt8
  | 0, _ => []
  | w + 1, n => UInt8.ofNat (n / 256 ^ w) :: put w n

def get (bs : List UInt8) : Nat := bs.foldl (fun a b => a * 256 + b.toNat) 0

@[simp] theorem length_put (w n : Nat) : (put w n).length = w := by
  induction w with
  | zero => rfl
  | succ w ih => simp [put,ih]

theorem foldl_put (w n a : Nat) :
    (put w n).foldl (fun a b => a * 256 + b.toNat) a = a * 256 ^ w + n % 256 ^ w := by
  induction w generalizing a with
  | zero => simp [put,Nat.mod_one]
  | succ w ih =>
    have hdigit : (UInt8.ofNat (n / 256 ^ w)).toNat = n / 256 ^ w % 256 := UInt8.toNat_ofNat'
    rw [put,List.foldl_cons,ih,hdigit,Nat.mod_pow_succ]
    ring

/-- Reading back a number: its last digits. -/
theorem get_put_mod (w n : Nat) : get (put w n) = n % 256 ^ w := by
  unfold get
  rw [foldl_put,Nat.zero_mul,Nat.zero_add]

theorem get_put {w n : Nat} (h : n < 256 ^ w) : get (put w n) = n := by
  rw [get_put_mod,Nat.mod_eq_of_lt h]

theorem get_lt (bs : List UInt8) : get bs < 256 ^ bs.length := by
  suffices h : ∀ (bs : List UInt8) (a : Nat), bs.foldl (fun a b => a * 256 + b.toNat) a < (a + 1) * 256 ^ bs.length by
    simpa [get] using h bs 0
  intro bs
  induction bs with
  | nil => simp
  | cons b bs ih =>
    intro a
    have hb := b.toNat_lt
    calc (b :: bs).foldl (fun a b => a * 256 + b.toNat) a
        < (a * 256 + b.toNat + 1) * 256 ^ bs.length := ih _
      _ ≤ (a + 1) * 256 * 256 ^ bs.length := Nat.mul_le_mul_right _ (by omega)
      _ = (a + 1) * 256 ^ (b :: bs).length := by rw [List.length_cons,Nat.pow_succ']; ring

theorem foldl_get (bs : List UInt8) (a : Nat) :
    bs.foldl (fun a b => a * 256 + b.toNat) a = a * 256 ^ bs.length + get bs := by
  induction bs generalizing a with
  | nil => simp [get]
  | cons b bs ih =>
    have hb : get (b :: bs) = b.toNat * 256 ^ bs.length + get bs := by
      rw [get,List.foldl_cons,Nat.zero_mul,Nat.zero_add,ih]
    rw [List.foldl_cons,ih,hb,List.length_cons]
    ring

theorem put_add_get (bs : List UInt8) (a : Nat) : put bs.length (a * 256 ^ bs.length + get bs) = bs := by
  induction bs generalizing a with
  | nil => rfl
  | cons b bs ih =>
    have hn : a * 256 ^ (b :: bs).length + get (b :: bs) = (a * 256 + b.toNat) * 256 ^ bs.length + get bs := by
      rw [← foldl_get,List.foldl_cons,foldl_get]
    have hdigit : ((a * 256 + b.toNat) * 256 ^ bs.length + get bs) / 256 ^ bs.length = a * 256 + b.toNat := by
      rw [Nat.mul_comm,Nat.mul_add_div (Nat.pow_pos (by decide)),Nat.div_eq_of_lt (get_lt bs),Nat.add_zero]
    have hb : UInt8.ofNat (a * 256 + b.toNat) = b := by
      apply UInt8.toNat_inj.mp
      have := b.toNat_lt
      rw [UInt8.toNat_ofNat']
      omega
    rw [hn,List.length_cons,put,hdigit,hb,ih]

theorem put_get (bs : List UInt8) : put bs.length (get bs) = bs := by
  have := put_add_get bs 0
  rwa [Nat.zero_mul,Nat.zero_add] at this

end Parallax.BigEndian
