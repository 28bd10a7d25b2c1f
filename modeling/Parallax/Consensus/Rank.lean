import Mathlib.Data.List.Sort
import Mathlib.Order.Bounds.Defs

/-! The value a given number of participants has reached, as an order statistic of their values. -/
namespace Parallax.Consensus
variable {α : Type*} [LinearOrder α]

theorem le_countP_of_sorted {s : List α} (hs : s.Pairwise (· ≤ ·)) {k : Nat} {v : α} (hk : s[k]? = some v) :
    s.length - k ≤ s.countP (v ≤ ·) := by
  have hall : ∀ x ∈ s.drop k, v ≤ x := by
    have hdrop : s.drop k = v :: s.drop (k + 1) := by
      rw [List.drop_eq_getElem?_toList_append,hk]
      rfl
    intro x hx
    have hp := hs.drop (i := k)
    rw [hdrop] at hx hp
    rcases List.mem_cons.mp hx with rfl | hx
    · exact le_rfl
    · exact (List.pairwise_cons.mp hp).1 x hx
  calc s.length - k = (s.drop k).countP (v ≤ ·) := by
        rw [List.countP_eq_length.mpr (by simpa using hall),List.length_drop]
    _ ≤ s.countP (v ≤ ·) := (List.drop_sublist k s).countP_le

theorem countP_lt_of_sorted {s : List α} (hs : s.Pairwise (· ≤ ·)) {k : Nat} {v w : α} (hk : s[k]? = some v)
    (hw : v < w) : s.countP (w ≤ ·) < s.length - k := by
  have hlt : k < s.length := (List.getElem?_eq_some_iff.mp hk).1
  have hnone : (s.take (k + 1)).countP (w ≤ ·) = 0 := by
    rw [List.countP_eq_zero]
    intro x hx
    obtain ⟨i,hi,rfl⟩ := List.getElem_of_mem hx
    rw [List.length_take] at hi
    have hxv : s[i] ≤ v := by
      obtain rfl : s[k] = v := (List.getElem?_eq_some_iff.mp hk).2
      rcases Nat.lt_or_ge i k with hik | hik
      · exact List.pairwise_iff_getElem.mp hs i k (by omega) hlt hik
      have : i = k := by omega
      subst this
      exact le_rfl
    rw [List.getElem_take,decide_eq_true_eq,not_le]
    exact lt_of_le_of_lt hxv hw
  calc s.countP (w ≤ ·) = (s.take (k + 1)).countP (w ≤ ·) + (s.drop (k + 1)).countP (w ≤ ·) := by
        rw [← List.countP_append,List.take_append_drop]
    _ ≤ s.length - (k + 1) := by
        rw [hnone,Nat.zero_add,← List.length_drop]
        exact List.countP_le_length
    _ < s.length - k := by omega

/-- The values that at least `q` members of `xs` have reached. -/
def Reached (xs : List α) (q : Nat) : Set α := {v | q ≤ xs.countP (v ≤ ·)}

theorem isGreatest_reached {xs : List α} {q : Nat} (hq : q ≤ xs.length) {v : α}
    (hv : (xs.insertionSort (· ≤ ·))[xs.length - q]? = some v) : IsGreatest (Reached xs q) v := by
  have hs := List.pairwise_insertionSort (· ≤ ·) xs
  have hperm := List.perm_insertionSort (· ≤ ·) xs
  constructor
  · have hc := le_countP_of_sorted hs hv
    rw [hperm.countP_eq,hperm.length_eq] at hc
    change q ≤ _
    omega
  intro w hw
  by_contra hlt
  have hc := countP_lt_of_sorted hs hv (not_le.mp hlt)
  rw [hperm.countP_eq,hperm.length_eq] at hc
  change q ≤ _ at hw
  omega

end Parallax.Consensus
