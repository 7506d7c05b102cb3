/-
  The differences of consecutive elements of a list of numbers. General library.

  They telescope: over a list that does not decrease they add up to the last element less the
  first (`sum_differences`).
-/
import Mathlib.Algebra.GroupWithZero.Nat
import Mathlib.Algebra.Order.BigOperators.Group.List
import Mathlib.Data.List.Chain

namespace TpsBench.Lib

/-- `l[1] - l[0], l[2] - l[1], …`. -/
def differences : List ℕ → List ℕ
  | a :: b :: l => (b - a) :: differences (b :: l)
  | _ => []

theorem length_differences (l : List ℕ) : (differences l).length = l.length - 1 := by
  fun_induction differences l with
  | case1 a b l ih => simp [ih]
  | case2 l h =>
    cases l with
    | nil => rfl
    | cons a l =>
      cases l with
      | nil => rfl
      | cons b l => exact absurd rfl (h a b l)

theorem sum_differences {a z : ℕ} {l : List ℕ} (h : (a :: l).IsChain (· ≤ ·))
    (hz : (a :: l).getLast? = some z) : a ≤ z ∧ (differences (a :: l)).sum = z - a := by
  induction l generalizing a with
  | nil =>
    obtain rfl : a = z := by simpa using hz
    simp [differences]
  | cons b l ih =>
    rw [List.getLast?_cons_cons] at hz
    obtain ⟨hab, hchain⟩ := List.isChain_cons_cons.mp h
    obtain ⟨hbz, hsum⟩ := ih hchain hz
    refine ⟨hab.trans hbz, ?_⟩
    rw [differences, List.sum_cons, hsum]
    omega

end TpsBench.Lib
