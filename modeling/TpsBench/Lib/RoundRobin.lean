/-
  Dealing a list out to `n` receivers in turn. General library: any type of elements.

  The cursor moves on before each element, so element `i`, counted from 0, goes to receiver
  `(i + 1) % n`.

  * `dealt_concat`: what one more element changes.
  * `length_dealt`, `length_dealt_le`: how many a receiver gets, and that no two differ by more than
    one.
  * `exists_turn`: among any `n` elements in a row each receiver has its turn.
-/
import Mathlib.Algebra.GroupWithZero.Nat
import Mathlib.Data.List.Basic
import Mathlib.Data.List.Induction

namespace TpsBench.Lib

variable {α : Type} {n k : ℕ} {l : List α}

/-- What receiver `k` of `n` gets. -/
def dealt (n k : ℕ) (l : List α) : List α :=
  (l.zipIdx.filter fun x => (x.2 + 1) % n = k).map Prod.fst

@[simp] theorem dealt_nil : dealt n k ([] : List α) = [] := rfl

/-- The last element goes to one receiver. -/
theorem dealt_concat (l : List α) (a : α) :
    dealt n k (l ++ [a]) = if (l.length + 1) % n = k then dealt n k l ++ [a] else dealt n k l := by
  unfold dealt
  rw [List.zipIdx_append, List.filter_append, List.map_append]
  by_cases hturn : (l.length + 1) % n = k
  · rw [if_pos hturn]
    simp [hturn]
  · rw [if_neg hturn]
    simp [hturn]

/-- Receiver 0 is served last in a round. -/
theorem length_dealt (hk : k < n) (l : List α) :
    (dealt n k l).length = (l.length + (n - k) % n) / n := by
  induction l using List.reverseRecOn with
  | nil =>
    rw [dealt_nil, List.length_nil, Nat.zero_add,
      Nat.div_eq_of_lt (Nat.mod_lt _ (Nat.zero_lt_of_lt hk))]
  | append_singleton l a ih =>
    have hstep : (l.length + 1 + (n - k) % n) % n = 0 ↔ (l.length + 1) % n = k := by
      rw [Nat.add_mod_mod]
      constructor
      · intro h
        have hk' : (l.length + 1 + (n - k) + k) % n = k := by
          rw [Nat.add_mod, h, Nat.zero_add, Nat.mod_mod, Nat.mod_eq_of_lt hk]
        rwa [show l.length + 1 + (n - k) + k = l.length + 1 + n by omega,
          Nat.add_mod_right] at hk'
      · intro h
        rw [Nat.add_mod, h, ← Nat.add_mod_mod k, Nat.mod_mod, Nat.add_mod_mod,
          Nat.add_sub_cancel' (Nat.le_of_lt hk), Nat.mod_self]
    rw [dealt_concat, List.length_append, List.length_singleton,
      show l.length + 1 + (n - k) % n = (l.length + (n - k) % n) + 1 by omega, Nat.succ_div, ← ih]
    by_cases hturn : (l.length + 1) % n = k
    · have hdvd := Nat.dvd_of_mod_eq_zero (hstep.mpr hturn)
      rw [if_pos hturn, if_pos (by rwa [Nat.add_right_comm] at hdvd), List.length_append,
        List.length_singleton]
    · have hdvd : ¬ n ∣ l.length + (n - k) % n + 1 := by
        rw [Nat.add_right_comm]
        exact fun hdvd => hturn (hstep.mp (Nat.mod_eq_zero_of_dvd hdvd))
      rw [if_neg hturn, if_neg hdvd, Nat.add_zero]

theorem length_dealt_le {k' : ℕ} (hk : k < n) (hk' : k' < n) (l : List α) :
    (dealt n k l).length ≤ (dealt n k' l).length + 1 := by
  have hn := Nat.zero_lt_of_lt hk
  rw [length_dealt hk, length_dealt hk', ← Nat.add_div_right _ hn]
  apply Nat.div_le_div_right
  have hlt := Nat.mod_lt (n - k) hn
  omega

theorem exists_turn (hk : k < n) (m : ℕ) : ∃ i, m ≤ i ∧ i < m + n ∧ (i + 1) % n = k := by
  have hn := Nat.zero_lt_of_lt hk
  have hlt := Nat.mod_lt (m + 1) hn
  refine ⟨m + (k + n - (m + 1) % n) % n, Nat.le_add_right _ _,
    Nat.add_lt_add_left (Nat.mod_lt _ hn) _, ?_⟩
  rw [Nat.add_right_comm, Nat.add_mod_mod, ← Nat.mod_add_mod,
    Nat.add_sub_cancel' (by omega), Nat.add_mod_right, Nat.mod_eq_of_lt hk]

end TpsBench.Lib
