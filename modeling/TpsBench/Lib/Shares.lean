/-
  Nearly equal shares of an amount. General library.

  Each of `n` shares is the quotient, and the first ones, as many as the remainder, are larger by
  one. So the remainder is spread over a prefix of the shares.

  * `sum_shares`: the shares sum to the amount.
  * `share_anti`: no share is larger than one before it.
  * `share_le_share_succ`: any two differ by at most one.
-/
import Mathlib.Algebra.GroupWithZero.Nat
import Mathlib.Algebra.BigOperators.Group.List.Basic
import Mathlib.Data.Nat.Basic

namespace TpsBench.Lib

variable {total n i j least : ℕ}

/-- Share `i` when `total` is cut in `n`. -/
def share (total n i : ℕ) : ℕ := if i < total % n then total / n + 1 else total / n

def shares (total n : ℕ) : List ℕ := (List.range n).map (share total n)

/-! ## Two shares -/

theorem share_mem (total n i : ℕ) :
    total / n ≤ share total n i ∧ share total n i ≤ total / n + 1 := by
  unfold share
  split <;> omega

/-- A larger share comes first. -/
theorem share_anti (hij : i ≤ j) : share total n j ≤ share total n i := by
  unfold share
  split <;> split <;> omega

theorem share_le_share_succ (total n i j : ℕ) : share total n i ≤ share total n j + 1 := by
  have hi := (share_mem total n i).2
  have hj := (share_mem total n j).1
  omega

/-- An amount that is enough for all shares is enough for each. -/
theorem le_share (hn : 0 < n) (h : n * least ≤ total) : least ≤ share total n i := by
  have hle : least ≤ total / n := (Nat.le_div_iff_mul_le hn).mpr (by rwa [Nat.mul_comm])
  exact hle.trans (share_mem total n i).1

@[simp] theorem share_one : share total 1 0 = total := by simp [share, Nat.mod_one]

/-! ## All shares -/

/-- The first `k` shares have as much of the remainder as fits. -/
theorem sum_share_range (total n k : ℕ) :
    ((List.range k).map (share total n)).sum = k * (total / n) + min k (total % n) := by
  induction k with
  | zero => simp
  | succ k ih =>
    rw [List.range_succ, List.map_append, List.sum_append, ih, List.map_singleton,
      List.sum_singleton, share, Nat.succ_mul]
    split <;> omega

/-- Nothing is lost and nothing added. -/
theorem sum_shares (hn : 0 < n) : (shares total n).sum = total := by
  have hrest : min n (total % n) = total % n := min_eq_right (Nat.mod_lt _ hn).le
  calc (shares total n).sum = n * (total / n) + min n (total % n) := sum_share_range total n n
    _ = n * (total / n) + total % n := by rw [hrest]
    _ = total := Nat.div_add_mod total n

theorem shares_pairwise (total n : ℕ) : (shares total n).Pairwise (· ≥ ·) := by
  rw [shares, List.pairwise_map]
  exact List.pairwise_lt_range.imp fun hij => share_anti hij.le

end TpsBench.Lib
