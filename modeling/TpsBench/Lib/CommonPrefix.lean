/-
  The longest common prefix of a family of lists: the greatest lower bound in the prefix order.
  General library.

  `longestCommonPrefix_take` finds it: a prefix of one member that all members share and that no
  longer one of them extends.
-/
import Mathlib.Data.List.Infix

namespace TpsBench.Lib

variable {α : Type} {ls ls' : List (List α)} {p q l₀ : List α} {n : ℕ}

/-- `p` begins every list of `ls`, and whatever else does begins `p`. -/
def LongestCommonPrefix (ls : List (List α)) (p : List α) : Prop :=
  (∀ l ∈ ls, p <+: l) ∧ ∀ q, (∀ l ∈ ls, q <+: l) → q <+: p

theorem LongestCommonPrefix.unique (h : LongestCommonPrefix ls p)
    (h' : LongestCommonPrefix ls q) : p = q := by
  have hle : q.length ≤ p.length := (h.2 q h'.1).length_le
  exact (h'.2 p h.1).eq_of_length_le hle

/-- The order of the lists does not matter. -/
theorem LongestCommonPrefix.perm (h : LongestCommonPrefix ls p) (hperm : ls.Perm ls') :
    LongestCommonPrefix ls' p := by
  unfold LongestCommonPrefix at h ⊢
  simpa only [hperm.mem_iff] using h

/-- The first `n` elements of one member, if all members share them and some member does not share
    the next. -/
theorem longestCommonPrefix_take (hmem : l₀ ∈ ls) (hshared : ∀ l ∈ ls, l₀.take n <+: l)
    (hnext : n < l₀.length → ∃ l ∈ ls, l[n]? ≠ l₀[n]?) :
    LongestCommonPrefix ls (l₀.take n) := by
  refine ⟨hshared, fun q hq => ?_⟩
  apply List.prefix_take_iff.mpr
  refine ⟨hq l₀ hmem, ?_⟩
  -- a longer common prefix would share the element at `n`
  by_contra hlong
  have hn : n < q.length := Nat.lt_of_not_le hlong
  have hget : ∀ l ∈ ls, l[n]? = q[n]? := by
    intro l hl
    obtain ⟨t, rfl⟩ := hq l hl
    exact List.getElem?_append_left hn
  obtain ⟨l, hl, hne⟩ := hnext (Nat.lt_of_lt_of_le hn (hq l₀ hmem).length_le)
  apply hne
  rw [hget l hl, hget l₀ hmem]

end TpsBench.Lib
