/-
  Draining a queue from its head: take elements off the front for as long as the FIRST one
  satisfies a test. General library: the queue holds any type, ordered by a key.

  A head-only drain returns `takeWhile` and leaves `dropWhile`. What a caller wants is the
  filter: everything that passes goes, everything that fails stays. The two agree when the
  queue is sorted by key and the test is downward closed in the key (`takeWhile_eq_filter`,
  `dropWhile_eq_filter`). On an unsorted queue they do not: an element that passes stays
  behind one that fails.

  Without that, the drain of a sorted queue stops at the smallest key that fails
  (`mem_takeWhile_iff`), and an element stays only if something up to its key fails
  (`notMem_dropWhile`).

  `sortByKey` is the stable sort by key (insertion sort); `sortedBy_append` says when a push at
  the back keeps the queue sorted.
-/
import Mathlib.Data.List.Sort
import Mathlib.Order.Defs.LinearOrder

namespace TpsBench.Lib

variable {α κ : Type} [LinearOrder κ]

/-- The keys of `l` do not decrease. -/
def SortedBy (key : α → κ) (l : List α) : Prop := l.Pairwise fun a b => key a ≤ key b

/-- Stable sort by key. -/
def sortByKey (key : α → κ) (l : List α) : List α := l.insertionSort fun a b => key a ≤ key b

theorem sortByKey_perm (key : α → κ) (l : List α) : (sortByKey key l).Perm l :=
  List.perm_insertionSort _ l

theorem sortedBy_sortByKey (key : α → κ) (l : List α) : SortedBy key (sortByKey key l) := by
  have : Std.Total fun a b : α => key a ≤ key b := ⟨fun a b => le_total (key a) (key b)⟩
  have : IsTrans α fun a b : α => key a ≤ key b := ⟨fun _ _ _ => le_trans⟩
  exact List.pairwise_insertionSort _ l

theorem SortedBy.sublist {key : α → κ} {l l' : List α} (h : SortedBy key l)
    (hs : l'.Sublist l) : SortedBy key l' := List.Pairwise.sublist hs h

/-- Pushing `l'` behind `l` keeps the order exactly when nothing in `l` has a larger key than
    something in `l'`. -/
theorem sortedBy_append {key : α → κ} {l l' : List α} :
    SortedBy key (l ++ l') ↔
      SortedBy key l ∧ SortedBy key l' ∧ ∀ a ∈ l, ∀ b ∈ l', key a ≤ key b :=
  List.pairwise_append

theorem sortedBy_of_const {key : α → κ} {l : List α} {k : κ} (h : ∀ a ∈ l, key a = k) :
    SortedBy key l :=
  List.pairwise_of_forall_mem_list fun a ha b hb => by rw [h a ha, h b hb]

/-- A test that whatever has a smaller key passes too. -/
def DownClosed (key : α → κ) (p : α → Bool) (l : List α) : Prop :=
  ∀ a ∈ l, ∀ b ∈ l, key a ≤ key b → p b = true → p a = true

theorem DownClosed.subset {key : α → κ} {p : α → Bool} {l l' : List α} (h : DownClosed key p l)
    (hs : l' ⊆ l) : DownClosed key p l' := fun a ha b hb => h a (hs ha) b (hs hb)

/-- If the head of a sorted queue fails a downward-closed test, every element does. -/
theorem forall_not_of_head {key : α → κ} {p : α → Bool} {a : α} {l : List α}
    (hs : SortedBy key (a :: l)) (hp : DownClosed key p (a :: l)) (ha : p a = false) :
    ∀ b ∈ a :: l, p b = false := by
  intro b hb
  cases hpb : p b with
  | false => rfl
  | true =>
    have hab : key a ≤ key b := by
      rcases List.mem_cons.mp hb with rfl | hb'
      · exact le_rfl
      · exact (List.pairwise_cons.mp hs).1 b hb'
    have := hp a List.mem_cons_self b hb hab hpb
    rw [ha] at this
    exact absurd this Bool.false_ne_true

/-- On a sorted queue the drained elements are all that pass. -/
theorem takeWhile_eq_filter {key : α → κ} {p : α → Bool} {l : List α} (hs : SortedBy key l)
    (hp : DownClosed key p l) : l.takeWhile p = l.filter p := by
  induction l with
  | nil => rfl
  | cons a l ih =>
    cases ha : p a with
    | true =>
      rw [List.takeWhile_cons_of_pos ha, List.filter_cons_of_pos ha,
        ih (List.Pairwise.of_cons hs) (hp.subset (List.subset_cons_self a l))]
    | false =>
      have hall := forall_not_of_head hs hp ha
      rw [List.takeWhile_cons_of_neg (by simp [ha]), eq_comm, List.filter_eq_nil_iff]
      intro b hb
      simp [hall b hb]

/-- On a sorted queue an element does not stay if all up to its key pass. -/
theorem notMem_dropWhile {key : α → κ} {p : α → Bool} {l : List α} (hs : SortedBy key l) {a : α}
    (hp : ∀ b ∈ l, key b ≤ key a → p b = true) : a ∉ l.dropWhile p := by
  induction l with
  | nil => exact List.not_mem_nil
  | cons x l ih =>
    by_cases hx : p x = true
    · rw [List.dropWhile_cons, if_pos hx]
      exact ih (List.Pairwise.of_cons hs) fun b hb => hp b (List.mem_cons_of_mem x hb)
    · rw [List.dropWhile_cons, if_neg hx]
      intro ha
      refine hx (hp x List.mem_cons_self ?_)
      rcases List.mem_cons.mp ha with rfl | ha
      · exact le_rfl
      · exact (List.pairwise_cons.mp hs).1 a ha

/-- On a sorted queue a test of the key drains what no element up to its key keeps back. -/
theorem mem_takeWhile_iff {key : α → κ} {q : κ → Bool} {l : List α} (hs : SortedBy key l)
    {a : α} : (a ∈ l.takeWhile fun e => q (key e)) ↔
      a ∈ l ∧ ∀ b ∈ l, key b ≤ key a → q (key b) = true := by
  induction l with
  | nil => simp
  | cons x l ih =>
    have hx : ∀ b ∈ x :: l, key x ≤ key b := by
      intro b hb
      rcases List.mem_cons.mp hb with rfl | hb
      · exact le_rfl
      · exact (List.pairwise_cons.mp hs).1 b hb
    cases hq : q (key x) with
    | true =>
      rw [List.takeWhile_cons, if_pos hq, List.mem_cons, ih (List.Pairwise.of_cons hs)]
      constructor
      · rintro (rfl | ⟨ha, hall⟩)
        · exact ⟨List.mem_cons_self, fun b hb hle => le_antisymm hle (hx b hb) ▸ hq⟩
        · refine ⟨List.mem_cons_of_mem _ ha, fun b hb hle => ?_⟩
          rcases List.mem_cons.mp hb with rfl | hb
          · exact hq
          · exact hall b hb hle
      · rintro ⟨ha, hall⟩
        exact (List.mem_cons.mp ha).imp_right fun ha =>
          ⟨ha, fun b hb => hall b (List.mem_cons_of_mem _ hb)⟩
    | false =>
      rw [List.takeWhile_cons, if_neg (by simp [hq])]
      constructor
      · intro ha
        exact absurd ha List.not_mem_nil
      · rintro ⟨ha, hall⟩
        rw [hall x List.mem_cons_self (hx a ha)] at hq
        cases hq

theorem dropWhile_eq_filter {key : α → κ} {p : α → Bool} {l : List α} (hs : SortedBy key l)
    (hp : DownClosed key p l) : l.dropWhile p = l.filter fun a => !p a := by
  induction l with
  | nil => rfl
  | cons a l ih =>
    cases ha : p a with
    | true =>
      rw [List.dropWhile_cons_of_pos ha, List.filter_cons_of_neg (by simp [ha]),
        ih (List.Pairwise.of_cons hs) (hp.subset (List.subset_cons_self a l))]
    | false =>
      have hall := forall_not_of_head hs hp ha
      rw [List.dropWhile_cons_of_neg (by simp [ha]), eq_comm, List.filter_eq_self]
      intro b hb
      simp [hall b hb]

/-- What the drain leaves of a sorted queue is not below an element that failed. -/
theorem forall_dropWhile {key : α → κ} {p : α → Bool} {P : κ → Prop} {l : List α}
    (hs : SortedBy key l) (hP : ∀ k k', k ≤ k' → P k → P k')
    (hfail : ∀ a ∈ l, p a = false → P (key a)) : ∀ a ∈ l.dropWhile p, P (key a) := by
  induction l with
  | nil => exact fun a ha => absurd ha List.not_mem_nil
  | cons a l ih =>
    cases ha : p a with
    | true =>
      rw [List.dropWhile_cons_of_pos ha]
      exact ih (List.Pairwise.of_cons hs) fun b hb => hfail b (List.mem_cons_of_mem a hb)
    | false =>
      rw [List.dropWhile_cons_of_neg (by simp [ha])]
      have hhead := hfail a List.mem_cons_self ha
      intro b hb
      rcases List.mem_cons.mp hb with rfl | hb
      · exact hhead
      · exact hP (key a) (key b) ((List.pairwise_cons.mp hs).1 b hb) hhead

/-! ## Tests that grow -/

/-- A test `p n` that only lets in more as `n` grows, and nothing at `N`: what is let in by one of
    the steps to `N + k` is what the last one lets in, each element at one step. -/
theorem flatMap_filter_perm {p : ℕ → α → Bool} (hmono : ∀ n a, p n a = true → p (n + 1) a = true)
    {N : ℕ} (hzero : ∀ a, p N a = false) (l : List α) (k : ℕ) :
    ((List.range' (N + 1) k).flatMap fun n => l.filter fun a => p n a && !p (n - 1) a).Perm
      (l.filter (p (N + k))) := by
  induction k with
  | zero =>
    have hnone : l.filter (p (N + 0)) = [] := List.filter_eq_nil_iff.mpr fun a _ => by simp [hzero]
    rw [hnone]
    exact List.Perm.refl _
  | succ k ih =>
    rw [List.range'_1_concat, List.flatMap_append, List.flatMap_singleton]
    -- the elements let in by step `N + k` are among those let in by the next step
    have hold : l.filter (p (N + k)) = (l.filter (p (N + (k + 1)))).filter (p (N + k)) := by
      rw [List.filter_filter]
      refine List.filter_congr fun a _ => ?_
      cases hp : p (N + k) a with
      | false => rfl
      | true => exact (hmono _ a hp).symm
    have hnew : (l.filter fun a => p (N + 1 + k) a && !p (N + 1 + k - 1) a) =
        (l.filter (p (N + (k + 1)))).filter fun a => !p (N + k) a := by
      rw [List.filter_filter, show N + 1 + k = N + (k + 1) by omega,
        show N + (k + 1) - 1 = N + k by omega]
      exact List.filter_congr fun a _ => Bool.and_comm _ _
    rw [hnew]
    refine (ih.append_right _).trans ?_
    rw [hold]
    exact List.filter_append_perm _ _

end TpsBench.Lib
