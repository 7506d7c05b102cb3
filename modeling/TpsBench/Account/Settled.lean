/-
  Blocks that spend their own cellbase.

  `pull_from_block_number` erases a block's spends before it inserts the block's cellbase, so an
  input that names the block's own transaction 0 has no effect there. `settled b` is `b` without
  those inputs: it creates what `b` creates, and consumes what the update erases for good. A block
  that keeps its own cellbase is its own settled form (`settled_eq`).
-/
import TpsBench.Chain

namespace TpsBench

namespace BlockView

/-- The out points of the block's transaction 0. -/
def cellbasePts (b : BlockView) : List OutPoint :=
  (b.transactions.take 1).flatMap TransactionView.outPoints

/-- `tx` without its inputs from `pts`. -/
def withoutSpends (pts : List OutPoint) (tx : TransactionView) : TransactionView :=
  { tx with inputs := tx.inputs.filter fun input => input.previousOutput ∉ pts }

/-- The block without the inputs that spend its own transaction 0. -/
def settled (b : BlockView) : BlockView :=
  { b with transactions := b.transactions.map (withoutSpends b.cellbasePts) }

/-- No transaction of `b` consumes an output of `b`'s transaction 0. -/
def KeepsOwnCellbase (b : BlockView) : Prop := ∀ p ∈ b.cellbasePts, p ∉ b.inputPts

instance : DecidablePred KeepsOwnCellbase := fun b =>
  inferInstanceAs (Decidable (∀ p ∈ b.cellbasePts, p ∉ b.inputPts))

@[simp] theorem settled_number (b : BlockView) : b.settled.number = b.number := rfl

theorem settled_eq {b : BlockView} (h : b.KeepsOwnCellbase) : b.settled = b := by
  have htxs : b.transactions.map (withoutSpends b.cellbasePts) = b.transactions := by
    refine (List.map_congr_left fun tx htx => ?_).trans (List.map_id _)
    have hall : ∀ input ∈ tx.inputs, decide (input.previousOutput ∉ b.cellbasePts) = true :=
      fun input hinput => decide_eq_true fun hp => h _ hp
        (List.mem_flatMap.mpr ⟨tx, htx, List.mem_map.mpr ⟨input, hinput, rfl⟩⟩)
    unfold withoutSpends
    rw [List.filter_eq_self.mpr hall]
    rfl
  unfold settled
  rw [htxs]

theorem mem_inputPts_settled {b : BlockView} {p : OutPoint} :
    p ∈ b.settled.inputPts ↔ p ∈ b.inputPts ∧ p ∉ b.cellbasePts := by
  simp only [inputPts, settled, TransactionView.inputPts, List.mem_flatMap, List.mem_map]
  constructor
  · rintro ⟨_, ⟨tx, htx, rfl⟩, input, hinput, rfl⟩
    obtain ⟨hinput, hp⟩ := List.mem_filter.mp hinput
    exact ⟨⟨tx, htx, input, hinput, rfl⟩, of_decide_eq_true hp⟩
  · rintro ⟨⟨tx, htx, input, hinput, rfl⟩, hp⟩
    exact ⟨_, ⟨tx, htx, rfl⟩, input, List.mem_filter.mpr ⟨hinput, decide_eq_true hp⟩, rfl⟩

theorem outPoints_settled (b : BlockView) : b.settled.outPoints = b.outPoints := by
  unfold outPoints settled
  rw [List.flatMap_map]
  rfl

theorem creates_settled {b : BlockView} {k : ℕ} {p : OutPoint} {o : CellOutput} :
    Creates b.settled k p o ↔ Creates b k p o := by
  simp only [Creates, settled, List.getElem?_map, Option.map_eq_some_iff]
  constructor
  · rintro ⟨_, ⟨tx, htx, rfl⟩, h⟩
    exact ⟨tx, htx, h⟩
  · rintro ⟨tx, htx, h⟩
    exact ⟨_, ⟨tx, htx, rfl⟩, h⟩

theorem mem_cellbasePts_of_creates {b : BlockView} {p : OutPoint} {o : CellOutput}
    (h : Creates b 0 p o) : p ∈ b.cellbasePts := by
  obtain ⟨tx, htx, hmem⟩ := h.mem_outPoints_tx
  rw [← List.head?_eq_getElem?] at htx
  refine List.mem_flatMap.mpr ⟨tx, ?_, hmem⟩
  rw [List.take_one, htx]
  exact List.mem_singleton_self tx

theorem creates_of_mem_cellbasePts {b : BlockView} {p : OutPoint} (h : p ∈ b.cellbasePts) :
    ∃ o, Creates b 0 p o := by
  obtain ⟨tx, htx, hmem⟩ := List.mem_flatMap.mp h
  obtain ⟨index, hindex, rfl⟩ := List.mem_map.mp hmem
  rw [List.take_one, Option.mem_toList, List.head?_eq_getElem?] at htx
  exact ⟨_, tx, htx, rfl, List.getElem?_eq_getElem (List.mem_range.mp hindex)⟩

end BlockView

theorem ValidBlocks.append_settled {bs new : List BlockView} (h : ValidBlocks (bs ++ new)) :
    ValidBlocks (bs ++ new.map BlockView.settled) := by
  constructor
  · have := h.created_once
    rw [List.flatMap_append] at this ⊢
    rwa [List.flatMap_map, funext BlockView.outPoints_settled]
  · obtain ⟨hbs, hnew, hcross⟩ := List.pairwise_append.mp h.no_forward
    refine List.pairwise_append.mpr ⟨hbs, ?_, ?_⟩
    · refine List.pairwise_map.mpr (hnew.imp fun hp p hin => ?_)
      rw [BlockView.outPoints_settled]
      exact hp p (BlockView.mem_inputPts_settled.mp hin).1
    · intro b hb _ hsettled p hin
      obtain ⟨b', hb', rfl⟩ := List.mem_map.mp hsettled
      rw [BlockView.outPoints_settled]
      exact hcross b hb b' hb' p hin

end TpsBench
