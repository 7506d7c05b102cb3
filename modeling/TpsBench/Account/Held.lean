/-
  The keys of the two maps, for every maturity setting.

  `IsLiveSet` needs that no number overflows, since otherwise the promotion may stop early or take
  too much. Which keys the maps hold does not depend on that: the promotion only moves them.

  `Holds a bs cells`: every key is the out point of a live cell of `bs`, and no key is in both
  maps. One update keeps it (`holds_applyBlock`, `holds_promote`), so it holds of every map a
  scanner ends with (`holds_pullFromBlocks`).
-/
import TpsBench.Account.PullFrom

namespace TpsBench

open Lib

namespace Account

/-- The keys are those of live cells, and each is in one map. -/
structure Holds (a : Account) (bs : List BlockView) (cells : Cells) : Prop where
  live : ∀ p, p ∈ cells.utxoset ∨ p ∈ cells.unmatureds → ∃ b k o, LiveCell a bs b k p o
  disjoint : ∀ p ∈ cells.utxoset, p ∉ cells.unmatureds

variable {a : Account} {g : Global} {bs : List BlockView} {b : BlockView} {cells : Cells}

/-- The promotion moves keys of the pending map. -/
theorem holds_promote {ord : PendingOrder} {blockNumber : ℕ} (h : Holds a bs cells) :
    Holds a bs (promote g blockNumber (sortedPending ord cells.unmatureds) cells) := by
  have hdrained : ∀ p ∈ ((((sortedPending ord cells.unmatureds).takeWhile fun e =>
      isMatured g blockNumber e.1).map Prod.snd).map UTXO.outPoint), p ∈ cells.unmatureds := by
    intro p hp
    obtain ⟨u, hu, rfl⟩ := List.mem_map.mp hp
    obtain ⟨⟨n, u⟩, he, rfl⟩ := List.mem_map.mp hu
    have hlook := mem_sortedPending.mp ((List.takeWhile_sublist _).subset he)
    exact AList.lookup_isSome.mp (Option.isSome_iff_exists.mpr ⟨_, hlook⟩)
  rw [promote_eq]
  constructor
  · intro p hp
    rw [HashMap.mem_insertAll, HashMap.mem_eraseAll, List.map_map] at hp
    rcases hp with (hp | hp) | hp
    · exact h.live p (Or.inr (hdrained p hp))
    · exact h.live p (Or.inl hp)
    · exact h.live p (Or.inr hp.2)
  · intro p hp hp'
    rw [HashMap.mem_insertAll, List.map_map] at hp
    rw [HashMap.mem_eraseAll] at hp'
    rcases hp with hp | hp
    · exact hp'.1 hp
    · exact h.disjoint p hp hp'.2

theorem mem_applyBlock_utxoset {blockNumber : ℕ} {p : OutPoint} :
    p ∈ (a.applyBlock blockNumber b cells).utxoset ↔
      p ∉ b.inputPts ∧ ((∃ u ∈ a.ownedTransfers b, u.outPoint = p) ∨ p ∈ cells.utxoset) := by
  unfold applyBlock
  rw [getOwnedUtxos_eq]
  dsimp only
  rw [HashMap.mem_eraseAll, HashMap.mem_insertAll, List.map_map, List.mem_map]
  rfl

theorem mem_applyBlock_unmatureds {blockNumber : ℕ} {p : OutPoint} :
    p ∈ (a.applyBlock blockNumber b cells).unmatureds ↔
      (∃ u ∈ a.ownedCellbase b, u.outPoint = p) ∨ (p ∉ b.inputPts ∧ p ∈ cells.unmatureds) := by
  unfold applyBlock
  rw [getOwnedUtxos_eq]
  dsimp only
  rw [HashMap.mem_insertAll, HashMap.mem_eraseAll, List.map_map, List.mem_map]
  rfl

theorem holds_applyBlock (blockNumber : ℕ) (h : Holds a bs cells)
    (hv : ValidBlocks (bs ++ [b.settled])) :
    Holds a (bs ++ [b.settled]) (a.applyBlock blockNumber b cells) := by
  have hb : b.settled ∈ bs ++ [b.settled] := List.mem_append_right _ (List.mem_singleton_self _)
  have hkeep : ∀ p, p ∉ b.inputPts → p ∈ cells.utxoset ∨ p ∈ cells.unmatureds →
      ∃ b' k o, LiveCell a (bs ++ [b.settled]) b' k p o := by
    intro p hun hp
    obtain ⟨b', k, o, hcell⟩ := h.live p hp
    exact ⟨b', k, o, (liveCell_append_of_mem hcell.1).mpr
      ⟨hcell, fun hin => hun (BlockView.mem_inputPts_settled.mp hin).1⟩⟩
  -- what `b` creates is not in the maps yet
  have hfresh : ∀ {p k o}, Creates b k p o → ¬ (p ∈ cells.utxoset ∨ p ∈ cells.unmatureds) := by
    intro p k o hcreates hp
    rw [← BlockView.creates_settled] at hcreates
    obtain ⟨b', k', o', hcell⟩ := h.live p hp
    obtain ⟨rfl, -⟩ := hv.creates_unique (List.mem_append_left _ hcell.1) hb hcell.2.1 hcreates
    exact hv.notMem_of_creates hcreates hcell.1
  constructor
  · intro p hp
    rw [mem_applyBlock_utxoset, mem_applyBlock_unmatureds] at hp
    rcases hp with ⟨hun, ⟨u, hu, rfl⟩ | hp⟩ | ⟨u, hu, rfl⟩ | ⟨hun, hp⟩
    · obtain ⟨⟨k, -, hcreates⟩, hlock⟩ := mem_ownedTransfers.mp hu
      exact ⟨b.settled, k, u.output, (liveCell_append_self hv).mpr
        ⟨BlockView.creates_settled.mpr hcreates, hlock,
          fun hin => hun (BlockView.mem_inputPts_settled.mp hin).1⟩⟩
    · exact hkeep p hun (Or.inl hp)
    · obtain ⟨hcreates, hlock⟩ := mem_ownedCellbase.mp hu
      exact ⟨b.settled, 0, u.output, (liveCell_append_self hv).mpr
        ⟨BlockView.creates_settled.mpr hcreates, hlock, fun hin =>
          (BlockView.mem_inputPts_settled.mp hin).2
            (BlockView.mem_cellbasePts_of_creates hcreates)⟩⟩
    · exact hkeep p hun (Or.inr hp)
  · intro p hp hp'
    rw [mem_applyBlock_utxoset] at hp
    rw [mem_applyBlock_unmatureds] at hp'
    obtain ⟨-, ⟨u, hu, rfl⟩ | hp⟩ := hp
    · obtain ⟨⟨k, hk, hcreates⟩, -⟩ := mem_ownedTransfers.mp hu
      rcases hp' with ⟨u', hu', heq⟩ | ⟨-, hp'⟩
      · -- an output of transaction 0 is of no later one
        have hcellbase := (mem_ownedCellbase.mp hu').1
        rw [heq] at hcellbase
        rw [← BlockView.creates_settled] at hcreates hcellbase
        exact hk.ne (hv.creates_unique hb hb hcellbase hcreates).2.1
      · exact hfresh hcreates (Or.inr hp')
    · rcases hp' with ⟨u', hu', rfl⟩ | ⟨-, hp'⟩
      · exact hfresh (mem_ownedCellbase.mp hu').1 (Or.inl hp)
      · exact h.disjoint p hp hp'

theorem holds_pullFromBlocks (ords : ℕ → PendingOrder) {new : List BlockView} (h : Holds a bs cells)
    (hv : ValidBlocks (bs ++ new.map BlockView.settled)) :
    Holds a (bs ++ new.map BlockView.settled) (a.pullFromBlocks g ords new cells) := by
  induction new generalizing bs cells with
  | nil =>
    rw [List.map_nil, List.append_nil]
    exact h
  | cons b new ih =>
    rw [List.map_cons, List.append_cons] at hv ⊢
    have happly := holds_applyBlock b.number h (hv.sublist (List.sublist_append_left _ _))
    exact ih (holds_promote happly) hv

theorem holds_of_isLiveSet {tip : ℕ} (h : IsLiveSet a g tip bs cells) (hv : ValidBlocks bs) :
    Holds a bs cells :=
  ⟨fun p => (h.mem_iff p).mp, h.disjoint hv⟩

/-! ## As lists -/

theorem keys_matureds (utxoOrd : IterOrder (OutPoint × CellOutput)) (pendingOrd : PendingOrder)
    (cells : Cells) :
    ((constructUtxoVec utxoOrd pendingOrd cells).1.map UTXO.outPoint).Perm cells.utxoset.keys := by
  unfold constructUtxoVec
  rw [List.map_map]
  exact HashMap.keys_iter_perm utxoOrd cells.utxoset

theorem keys_unmatureds (utxoOrd : IterOrder (OutPoint × CellOutput)) (pendingOrd : PendingOrder)
    (cells : Cells) :
    ((constructUtxoVec utxoOrd pendingOrd cells).2.map fun e => e.2.outPoint).Perm
      cells.unmatureds.keys := by
  refine ((sortByKey_perm Prod.fst _).map _).trans ?_
  rw [List.map_map]
  exact HashMap.keys_iter_perm pendingOrd cells.unmatureds

end Account

end TpsBench
