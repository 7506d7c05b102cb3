/-
  `Account::pull_from_block_number` twice for one block.

  The second time, the transfers go in and the spent cells out once more, and the cellbase comes in
  again as a pending cell of this block, which is not mature yet. Nothing is promoted: the first
  promotion stopped at a pending cell that is not mature, or took all of them.

  The maps are arbitrary. Their pending numbers may be so large that the maturity sum wraps, and the
  block may spend what it creates.

  * `same_promote`: the promotion does not depend on the order that the pending map iterates in.
  * `pullFromBlock_twice`: the second update changes neither map.
-/
import TpsBench.Account.PullFrom

namespace TpsBench

open Lib

variable {T : BlockTree}

namespace Account

variable {a : Account} {g : Global} {n : ℕ} {block : BlockView} {cells : Cells}
  {value : OutPoint → CellOutput}

/-- An out point has one output, `value`, in the block and among the pending cells. -/
structure OneOutput (value : OutPoint → CellOutput) (block : BlockView) (cells : Cells) :
    Prop where
  created : ∀ txIndex p o, Creates block txIndex p o → o = value p
  pending : ∀ p number o, cells.unmatureds.lookup p = some (number, o) → o = value p

theorem OneOutput.cellbase (hone : OneOutput value block cells) {p : OutPoint} {o : CellOutput}
    (hu : (⟨o, p⟩ : UTXO) ∈ a.ownedCellbase block) : o = value p :=
  hone.created 0 p o (mem_ownedCellbase.mp hu).1

theorem OneOutput.transfer (hone : OneOutput value block cells) {p : OutPoint} {o : CellOutput}
    (hu : (⟨o, p⟩ : UTXO) ∈ a.ownedTransfers block) : o = value p := by
  obtain ⟨⟨k, -, hcreates⟩, -⟩ := mem_ownedTransfers.mp hu
  exact hone.created k p o hcreates

/-! ## One update -/

/-- `unmatureds` before the promotion: the new cellbase over what the block does not spend. -/
theorem lookup_unmatureds_applyBlock (hone : OneOutput value block cells) (p : OutPoint)
    (number : ℕ) (o : CellOutput) :
    (a.applyBlock n block cells).unmatureds.lookup p = some (number, o) ↔
      (n = number ∧ (⟨o, p⟩ : UTXO) ∈ a.ownedCellbase block) ∨
      ((∀ o', (⟨o', p⟩ : UTXO) ∉ a.ownedCellbase block) ∧ p ∉ block.inputPts ∧
        cells.unmatureds.lookup p = some (number, o)) := by
  unfold applyBlock
  rw [getOwnedUtxos_eq]
  dsimp only
  rw [HashMap.lookup_insertAll, UTXO.mem_map_numberedEntry, HashMap.lookup_eraseAll_eq_some]
  · exact or_congr_right (and_congr_left fun _ => UTXO.notMem_keys fun _ => rfl)
  · rintro ⟨n₁, o₁⟩ ⟨n₂, o₂⟩ h₁ h₂
    obtain ⟨rfl, hu₁⟩ := UTXO.mem_map_numberedEntry.mp h₁
    obtain ⟨rfl, hu₂⟩ := UTXO.mem_map_numberedEntry.mp h₂
    rw [hone.cellbase hu₁, hone.cellbase hu₂]

/-- `utxoset` before the promotion: the new transfers over what was there, without what the block
    spends. -/
theorem lookup_utxoset_applyBlock (hone : OneOutput value block cells) (p : OutPoint)
    (o : CellOutput) :
    (a.applyBlock n block cells).utxoset.lookup p = some o ↔
      p ∉ block.inputPts ∧ ((⟨o, p⟩ : UTXO) ∈ a.ownedTransfers block ∨
        ((∀ o', (⟨o', p⟩ : UTXO) ∉ a.ownedTransfers block) ∧
          cells.utxoset.lookup p = some o)) := by
  unfold applyBlock
  rw [getOwnedUtxos_eq]
  dsimp only
  rw [HashMap.lookup_eraseAll_eq_some, HashMap.lookup_insertAll, UTXO.mem_map_entry]
  · exact and_congr_right fun _ =>
      or_congr_right (and_congr_left fun _ => UTXO.notMem_keys fun _ => rfl)
  · intro o₁ o₂ h₁ h₂
    rw [hone.transfer (UTXO.mem_map_entry.mp h₁), hone.transfer (UTXO.mem_map_entry.mp h₂)]

theorem same_promote (g : Global) (tip : ℕ) (ord ord' : PendingOrder) (cells : Cells) :
    (promote g tip (sortedPending ord cells.unmatureds) cells).Same
      (promote g tip (sortedPending ord' cells.unmatureds) cells) := by
  constructor
  · apply HashMap.same_of_lookup_iff
    intro p o
    rw [lookup_promote_utxoset, lookup_promote_utxoset]
  · apply HashMap.same_of_lookup_iff
    rintro p ⟨number, o⟩
    rw [lookup_promote_unmatureds, lookup_promote_unmatureds]

/-! ## The second update -/

theorem not_drains_own (hM : NoOverflow g n) {m : HashMap OutPoint (ℕ × CellOutput)}
    {p : OutPoint} {o : CellOutput} (hlook : m.lookup p = some (n, o)) : ¬ Drains g n m n := by
  intro hdrains
  have hmat := (isMatured_iff hM n).mp (hdrains p n o hlook le_rfl)
  omega

variable {ord : PendingOrder}

theorem OneOutput.applyBlock (hone : OneOutput value block cells) {p : OutPoint} {number : ℕ}
    {o : CellOutput}
    (h : (a.applyBlock n block cells).unmatureds.lookup p = some (number, o)) : o = value p := by
  rcases (lookup_unmatureds_applyBlock hone p number o).mp h with ⟨-, hu⟩ | ⟨-, -, hlook⟩
  · exact hone.cellbase hu
  · exact hone.pending p number o hlook

theorem OneOutput.pullFromBlock (hone : OneOutput value block cells) :
    OneOutput value block (a.pullFromBlock g ord n block cells) where
  created := hone.created
  pending p number o h := hone.applyBlock (lookup_promote_unmatureds n p number o |>.mp h).1

/-- The pending cells are those that the first update left, before and after the promotion. -/
theorem lookup_unmatureds_again (hM : NoOverflow g n) (hone : OneOutput value block cells)
    (p : OutPoint) (number : ℕ) (o : CellOutput) :
    (a.applyBlock n block (a.pullFromBlock g ord n block cells)).unmatureds.lookup p =
        some (number, o) ↔
      (a.pullFromBlock g ord n block cells).unmatureds.lookup p = some (number, o) := by
  have happlied := lookup_unmatureds_applyBlock (a := a) (n := n) hone p number o
  have honce : (a.pullFromBlock g ord n block cells).unmatureds.lookup p = some (number, o) ↔ _ :=
    lookup_promote_unmatureds n p number o
  rw [lookup_unmatureds_applyBlock hone.pullFromBlock]
  constructor
  · rintro (⟨rfl, hu⟩ | ⟨-, -, hlook⟩)
    · have hlook := happlied.mpr (Or.inl ⟨rfl, hu⟩)
      exact honce.mpr ⟨hlook, not_drains_own hM hlook⟩
    · exact hlook
  · intro hlook
    rcases happlied.mp (honce.mp hlook).1 with hnew | ⟨hnone, hunspent, -⟩
    · exact Or.inl hnew
    · exact Or.inr ⟨hnone, hunspent, hlook⟩

/-- What kept a cell back the first time keeps it back the second time. -/
theorem not_drains_again (hM : NoOverflow g n) (hone : OneOutput value block cells)
    {p : OutPoint} {number : ℕ} {o : CellOutput}
    (h : (a.applyBlock n block (a.pullFromBlock g ord n block cells)).unmatureds.lookup p =
      some (number, o)) :
    ¬ Drains g n (a.applyBlock n block (a.pullFromBlock g ord n block cells)).unmatureds
      number := by
  intro hdrains
  have honce := (lookup_unmatureds_again hM hone p number o).mp h
  obtain ⟨-, hkept⟩ := (lookup_promote_unmatureds n p number o).mp honce
  apply hkept
  intro p' n' o' hlook hle
  by_contra himmature
  -- the cell that keeps it back is still pending
  have hstays : (a.pullFromBlock g ord n block cells).unmatureds.lookup p' = some (n', o') :=
    (lookup_promote_unmatureds n p' n' o').mpr
      ⟨hlook, fun hdrains' => himmature (hdrains' p' n' o' hlook le_rfl)⟩
  exact himmature (hdrains p' n' o' ((lookup_unmatureds_again hM hone p' n' o').mpr hstays) hle)

theorem lookup_utxoset_again (hM : NoOverflow g n) (hone : OneOutput value block cells)
    (p : OutPoint) (o : CellOutput) :
    (a.applyBlock n block (a.pullFromBlock g ord n block cells)).utxoset.lookup p = some o ↔
      (a.pullFromBlock g ord n block cells).utxoset.lookup p = some o := by
  have happlied := lookup_utxoset_applyBlock (a := a) (n := n) hone p o
  have honce : (a.pullFromBlock g ord n block cells).utxoset.lookup p = some o ↔ _ :=
    lookup_promote_utxoset n p o
  rw [lookup_utxoset_applyBlock hone.pullFromBlock]
  constructor
  · rintro ⟨hunspent, hu | ⟨-, hlook⟩⟩
    · by_cases hdrained : ∃ number o',
        (a.applyBlock n block cells).unmatureds.lookup p = some (number, o') ∧
          Drains g n (a.applyBlock n block cells).unmatureds number
      · obtain ⟨number, o', hlook, hdrains⟩ := hdrained
        rw [hone.applyBlock hlook, ← hone.transfer hu] at hlook
        exact honce.mpr (Or.inl ⟨number, hlook, hdrains⟩)
      · refine honce.mpr (Or.inr ⟨fun number o' hlook hdrains => ?_, ?_⟩)
        · exact hdrained ⟨number, o', hlook, hdrains⟩
        · exact happlied.mpr ⟨hunspent, Or.inl hu⟩
    · exact hlook
  · intro hlook
    rcases honce.mp hlook with ⟨number, hpending, hdrains⟩ | ⟨-, hspendable⟩
    · -- a promoted cell is not one that the block spends: of those only its cellbase is pending
      have hunspent : p ∉ block.inputPts := by
        rcases (lookup_unmatureds_applyBlock hone p number o).mp hpending with
          ⟨rfl, -⟩ | ⟨-, hunspent, -⟩
        · exact absurd hdrains (not_drains_own hM hpending)
        · exact hunspent
      by_cases hnew : ∃ o', (⟨o', p⟩ : UTXO) ∈ a.ownedTransfers block
      · obtain ⟨o', hu⟩ := hnew
        rw [hone.transfer hu, ← hone.applyBlock hpending] at hu
        exact ⟨hunspent, Or.inl hu⟩
      · exact ⟨hunspent, Or.inr ⟨fun o' hu => hnew ⟨o', hu⟩, hlook⟩⟩
    · obtain ⟨hunspent, hu | ⟨hnone, -⟩⟩ := happlied.mp hspendable
      · exact ⟨hunspent, Or.inl hu⟩
      · exact ⟨hunspent, Or.inr ⟨hnone, hlook⟩⟩

/-- The second update changes neither map, whatever the orders. -/
theorem pullFromBlock_twice (hM : NoOverflow g n) (hone : OneOutput value block cells)
    (ord ord' : PendingOrder) :
    (a.pullFromBlock g ord' n block (a.pullFromBlock g ord n block cells)).Same
      (a.pullFromBlock g ord n block cells) := by
  constructor
  · apply HashMap.same_of_lookup_iff
    intro p o
    rw [← lookup_utxoset_again hM hone]
    refine (lookup_promote_utxoset n p o).trans ⟨?_, fun hlook => Or.inr ⟨?_, hlook⟩⟩
    · rintro (⟨number, hlook, hdrains⟩ | ⟨-, hlook⟩)
      · exact absurd hdrains (not_drains_again hM hone hlook)
      · exact hlook
    · exact fun number o' hlook' => not_drains_again hM hone hlook'
  · apply HashMap.same_of_lookup_iff
    rintro p ⟨number, o⟩
    rw [← lookup_unmatureds_again hM hone]
    refine (lookup_promote_unmatureds n p number o).trans ⟨And.left, fun hlook => ⟨hlook, ?_⟩⟩
    exact not_drains_again hM hone hlook

/-! ## With the calls -/

theorem pullFromBlockNumber_returns (a : Account) (g : Global) (ord : PendingOrder) {net : Net}
    {w : History T} {t : ℕ} (cells : Cells)
    (hblock : (w t net.first).chain.blocks[n]? = some block) :
    (a.pullFromBlockNumber g ord net n cells).Returns w t (a.pullFromBlock g ord n block cells)
      (t + 1) :=
  Rpc.returns_bind.mpr ⟨_, _, Jsonrpc.returns_getBlockByNumber.mpr ⟨rfl, rfl⟩,
    Rpc.returns_bind.mpr ⟨block, _, Rpc.returns_unwrapOr.mpr ⟨hblock, rfl⟩,
      Rpc.returns_pure.mpr ⟨rfl, rfl⟩⟩⟩

/-- **Twice is once.** Let the number of a block leave room for the maturity sum, and let an out
    point have one output in the block and among the pending cells. Then two updates for that
    number, each of which gets that block, leave both maps as one does, whatever orders the pending
    map iterates in. -/
theorem pullFromBlockNumber_twice (a : Account) (g : Global) (net : Net) (w : History T) (n : ℕ)
    (block : BlockView) (cells : Cells) (value : OutPoint → CellOutput)
    (hM : n + 1800 * g.cellbaseMaturity < 2 ^ 64) (hone : OneOutput value block cells)
    (i j k : ℕ) (hi : (w i net.first).chain.blocks[n]? = some block)
    (hj : (w j net.first).chain.blocks[n]? = some block)
    (hk : (w k net.first).chain.blocks[n]? = some block) (ord ord₁ ord₂ : PendingOrder) :
    ∃ once first second,
      (a.pullFromBlockNumber g ord net n cells).Returns w i once (i + 1) ∧
      (a.pullFromBlockNumber g ord₁ net n cells).Returns w j first (j + 1) ∧
      (a.pullFromBlockNumber g ord₂ net n first).Returns w k second (k + 1) ∧
      second.Same once := by
  refine ⟨_, _, _, a.pullFromBlockNumber_returns g ord cells hi,
    a.pullFromBlockNumber_returns g ord₁ cells hj, a.pullFromBlockNumber_returns g ord₂ _ hk, ?_⟩
  exact (pullFromBlock_twice hM hone ord₁ ord₂).trans
    (same_promote g n ord₁ ord (a.applyBlock n block cells))

/-- Two cellbases that are pending before the sample chain's second block. -/
def samplePending : Cells where
  utxoset := ∅
  unmatureds := HashMap.insertAll ∅
    [(⟨100, 0⟩, (0, Sample.output Sample.account)), (⟨99, 0⟩, (0, Sample.output Sample.account))]

/-- The block spends one of them, and the other one is promoted. -/
theorem pullFromBlockNumber_twice_sample :
    ∃ once first second,
      (Sample.account.pullFromBlockNumber ⟨0, 0⟩ (.stored _) Sample.net 1 samplePending
        : Rpc _ Cells).Returns (.still sampleChain) 0 once 1 ∧
      (Sample.account.pullFromBlockNumber ⟨0, 0⟩ (.stored _) Sample.net 1 samplePending
        : Rpc _ Cells).Returns (.still sampleChain) 0 first 1 ∧
      (Sample.account.pullFromBlockNumber ⟨0, 0⟩ (.stored _) Sample.net 1 first
        : Rpc _ Cells).Returns (.still sampleChain) 1 second 2 ∧
      second.Same once := by
  refine pullFromBlockNumber_twice Sample.account ⟨0, 0⟩ Sample.net (.still sampleChain) 1 _
    samplePending (fun _ => Sample.output Sample.account) (by decide) ⟨?_, ?_⟩ 0 0 1 rfl rfl
    rfl _ _ _
  · intro k p o hcreates
    obtain ⟨tx, htx, -, hout⟩ := hcreates
    have hall : ∀ tx ∈ (sampleBlocks.getLast (by decide)).transactions, ∀ o ∈ tx.outputs,
        o = Sample.output Sample.account := by decide
    exact hall tx (List.mem_of_getElem? htx) o (List.mem_of_getElem? hout)
  · intro p number o hlook
    have hall : ∀ e ∈ samplePending.unmatureds.entries, e.2.2 = Sample.output Sample.account := by
      decide
    exact hall ⟨p, (number, o)⟩ (AList.mem_lookup_iff.mp hlook)

end Account

end TpsBench
