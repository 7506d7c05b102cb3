/-
  `Account::pull_from_block_number`: the incremental update of the two maps by one block.

  The block's transfers go in, its spends go out, its cellbase goes into `unmatureds`, and then
  the pending cells are sorted by number and promoted from the head for as long as the head is
  mature (`promote`). The sorted list starts from the hash map's iteration order, which is the
  parameter `ord`: a different one may be given at every call.

  Spends go out before the cellbase comes in, so a block that spends its own cellbase does so
  without effect. `settled b` is `b` as the update sees it: without those spends.

  * `lookup_promote_utxoset`, `lookup_promote_unmatureds`: the promotion moves the entries up to the
    first number that is not mature, for every order. These are exactly the matured ones if no sum
    overflows (`PendingFits`).
  * `isLiveSet_pullFromBlock`: the step takes the live set of `bs` to the live set of
    `bs ++ [b.settled]`, re-split at `b`'s number. The blocks of `bs` need not be consecutive.
  * `isLiveSet_pullFromBlocks`: the same for any list of blocks taken in order.
  * `pullFromBlockNumbers_eq_pullUntil`: on a served chain whose blocks keep their own cellbase, the
    updates for `N+1, …, N+k` give the maps of the full scan up to `N+k`.
-/
import TpsBench.Account.PullUntil
import TpsBench.Account.Settled
import TpsBench.Lib.Drain
import TpsBench.Net

namespace TpsBench

open Lib

variable {T : BlockTree}

/-- How a pending map iterates. -/
abbrev PendingOrder := IterOrder (OutPoint × (ℕ × CellOutput))

namespace Account

/-! ## The program -/

/-- The pending cells, sorted by block number. -/
def sortedPending (ord : PendingOrder) (unmatureds : HashMap OutPoint (ℕ × CellOutput)) :
    List (ℕ × UTXO) :=
  sortByKey Prod.fst
    ((HashMap.iter ord unmatureds).map fun e => (e.2.1, { output := e.2.2, outPoint := e.1 }))

/-- The `while let` loop: promote the head while it is mature. -/
def promote (g : Global) (blockNumber : ℕ) : List (ℕ × UTXO) → Cells → Cells
  | [], cells => cells
  | (number, utxo) :: rest, cells =>
    if isMatured g blockNumber number then
      promote g blockNumber rest
        { utxoset := cells.utxoset.insert utxo.outPoint utxo.output
          unmatureds := cells.unmatureds.erase utxo.outPoint }
    else cells

/-- The three `for` loops: transfers in, spent cells out, cellbase in. -/
def applyBlock (a : Account) (blockNumber : ℕ) (block : BlockView) (cells : Cells) : Cells :=
  let (matured, unmatured) := a.getOwnedUtxos block
  let utxoset := HashMap.insertAll cells.utxoset (matured.map UTXO.entry)
  let utxoset := HashMap.eraseAll utxoset block.inputPts
  let unmatureds := HashMap.eraseAll cells.unmatureds block.inputPts
  let unmatureds := HashMap.insertAll unmatureds (unmatured.map (UTXO.numberedEntry blockNumber))
  { utxoset, unmatureds }

/-- The body of `pull_from_block_number` once the block is fetched. -/
def pullFromBlock (a : Account) (g : Global) (ord : PendingOrder) (blockNumber : ℕ)
    (block : BlockView) (cells : Cells) : Cells :=
  let cells := a.applyBlock blockNumber block cells
  promote g blockNumber (sortedPending ord cells.unmatureds) cells

def pullFromBlockNumber (a : Account) (g : Global) (ord : PendingOrder) (net : Net)
    (blockNumber : ℕ) (cells : Cells) : Rpc T Cells := do
  let block ← net.first.getBlockByNumber blockNumber
  let block ← Rpc.unwrapOr .unwrapNone block
  return a.pullFromBlock g ord blockNumber block cells

/-- `construct_utxo_vec`: the two maps as lists. -/
def constructUtxoVec (utxoOrd : IterOrder (OutPoint × CellOutput)) (pendingOrd : PendingOrder)
    (cells : Cells) : List UTXO × List (ℕ × UTXO) :=
  ((HashMap.iter utxoOrd cells.utxoset).map fun e => { output := e.2, outPoint := e.1 },
    sortedPending pendingOrd cells.unmatureds)

/-- The update for each of `numbers` in turn. -/
def pullFromBlockNumbers (a : Account) (g : Global) (ords : ℕ → PendingOrder) (net : Net)
    (numbers : List ℕ) (cells : Cells) : Rpc T Cells :=
  numbers.foldlM (fun cells number => a.pullFromBlockNumber g (ords number) net number cells) cells

/-! ## Promotion -/

theorem sortedBy_sortedPending (ord : PendingOrder) (m : HashMap OutPoint (ℕ × CellOutput)) :
    SortedBy Prod.fst (sortedPending ord m) := sortedBy_sortByKey _ _

theorem mem_sortedPending {ord : PendingOrder} {m : HashMap OutPoint (ℕ × CellOutput)}
    {n : ℕ} {u : UTXO} :
    (n, u) ∈ sortedPending ord m ↔ m.lookup u.outPoint = some (n, u.output) := by
  unfold sortedPending
  rw [(sortByKey_perm _ _).mem_iff, List.mem_map]
  constructor
  · rintro ⟨⟨p, n', o⟩, he, h⟩
    cases h
    exact HashMap.mem_iter.mp he
  · intro h
    exact ⟨_, HashMap.mem_iter.mpr h, rfl⟩

theorem promote_eq (g : Global) (blockNumber : ℕ) (l : List (ℕ × UTXO)) (cells : Cells) :
    promote g blockNumber l cells =
      let drained := (l.takeWhile fun e => isMatured g blockNumber e.1).map Prod.snd
      { utxoset := HashMap.insertAll cells.utxoset (drained.map UTXO.entry)
        unmatureds := HashMap.eraseAll cells.unmatureds (drained.map UTXO.outPoint) } := by
  induction l generalizing cells with
  | nil => rfl
  | cons e l ih =>
    rw [promote]
    by_cases hmat : isMatured g blockNumber e.1 = true
    · rw [if_pos hmat, ih, List.takeWhile_cons, if_pos hmat]
      rfl
    · rw [if_neg hmat, List.takeWhile_cons, if_neg hmat]
      rfl

/-- A pending map whose numbers all leave room for the maturity sum. -/
def PendingFits (g : Global) (m : HashMap OutPoint (ℕ × CellOutput)) : Prop :=
  ∀ p n o, m.lookup p = some (n, o) → NoOverflow g n

/-- The head-only loop comes to the pending cells numbered `n`: none up to that number keeps it
    back. -/
def Drains (g : Global) (tip : ℕ) (m : HashMap OutPoint (ℕ × CellOutput)) (n : ℕ) : Prop :=
  ∀ p n' o, m.lookup p = some (n', o) → n' ≤ n → isMatured g tip n' = true

/-- If no sum overflows, a mature cell keeps none back. -/
theorem drains_iff {g : Global} {tip : ℕ} {m : HashMap OutPoint (ℕ × CellOutput)}
    (hfits : PendingFits g m) {p : OutPoint} {n : ℕ} {o : CellOutput}
    (hlook : m.lookup p = some (n, o)) : Drains g tip m n ↔ isMatured g tip n = true :=
  ⟨fun h => h p n o hlook le_rfl, fun hmat _ _ _ _ hle =>
    isMatured_anti (hfits p n o hlook) hle hmat⟩

theorem mem_drained {g : Global} {ord : PendingOrder} {m : HashMap OutPoint (ℕ × CellOutput)}
    (tip : ℕ) (u : UTXO) :
    u ∈ ((sortedPending ord m).takeWhile fun e => isMatured g tip e.1).map Prod.snd ↔
      ∃ n, m.lookup u.outPoint = some (n, u.output) ∧ Drains g tip m n := by
  rw [List.mem_map]
  simp only [mem_takeWhile_iff (sortedBy_sortedPending ord m)]
  constructor
  · rintro ⟨⟨n, u'⟩, ⟨he, hall⟩, rfl⟩
    refine ⟨n, mem_sortedPending.mp he, fun p n' o hlook hle => ?_⟩
    exact hall (n', ⟨o, p⟩) (mem_sortedPending.mpr hlook) hle
  · rintro ⟨n, hlook, hdrains⟩
    refine ⟨(n, u), ⟨mem_sortedPending.mpr hlook, fun e he hle => ?_⟩, rfl⟩
    exact hdrains e.2.outPoint e.1 e.2.output (mem_sortedPending.mp he) hle

/-- What the promotion leaves pending: the entries that are not drained. -/
theorem lookup_promote_unmatureds {g : Global} {ord : PendingOrder} {cells : Cells} (tip : ℕ)
    (p : OutPoint) (n : ℕ) (o : CellOutput) :
    (promote g tip (sortedPending ord cells.unmatureds) cells).unmatureds.lookup p = some (n, o) ↔
      cells.unmatureds.lookup p = some (n, o) ∧ ¬ Drains g tip cells.unmatureds n := by
  rw [promote_eq, HashMap.lookup_eraseAll_eq_some, and_comm]
  refine and_congr_right fun hlook => ?_
  rw [List.mem_map]
  constructor
  · exact fun hnot hdrains => hnot ⟨⟨o, p⟩, (mem_drained tip _).mpr ⟨n, hlook, hdrains⟩, rfl⟩
  · rintro hpend ⟨u, hu, rfl⟩
    obtain ⟨n', hlook', hdrains⟩ := (mem_drained tip u).mp hu
    obtain ⟨rfl, -⟩ := Prod.mk.inj (Option.some.inj (hlook.symm.trans hlook'))
    exact hpend hdrains

theorem lookup_promote_utxoset {g : Global} {ord : PendingOrder} {cells : Cells} (tip : ℕ)
    (p : OutPoint) (o : CellOutput) :
    (promote g tip (sortedPending ord cells.unmatureds) cells).utxoset.lookup p = some o ↔
      (∃ n, cells.unmatureds.lookup p = some (n, o) ∧ Drains g tip cells.unmatureds n) ∨
      ((∀ n o', cells.unmatureds.lookup p = some (n, o') →
          ¬ Drains g tip cells.unmatureds n) ∧
        cells.utxoset.lookup p = some o) := by
  have hmem : ∀ o', (p, o') ∈ (((sortedPending ord cells.unmatureds).takeWhile
      fun e => isMatured g tip e.1).map Prod.snd).map UTXO.entry ↔
      ∃ n, cells.unmatureds.lookup p = some (n, o') ∧ Drains g tip cells.unmatureds n := by
    intro o'
    rw [UTXO.mem_map_entry]
    exact mem_drained tip ⟨o', p⟩
  rw [promote_eq, HashMap.lookup_insertAll, hmem]
  · refine or_congr_right (and_congr_left fun _ => ?_)
    rw [UTXO.notMem_keys fun _ => rfl]
    constructor
    · intro hnot n o' hlook hdrains
      exact hnot o' ((mem_drained tip ⟨o', p⟩).mpr ⟨n, hlook, hdrains⟩)
    · intro hall o' hu
      obtain ⟨n, hlook, hdrains⟩ := (mem_drained tip ⟨o', p⟩).mp hu
      exact hall n o' hlook hdrains
  · intro o₁ o₂ h₁ h₂
    obtain ⟨n₁, hlook₁, -⟩ := (hmem o₁).mp h₁
    obtain ⟨n₂, hlook₂, -⟩ := (hmem o₂).mp h₂
    exact (Prod.mk.inj (Option.some.inj (hlook₁.symm.trans hlook₂))).2

theorem PendingFits.lookup_unmatureds {g : Global} {ord : PendingOrder} {cells : Cells}
    (hfits : PendingFits g cells.unmatureds) (tip : ℕ) (p : OutPoint) (n : ℕ) (o : CellOutput) :
    (promote g tip (sortedPending ord cells.unmatureds) cells).unmatureds.lookup p = some (n, o) ↔
      cells.unmatureds.lookup p = some (n, o) ∧ isMatured g tip n = false := by
  rw [lookup_promote_unmatureds]
  exact and_congr_right fun hlook => by rw [drains_iff hfits hlook, Bool.not_eq_true]

theorem PendingFits.lookup_utxoset {g : Global} {ord : PendingOrder} {cells : Cells}
    (hfits : PendingFits g cells.unmatureds) (tip : ℕ) (p : OutPoint) (o : CellOutput) :
    (promote g tip (sortedPending ord cells.unmatureds) cells).utxoset.lookup p = some o ↔
      (∃ n, cells.unmatureds.lookup p = some (n, o) ∧ isMatured g tip n = true) ∨
      ((∀ n o', cells.unmatureds.lookup p = some (n, o') → isMatured g tip n = false) ∧
        cells.utxoset.lookup p = some o) := by
  rw [lookup_promote_utxoset]
  refine or_congr ?_ (and_congr_left fun _ => ?_)
  · exact exists_congr fun n => and_congr_right fun hlook => drains_iff hfits hlook
  · refine forall_congr' fun n => forall_congr' fun o' => imp_congr_right fun hlook => ?_
    rw [drains_iff hfits hlook, Bool.not_eq_true]

/-! ## One block -/

section Step

variable {a : Account} {g : Global} {tip : ℕ} {bs : List BlockView} {b : BlockView} {cells : Cells}

/-- `utxoset` before the promotion: live transfers, and the cellbase cells that were mature
    before the block. -/
theorem lookup_applyBlock_utxoset (hlive : IsLiveSet a g tip bs cells)
    (hv : ValidBlocks (bs ++ [b.settled])) (blockNumber : ℕ) (p : OutPoint) (o : CellOutput) :
    (a.applyBlock blockNumber b cells).utxoset.lookup p = some o ↔
      ∃ b' k, LiveCell a (bs ++ [b.settled]) b' k p o ∧
        (k = 0 → b' ∈ bs ∧ isMatured g tip b'.number = true) := by
  have hb : b.settled ∈ bs ++ [b.settled] :=
    List.mem_append_right _ (List.mem_singleton_self b.settled)
  have hentry : ∀ o', (p, o') ∈ (a.ownedTransfers b).map UTXO.entry ↔
      (∃ k, 0 < k ∧ Creates b.settled k p o') ∧ o'.lock = a.lockScript := by
    intro o'
    simp only [BlockView.creates_settled]
    rw [UTXO.mem_map_entry, mem_ownedTransfers]
  unfold applyBlock
  rw [getOwnedUtxos_eq]
  dsimp only
  rw [HashMap.lookup_eraseAll_eq_some, HashMap.lookup_insertAll, hentry, hlive.utxoset]
  · constructor
    · rintro ⟨hun, hcell⟩
      have hun' : p ∉ b.settled.inputPts := fun h => hun (BlockView.mem_inputPts_settled.mp h).1
      rcases hcell with ⟨⟨k, hk, hcreates⟩, hlock⟩ | ⟨-, b', k, hcell, hmat⟩
      · exact ⟨b.settled, k, (liveCell_append_self hv).mpr ⟨hcreates, hlock, hun'⟩,
          fun h => absurd h (Nat.ne_of_gt hk)⟩
      · exact ⟨b', k, (liveCell_append_of_mem hcell.1).mpr ⟨hcell, hun'⟩,
          fun h => ⟨hcell.1, hmat h⟩⟩
    · rintro ⟨b', k, hcell, hmat⟩
      -- `p` is not `b`'s own cellbase: that would be transaction 0 of a block not in `bs`
      have hnot : p ∉ b.cellbasePts := fun hp => by
        obtain ⟨o', hcreates⟩ := BlockView.creates_of_mem_cellbasePts hp
        rw [← BlockView.creates_settled] at hcreates
        obtain ⟨rfl, rfl, -⟩ := hv.creates_unique hcell.1 hb hcell.2.1 hcreates
        exact hv.notMem_of_creates hcreates (hmat rfl).1
      refine ⟨fun hin => hcell.2.2.2 _ hb (BlockView.mem_inputPts_settled.mpr ⟨hin, hnot⟩), ?_⟩
      by_cases hb' : b' ∈ bs
      · refine Or.inr ⟨fun hkey => ?_, b', k, ((liveCell_append_of_mem hb').mp hcell).1,
          fun h => (hmat h).2⟩
        obtain ⟨⟨p', o'⟩, he, rfl⟩ := List.mem_map.mp hkey
        obtain ⟨⟨k', -, hcreates⟩, -⟩ := (hentry o').mp he
        obtain ⟨rfl, -⟩ := hv.creates_unique hcell.1 hb hcell.2.1 hcreates
        exact hv.notMem_of_creates hcreates hb'
      · obtain rfl : b' = b.settled :=
          (List.mem_append.mp hcell.1).elim (fun h => absurd h hb') List.mem_singleton.mp
        exact Or.inl ⟨⟨k, Nat.pos_of_ne_zero fun h => hb' (hmat h).1, hcell.2.1⟩, hcell.2.2.1⟩
  · intro o₁ o₂ h₁ h₂
    obtain ⟨⟨k₁, -, hc₁⟩, -⟩ := (hentry o₁).mp h₁
    obtain ⟨⟨k₂, -, hc₂⟩, -⟩ := (hentry o₂).mp h₂
    exact (hv.creates_unique hb hb hc₁ hc₂).2.2

/-- `unmatureds` before the promotion: what was pending and is still live, and the new cellbase. -/
theorem lookup_applyBlock_unmatureds (hlive : IsLiveSet a g tip bs cells)
    (hv : ValidBlocks (bs ++ [b.settled])) (p : OutPoint) (n : ℕ) (o : CellOutput) :
    (a.applyBlock b.number b cells).unmatureds.lookup p = some (n, o) ↔
      ∃ b', LiveCell a (bs ++ [b.settled]) b' 0 p o ∧ b'.number = n ∧
        (b' ∈ bs → isMatured g tip n = false) := by
  have hb : b.settled ∈ bs ++ [b.settled] :=
    List.mem_append_right _ (List.mem_singleton_self b.settled)
  have hentry : ∀ n' o', (p, (n', o')) ∈ (a.ownedCellbase b).map (UTXO.numberedEntry b.number) ↔
      Creates b.settled 0 p o' ∧ o'.lock = a.lockScript ∧ b.number = n' := by
    intro n' o'
    rw [BlockView.creates_settled, UTXO.mem_map_numberedEntry, mem_ownedCellbase, and_comm,
      and_assoc]
  -- `b.settled` does not spend its own cellbase
  have hown : ∀ o', Creates b.settled 0 p o' → p ∉ b.settled.inputPts := fun o' hcreates hin =>
    (BlockView.mem_inputPts_settled.mp hin).2
      (BlockView.mem_cellbasePts_of_creates (BlockView.creates_settled.mp hcreates))
  unfold applyBlock
  rw [getOwnedUtxos_eq]
  dsimp only
  rw [HashMap.lookup_insertAll, hentry, HashMap.lookup_eraseAll_eq_some, hlive.unmatureds]
  · constructor
    · rintro (⟨hcreates, hlock, rfl⟩ | ⟨-, hun, b', hcell, hnum, hpend⟩)
      · refine ⟨b.settled, ?_, rfl, ?_⟩
        · exact (liveCell_append_self hv).mpr ⟨hcreates, hlock, hown o hcreates⟩
        · exact fun hmem => absurd hmem (hv.notMem_of_creates hcreates)
      · have hun' : p ∉ b.settled.inputPts := fun h => hun (BlockView.mem_inputPts_settled.mp h).1
        exact ⟨b', (liveCell_append_of_mem hcell.1).mpr ⟨hcell, hun'⟩, hnum, fun _ => hpend⟩
    · rintro ⟨b', hcell, hnum, hpend⟩
      by_cases hb' : b' ∈ bs
      · -- a cell of an older block is not `b`'s own cellbase
        have hnot : ∀ o', ¬ Creates b.settled 0 p o' := fun o' hcreates => by
          obtain ⟨rfl, -⟩ := hv.creates_unique hcell.1 hb hcell.2.1 hcreates
          exact hv.notMem_of_creates hcreates hb'
        refine Or.inr ⟨fun hkey => ?_, fun hin => ?_, b',
          ((liveCell_append_of_mem hb').mp hcell).1, hnum, hpend hb'⟩
        · obtain ⟨⟨p', n', o'⟩, he, rfl⟩ := List.mem_map.mp hkey
          exact hnot o' ((hentry n' o').mp he).1
        · refine hcell.2.2.2 _ hb (BlockView.mem_inputPts_settled.mpr ⟨hin, fun hp => ?_⟩)
          obtain ⟨o', hcreates⟩ := BlockView.creates_of_mem_cellbasePts hp
          exact hnot o' (BlockView.creates_settled.mpr hcreates)
      · obtain rfl : b' = b.settled :=
          (List.mem_append.mp hcell.1).elim (fun h => absurd h hb') List.mem_singleton.mp
        exact Or.inl ⟨hcell.2.1, hcell.2.2.1, hnum⟩
  · rintro ⟨n₁, o₁⟩ ⟨n₂, o₂⟩ h₁ h₂
    obtain ⟨hc₁, -, rfl⟩ := (hentry n₁ o₁).mp h₁
    obtain ⟨hc₂, -, rfl⟩ := (hentry n₂ o₂).mp h₂
    rw [(hv.creates_unique hb hb hc₁ hc₂).2.2]

/-- **One update.** `pull_from_block_number` takes the live set of `bs`, split at `tip`, to the live
    set of `bs` and the settled block, split at the block's number. -/
theorem isLiveSet_pullFromBlock (ord : PendingOrder) (hlive : IsLiveSet a g tip bs cells)
    (hv : ValidBlocks (bs ++ [b.settled])) (htip : tip ≤ b.number)
    (hnumber : ∀ b' ∈ bs, b'.number ≤ b.number) (hM : NoOverflow g b.number) :
    IsLiveSet a g b.number (bs ++ [b.settled]) (a.pullFromBlock g ord b.number b cells) := by
  have hpending := lookup_applyBlock_unmatureds hlive hv
  have hfits : PendingFits g (a.applyBlock b.number b cells).unmatureds := by
    intro p n o hlook
    obtain ⟨b', hcell, rfl, -⟩ := (hpending p n o).mp hlook
    refine hM.mono ?_
    rcases List.mem_append.mp hcell.1 with hb' | hb'
    · exact hnumber b' hb'
    · rw [List.mem_singleton.mp hb', BlockView.settled_number]
  unfold pullFromBlock
  constructor
  · intro p o
    rw [hfits.lookup_utxoset, lookup_applyBlock_utxoset hlive hv]
    constructor
    · rintro (⟨n, hlook, hmat⟩ | ⟨-, b', k, hcell, hold⟩)
      · obtain ⟨b', hcell, rfl, -⟩ := (hpending p n o).mp hlook
        exact ⟨b', 0, hcell, fun _ => hmat⟩
      · exact ⟨b', k, hcell, fun h => isMatured_mono (hold h).2 htip⟩
    · rintro ⟨b', k, hcell, hmat⟩
      by_cases hpend : k = 0 ∧ (b' ∈ bs → isMatured g tip b'.number = false)
      · obtain ⟨rfl, hpend⟩ := hpend
        exact Or.inl ⟨b'.number, (hpending p _ o).mpr ⟨b', hcell, rfl, hpend⟩, hmat rfl⟩
      · -- the cell was spendable before: it is not in the pending map
        have hold : k = 0 → b' ∈ bs ∧ isMatured g tip b'.number = true := by
          intro hk
          have hnot := not_and.mp hpend hk
          rwa [Classical.not_imp, Bool.not_eq_false] at hnot
        refine Or.inr ⟨fun n o' hlook => ?_, b', k, hcell, hold⟩
        obtain ⟨b'', hcell', rfl, hfalse⟩ := (hpending p n o').mp hlook
        obtain ⟨rfl, rfl, -⟩ := hcell.unique hv hcell'
        have htrue := hold rfl
        rw [hfalse htrue.1] at htrue
        exact absurd htrue.2 Bool.false_ne_true
  · intro p n o
    rw [hfits.lookup_unmatureds, hpending]
    constructor
    · rintro ⟨⟨b', hcell, hnum, -⟩, hpend⟩
      exact ⟨b', hcell, hnum, hpend⟩
    · rintro ⟨b', hcell, hnum, hpend⟩
      refine ⟨⟨b', hcell, hnum, fun _ => ?_⟩, hpend⟩
      rw [← Bool.not_eq_true] at hpend ⊢
      exact fun hmat => hpend (isMatured_mono hmat htip)

end Step

/-! ## Many blocks -/

/-- The updates for blocks that are already fetched. -/
def pullFromBlocks (a : Account) (g : Global) (ords : ℕ → PendingOrder) (bs : List BlockView)
    (cells : Cells) : Cells :=
  bs.foldl (fun cells b => a.pullFromBlock g (ords b.number) b.number b cells) cells

/-- The updates for blocks `new` that stand behind `bs`, in order of number. The numbers need not
    be consecutive, and the result is split at the last of them. -/
theorem isLiveSet_pullFromBlocks {a : Account} {g : Global} (ords : ℕ → PendingOrder)
    (new : List BlockView) {tip : ℕ} {bs : List BlockView} {cells : Cells}
    (hlive : IsLiveSet a g tip bs cells) (hv : ValidBlocks (bs ++ new.map BlockView.settled))
    (hnumber : (bs ++ new).Pairwise fun b b' => b.number ≤ b'.number)
    (hnew : ∀ b ∈ new, tip ≤ b.number ∧ NoOverflow g b.number) :
    IsLiveSet a g ((new.map BlockView.number).getLastD tip) (bs ++ new.map BlockView.settled)
      (a.pullFromBlocks g ords new cells) := by
  induction new generalizing tip bs cells with
  | nil =>
    rw [List.map_nil (f := BlockView.settled), List.append_nil]
    exact hlive
  | cons b new ih =>
    rw [List.map_cons (f := BlockView.settled), List.append_cons] at hv ⊢
    obtain ⟨-, hnew', hcross⟩ := List.pairwise_append.mp hnumber
    have hstep := isLiveSet_pullFromBlock (ords b.number) hlive
      (hv.sublist (List.sublist_append_left _ _)) (hnew b List.mem_cons_self).1
      (fun b' hb' => hcross b' hb' b List.mem_cons_self) (hnew b List.mem_cons_self).2
    rw [List.map_cons, List.getLastD_cons]
    refine ih hstep hv ?_ ?_
    · rw [List.append_assoc, List.singleton_append, List.pairwise_append]
      refine ⟨(List.pairwise_append.mp hnumber).1, ?_, ?_⟩
      · exact List.pairwise_cons.mpr (List.pairwise_cons.mp hnew')
      · intro b' hb' b'' hb''
        rcases List.mem_cons.mp hb'' with rfl | hb''
        · exact hcross b' hb' b List.mem_cons_self
        · exact hcross b' hb' b'' (List.mem_cons_of_mem _ hb'')
    · exact fun b' hb' => ⟨(List.pairwise_cons.mp hnew').1 b' hb',
        (hnew b' (List.mem_cons_of_mem _ hb')).2⟩

/-- On served blocks the updates return the fold, one call a block. -/
theorem pullFromBlockNumbers_returns (a : Account) (g : Global) (ords : ℕ → PendingOrder)
    {w : History T} {net : Net} (bs : List BlockView) (i : ℕ)
    (hserved : ∀ b ∈ bs, ∀ t, i ≤ t → (w t net.first).chain.blocks[b.number]? = some b)
    (cells : Cells) :
    (a.pullFromBlockNumbers g ords net (bs.map BlockView.number) cells).Returns w i
      (a.pullFromBlocks g ords bs cells) (i + bs.length) := by
  exact foldlM_blocks_returns .unwrapNone
    (fun number block cells => a.pullFromBlock g (ords number) number block cells) bs i hserved
    cells

/-- The full scan up to `N` and the updates for the blocks `N+1, …, m` give the live set up to
    `m`. -/
theorem isLiveSet_pullFromBlocks_after {c : Chain T} {N m : ℕ} (a : Account) (g : Global)
    (ords : ℕ → PendingOrder) (hN : N ≤ m) (hm : m ≤ c.tipNumber) (hvalid : ValidBlocks c.blocks)
    (hown : ∀ b ∈ c.blocks, b.KeepsOwnCellbase) (hM : NoOverflow g m) :
    IsLiveSet a g m (c.upTo m).blocks
      (a.pullFromBlocks g ords ((c.upTo m).after N) (a.pullUntilBlocks g N (c.upTo N).blocks)) := by
  have hcut := c.upTo_append_after hN
  have hsettled : ((c.upTo m).after N).map BlockView.settled = (c.upTo m).after N := by
    refine (List.map_congr_left fun b hb => ?_).trans (List.map_id _)
    exact BlockView.settled_eq (hown b (Chain.mem_upTo.mp (Chain.mem_after.mp hb).1).1)
  have hv : ValidBlocks ((c.upTo N).blocks ++ (c.upTo m).after N) := by
    rw [hcut]
    exact hvalid.sublist (List.take_sublist _ _)
  have hlive := isLiveSet_pullFromBlocks ords ((c.upTo m).after N)
    (isLiveSet_pullUntilBlocks (hv.sublist (List.sublist_append_left _ _)) a g N)
    (by rwa [hsettled]) (by rw [hcut]; exact (c.upTo m).pairwise_number.imp Nat.le_of_lt)
    (fun b hb => ⟨(Chain.mem_after.mp hb).2.le,
      hM.mono (Chain.mem_upTo.mp (Chain.mem_after.mp hb).1).2⟩)
  have hlast : (((c.upTo m).after N).map BlockView.number).getLastD N = m := by
    rw [Chain.map_number_after, Chain.tipNumber, Chain.upTo_length hm, List.getLastD_eq_getLast?,
      List.getLast?_range']
    split
    · rw [Option.getD_none]
      omega
    · rw [Option.getD_some]
      omega
  rwa [hlast, hsettled, hcut] at hlive

/-- **Full scan and increments agree.** From the maps of `pull_until` for height `N`, the updates
    for `N+1, …, N+k` give the maps of `pull_until` for height `N+k`, whatever order the pending
    map iterates in at each of them. -/
theorem pullFromBlockNumbers_eq_pullUntil (a : Account) (g : Global) (ords : ℕ → PendingOrder)
    (net : Net) (w : History T) (c : Chain T) (header header' : HeaderView) (k : ℕ)
    (hheader' : header'.number = header.number + k) (hk : header.number + k ≤ c.tipNumber)
    (hvalid : ValidBlocks c.blocks) (hown : ∀ b ∈ c.blocks, b.KeepsOwnCellbase) (i i' : ℕ)
    (hi : i ≤ i') (hserved : Serves w i net.first c (header.number + k))
    (hM : header.number + k + 1800 * g.cellbaseMaturity < 2 ^ 64) :
    ∃ cells j full j',
      (do let cells ← a.pullUntil g net.first header
          a.pullFromBlockNumbers g ords net (List.range' (header.number + 1) k) cells
        : Rpc T Cells).Returns w i cells j ∧
      (a.pullUntil g net.first header').Returns w i' full j' ∧ cells.Same full := by
  have hN : header.number ≤ header.number + k := Nat.le_add_right _ k
  have hscan := a.pullUntil_returns g header (hN.trans hk)
    (hserved.mono (Nat.le_refl i) hN)
  have hnew : ∀ b ∈ (c.upTo (header.number + k)).after header.number,
      b ∈ c.blocks ∧ b.number ≤ header.number + k :=
    fun b hb => Chain.mem_upTo.mp (Chain.mem_after.mp hb).1
  have hupdates := a.pullFromBlockNumbers_returns g ords (w := w)
    ((c.upTo (header.number + k)).after header.number) (i + (header.number + 1))
    (fun b hb t ht => hserved.block (hnew b hb).1 (hnew b hb).2 (by omega))
    (a.pullUntilBlocks g header.number (c.upTo header.number).blocks)
  rw [Chain.map_number_after, Chain.tipNumber, Chain.upTo_length hk,
    show header.number + k + 1 - 1 - header.number = k by omega] at hupdates
  have hfull := a.pullUntil_returns g header' (hheader' ▸ hk)
    (hserved.mono hi hheader'.le)
  rw [hheader'] at hfull
  refine ⟨_, _, _, _, Rpc.returns_bind.mpr ⟨_, _, hscan, hupdates⟩, hfull, ?_⟩
  -- both are the live set of the same blocks, split at the same tip
  exact (isLiveSet_pullFromBlocks_after a g ords hN hk hvalid hown hM).same
    (isLiveSet_pullUntilBlocks (hvalid.sublist (List.take_sublist _ _)) a g _)

/-- The account mines all three blocks, and block 2 spends the first of the cells. -/
def minedBlocks : List BlockView :=
  [Sample.block 10 0 0 [Sample.cellbase 100 Sample.account],
   Sample.block 11 10 1 [Sample.cellbase 101 Sample.account],
   Sample.block 12 11 2 [Sample.cellbase 102 Sample.account,
     Sample.transfer 202 100 Sample.stranger]]

def minedChain : Chain (BlockTree.ofList minedBlocks) where
  blocks := minedBlocks
  genesis := by decide
  follows := by decide
  mem_tree := by decide

/-- Blocks 1 and 2 are pulled after a scan of block 0. Each of them promotes the cell of the block
    below, and block 2 spends the one that block 1 promoted. -/
theorem pullFromBlockNumbers_eq_pullUntil_promoted :
    ∃ cells j full j',
      (do let cells ← Sample.account.pullUntil ⟨0, 0⟩ Sample.net.first
            (Sample.block 10 0 0 []).header
          Sample.account.pullFromBlockNumbers ⟨0, 0⟩ (fun _ => .stored _) Sample.net [1, 2] cells
        : Rpc _ Cells).Returns (History.still minedChain) 0 cells j ∧
      (Sample.account.pullUntil ⟨0, 0⟩ Sample.net.first
        (Sample.block 12 11 2 []).header).Returns (History.still minedChain) 0 full j' ∧
      cells.Same full ∧ cells.utxoset.lookup ⟨100, 0⟩ = none ∧
      cells.utxoset.lookup ⟨101, 0⟩ = some (Sample.output Sample.account) ∧
      cells.unmatureds.lookup ⟨102, 0⟩ = some (2, Sample.output Sample.account) := by
  obtain ⟨cells, j, full, j', hret, hfull, hsame⟩ :=
    pullFromBlockNumbers_eq_pullUntil Sample.account ⟨0, 0⟩ (fun _ => .stored _) Sample.net
      (History.still minedChain) minedChain (Sample.block 10 0 0 []).header
      (Sample.block 12 11 2 []).header 2 rfl (by decide) ⟨by decide, by decide⟩ (by decide) 0 0
      (Nat.le_refl 0) (fun _ _ _ _ => rfl) (by decide)
  have hscan : (Sample.account.pullUntil ⟨0, 0⟩ Sample.net.first
      (Sample.block 12 11 2 []).header).Returns (History.still minedChain) 0 _ 3 := rfl
  obtain ⟨rfl, -⟩ := hfull.unique hscan
  exact ⟨cells, j, _, j', hret, hfull, hsame, (hsame.1 _).trans rfl, (hsame.1 _).trans rfl,
    (hsame.2 _).trans rfl⟩

end Account

end TpsBench
