/-
  `Account::pull_until`: the full scan of the blocks `0..=until`.

  `pullUntil` is the program; the block loop's body is `pullUntilBlock`. On served blocks the
  program computes `pullUntilBlocks`, a fold (`pullUntil_returns`). The fold is two scans of
  `Lib.Scan` side by side, one for each map: whether a cellbase output goes to `utxoset` or to
  `unmatureds` is decided by the tip alone, which the loop does not change
  (`pullUntilBlocks_eq_scan`). On a valid ledger each scan holds its live entries, so the result
  is the live set (`isLiveSet_pullUntilBlocks`, `pullUntil_eq_live`).
-/
import TpsBench.Account.LiveSet
import TpsBench.Lib.Scan
import TpsBench.Rpc

namespace TpsBench

open Lib

variable {T : BlockTree}

namespace Account

/-! ## The program -/

/-- One block of the scan. The two nested loops over inputs erase `block.inputPts`. -/
def pullUntilBlock (a : Account) (g : Global) (untilNumber number : ℕ) (cells : Cells)
    (block : BlockView) : Cells :=
  let (matured, unmatured) := a.getOwnedUtxos block
  -- add newly UTXOs
  let utxoset := HashMap.insertAll cells.utxoset (matured.map UTXO.entry)
  let cells := unmatured.foldl (fun (cells : Cells) utxo =>
    if isMatured g untilNumber number then
      { cells with utxoset := cells.utxoset.insert utxo.outPoint utxo.output }
    else
      { cells with
        unmatureds := cells.unmatureds.insert utxo.outPoint (block.number, utxo.output) })
    { cells with utxoset := utxoset }
  -- remove spent UTXOs
  { utxoset := HashMap.eraseAll cells.utxoset block.inputPts
    unmatureds := HashMap.eraseAll cells.unmatureds block.inputPts }

def pullUntil (a : Account) (g : Global) (rpc : Jsonrpc) (untilHeader : HeaderView) :
    Rpc T Cells :=
  (List.range (untilHeader.number + 1)).foldlM (fun cells number => do
    let block ← rpc.getBlockByNumber number
    let block ← Rpc.unwrapOr (.expectNone "get_block_by_number") block
    return a.pullUntilBlock g untilHeader.number number cells block)
    Cells.empty

/-- The scan over a list of blocks that are already fetched. -/
def pullUntilBlocks (a : Account) (g : Global) (untilNumber : ℕ) (bs : List BlockView) : Cells :=
  bs.foldl (fun cells b => a.pullUntilBlock g untilNumber b.number cells b) Cells.empty

/-- From call `i` on, `rpc` serves the blocks of `c` up to height `n`. -/
def Serves (w : History T) (i : ℕ) (rpc : Jsonrpc) (c : Chain T) (n : ℕ) : Prop :=
  ∀ t, i ≤ t → ∀ m ≤ n, (w t rpc).chain.blocks[m]? = c.blocks[m]?

theorem Serves.block {w : History T} {i : ℕ} {rpc : Jsonrpc} {c : Chain T} {n : ℕ}
    (h : Serves w i rpc c n) {b : BlockView} (hb : b ∈ c.blocks) (hn : b.number ≤ n) {t : ℕ}
    (ht : i ≤ t) : (w t rpc).chain.blocks[b.number]? = some b :=
  (h t ht b.number hn).trans (c.getElem?_number hb)

theorem Serves.mono {w : History T} {i i' : ℕ} {rpc : Jsonrpc} {c : Chain T} {n n' : ℕ}
    (h : Serves w i rpc c n) (hi : i ≤ i') (hn : n' ≤ n) : Serves w i' rpc c n' :=
  fun t ht m hm => h t (hi.trans ht) m (hm.trans hn)

theorem serves_of_grows {w : History T} {rpc : Jsonrpc} (h : Grows w rpc) (i : ℕ) {n : ℕ}
    (hn : n ≤ (w i rpc).chain.tipNumber) : Serves w i rpc (w i rpc).chain n := by
  intro t ht m hm
  have hlt : m < (w i rpc).chain.blocks.length := by
    rw [Chain.length_eq]
    omega
  rw [List.getElem?_eq_getElem hlt]
  exact h.getElem? ht (List.getElem?_eq_getElem hlt)

/-- On served blocks a loop over their numbers returns the fold over the blocks, one call a
    block. -/
theorem foldlM_blocks_returns {w : History T} {rpc : Jsonrpc} (panic : Panic)
    (pull : ℕ → BlockView → Cells → Cells) (bs : List BlockView) (i : ℕ)
    (hserved : ∀ b ∈ bs, ∀ t, i ≤ t → (w t rpc).chain.blocks[b.number]? = some b)
    (cells : Cells) :
    ((bs.map BlockView.number).foldlM (fun cells number => do
      let block ← rpc.getBlockByNumber number
      let block ← Rpc.unwrapOr panic block
      return pull number block cells) cells : Rpc T Cells).Returns w i
      (bs.foldl (fun cells b => pull b.number b cells) cells) (i + bs.length) := by
  induction bs generalizing cells i with
  | nil => exact Rpc.returns_pure.mpr ⟨rfl, rfl⟩
  | cons b bs ih =>
    have hb := hserved b List.mem_cons_self i (Nat.le_refl i)
    have hrest := ih (i + 1)
      (fun b' hb' t ht => hserved b' (List.mem_cons_of_mem _ hb') t (by omega))
      (pull b.number b cells)
    rw [List.map_cons, List.foldlM_cons, List.foldl_cons, List.length_cons, ← Nat.add_assoc,
      Nat.add_right_comm]
    refine Rpc.returns_bind.mpr ⟨_, i + 1, ?_, hrest⟩
    refine Rpc.returns_bind.mpr ⟨_, i + 1, Jsonrpc.returns_getBlockByNumber.mpr ⟨rfl, rfl⟩, ?_⟩
    refine Rpc.returns_bind.mpr ⟨b, i + 1, Rpc.returns_unwrapOr.mpr ⟨hb, rfl⟩, ?_⟩
    exact Rpc.returns_pure.mpr ⟨rfl, rfl⟩

/-- On a served chain `pull_until` returns, and computes the fold over blocks `0..=until`. -/
theorem pullUntil_returns (a : Account) (g : Global) (untilHeader : HeaderView) {w : History T}
    {rpc : Jsonrpc} {c : Chain T} (hn : untilHeader.number ≤ c.tipNumber) {i : ℕ}
    (hserved : Serves w i rpc c untilHeader.number) :
    (a.pullUntil g rpc untilHeader).Returns w i
      (a.pullUntilBlocks g untilHeader.number (c.upTo untilHeader.number).blocks)
      (i + (untilHeader.number + 1)) := by
  have h := foldlM_blocks_returns (.expectNone "get_block_by_number")
    (fun number block cells => a.pullUntilBlock g untilHeader.number number cells block)
    (c.upTo untilHeader.number).blocks i
    (fun b hb t ht => hserved.block (Chain.mem_upTo.mp hb).1 (Chain.mem_upTo.mp hb).2 ht)
    Cells.empty
  rw [Chain.map_number, Chain.upTo_length hn] at h
  exact h

/-! ## Two scans -/

/-- What a block adds to `utxoset`. -/
def createdMatured (a : Account) (g : Global) (tip : ℕ) (b : BlockView) :
    List (OutPoint × CellOutput) :=
  (a.ownedTransfers b).map UTXO.entry ++
    if isMatured g tip b.number then (a.ownedCellbase b).map UTXO.entry else []

/-- What a block adds to `unmatureds`. -/
def createdPending (a : Account) (g : Global) (tip : ℕ) (b : BlockView) :
    List (OutPoint × (ℕ × CellOutput)) :=
  if isMatured g tip b.number then []
  else (a.ownedCellbase b).map (UTXO.numberedEntry b.number)

theorem mem_createdMatured {a : Account} {g : Global} {tip : ℕ} {b : BlockView} {p : OutPoint}
    {o : CellOutput} :
    (p, o) ∈ a.createdMatured g tip b ↔
      ∃ k, Creates b k p o ∧ o.lock = a.lockScript ∧ (k = 0 → isMatured g tip b.number = true) := by
  unfold createdMatured
  rw [List.mem_append, UTXO.mem_map_entry]
  by_cases hmat : isMatured g tip b.number = true
  · rw [if_pos hmat, UTXO.mem_map_entry, or_comm, ← List.mem_append, ← owned, mem_owned]
    constructor
    · rintro ⟨⟨k, hk⟩, hlock⟩
      exact ⟨k, hk, hlock, fun _ => hmat⟩
    · rintro ⟨k, hk, hlock, -⟩
      exact ⟨⟨k, hk⟩, hlock⟩
  · rw [if_neg hmat, mem_ownedTransfers]
    constructor
    · rintro (⟨⟨k, hpos, hk⟩, hlock⟩ | h)
      · exact ⟨k, hk, hlock, fun h0 => absurd h0 (Nat.ne_of_gt hpos)⟩
      · exact absurd h List.not_mem_nil
    · rintro ⟨k, hk, hlock, h0⟩
      exact Or.inl ⟨⟨k, Nat.pos_of_ne_zero fun h => hmat (h0 h), hk⟩, hlock⟩

theorem mem_createdPending {a : Account} {g : Global} {tip : ℕ} {b : BlockView} {p : OutPoint}
    {n : ℕ} {o : CellOutput} :
    (p, (n, o)) ∈ a.createdPending g tip b ↔
      Creates b 0 p o ∧ o.lock = a.lockScript ∧ b.number = n ∧ isMatured g tip n = false := by
  unfold createdPending
  by_cases hmat : isMatured g tip b.number = true
  · rw [if_pos hmat]
    refine ⟨fun h => absurd h List.not_mem_nil, ?_⟩
    rintro ⟨-, -, rfl, hpend⟩
    rw [hmat] at hpend
    exact absurd hpend.symm Bool.false_ne_true
  · rw [if_neg hmat, UTXO.mem_map_numberedEntry, mem_ownedCellbase]
    constructor
    · rintro ⟨rfl, hcreates, hlock⟩
      exact ⟨hcreates, hlock, rfl, Bool.not_eq_true _ ▸ hmat⟩
    · rintro ⟨hcreates, hlock, rfl, -⟩
      exact ⟨rfl, hcreates, hlock⟩

theorem foldl_insert_utxoset (l : List UTXO) (cells : Cells) :
    l.foldl (fun (cells : Cells) utxo =>
      { cells with utxoset := cells.utxoset.insert utxo.outPoint utxo.output }) cells =
    { cells with utxoset := HashMap.insertAll cells.utxoset (l.map UTXO.entry) } := by
  induction l generalizing cells with
  | nil => rfl
  | cons u l ih => exact ih _

theorem foldl_insert_unmatureds (number : ℕ) (l : List UTXO) (cells : Cells) :
    l.foldl (fun (cells : Cells) utxo =>
      { cells with unmatureds := cells.unmatureds.insert utxo.outPoint (number, utxo.output) })
      cells =
    { cells with
      unmatureds := HashMap.insertAll cells.unmatureds (l.map (UTXO.numberedEntry number)) } := by
  induction l generalizing cells with
  | nil => rfl
  | cons u l ih => exact ih _

/-- One block of the full scan is one block of each of the two scans. -/
theorem pullUntilBlock_eq (a : Account) (g : Global) (tip : ℕ) (cells : Cells) (b : BlockView) :
    a.pullUntilBlock g tip b.number cells b =
      { utxoset := scanBlock (a.createdMatured g tip) BlockView.inputPts cells.utxoset b
        unmatureds :=
          scanBlock (a.createdPending g tip) BlockView.inputPts cells.unmatureds b } := by
  unfold pullUntilBlock
  rw [getOwnedUtxos_eq]
  dsimp only
  unfold scanBlock createdMatured createdPending
  rw [HashMap.insertAll_append]
  by_cases hmat : isMatured g tip b.number = true
  · simp only [hmat, if_true]
    rw [foldl_insert_utxoset]
    rfl
  · simp only [hmat, Bool.false_eq_true, if_false]
    rw [foldl_insert_unmatureds]
    rfl

/-- The full scan is two scans side by side. -/
theorem pullUntilBlocks_eq_scan (a : Account) (g : Global) (tip : ℕ) (bs : List BlockView) :
    a.pullUntilBlocks g tip bs =
      { utxoset := scan (a.createdMatured g tip) BlockView.inputPts bs
        unmatureds := scan (a.createdPending g tip) BlockView.inputPts bs } := by
  induction bs using List.reverseRecOn with
  | nil => rfl
  | append_singleton bs b ih =>
    unfold pullUntilBlocks
    rw [List.foldl_append, List.foldl_cons, List.foldl_nil, scan_append_singleton,
      scan_append_singleton]
    unfold pullUntilBlocks at ih
    rw [ih, pullUntilBlock_eq]

/-! ## The scan is the live set -/

theorem coherent_createdMatured {bs : List BlockView} (hv : ValidBlocks bs) (a : Account)
    (g : Global) (tip : ℕ) : Coherent (a.createdMatured g tip) BlockView.inputPts bs where
  functional b hb b' hb' p o o' h h' := by
    obtain ⟨k, hk, -⟩ := mem_createdMatured.mp h
    obtain ⟨k', hk', -⟩ := mem_createdMatured.mp h'
    exact (hv.creates_unique hb hb' hk hk').2.2
  no_forward := hv.no_forward.imp fun hp p o hin hout => by
    obtain ⟨k, hk, -⟩ := mem_createdMatured.mp hout
    exact hp p hin hk.mem_outPoints

theorem coherent_createdPending {bs : List BlockView} (hv : ValidBlocks bs) (a : Account)
    (g : Global) (tip : ℕ) : Coherent (a.createdPending g tip) BlockView.inputPts bs where
  functional b hb b' hb' p v v' h h' := by
    obtain ⟨hk, -, hn, -⟩ := mem_createdPending.mp h
    obtain ⟨hk', -, hn', -⟩ := mem_createdPending.mp h'
    obtain ⟨rfl, -, ho⟩ := hv.creates_unique hb hb' hk hk'
    exact Prod.ext (hn.symm.trans hn') ho
  no_forward := hv.no_forward.imp fun hp p v hin hout =>
    hp p hin (mem_createdPending.mp hout).1.mem_outPoints

/-- On a valid ledger the full scan returns the live set. -/
theorem isLiveSet_pullUntilBlocks {bs : List BlockView} (hv : ValidBlocks bs) (a : Account)
    (g : Global) (tip : ℕ) : IsLiveSet a g tip bs (a.pullUntilBlocks g tip bs) := by
  rw [pullUntilBlocks_eq_scan]
  constructor
  · intro p o
    rw [lookup_scan (coherent_createdMatured hv a g tip), Live]
    simp only [mem_createdMatured, LiveCell, Unspent]
    constructor
    · rintro ⟨⟨b, hb, k, hk, hlock, hmat⟩, hun⟩
      exact ⟨b, k, ⟨hb, hk, hlock, hun⟩, hmat⟩
    · rintro ⟨b, k, ⟨hb, hk, hlock, hun⟩, hmat⟩
      exact ⟨⟨b, hb, k, hk, hlock, hmat⟩, hun⟩
  · intro p n o
    rw [lookup_scan (coherent_createdPending hv a g tip), Live]
    simp only [mem_createdPending, LiveCell, Unspent]
    constructor
    · rintro ⟨⟨b, hb, hk, hlock, hn, hmat⟩, hun⟩
      exact ⟨b, ⟨hb, hk, hlock, hun⟩, hn, hmat⟩
    · rintro ⟨b, ⟨hb, hk, hlock, hun⟩, hn, hmat⟩
      exact ⟨⟨b, hb, hk, hlock, hn, hmat⟩, hun⟩

/-- **`pull_until` returns the reference live set.** `c` is the chain `0..=until`, valid and served
    from call `i` on. A key of either map is a live owned out point; it is pending, tagged with its
    block's number, exactly if it is an output of that block's transaction 0 that the tip does
    not mature; the two maps share no key. -/
theorem pullUntil_eq_live (a : Account) (g : Global) (w : History T) (rpc : Jsonrpc) (c : Chain T)
    (untilHeader : HeaderView) (hn : c.tipNumber = untilHeader.number)
    (hvalid : ValidBlocks c.blocks) (i : ℕ) (hserved : Serves w i rpc c untilHeader.number)
    (hM : untilHeader.number + 1800 * g.cellbaseMaturity < 2 ^ 64) :
    ∃ cells j, (a.pullUntil g rpc untilHeader).Returns w i cells j ∧
      (∀ p, p ∈ cells.utxoset ∨ p ∈ cells.unmatureds ↔
        ∃ b k o, LiveCell a c.blocks b k p o) ∧
      (∀ p n o, cells.unmatureds.lookup p = some (n, o) ↔
        ∃ b, LiveCell a c.blocks b 0 p o ∧ b.number = n ∧
          ¬ untilHeader.number > n + 1800 * g.cellbaseMaturity) ∧
      (∀ p o, cells.utxoset.lookup p = some o ↔
        ∃ b k, LiveCell a c.blocks b k p o ∧
          (k = 0 → untilHeader.number > b.number + 1800 * g.cellbaseMaturity)) ∧
      (∀ p ∈ cells.utxoset, p ∉ cells.unmatureds) := by
  have hblocks : (c.upTo untilHeader.number).blocks = c.blocks := Chain.upTo_tip hn.le
  have hret := a.pullUntil_returns g untilHeader hn.ge hserved
  have hlive := isLiveSet_pullUntilBlocks hvalid a g untilHeader.number
  rw [hblocks] at hret
  -- no number of the chain overflows, so `isMatured` is the plain comparison
  have hmat : ∀ b ∈ c.blocks, (isMatured g untilHeader.number b.number = true ↔
      untilHeader.number > b.number + 1800 * g.cellbaseMaturity) := by
    intro b hb
    have hlt := c.number_lt hb
    rw [c.length_eq, hn] at hlt
    exact isMatured_iff (NoOverflow.mono hM (Nat.le_of_lt_succ hlt)) _
  refine ⟨_, _, hret, hlive.mem_iff, ?_, ?_, hlive.disjoint hvalid⟩
  · intro p n o
    rw [hlive.unmatureds]
    refine exists_congr fun b => and_congr_right fun hb => and_congr_right fun hnum => ?_
    rw [← hnum, ← Bool.not_eq_true, hmat b hb.1]
  · intro p o
    rw [hlive.utxoset]
    refine exists_congr fun b => exists_congr fun k => and_congr_right fun hb => ?_
    rw [hmat b hb.1]

/-- Two blocks, the second of which moves the first one's cellbase cell. -/
def sampleBlocks : List BlockView :=
  [Sample.block 10 0 0 [Sample.cellbase 100 Sample.account],
   Sample.block 11 10 1 [Sample.cellbase 101 Sample.account,
     Sample.transfer 201 100 Sample.account]]

def sampleChain : Chain (BlockTree.ofList sampleBlocks) where
  blocks := sampleBlocks
  genesis := by decide
  follows := by decide
  mem_tree := by decide

/-- On the sample chain the cell that was moved is in neither map, the new one is spendable. -/
theorem pullUntil_eq_live_sample :
    ∃ cells j, (Sample.account.pullUntil { cellbaseMaturity := 4, confirmationBlocks := 0 }
        ⟨"http://127.0.0.1:8114"⟩ (Sample.block 11 10 1 []).header).Returns
        (History.still sampleChain) 0 cells j ∧
      ¬ (⟨100, 0⟩ ∈ cells.utxoset ∨ ⟨100, 0⟩ ∈ cells.unmatureds) ∧
      cells.utxoset.lookup ⟨201, 0⟩ = some (Sample.output Sample.account) := by
  obtain ⟨cells, j, hret, hmem, -, hutxoset, -⟩ := pullUntil_eq_live Sample.account
    { cellbaseMaturity := 4, confirmationBlocks := 0 } (History.still sampleChain)
    ⟨"http://127.0.0.1:8114"⟩ sampleChain (Sample.block 11 10 1 []).header (by decide)
    ⟨by decide, by decide⟩ 0 (fun _ _ _ _ => rfl) (by decide)
  refine ⟨cells, j, hret, ?_, ?_⟩
  · rw [hmem]
    rintro ⟨b, k, o, -, -, -, hun⟩
    exact absurd hun (by decide)
  · rw [hutxoset]
    refine ⟨_, 1, ⟨List.mem_cons_of_mem _ List.mem_cons_self, ⟨_, rfl, rfl, rfl⟩, rfl, ?_⟩, by simp⟩
    decide

end Account

end TpsBench
