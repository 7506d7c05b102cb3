/-
  `miner.rs`: `assert_block_assembler`, with which `spawn_miner` (`threads.rs`) begins, and
  `generate_blocks`.

  Model. The cellbase of a template is asked for with the template, so `Cellbases` gives it by call
  number, as a `History` does for what else a node answers. The loop of `assert_block_assembler`
  takes fuel, one unit a round; a round that finds no output makes three calls.

  The first blocks of a chain have no output in their cellbase. `assert_block_assembler` mines them
  itself until a template has one, and only then can it compare.

  What is the check for? `main.rs` next tops up the miner's account, by mining. If the node's blocks
  pay somebody else, nothing ever comes of it.

  * `assertBlockAssembler_ends`: it mines as many blocks as the chain is short of, and no more.
  * `checked_iff_topUp_ends`: it returns exactly if the top-up of a poor account ends.
-/
import TpsBench.Threads.TopUpEnds

namespace TpsBench

open Lib Account

variable {T : BlockTree} {miner : Miner} {account : Account} {w : History T} {i j n r t u fuel : ℕ}

/-- The cellbase of the template that a call gets, by call number. -/
abbrev Cellbases := ℕ → TransactionView

namespace Miner

/-! ## The program -/

/-- `get_block_template(None, None, None).cellbase`. -/
def templateCellbase (cellbases : Cellbases) : Rpc T TransactionView :=
  fun _ i => .ok (cellbases i, i + 1)

/-- The lock script of the first cellbase that has an output, within `fuel` rounds. -/
def blockAssemblerLockScript (miner : Miner) (cellbases : Cellbases) :
    ℕ → Rpc T (Option Script)
  | 0 => return none
  | fuel + 1 => do
    let cellbase ← templateCellbase cellbases
    match cellbase.outputs[0]? with
    | some output => return some output.lock
    | none =>
      let _ ← miner.generateBlock
      blockAssemblerLockScript miner cellbases fuel

/-- Does the function return within `fuel` rounds? The text of the panic goes on with both lock
    scripts. -/
def assertBlockAssembler (miner : Miner) (account : Account) (cellbases : Cellbases) (fuel : ℕ) :
    Rpc T Bool := do
  match ← miner.blockAssemblerLockScript cellbases fuel with
  | some lock =>
    if account.lockScript = lock then return true
    else Rpc.raise (.text "assertion failed: `(left == right)`")
  | none => return false

/-- `generate_blocks`, of `MineMode` (`main.rs`). -/
def generateBlocks (miner : Miner) : ℕ → Rpc T Unit
  | 0 => return ()
  | n + 1 => do
    let _ ← miner.generateBlock
    generateBlocks miner n

/-! ## One round -/

theorem returns_templateCellbase {cellbases : Cellbases} {a : TransactionView} :
    (templateCellbase cellbases : Rpc T _).Returns w i a j ↔ a = cellbases i ∧ j = i + 1 := by
  show Except.ok (cellbases i, i + 1) = Except.ok (a, j) ↔ _
  rw [Except.ok.injEq, Prod.mk.injEq, eq_comm, @eq_comm _ (i + 1)]

/-- An attempt comes to an end, whatever the node says. -/
theorem generateBlock_returns (miner : Miner) (w : History T) (t : ℕ) :
    ∃ mined, miner.generateBlock.Returns w t mined (t + 2) := by
  cases haccepts : (w (t + 1) miner.net.first).accepts
      (toString (w t miner.net.first).getBlockTemplate.workId)
      (w t miner.net.first).getBlockTemplate <;>
    exact ⟨_, Rpc.returns_bind.mpr ⟨_, _, Jsonrpc.returns_getBlockTemplate.mpr ⟨rfl, rfl⟩,
      Rpc.returns_bind.mpr ⟨_, _, Jsonrpc.returns_submitBlock.mpr ⟨haccepts.symm, rfl⟩,
        Rpc.returns_pure.mpr ⟨rfl, rfl⟩⟩⟩⟩

theorem generateBlocks_returns (miner : Miner) (w : History T) (n i : ℕ) :
    (miner.generateBlocks n).Returns w i () (i + 2 * n) := by
  induction n generalizing i with
  | zero => exact Rpc.returns_pure.mpr ⟨rfl, rfl⟩
  | succ n ih =>
    obtain ⟨mined, hmined⟩ := generateBlock_returns miner w i
    refine Rpc.returns_bind.mpr ⟨mined, _, hmined, ?_⟩
    rw [show i + 2 * (n + 1) = i + 2 + 2 * n by omega]
    exact ih (i + 2)

/-- The rounds before `r` find no output, and round `r` finds this one. -/
theorem blockAssemblerLockScript_returns {cellbases : Cellbases} {output : CellOutput}
    (hbefore : ∀ k < r, (cellbases (i + 3 * k)).outputs[0]? = none)
    (hfound : (cellbases (i + 3 * r)).outputs[0]? = some output) (hfuel : r < fuel) :
    (miner.blockAssemblerLockScript cellbases fuel).Returns w i (some output.lock)
      (i + 3 * r + 1) := by
  obtain ⟨fuel, rfl⟩ := Nat.exists_eq_succ_of_ne_zero (Nat.ne_zero_of_lt hfuel)
  induction r generalizing i fuel with
  | zero =>
    refine Rpc.returns_bind.mpr ⟨_, _, returns_templateCellbase.mpr ⟨rfl, rfl⟩, ?_⟩
    rw [show (cellbases i).outputs[0]? = some output from hfound]
    exact Rpc.returns_pure.mpr ⟨rfl, rfl⟩
  | succ r ih =>
    obtain ⟨fuel, rfl⟩ := Nat.exists_eq_succ_of_ne_zero
      (Nat.ne_zero_of_lt (Nat.lt_of_succ_lt_succ hfuel))
    obtain ⟨mined, hmined⟩ := generateBlock_returns miner w (i + 1)
    refine Rpc.returns_bind.mpr ⟨_, _, returns_templateCellbase.mpr ⟨rfl, rfl⟩, ?_⟩
    rw [show (cellbases i).outputs[0]? = none from hbefore 0 (Nat.succ_pos r)]
    refine Rpc.returns_bind.mpr ⟨mined, _, hmined, ?_⟩
    have hnext : ∀ k, i + 3 * (k + 1) = i + 1 + 2 + 3 * k := fun k => by omega
    rw [hnext]
    refine ih (fun k hk => ?_) ?_ fuel (Nat.lt_of_succ_lt_succ hfuel)
    · rw [← hnext]
      exact hbefore (k + 1) (Nat.succ_lt_succ hk)
    · rw [← hnext]
      exact hfound

theorem exists_of_blockAssemblerLockScript {cellbases : Cellbases} {lock : Script}
    (h : (miner.blockAssemblerLockScript cellbases fuel).Returns w i (some lock) j) :
    ∃ t, j = t + 1 ∧ (cellbases t).outputs[0]?.map CellOutput.lock = some lock := by
  induction fuel generalizing i with
  | zero => cases (Rpc.returns_pure.mp h).1
  | succ fuel ih =>
    obtain ⟨cellbase, k, hcall, h⟩ := Rpc.returns_bind.mp h
    obtain ⟨rfl, rfl⟩ := returns_templateCellbase.mp hcall
    cases houtput : (cellbases i).outputs[0]? with
    | none =>
      rw [houtput] at h
      obtain ⟨mined, k, -, hrest⟩ := Rpc.returns_bind.mp h
      exact ih hrest
    | some output =>
      rw [houtput] at h
      obtain ⟨hsome, rfl⟩ := Rpc.returns_pure.mp h
      exact ⟨i, rfl, by rw [houtput, hsome]; rfl⟩

theorem exists_of_assertBlockAssembler {cellbases : Cellbases}
    (h : (miner.assertBlockAssembler account cellbases fuel).Returns w i true j) :
    ∃ t, j = t + 1 ∧ (cellbases t).outputs[0]?.map CellOutput.lock = some account.lockScript := by
  obtain ⟨found, k, hfound, h⟩ := Rpc.returns_bind.mp h
  cases found with
  | none => cases (Rpc.returns_pure.mp h).1
  | some lock =>
    dsimp only at h
    split at h
    next hlock =>
      obtain ⟨-, rfl⟩ := Rpc.returns_pure.mp h
      exact exists_of_blockAssemblerLockScript (hlock ▸ hfound)
    next => exact absurd h Rpc.returns_raise

/-! ## The check -/

/-- The chain of the first endpoint at call `t`. -/
def tip (miner : Miner) (w : History T) (t : ℕ) : ℕ := (w t miner.net.first).chain.tipNumber

theorem tip_mono (hgrow : Grows w miner.net.first) (htu : t ≤ u) :
    miner.tip w t ≤ miner.tip w u := by
  have hlen := (hgrow.prefix_of_le htu).length_le
  rw [Chain.length_eq, Chain.length_eq] at hlen
  exact Nat.le_of_succ_le_succ hlen

/-- A template's cellbase pays to `lock`, once the chain has `delay` blocks above the genesis
    block. -/
def Finalizes (miner : Miner) (w : History T) (cellbases : Cellbases) (delay : ℕ)
    (lock : Script) : Prop :=
  ∀ t, (cellbases t).outputs[0]?.map CellOutput.lock =
    if miner.tip w t < delay then none else some lock

/-- The script of such a node is found once its chain is long enough. -/
theorem Finalizes.returns {cellbases : Cellbases} {delay : ℕ} {lock : Script}
    (h : miner.Finalizes w cellbases delay lock)
    (hshort : ∀ k < r, miner.tip w (i + 3 * k) < delay) (hlong : delay ≤ miner.tip w (i + 3 * r))
    (hfuel : r < fuel) :
    (miner.blockAssemblerLockScript cellbases fuel).Returns w i (some lock) (i + 3 * r + 1) := by
  have hbefore : ∀ k < r, (cellbases (i + 3 * k)).outputs[0]? = none := by
    intro k hk
    have hnone := h (i + 3 * k)
    rw [if_pos (hshort k hk)] at hnone
    exact Option.map_eq_none_iff.mp hnone
  have hfound := h (i + 3 * r)
  rw [if_neg hlong.not_gt] at hfound
  obtain ⟨output, houtput, rfl⟩ := Option.map_eq_some_iff.mp hfound
  exact blockAssemblerLockScript_returns hbefore houtput hfuel

/-- As long as the chain is short, each round adds a block. -/
theorem tip_rounds (hgrow : Grows w miner.net.first) {delay : ℕ}
    (hmines : ∀ k, miner.tip w (i + 3 * k) < delay → miner.Mines w (i + 3 * k + 1))
    (hshort : ∀ k < r, miner.tip w (i + 3 * k) < delay) :
    miner.tip w i + r ≤ miner.tip w (i + 3 * r) := by
  induction r with
  | zero => exact le_rfl
  | succ r ih =>
    have hr := ih fun k hk => hshort k (Nat.lt_succ_of_lt hk)
    have hmined : miner.tip w (i + 3 * r + 1) < miner.tip w (i + 3 * r + 1 + 2) :=
      (hmines r (hshort r (Nat.lt_succ_self r))).2
    have hstart : miner.tip w (i + 3 * r) ≤ miner.tip w (i + 3 * r + 1) :=
      tip_mono hgrow (Nat.le_succ _)
    rw [show i + 3 * (r + 1) = i + 3 * r + 1 + 2 by omega]
    omega

/-- The first round with a long enough chain. -/
theorem exists_round (hgrow : Grows w miner.net.first) {delay : ℕ}
    (hmines : ∀ k, miner.tip w (i + 3 * k) < delay → miner.Mines w (i + 3 * k + 1)) :
    ∃ r, r ≤ delay - miner.tip w i ∧ delay ≤ miner.tip w (i + 3 * r) ∧
      ∀ k < r, miner.tip w (i + 3 * k) < delay := by
  have hlong : ∃ r, delay ≤ miner.tip w (i + 3 * r) := by
    by_contra hshort
    push Not at hshort
    have hrounds := tip_rounds hgrow hmines fun k (_ : k < delay) => hshort k
    have hlast := hshort delay
    omega
  have hleast : ∀ k < Nat.find hlong, miner.tip w (i + 3 * k) < delay :=
    fun k hk => Nat.lt_of_not_le (Nat.find_min hlong hk)
  refine ⟨Nat.find hlong, ?_, Nat.find_spec hlong, hleast⟩
  by_contra hlate
  have hrounds := tip_rounds hgrow hmines fun k hk => hleast k (hk.trans (Nat.not_le.mp hlate))
  have hlast := hleast _ (Nat.not_le.mp hlate)
  omega

end Miner

/-- **The miner's check ends.** Take a node that pays the cellbase to `lock` once its chain has
    `delay` blocks, and that accepts the blocks mined until then. `assert_block_assembler` mines as
    long as the chain is shorter, and at most as many blocks as it lacks. Then it returns if `lock`
    is the miner's, and else it panics. -/
theorem assertBlockAssembler_ends (miner : Miner) (account : Account) (w : History T)
    (cellbases : Cellbases) (hgrow : Grows w miner.net.first) (delay : ℕ) (lock : Script)
    (hfinal : miner.Finalizes w cellbases delay lock) (i : ℕ)
    (hmines : ∀ k, miner.tip w (i + 3 * k) < delay → miner.Mines w (i + 3 * k + 1)) :
    ∃ r, r ≤ delay - miner.tip w i ∧ delay ≤ miner.tip w (i + 3 * r) ∧
      (∀ k < r, miner.tip w (i + 3 * k) < delay) ∧
      ∀ fuel, r < fuel → miner.assertBlockAssembler account cellbases fuel w i =
        if account.lockScript = lock then .ok (true, i + 3 * r + 1)
        else .error (.text "assertion failed: `(left == right)`") := by
  obtain ⟨r, hle, hlong, hshort⟩ := Miner.exists_round hgrow hmines
  refine ⟨r, hle, hlong, hshort, fun fuel hfuel => ?_⟩
  unfold Miner.assertBlockAssembler
  rw [(hfinal.returns hshort hlong hfuel).bind_eq]
  dsimp only
  split <;> rfl

/-! ## The check and the top-up -/

/-- What the account's cells hold that `bs` creates and does not spend. -/
def wealth (account : Account) (bs : List BlockView) : ℕ :=
  (((bs.flatMap account.owned).filter fun u => Unspent bs u.outPoint).map UTXO.capacity).sum

/-- Above height `N` the first transaction of every block gives `c` shannons or more to `lock`, and
    no transaction spends a cell of the account or, if `lock` is not the account's, gives it one. No
    sum overflows. -/
structure MinesFor (g : Global) (account : Account) (net : Net) (w : History T) (N c : ℕ)
    (lock : Script) : Prop where
  pays : ∀ t, ∀ b ∈ (w t net.first).chain.blocks, N < b.number →
    ∃ p o, Creates b 0 p o ∧ o.lock = lock ∧ c ≤ o.capacity
  others : account.lockScript ≠ lock → ∀ t, ∀ b ∈ (w t net.first).chain.blocks, N < b.number →
    account.owned b = []
  spares : ∀ t, ∀ b ∈ (w t net.first).chain.blocks, N < b.number →
    ∀ b' ∈ (w t net.first).chain.blocks, ∀ u ∈ account.owned b', u.outPoint ∉ b.inputPts
  matures : ∀ t, ∀ b ∈ (w t net.first).chain.blocks, NoOverflow g b.number
  fits : ∀ t, (((w t net.first).chain.blocks.flatMap account.owned).map UTXO.capacity).sum < u64Size

section TopUp

variable {config : Config} {g : Global} {N c k : ℕ} {lock : Script} {header : HeaderView}

theorem MinesFor.feeds (h : MinesFor g account config.net w N c lock)
    (hlock : account.lockScript = lock) : Feeds g account config.net w N c where
  pays t b hb hn := by
    obtain ⟨p, o, hcreates, hpaid, hc⟩ := h.pays t b hb hn
    exact ⟨⟨o, p⟩, mem_owned.mpr ⟨⟨0, hcreates⟩, hpaid.trans hlock.symm⟩, hc⟩
  spares := h.spares
  matures := h.matures
  fits := h.fits

/-- Blocks that give the account nothing do not make it richer. -/
theorem Scanned.total_le {st : TopUp} {bs : List BlockView}
    (h : Scanned config g account w ((w t config.net.first).chain.upTo N).blocks N t st bs)
    (hvalid : ValidBlocks (w t config.net.first).chain.blocks)
    (hM : ∀ b ∈ (w t config.net.first).chain.blocks, NoOverflow g b.number)
    (hnone : ∀ b ∈ bs, account.owned b = []) :
    getTotalCapacityFromUtxo st.cells.utxoset ≤
      wealth account ((w t config.net.first).chain.upTo N).blocks := by
  unfold getTotalCapacityFromUtxo wealth
  refine (Nat.mod_le _ _).trans (le_of_le_of_eq (HashMap.sum_le_of_mem (f := CellOutput.capacity)
    (l := ((((w t config.net.first).chain.upTo N).blocks.flatMap account.owned).filter fun u =>
      Unspent ((w t config.net.first).chain.upTo N).blocks u.outPoint).map UTXO.entry) ?_) ?_)
  · intro p o hlook
    obtain ⟨x, k, hcell, -⟩ := ((h.live hvalid hM).utxoset p o).mp hlook
    obtain ⟨hx, hcreates, hlock, hunspent⟩ := hcell
    refine UTXO.mem_map_entry.mpr (List.mem_filter.mpr ⟨?_, decide_eq_true fun b hb =>
      hunspent b (List.mem_append_left _ hb)⟩)
    rcases List.mem_append.mp hx with hx | hx
    · exact List.mem_flatMap.mpr ⟨x, hx, mem_owned.mpr ⟨⟨k, hcreates⟩, hlock⟩⟩
    · obtain ⟨b, hb, rfl⟩ := List.mem_map.mp hx
      have howned : (⟨o, p⟩ : UTXO) ∈ account.owned b :=
        mem_owned.mpr ⟨⟨k, BlockView.creates_settled.mp hcreates⟩, hlock⟩
      rw [hnone b hb] at howned
      exact absurd howned List.not_mem_nil
  · rw [List.map_map]
    rfl

/-- An account that is poor and that nobody pays is never topped up, however long the loop mines. -/
theorem MinesFor.not_spawns (h : MinesFor g account config.net w header.number c lock)
    (hlock : account.lockScript ≠ lock) (hminer : miner.net.first = config.net.first)
    (hgrow : Grows w config.net.first)
    (hvalid : ∀ t, ValidBlocks (w t config.net.first).chain.blocks)
    (htip : (config.net.getConfirmedTipHeader g).Returns w i header k)
    (hpoor : wealth account ((w k config.net.first).chain.upTo header.number).blocks <
      config.ensureMaturedCapacityGreaterThan) {orders : Orders} {spawned : Spawned} :
    ¬ (spawnPullUtxos config g account miner orders fuel).Returns w i (some spawned) j := by
  intro hspawn
  obtain ⟨hN, cells, hscan, hstart⟩ := fed_start hgrow htip account c
  obtain ⟨header', k', htip', hspawn⟩ := Rpc.returns_bind.mp hspawn
  obtain ⟨rfl, rfl⟩ := htip'.unique htip
  obtain ⟨cells', t', hscan', hspawn⟩ := Rpc.returns_bind.mp hspawn
  obtain ⟨rfl, rfl⟩ := hscan'.unique hscan
  obtain ⟨r, j', htop, hrest⟩ := Rpc.returns_bind.mp hspawn
  cases r with
  | none => cases (Rpc.returns_pure.mp hrest).1
  | some st =>
    -- at the end of the loop, as at its start, the maps hold what was scanned
    have hend : k' + (header'.number + 1) ≤ j' ∧
        (∃ bs, Scanned config g account w
          ((w k' config.net.first).chain.upTo header'.number).blocks header'.number j' st bs) ∧
        st.totalCapacity = getTotalCapacityFromUtxo st.cells.utxoset :=
      topUp_induction (P := fun t st => (∃ bs, Scanned config g account w
          ((w k' config.net.first).chain.upTo header'.number).blocks header'.number t st bs) ∧
        st.totalCapacity = getTotalCapacityFromUtxo st.cells.utxoset)
        (fun _ _ _ _ _ ⟨⟨_, hscanned⟩, htotal⟩ hstep =>
          ⟨hscanned.step hminer hgrow (Chain.upTo_length hN) hstep, by cases hstep <;> trivial⟩)
        ⟨hstart.scanned, hstart.total⟩ htop
    obtain ⟨hle, ⟨bs, hscanned⟩, htotal⟩ := hend
    have hrich := topUp_enough htop
    rw [← hgrow.upTo_blocks (show k' ≤ j' by omega) hN] at hscanned hpoor
    have htotal_le := hscanned.total_le (hvalid j') (h.matures j') fun b hb =>
      h.others hlock j' b (hscanned.onChain.subset (List.mem_append_right _ hb))
        (hscanned.above b hb)
    omega

end TopUp

/-- **What the check is for.** Take a node that mines for `lock`, accepts the blocks of the check
    and as many more as the top-up needs at most, and an account with too little. Then
    `assert_block_assembler` returns if and only if the top-up loop of `spawn_pull_utxos` ends:
    where the check panics, the loop would mine for somebody else for ever. -/
theorem checked_iff_topUp_ends (config : Config) (g : Global) (account : Account) (miner : Miner)
    (w : History T) (hminer : miner.net.first = config.net.first)
    (hgrow : Grows w config.net.first)
    (hvalid : ∀ t, ValidBlocks (w t config.net.first).chain.blocks)
    (cellbases : Cellbases) (delay : ℕ) (lock : Script)
    (hfinal : miner.Finalizes w cellbases delay lock) (i₀ : ℕ)
    (hchecks : ∀ n, miner.tip w (i₀ + 3 * n) < delay → miner.Mines w (i₀ + 3 * n + 1))
    (i k c : ℕ) (header : HeaderView)
    (htip : (config.net.getConfirmedTipHeader g).Returns w i header k) (hc : 0 < c)
    (hmines : MinesFor g account config.net w header.number c lock)
    (hpoor : wealth account ((w k config.net.first).chain.upTo header.number).blocks <
      config.ensureMaturedCapacityGreaterThan)
    (haccepts : ∀ n < topUpBound config g c, miner.Mines w (k + (header.number + 1) + 3 * n))
    (orders : Orders) :
    (∃ fuel j, (miner.assertBlockAssembler account cellbases fuel).Returns w i₀ true j) ↔
      ∃ fuel spawned j,
        (spawnPullUtxos config g account miner orders fuel).Returns w i (some spawned) j := by
  constructor
  · rintro ⟨fuel, j, hcheck⟩
    obtain ⟨t, -, hfound⟩ := Miner.exists_of_assertBlockAssembler hcheck
    have hlock : account.lockScript = lock := by
      have hpaid := hfinal t
      rw [hfound] at hpaid
      split at hpaid
      · cases hpaid
      · exact Option.some.inj hpaid
    exact ⟨_, (hmines.feeds hlock).spawns hgrow htip hvalid hc hminer haccepts orders le_rfl⟩
  · rintro ⟨fuel, spawned, j, hspawn⟩
    have hlock : account.lockScript = lock := by
      by_contra hlock
      exact hmines.not_spawns hlock hminer hgrow hvalid htip hpoor hspawn
    obtain ⟨r, -, hlong, hshort⟩ := Miner.exists_round (hminer ▸ hgrow) hchecks
    refine ⟨r + 1, i₀ + 3 * r + 1, Rpc.returns_bind.mpr ⟨_, _,
      hfinal.returns hshort hlong (Nat.lt_succ_self r), ?_⟩⟩
    dsimp only
    rw [if_pos hlock]
    exact Rpc.returns_pure.mpr ⟨rfl, rfl⟩

/-! ## A sample run -/

namespace Sample

/-- Before block 3 no cellbase has an output. -/
def assembledBlocks : List BlockView :=
  [Sample.block 10 0 0 [],
   Sample.block 11 10 1 [{ Sample.cellbase 101 Sample.account with outputs := [] }],
   Sample.block 12 11 2 [{ Sample.cellbase 102 Sample.account with outputs := [] }],
   Sample.block 13 12 3 [Sample.cellbase 103 Sample.account],
   Sample.block 14 13 4 [Sample.cellbase 104 Sample.account]]

def assembledChain : Chain (BlockTree.ofList assembledBlocks) where
  blocks := assembledBlocks
  genesis := by decide
  follows := by decide
  mem_tree := by decide

/-- Blocks 1 and 2 come in the first six calls, blocks 3 and 4 after call 14. -/
def minedTip (t : ℕ) : ℕ := min 2 (t / 3) + min 2 ((t - 12) / 3)

theorem minedTip_le (t : ℕ) : minedTip t ≤ 4 := by
  unfold minedTip
  omega

def minedHistory : History (BlockTree.ofList assembledBlocks) := .growing assembledChain minedTip

theorem grows_minedHistory (rpc : Jsonrpc) : Grows minedHistory rpc :=
  grows_growing assembledChain (fun t => by unfold minedTip; omega) rpc

def minerOfConfig : Miner := ⟨topUpConfig.net⟩

theorem tip_minedHistory (t : ℕ) : minerOfConfig.tip minedHistory t = minedTip t := by
  have htip : assembledChain.tipNumber = 4 := by decide
  have hle := minedTip_le t
  have hlen := Chain.length_eq (assembledChain.upTo (minedTip t))
  rw [Chain.upTo_length (by omega)] at hlen
  exact (Nat.succ.inj hlen).symm

theorem mines_minedHistory {t : ℕ} (h : minedTip t < minedTip (t + 2)) :
    minerOfConfig.Mines minedHistory t := by
  have hbefore := tip_minedHistory t
  have hafter := tip_minedHistory (t + 2)
  unfold Miner.tip at hbefore hafter
  exact ⟨rfl, by omega⟩

/-- Above block 2 a cellbase pays to the account. -/
def payingCellbases : Cellbases := fun t =>
  { hash := t
    inputs := []
    outputs := if t < 6 then [] else [{ capacity := 1, lock := Sample.account.lockScript }] }

theorem finalizes_payingCellbases :
    minerOfConfig.Finalizes minedHistory payingCellbases 2 Sample.account.lockScript := by
  intro t
  unfold payingCellbases
  rw [tip_minedHistory, minedTip]
  by_cases hearly : t < 6
  · rw [if_pos hearly, if_pos (by omega)]
    rfl
  · rw [if_neg hearly, if_neg (by omega)]
    rfl

theorem mines_of_short (k : ℕ) (hshort : minerOfConfig.tip minedHistory (0 + 3 * k) < 2) :
    minerOfConfig.Mines minedHistory (0 + 3 * k + 1) := by
  rw [tip_minedHistory, minedTip] at hshort
  refine mines_minedHistory ?_
  unfold minedTip
  omega

theorem minesFor_minedHistory {account : Account}
    (haccount : account = Sample.account ∨ account = Sample.stranger) :
    MinesFor ⟨0, 0⟩ account topUpConfig.net minedHistory 2 100 Sample.account.lockScript where
  pays t b hb hn := by
    have hall : ∀ b ∈ assembledBlocks, 2 < b.number →
      b.transactions[0]? = some (Sample.cellbase (100 + b.number) Sample.account) := by decide
    have hfirst := hall b (List.mem_of_mem_take hb) hn
    exact ⟨⟨100 + b.number, 0⟩, Sample.output Sample.account, ⟨_, hfirst, rfl, rfl⟩, rfl, le_rfl⟩
  others hlock t b hb _ := by
    have hall : ∀ b ∈ assembledBlocks, Sample.stranger.owned b = [] := by decide
    rcases haccount with rfl | rfl
    · exact absurd rfl hlock
    · exact hall b (List.mem_of_mem_take hb)
  spares t b hb hn b' hb' := by
    have hall : ∀ b ∈ assembledBlocks, ∀ b' ∈ assembledBlocks, ∀ u ∈ account.owned b',
      u.outPoint ∉ b.inputPts := by rcases haccount with rfl | rfl <;> decide
    exact hall b (List.mem_of_mem_take hb) b' (List.mem_of_mem_take hb')
  matures t b hb := by
    have hall : ∀ b ∈ assembledBlocks, b.number + 1800 * 0 < u64Size := by decide
    exact hall b (List.mem_of_mem_take hb)
  fits t := by
    have hsub := (List.take_sublist (minedTip t + 1) assembledBlocks).flatMap account.owned
    have hall : ((assembledBlocks.flatMap account.owned).map UTXO.capacity).sum < u64Size := by
      rcases haccount with rfl | rfl <;> decide
    exact ((hsub.map UTXO.capacity).sum_le_sum fun _ _ => Nat.zero_le _).trans_lt hall

end Sample

/-- Two rounds mine, and the third compares. -/
theorem assertBlockAssembler_ends_sample :
    ∃ r, r ≤ 2 ∧ ∀ fuel, r < fuel → Sample.minerOfConfig.assertBlockAssembler Sample.account
      Sample.payingCellbases fuel Sample.minedHistory 0 = .ok (true, 0 + 3 * r + 1) := by
  obtain ⟨r, hle, -, -, hends⟩ := assertBlockAssembler_ends Sample.minerOfConfig Sample.account
    Sample.minedHistory Sample.payingCellbases (Sample.grows_minedHistory _) 2 _
    Sample.finalizes_payingCellbases 0 Sample.mines_of_short
  rw [if_pos rfl] at hends
  exact ⟨r, hle.trans (Nat.sub_le _ _), hends⟩

/-- The check returns at call 7, and the top-up from then on mines and pulls blocks 3 and 4. For
    another account the check would not have returned, and no top-up ends. -/
theorem checked_iff_topUp_ends_sample :
    (Sample.minerOfConfig.assertBlockAssembler Sample.account Sample.payingCellbases 3).Returns
      Sample.minedHistory 0 true 7 ∧
    (∃ fuel spawned j, (spawnPullUtxos topUpConfig ⟨0, 0⟩ Sample.account Sample.minerOfConfig
      .stored fuel).Returns Sample.minedHistory 7 (some spawned) j) ∧
    ∀ fuel spawned j, ¬ (spawnPullUtxos topUpConfig ⟨0, 0⟩ Sample.stranger Sample.minerOfConfig
      .stored fuel).Returns Sample.minedHistory 7 (some spawned) j := by
  have hiff : ∀ account, account = Sample.account ∨ account = Sample.stranger →
      ((∃ fuel j, (Sample.minerOfConfig.assertBlockAssembler account Sample.payingCellbases
          fuel).Returns Sample.minedHistory 0 true j) ↔
        ∃ fuel spawned j, (spawnPullUtxos topUpConfig ⟨0, 0⟩ account Sample.minerOfConfig
          .stored fuel).Returns Sample.minedHistory 7 (some spawned) j) := by
    intro account haccount
    have hvalid : ValidBlocks Sample.assembledBlocks := ⟨by decide, by decide⟩
    refine checked_iff_topUp_ends topUpConfig ⟨0, 0⟩ account Sample.minerOfConfig
      Sample.minedHistory rfl (Sample.grows_minedHistory _)
      (fun t => hvalid.sublist (List.take_sublist _ _)) Sample.payingCellbases 2 _
      Sample.finalizes_payingCellbases 0 Sample.mines_of_short 7 10 100 _ rfl (by decide)
      (Sample.minesFor_minedHistory haccount) ?_ (fun n hn => ?_) .stored
    · rcases haccount with rfl | rfl <;> decide
    · have hbound : topUpBound topUpConfig ⟨0, 0⟩ 100 = 2 := by decide
      rw [hbound] at hn
      refine Sample.mines_minedHistory ?_
      show Sample.minedTip (13 + 3 * n) < Sample.minedTip (13 + 3 * n + 2)
      unfold Sample.minedTip
      omega
  have hcheck : (Sample.minerOfConfig.assertBlockAssembler Sample.account Sample.payingCellbases
      3).Returns Sample.minedHistory 0 true 7 := by rfl
  refine ⟨hcheck, (hiff _ (.inl rfl)).mp ⟨3, 7, hcheck⟩, fun fuel spawned j h => ?_⟩
  obtain ⟨fuel, j, hcheck⟩ := (hiff _ (.inr rfl)).mpr ⟨fuel, spawned, j, h⟩
  obtain ⟨t, -, hlock⟩ := Miner.exists_of_assertBlockAssembler hcheck
  rw [Sample.finalizes_payingCellbases t] at hlock
  split at hlock
  · cases hlock
  · revert hlock
    decide

end TpsBench
