/-
  `threads.rs`: `spawn_pull_utxos` and the thread it starts.

  Model (read this before the theorems). `spawnPullUtxos` is the part that runs before the thread:
  the confirmed tip, the full scan, the top-up loop and the two lists. `pullThread` is the thread:
  it sends the matured list and then runs `pull_forever` from the header of the full scan. The
  top-up loop mines until the account is rich enough, which no bound on the chain gives, so `topUp`
  takes fuel and is `none` when it runs out. Nothing is proved of a run that does not end.

  Other threads run meanwhile (the background miner, the benchmark). What they do shows in the
  history only: each call sees whatever the chain is by then.

  `TopUp.pulled` records the heights the loop has pulled. The source keeps no such list; it is
  there for the theorems.

  * `TopUpStep`, `topUp_induction`: what one iteration of the loop can do, and invariants over it.
  * `spawnPullUtxos_cases`: a run of the whole, taken apart.
-/
import TpsBench.Account.PullForever
import TpsBench.Account.PullFrom
import TpsBench.Miner

namespace TpsBench

open Lib

variable {T : BlockTree}

/-! ## The program -/

/-- The settings that `spawn_pull_utxos` reads. -/
structure Config where
  rpcUrls : List String
  connected : rpcUrls ≠ []
  ensureMaturedCapacityGreaterThan : ℕ

/-- `Net::connect_all(config.rpc_urls())`. -/
def Config.net (config : Config) : Net := .connectAll config.rpcUrls config.connected

/-- The iteration orders of the hash maps: at each pull of the top-up loop, and when the lists are
    made. -/
structure Orders where
  pulls : ℕ → PendingOrder
  utxoset : IterOrder (OutPoint × CellOutput)
  unmatureds : PendingOrder

def Orders.stored : Orders := ⟨fun _ => .stored _, .stored _, .stored _⟩

/-- The sum of the capacities, in u64. It does not depend on the order. -/
def getTotalCapacityFromUtxo (utxoset : HashMap OutPoint CellOutput) : ℕ :=
  (utxoset.entries.map fun e => e.2.capacity).sum % u64Size

/-- The variables of the top-up loop, and the heights it has pulled. -/
structure TopUp where
  cells : Cells
  totalCapacity : ℕ
  pulled : List ℕ

/-- The variables before the first iteration. -/
def TopUp.start (cells : Cells) : TopUp :=
  { cells, totalCapacity := getTotalCapacityFromUtxo cells.utxoset, pulled := [] }

/-- The variables after the block at height `blockNumber` was pulled. -/
def TopUp.pull (st : TopUp) (blockNumber : ℕ) (cells : Cells) : TopUp where
  cells := cells
  totalCapacity := getTotalCapacityFromUtxo cells.utxoset
  pulled := st.pulled ++ [blockNumber]

/-- One iteration of the top-up loop. -/
def topUpIter (config : Config) (g : Global) (account : Account) (miner : Miner)
    (ord : PendingOrder) (st : TopUp) : Rpc T TopUp := do
  match ← miner.generateBlock with
  | some blockNumber =>
    let cells ← account.pullFromBlockNumber g ord config.net blockNumber st.cells
    return st.pull blockNumber cells
  | none => return st

/-- The top-up loop. -/
def topUp (config : Config) (g : Global) (account : Account) (miner : Miner)
    (ords : ℕ → PendingOrder) : ℕ → TopUp → Rpc T (Option TopUp)
  | 0, st =>
    return if st.totalCapacity < config.ensureMaturedCapacityGreaterThan then none else some st
  | fuel + 1, st =>
    if st.totalCapacity < config.ensureMaturedCapacityGreaterThan then do
      let st ← topUpIter config g account miner (ords fuel) st
      topUp config g account miner ords fuel st
    else return some st

/-- What `spawn_pull_utxos` hands to its thread, and the top-up loop's variables at its end. -/
structure Spawned where
  currentHeader : HeaderView
  matureds : List UTXO
  unmatureds : List (ℕ × UTXO)
  topUp : TopUp

def spawnPullUtxos (config : Config) (g : Global) (account : Account) (miner : Miner)
    (orders : Orders) (fuel : ℕ) : Rpc T (Option Spawned) := do
  let net := config.net
  let currentHeader ← net.getConfirmedTipHeader g
  let cells ← account.pullUntil g net.first currentHeader
  match ← topUp config g account miner orders.pulls fuel (.start cells) with
  | some topUp =>
    let (matureds, unmatureds) :=
      Account.constructUtxoVec orders.utxoset orders.unmatureds topUp.cells
    return some { currentHeader, matureds, unmatureds, topUp }
  | none => return none

/-- The state that `pull_forever` starts in, once the matured UTXOs are sent. -/
def Spawned.start (spawned : Spawned) : PullState where
  currentHeader := spawned.currentHeader
  unmatureds := spawned.unmatureds
  sent := spawned.matureds.map (Sent.mk spawned.currentHeader)

/-- The thread, for `n` iterations of `pull_forever`. A failed send of a matured UTXO panics the
    thread, which has then sent what it had. -/
def pullThread (config : Config) (g : Global) (account : Account) (recv : Receiver)
    (spawned : Spawned) (n : ℕ) : Rpc T (Except (List Sent) PullState) :=
  match sendAll recv spawned.currentHeader spawned.matureds [] with
  | .ok sent => account.pullForever g recv config.net n
      { currentHeader := spawned.currentHeader, unmatureds := spawned.unmatureds, sent }
  | .error sent => return .error sent

/-! ## The top-up loop -/

/-- What one iteration, whose first call is number `i`, can come to: the state and the number of
    the next call. -/
inductive TopUpStep (config : Config) (g : Global) (account : Account) (miner : Miner)
    (w : History T) (i : ℕ) (st : TopUp) : TopUp → ℕ → Prop
  /-- The node refused the block. -/
  | refused : TopUpStep config g account miner w i st st (i + 2)
  /-- The block at the template's height is pulled, whoever mined it. -/
  | pulled {b : BlockView} (ord : PendingOrder)
      (hb : (w (i + 2) config.net.first).chain.blocks[(w i miner.net.first).chain.tipNumber + 1]? =
        some b) :
      TopUpStep config g account miner w i st
        (st.pull b.number (account.pullFromBlock g ord b.number b st.cells)) (i + 3)

section Run

variable {config : Config} {g : Global} {account : Account} {miner : Miner} {w : History T}
  {i j : ℕ}

theorem topUpStep_of_returns {ord : PendingOrder} {st st' : TopUp}
    (h : (topUpIter config g account miner ord st).Returns w i st' j) :
    TopUpStep config g account miner w i st st' j := by
  obtain ⟨r, k, hgen, h⟩ := Rpc.returns_bind.mp h
  obtain ⟨rfl, hnumber⟩ := Miner.generateBlock_spec hgen
  cases r with
  | none =>
    obtain ⟨rfl, rfl⟩ := Rpc.returns_pure.mp h
    exact .refused
  | some n =>
    obtain ⟨cells, k, hpull, h⟩ := Rpc.returns_bind.mp h
    obtain ⟨rfl, rfl⟩ := Rpc.returns_pure.mp h
    obtain ⟨body, k', hcall, h⟩ := Rpc.returns_bind.mp hpull
    obtain ⟨rfl, rfl⟩ := Jsonrpc.returns_getBlockByNumber.mp hcall
    obtain ⟨b, k'', hunwrap, h⟩ := Rpc.returns_bind.mp h
    obtain ⟨hb, rfl⟩ := Rpc.returns_unwrapOr.mp hunwrap
    obtain ⟨rfl, rfl⟩ := Rpc.returns_pure.mp h
    have hn := (w (i + 2) config.net.first).chain.number_eq hb
    rw [hnumber n rfl] at hb
    rw [← hn]
    exact .pulled ord hb

/-- What holds before the loop and across each iteration holds when it ends. An iteration begins
    with too little. -/
theorem topUp_induction_of_poor {P : ℕ → TopUp → Prop} {ords : ℕ → PendingOrder}
    (hstep : ∀ i' st' j' st'', i ≤ i' →
      st'.totalCapacity < config.ensureMaturedCapacityGreaterThan → P i' st' →
      TopUpStep config g account miner w i' st' st'' j' → P j' st'') {fuel : ℕ} {st st' : TopUp}
    (hstart : P i st)
    (h : (topUp config g account miner ords fuel st).Returns w i (some st') j) :
    i ≤ j ∧ P j st' := by
  suffices hall : ∀ i' st₀, i ≤ i' → P i' st₀ →
      (topUp config g account miner ords fuel st₀).Returns w i' (some st') j → i' ≤ j ∧ P j st' from
    hall i st (Nat.le_refl i) hstart h
  clear h hstart
  induction fuel with
  | zero =>
    intro i' st₀ _ hP h
    obtain ⟨heq, rfl⟩ := Rpc.returns_pure.mp h
    split at heq
    · cases heq
    · obtain rfl := Option.some.inj heq
      exact ⟨Nat.le_refl _, hP⟩
  | succ fuel ih =>
    intro i' st₀ hi hP h
    rw [topUp] at h
    split at h
    next hpoor =>
      obtain ⟨st₁, k, hiter, h⟩ := Rpc.returns_bind.mp h
      have hst := topUpStep_of_returns hiter
      have hk : i' ≤ k := by
        cases hst <;> omega
      obtain ⟨hkj, hP'⟩ := ih k st₁ (hi.trans hk) (hstep i' st₀ k st₁ hi hpoor hP hst) h
      exact ⟨hk.trans hkj, hP'⟩
    next =>
      obtain ⟨heq, rfl⟩ := Rpc.returns_pure.mp h
      obtain rfl := Option.some.inj heq
      exact ⟨Nat.le_refl _, hP⟩

/-- The same, whatever an iteration begins with. -/
theorem topUp_induction {P : ℕ → TopUp → Prop} {ords : ℕ → PendingOrder}
    (hstep : ∀ i' st' j' st'', i ≤ i' → P i' st' →
      TopUpStep config g account miner w i' st' st'' j' → P j' st'') {fuel : ℕ} {st st' : TopUp}
    (hstart : P i st) (h : (topUp config g account miner ords fuel st).Returns w i (some st') j) :
    i ≤ j ∧ P j st' :=
  topUp_induction_of_poor (fun i' st' j' st'' hi _ => hstep i' st' j' st'' hi) hstart h

theorem topUp_enough {ords : ℕ → PendingOrder} {fuel : ℕ} {st st' : TopUp}
    (h : (topUp config g account miner ords fuel st).Returns w i (some st') j) :
    config.ensureMaturedCapacityGreaterThan ≤ st'.totalCapacity := by
  induction fuel generalizing i st with
  | zero =>
    obtain ⟨heq, -⟩ := Rpc.returns_pure.mp h
    split at heq
    next => cases heq
    next hrich =>
      obtain rfl := Option.some.inj heq
      exact Nat.not_lt.mp hrich
  | succ fuel ih =>
    rw [topUp] at h
    split at h
    next =>
      obtain ⟨st₁, k, -, hrest⟩ := Rpc.returns_bind.mp h
      exact ih hrest
    next hrich =>
      obtain ⟨heq, -⟩ := Rpc.returns_pure.mp h
      obtain rfl := Option.some.inj heq
      exact Nat.not_lt.mp hrich

/-! ## The whole -/

/-- A run of `spawn_pull_utxos` that ends: a header the first endpoint had at call `t`, the full
    scan for it, the top-up loop, and the lists. -/
theorem spawnPullUtxos_cases {orders : Orders} {fuel : ℕ} {spawned : Spawned}
    (h : (spawnPullUtxos config g account miner orders fuel).Returns w i (some spawned) j) :
    ∃ t t' cells,
      (w t config.net.first).chain.header? spawned.currentHeader.number =
        some spawned.currentHeader ∧
      (account.pullUntil g config.net.first spawned.currentHeader).Returns w (t + 1) cells t' ∧
      (topUp config g account miner orders.pulls fuel (.start cells)).Returns w t'
        (some spawned.topUp) j ∧
      (spawned.matureds, spawned.unmatureds) =
        Account.constructUtxoVec orders.utxoset orders.unmatureds spawned.topUp.cells := by
  obtain ⟨header, k, hheader, h⟩ := Rpc.returns_bind.mp h
  obtain ⟨t, rfl, hseen⟩ := Net.getConfirmedTipHeader_seen hheader
  obtain ⟨cells, t', hscan, h⟩ := Rpc.returns_bind.mp h
  obtain ⟨r, k, htop, h⟩ := Rpc.returns_bind.mp h
  cases r with
  | none => cases (Rpc.returns_pure.mp h).1
  | some st =>
    obtain ⟨heq, rfl⟩ := Rpc.returns_pure.mp h
    obtain rfl := Option.some.inj heq
    exact ⟨t, t', cells, hseen, hscan, htop, rfl⟩

/-- The thread sends the matured UTXOs, all or the first few, and then runs `pull_forever`. -/
theorem pullThread_cases {recv : Receiver} {spawned : Spawned} {n : ℕ}
    {r : Except (List Sent) PullState}
    (h : (pullThread config g account recv spawned n).Returns w i r j) :
    (account.pullForever g recv config.net n spawned.start).Returns w i r j ∨
    ∃ m, r = .error ((spawned.matureds.take m).map (Sent.mk spawned.currentHeader)) := by
  unfold pullThread at h
  rcases sendAll_cases recv spawned.currentHeader spawned.matureds [] with hsend | ⟨m, hsend⟩
  · rw [hsend] at h
    exact Or.inl h
  · rw [hsend] at h
    exact Or.inr ⟨m, (Rpc.returns_pure.mp h).1⟩

end Run

/-! ## A sample chain -/

/-- The account mined blocks 1 and 2, and block 2 has a transfer to it. -/
def topUpBlocks : List BlockView :=
  [Sample.block 10 0 0 [Sample.cellbase 100 Sample.stranger],
   Sample.block 11 10 1 [Sample.cellbase 101 Sample.account],
   Sample.block 12 11 2 [Sample.cellbase 102 Sample.account,
     Sample.transfer 202 100 Sample.account],
   Sample.block 13 12 3 [Sample.cellbase 103 Sample.stranger]]

def topUpChain : Chain (BlockTree.ofList topUpBlocks) where
  blocks := topUpBlocks
  genesis := by decide
  follows := by decide
  mem_tree := by decide

theorem validBlocks_topUpChain (n : ℕ) : ValidBlocks (topUpChain.upTo n).blocks := by
  have hall : ValidBlocks topUpBlocks := ⟨by decide, by decide⟩
  exact hall.sublist (List.take_sublist _ _)

theorem number_le_topUpChain (n : ℕ) : ∀ b ∈ (topUpChain.upTo n).blocks, b.number ≤ 3 := by
  have hall : ∀ b ∈ topUpBlocks, b.number ≤ 3 := by decide
  exact fun b hb => hall b (List.mem_of_mem_take hb)

/-- One endpoint, and one sample cell is enough. -/
def topUpConfig : Config where
  rpcUrls := Sample.rpcUrls
  connected := Sample.rpcUrls_ne_nil
  ensureMaturedCapacityGreaterThan := 100

/-- The tip stands at `start` before call `first + 3`, and rises by one every third call. -/
def topUpHistory (start first : ℕ) : History (BlockTree.ofList topUpBlocks) :=
  .growing topUpChain fun t => start + (t - first) / 3

theorem grows_topUpHistory (start first : ℕ) (rpc : Jsonrpc) :
    Grows (topUpHistory start first) rpc :=
  grows_growing topUpChain (fun t => by omega) rpc

/-- The run on the sample chain. A cellbase matures with the next block. -/
def topUpRun (confirmationBlocks : ℕ) : Rpc (BlockTree.ofList topUpBlocks) (Option Spawned) :=
  spawnPullUtxos topUpConfig { cellbaseMaturity := 0, confirmationBlocks } Sample.account
    ⟨topUpConfig.net⟩ .stored 2

end TpsBench
