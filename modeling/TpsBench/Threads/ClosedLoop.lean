/-
  The scanner, the benchmark and the chain in a closed loop.

  The scanner sends the account's cells, `bench` spends them, the nodes put the transactions into
  blocks, and the scanner reads these. `pull_forever` never looks at what a block spends, so that
  what it sends is unspent rests on the other two. If only `bench` spends the account's cells, then
  a cell is spent only after it was sent. And the scanner sends no cell twice.

  Model. Time is the number of the scanner's calls: `pipeline t` is the channel, `bench` and the
  emitters when call `t` is answered. `ClosedLoop` says how the three hang together. When a
  transaction gets into a block is left open, and so is whether it does.

  * `LiveStart`, `liveStart_of_spawn`: the scanner starts with live cells, each once, if there was
    nothing to top up.
  * `ClosedLoop.sent_of_spent`: what is spent was sent before. `ClosedLoop.spares`: so a block
    spends nothing that the scanner still has to send.
  * `closedLoop_safe`: no cell is sent twice or when it is spent, and no two transactions compete.
-/
import TpsBench.Account.Spends
import TpsBench.Threads.Pipeline
import TpsBench.Threads.SentOnce

namespace TpsBench

open Lib Account

variable {T : BlockTree} {config : Config} {g : Global} {account : Account} {miner : Miner}
  {w : History T} {net : Net} {recv : Receiver} {i j t m n : ℕ} {start st : PullState}
  {depGroupTxHash : Byte32} {sign : Transaction → List UInt8} {pipeline : ℕ → Pipeline}

theorem eq_of_nodup_flatMap {α β : Type} {l : List α} {f : α → List β} (h : (l.flatMap f).Nodup)
    {a b : α} (ha : a ∈ l) (hb : b ∈ l) {x : β} (hxa : x ∈ f a) (hxb : x ∈ f b) : a = b := by
  by_contra hne
  have : Std.Symm (Function.onFun List.Disjoint f) := ⟨fun _ _ h _ hx hy => h hy hx⟩
  exact (List.nodup_flatMap.mp h).2.forall ha hb hne hxa hxb

/-! ## The start -/

/-- What is queued at the start are live cells on the chain up to the current header, each once. -/
structure LiveStart (account : Account) (net : Net) (w : History T) (j : ℕ) (start : PullState) :
    Prop where
  onChain : OnMainChain net w j start.currentHeader
  nodup : (queued start).Nodup
  live : ∀ p ∈ queued start, ∃ b k o,
    LiveCell account ((w j net.first).chain.upTo start.currentHeader.number).blocks b k p o
  sent : ∀ s ∈ start.sent, s.header = start.currentHeader

/-- The full scan finds the live cells. -/
theorem liveStart_of_spawn {orders : Orders} {fuel : ℕ} {spawned : Spawned}
    (hminer : miner.net.first = config.net.first) (hgrow : Grows w config.net.first)
    (hvalid : ∀ t, ValidBlocks (w t config.net.first).chain.blocks)
    (hspawn : (spawnPullUtxos config g account miner orders fuel).Returns w i (some spawned) j)
    (hpulled : spawned.topUp.pulled = []) : LiveStart account config.net w j spawned.start := by
  obtain ⟨hon, bs, h⟩ := scanned_of_spawn hminer hgrow hspawn
  have hholds := h.holds (hvalid j)
  have hnil : bs = [] := List.map_eq_nil_iff.mp (h.pulled.trans hpulled)
  refine ⟨hon, nodup_queued_start hspawn hholds, fun p hp => ?_, fun s hs => ?_⟩
  · have hlive := hholds.live p ((mem_queued_start hspawn).mp hp)
    rw [hnil, List.map_nil, List.append_nil] at hlive
    exact hlive
  · obtain ⟨u, -, rfl⟩ := List.mem_map.mp hs
    rfl

section Start

variable {Q : BlockView → Prop}

theorem LiveStart.live_at (h : LiveStart account net w j start) (hgrow : Grows w net.first)
    (hjt : j ≤ t) {p : OutPoint} (hp : p ∈ queued start) : ∃ b k o,
      LiveCell account ((w t net.first).chain.upTo start.currentHeader.number).blocks b k p o := by
  obtain ⟨x, hx, -⟩ := Chain.header?_eq_some.mp h.onChain
  rw [hgrow.upTo_blocks hjt (Chain.le_tipNumber hx)]
  exact h.live p hp

/-- What is queued is owned by the account, in a block up to the current header. -/
theorem LiveStart.owned (h : LiveStart account net w j start) (hgrow : Grows w net.first)
    (hjt : j ≤ t)
    (hqueued : Queued account Q start ((w t net.first).chain.upTo st.currentHeader.number) st)
    {p : OutPoint} (hp : p ∈ queued st) :
    ∃ b ∈ (w t net.first).chain.blocks, ∃ u ∈ account.owned b, u.outPoint = p ∧
      (start.currentHeader.number < b.number ∨
        Unspent ((w t net.first).chain.upTo start.currentHeader.number).blocks p) := by
  rcases List.mem_append.mp (hqueued.perm.mem_iff.mp hp) with hp | hp
  · obtain ⟨b, k, o, hcell⟩ := h.live_at hgrow hjt hp
    obtain ⟨⟨x, hx, u, hu, rfl⟩, hun⟩ := (live_iff p).mp ⟨b, k, o, hcell⟩
    exact ⟨x, (Chain.mem_upTo.mp hx).1, u, hu, rfl, .inr hun⟩
  · obtain ⟨u, hu, rfl⟩ := List.mem_map.mp hp
    obtain ⟨b, hb, hu⟩ := List.mem_flatMap.mp hu
    obtain ⟨hb, hlt⟩ := Chain.mem_after.mp hb
    exact ⟨b, (Chain.mem_upTo.mp hb).1, u, hu, rfl, .inl hlt⟩

theorem LiveStart.nodup_queued (h : LiveStart account net w j start) (hgrow : Grows w net.first)
    (hvalid : ∀ t, ValidBlocks (w t net.first).chain.blocks) (hjt : j ≤ t)
    (hqueued : Queued account Q start ((w t net.first).chain.upTo st.currentHeader.number) st) :
    (queued st).Nodup := by
  refine (hqueued.nodup_iff ((hvalid t).sublist (List.take_sublist _ _))).mpr
    ⟨h.nodup, fun b hb u hu hp => ?_⟩
  -- a cell of a block above the start is not live below it
  obtain ⟨hbt, hlt⟩ := Chain.mem_after.mp hb
  obtain ⟨x, k, o, hcell⟩ := h.live_at hgrow hjt hp
  obtain ⟨hx, hle⟩ := Chain.mem_upTo.mp hcell.1
  obtain ⟨⟨k', hcreates⟩, -⟩ := mem_owned.mp hu
  obtain ⟨rfl, -⟩ :=
    (hvalid t).creates_unique hx (Chain.mem_upTo.mp hbt).1 hcell.2.1 hcreates
  omega

/-- Every state is at the end of a chain of the first endpoint. -/
theorem LiveStart.queued_at (h : LiveStart account net w j start) (hgrow : Grows w net.first)
    (hreached : Reached account g recv net w j start m t st) :
    OnMainChain net w t st.currentHeader ∧ Queued account (fun _ => True) start
      ((w t net.first).chain.upTo st.currentHeader.number) st := by
  obtain ⟨hon, c, hc⟩ := queued_of_reached (Q := fun _ => True) hgrow h.onChain
    (fun _ _ _ _ _ _ _ => trivial) m t st le_rfl hreached
  exact ⟨hon, hc.at_call hon⟩

end Start

/-! ## The loop -/

/-- The pipeline is in some run; at the head of each of the first `n` iterations of `pull_forever`
    it was sent what the scanner has sent; and above the start only transactions of `bench` spend
    cells of the account, after they are built. -/
structure ClosedLoop (depGroupTxHash : Byte32) (sign : Transaction → List UInt8) (account : Account)
    (g : Global) (recv : Receiver) (net : Net) (w : History T) (j : ℕ) (start : PullState) (n : ℕ)
    (pipeline : ℕ → Pipeline) : Prop where
  reachable : ∀ t, (pipeline t).Reachable depGroupTxHash sign
  small : ∀ t, ∀ u ∈ (pipeline t).channel.sent, u.capacity < 2 ^ 63
  fed : ∀ m t st, m ≤ n → Reached account g recv net w j start m t st →
    (pipeline t).channel.sent = st.sent.map Sent.utxo
  spends : ∀ t, j ≤ t → ∀ x ∈ (w t net.first).chain.blocks,
    start.currentHeader.number < x.number → ∀ tx ∈ x.transactions,
    ∀ b ∈ (w t net.first).chain.blocks, ∀ u ∈ account.owned b, u.outPoint ∈ tx.inputPts →
    ∃ built ∈ (pipeline t).bench.built, tx.inputs = built.transaction.inputs

namespace ClosedLoop

variable (hloop : ClosedLoop depGroupTxHash sign account g recv net w j start n pipeline)
  (hreached : Reached account g recv net w j start m t st) (hm : m ≤ n)

include hloop hreached hm

theorem inputPts_isPrefix :
    (pipeline t).inputPts <+: st.sent.map fun s => s.utxo.outPoint := by
  have hprefix := Pipeline.inputPts_isPrefix (hloop.reachable t) (hloop.small t)
  rw [hloop.fed m t st hm hreached, List.map_map] at hprefix
  exact hprefix

/-- A cell of the account that a block above the start spends was sent before. -/
theorem sent_of_spent {x b : BlockView} {u : UTXO} (hx : x ∈ (w t net.first).chain.blocks)
    (hlt : start.currentHeader.number < x.number) (hb : b ∈ (w t net.first).chain.blocks)
    (hu : u ∈ account.owned b) (hin : u.outPoint ∈ x.inputPts) :
    ∃ tx ∈ x.transactions, ∃ built ∈ (pipeline t).bench.built,
      tx.inputs = built.transaction.inputs ∧
      u.outPoint ∈ built.transaction.inputs.map CellInput.previousOutput ∧
      u.outPoint ∈ st.sent.map fun s => s.utxo.outPoint := by
  obtain ⟨tx, htx, hp⟩ := List.mem_flatMap.mp hin
  obtain ⟨built, hbuilt, hinputs⟩ :=
    hloop.spends t hreached.le x hx hlt tx htx b hb u hu hp
  unfold TransactionView.inputPts at hp
  rw [hinputs] at hp
  exact ⟨tx, htx, built, hbuilt, hinputs, hp, (hloop.inputPts_isPrefix hreached hm).subset
    (List.mem_flatMap.mpr ⟨built, hbuilt, hp⟩)⟩

variable (hstart : LiveStart account net w j start) (hgrow : Grows w net.first)
  (hvalid : ∀ t, ValidBlocks (w t net.first).chain.blocks)

include hstart hgrow hvalid

/-- The next block spends nothing that is pending, and nothing of its own: both are yet to be
    sent. -/
theorem spares {block : BlockView} (hfetch : Fetches net w t st block) :
    SparesHeld account block st := by
  obtain ⟨-, hqueued⟩ := hstart.queued_at hgrow hreached
  obtain ⟨c', hc'⟩ := hqueued.step trivial hfetch g
  have hnumber := hfetch.number
  have hblock := List.mem_of_getElem? hfetch.next
  have hlt : start.currentHeader.number < block.number := by
    have habove := hqueued.above
    omega
  have hafter : (queued (account.afterBlock g block st)).Nodup := by
    refine hstart.nodup_queued hgrow hvalid hreached.le (hc'.at_call ?_)
    refine Chain.header?_eq_some.mpr ⟨block, ?_, rfl⟩
    show (w t net.first).chain.blocks[block.number]? = some block
    rw [hnumber, hfetch.next]
  have hall := (queued_afterBlock account g block st).nodup_iff.mp hafter
  obtain ⟨hold, -, hnew⟩ := List.nodup_append'.mp hall
  obtain ⟨-, -, hpending⟩ := List.nodup_append'.mp hold
  refine ⟨fun e he hin => ?_, fun u hu hin => ?_⟩
  · have hp : e.2.outPoint ∈ st.unmatureds.map fun e => e.2.outPoint := List.mem_map_of_mem he
    obtain ⟨b, hb, u, hu, heq, -⟩ :=
      hstart.owned hgrow hreached.le hqueued (List.mem_append_right _ hp)
    obtain ⟨-, -, -, -, -, -, hsent⟩ :=
      hloop.sent_of_spent hreached hm hblock hlt hb hu (heq ▸ hin)
    exact hpending (heq ▸ hsent) hp
  · obtain ⟨-, -, -, -, -, -, hsent⟩ := hloop.sent_of_spent hreached hm hblock hlt hblock hu hin
    exact hnew (List.mem_append_left _ hsent) (List.mem_map_of_mem hu)

omit hreached hm in
/-- So every cell is unspent when it is sent. -/
theorem sends_unspent : ∀ m t st, m ≤ n → Reached account g recv net w j start m t st →
    PendingUnspent T st ∧ ∀ s ∈ st.sent, SentUnspent T s := by
  have hlive : ∀ p ∈ queued start,
      Unspent ((w j net.first).chain.upTo start.currentHeader.number).blocks p := by
    intro p hp
    obtain ⟨b, k, o, hcell⟩ := hstart.live p hp
    exact hcell.2.2.2
  have hends := EndsAt.upTo hstart.onChain
  have hpending : PendingUnspent T start :=
    ⟨_, hends, fun e he => hlive _ (List.mem_append_right _ (List.mem_map_of_mem he))⟩
  have hsent : ∀ s ∈ start.sent, SentUnspent T s := by
    refine fun s hs => ⟨_, ?_, hlive _ (List.mem_append_left _ (List.mem_map_of_mem hs))⟩
    rw [hstart.sent s hs]
    exact hends
  intro m t st hm hreached
  refine (steady_induction (P := fun st => PendingUnspent T st ∧ ∀ s ∈ st.sent, SentUnspent T s)
    hgrow hstart.onChain ⟨hpending, hsent⟩ ?_ m t st hm hreached).2
  intro m' t' st' block hlt hreached' h hfetch
  have hspares := hloop.spares hreached' hlt.le hstart hgrow hvalid hfetch
  refine ⟨h.1.step (hvalid t') hspares hfetch, fun s hs => ?_⟩
  rcases List.mem_append.mp hs with hs | hs
  · exact h.2 s hs
  · obtain ⟨u, hu, rfl⟩ := List.mem_map.mp hs
    exact h.1.due (hvalid t') hspares hfetch hu

/-- No transaction of `bench` competes with another: while it is not on the chain, nothing on the
    chain spends its inputs. -/
theorem unspent_or_onChain {b : Built} (hb : b ∈ (pipeline t).bench.built) :
    (∃ x ∈ (w t net.first).chain.blocks, ∃ tx ∈ x.transactions,
      tx.inputs = b.transaction.inputs) ∨
    ∀ p ∈ b.transaction.inputs.map CellInput.previousOutput,
      Unspent (w t net.first).chain.blocks p := by
  by_contra hnone
  push Not at hnone
  obtain ⟨hoff, p, hp, hspent⟩ := hnone
  unfold Unspent at hspent
  push Not at hspent
  obtain ⟨x, hx, hin⟩ := hspent
  obtain ⟨-, hqueued⟩ := hstart.queued_at hgrow hreached
  have hnodup := hstart.nodup_queued hgrow hvalid hreached.le hqueued
  have hprefix := hloop.inputPts_isPrefix hreached hm
  have hsent := hprefix.subset (List.mem_flatMap.mpr ⟨b, hb, hp⟩)
  obtain ⟨y, hy, u, hu, rfl, hfrom⟩ :=
    hstart.owned hgrow hreached.le hqueued (List.mem_append_left _ hsent)
  by_cases hlt : start.currentHeader.number < x.number
  · -- the transaction that spends it is one of `bench` too, and no two have an input in common
    obtain ⟨tx, htx, b', hb', hinputs, hp', -⟩ := hloop.sent_of_spent hreached hm hx hlt hy hu hin
    have hinputPts := hprefix.sublist.nodup (List.nodup_append'.mp hnodup).1
    obtain rfl := eq_of_nodup_flatMap hinputPts hb hb' hp hp'
    exact hoff x hx tx htx hinputs
  · have hx' := Chain.mem_upTo.mpr ⟨hx, Nat.not_lt.mp hlt⟩
    rcases hfrom with hnew | hun
    · obtain ⟨⟨k, hcreates⟩, -⟩ := mem_owned.mp hu
      exact Chain.notMem_outPoints (hvalid t) hx hy (by omega) hin hcreates.mem_outPoints
    · exact hun x hx' hin

end ClosedLoop

/-- **No double spending.** The chain is valid and only grows, and the account had enough, so that
    nothing was mined to top it up. If only `bench` spends the account's cells, then at the head of
    every iteration of `pull_forever`: the scanner has sent no cell twice, and none that was spent;
    no cell is an input twice, of one transaction or of two; and a transaction that was built is on
    the chain, or nothing on the chain spends any of its inputs. -/
theorem closedLoop_safe (config : Config) (g : Global) (account : Account) (miner : Miner)
    (orders : Orders) (fuel : ℕ) (recv : Receiver) (w : History T)
    (hminer : miner.net.first = config.net.first) (hgrow : Grows w config.net.first)
    (hvalid : ∀ t, ValidBlocks (w t config.net.first).chain.blocks) (i j : ℕ) (spawned : Spawned)
    (hspawn : (spawnPullUtxos config g account miner orders fuel).Returns w i (some spawned) j)
    (hpulled : spawned.topUp.pulled = []) (depGroupTxHash : Byte32)
    (sign : Transaction → List UInt8) (n : ℕ) (pipeline : ℕ → Pipeline)
    (hloop : ClosedLoop depGroupTxHash sign account g recv config.net w j spawned.start n pipeline)
    (m t : ℕ) (st : PullState) (hm : m ≤ n)
    (hreached : Reached account g recv config.net w j spawned.start m t st) :
    (st.sent.map fun s => s.utxo.outPoint).Nodup ∧ (∀ s ∈ st.sent, SentUnspent T s) ∧
    (pipeline t).inputPts.Nodup ∧
    ∀ b ∈ (pipeline t).bench.built,
      (∃ x ∈ (w t config.net.first).chain.blocks, ∃ tx ∈ x.transactions,
        tx.inputs = b.transaction.inputs) ∨
      ∀ p ∈ b.transaction.inputs.map CellInput.previousOutput,
        Unspent (w t config.net.first).chain.blocks p := by
  have hstart := liveStart_of_spawn hminer hgrow hvalid hspawn hpulled
  obtain ⟨-, hqueued⟩ := hstart.queued_at hgrow hreached
  have hnodup := hstart.nodup_queued hgrow hvalid hreached.le hqueued
  have hsent := (List.nodup_append'.mp hnodup).1
  refine ⟨hsent, ?_, ?_, fun b hb => ?_⟩
  · exact (hloop.sends_unspent hstart hgrow hvalid m t st hm hreached).2
  · exact (hloop.inputPts_isPrefix hreached hm).sublist.nodup hsent
  · exact hloop.unspent_or_onChain hreached hm hstart hgrow hvalid hb

/-! ## A sample loop -/

namespace Sample

/-- The account gets two cells in the genesis block, and the transaction that spends them is in
    block 1. -/
def loopBlocks : List BlockView :=
  [block 10 0 0 [cellbase 100 stranger,
     { hash := 7, inputs := [{ previousOutput := ⟨100, 0⟩ }]
       outputs := [(ckbCell 0 100).output, (ckbCell 1 30).output] }],
   block 11 10 1 [cellbase 101 stranger,
     { hash := 50, inputs := built.transaction.inputs, outputs := built.transaction.outputs }]]

def loopChain : Chain (BlockTree.ofList loopBlocks) where
  blocks := loopBlocks
  genesis := by decide
  follows := by decide
  mem_tree := by decide

/-- Nothing has to be topped up. -/
def loopConfig : Config := { topUpConfig with ensureMaturedCapacityGreaterThan := 0 }

/-- The map of the cells iterates from the oldest to the newest. -/
def loopOrders : Orders := { Orders.stored with utxoset := ⟨List.reverse, List.reverse_perm⟩ }

/-- Block 1 is there when `pull_forever` starts, at call 4. -/
def loopHistory : History (BlockTree.ofList loopBlocks) := .growing loopChain fun t => t - 3

def loopSpawned : Spawned where
  currentHeader := (block 10 0 0 []).header
  matureds := [ckbCell 0 100, ckbCell 1 30]
  unmatureds := []
  topUp := .start (Sample.account.pullUntilBlocks ⟨0, 0⟩ 0 (loopBlocks.take 1))

theorem spawnPullUtxos_loop : (spawnPullUtxos loopConfig ⟨0, 0⟩ Sample.account
    ⟨loopConfig.net⟩ loopOrders 0).Returns loopHistory 0 (some loopSpawned) 4 := rfl

def loopState : PullState :=
  Sample.account.afterBlock ⟨0, 0⟩ (block 11 10 1 [cellbase 101 stranger,
    { hash := 50, inputs := built.transaction.inputs, outputs := built.transaction.outputs }])
    loopSpawned.start

theorem reached_loop : Reached Sample.account ⟨0, 0⟩ (fun _ => true) loopConfig.net loopHistory 4
    loopSpawned.start 1 6 loopState := rfl

/-- An output of the transaction. -/
def change (index : ℕ) : UTXO :=
  ⟨{ capacity := 6499999000, lock := Sample.account.lockScript }, ⟨50, index⟩⟩

/-- After block 1 the outputs are sent too. -/
def loopPipeline (t : ℕ) : Pipeline :=
  if t = 4 then drained
  else { drained with channel := (drained.channel.send (change 0)).send (change 1) }

theorem closedLoop : ClosedLoop 0 (fun _ => []) Sample.account ⟨0, 0⟩ (fun _ => true) loopConfig.net
    loopHistory 4 loopSpawned.start 1 loopPipeline where
  reachable t := by
    unfold loopPipeline
    split
    · exact reachable_drained
    · exact (reachable_drained.tail (.send (change 0) rfl)).tail (.send (change 1) rfl)
  small t := by
    unfold loopPipeline
    split <;> decide
  fed m t st hm hreached := by
    rcases Nat.le_one_iff_eq_zero_or_eq_one.mp hm with rfl | rfl
    · obtain ⟨heq, rfl⟩ := Rpc.returns_pure.mp hreached
      obtain rfl := Except.ok.inj heq
      rfl
    · obtain ⟨rfl, rfl⟩ := hreached.unique reached_loop
      rfl
  spends t _ x hx hlt tx htx b hb u hu hin := by
    have hall : ∀ x ∈ loopBlocks, 0 < x.number → ∀ tx ∈ x.transactions, ∀ b ∈ loopBlocks,
        ∀ u ∈ Sample.account.owned b, u.outPoint ∈ tx.inputPts →
        tx.inputs = built.transaction.inputs := by decide
    refine ⟨built, ?_, hall x (List.mem_of_mem_take hx) hlt tx htx b (List.mem_of_mem_take hb) u hu
      hin⟩
    unfold loopPipeline
    split <;> exact List.mem_singleton.mpr rfl

end Sample

/-- All four cells are sent, and the transaction that spends the first two is on the chain. -/
theorem closedLoop_safe_sample :
    (Sample.loopState.sent.map fun s => s.utxo.outPoint).Nodup ∧ Sample.loopState.sent.length = 4 ∧
      (Sample.loopPipeline 6).inputPts.Nodup := by
  have hvalid : ValidBlocks Sample.loopBlocks := ⟨by decide, by decide⟩
  obtain ⟨hnodup, -, hinputs, -⟩ := closedLoop_safe Sample.loopConfig ⟨0, 0⟩ Sample.account
    ⟨Sample.loopConfig.net⟩ Sample.loopOrders 0 (fun _ => true) Sample.loopHistory rfl
    (grows_growing Sample.loopChain (fun t => by omega) _)
    (fun t => hvalid.sublist (List.take_sublist _ _)) 0 4 Sample.loopSpawned
    Sample.spawnPullUtxos_loop rfl 0 (fun _ => []) 1 Sample.loopPipeline Sample.closedLoop 1 6
    Sample.loopState le_rfl Sample.reached_loop
  exact ⟨hnodup, rfl, hinputs⟩

end TpsBench
