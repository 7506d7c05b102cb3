/-
  Is a cell sent through the channel twice?

  The top-up loop puts the cells of the blocks it pulls into the maps. The thread then starts from
  the header of the full scan, which the loop has left behind, so it reaches the pulled blocks
  again and queues their cells a second time (`spawnPullUtxos_sends_twice`).

  * `queued_nodup_iff`: at every moment of a run without reorganization, no cell is queued twice if
    and only if whatever the account owned in the pulled blocks reached so far was spent in pulled
    blocks.
  * `spawnPullUtxos_sends_once`: then no cell is sent twice, for any maturity setting.
-/
import TpsBench.Account.Held
import TpsBench.Account.Queued
import TpsBench.Threads.TopUp

namespace TpsBench

open Lib Account

variable {T : BlockTree} {config : Config} {g : Global} {account : Account} {miner : Miner}
  {w : History T} {i j : ℕ}

/-! ## The maps and the blocks above them -/

/-- Whatever the account owns in `b` is spent in the pulled blocks. A pulled block does not count
    as spending its own cellbase. -/
def SpentByPulled (account : Account) (bs : List BlockView) (pulled : List ℕ) (b : BlockView) :
    Prop :=
  ∀ u ∈ account.owned b, ∃ b' ∈ bs, b'.number ∈ pulled ∧ u.outPoint ∈ b'.settled.inputPts

section Scanned

variable {N t : ℕ} {st : TopUp} {bs : List BlockView} {c : Chain T}

theorem Scanned.holds (h : Scanned config g account w ((w t config.net.first).chain.upTo N).blocks
    N t st bs) (hvalid : ValidBlocks (w t config.net.first).chain.blocks) :
    Holds account (((w t config.net.first).chain.upTo N).blocks ++ bs.map BlockView.settled)
      st.cells := by
  obtain ⟨ords, hcells⟩ := h.cells
  have hbase : ValidBlocks ((w t config.net.first).chain.upTo N).blocks :=
    hvalid.sublist (List.take_sublist _ _)
  rw [hcells]
  exact holds_pullFromBlocks ords
    (holds_of_isLiveSet (isLiveSet_pullUntilBlocks hbase account g N) hbase) (h.valid hvalid)

/-- A cell of a block above the full scan is in the maps only if the block was pulled, and no
    pulled block spends the cell. -/
theorem Scanned.not_spent (h : Scanned config g account w
      ((w t config.net.first).chain.upTo N).blocks N t st bs)
    (hc : (w t config.net.first).chain.blocks ⊆ c.blocks) (hvalid : ValidBlocks c.blocks)
    (hvalidt : ValidBlocks (w t config.net.first).chain.blocks)
    {b : BlockView} (hb : b ∈ c.blocks) (hn : N < b.number) {u : UTXO} (hu : u ∈ account.owned b)
    (hp : u.outPoint ∈ st.cells.utxoset ∨ u.outPoint ∈ st.cells.unmatureds) :
    b.number ∈ st.pulled ∧
      ¬ SpentByPulled account (w t config.net.first).chain.blocks st.pulled b := by
  obtain ⟨x, k, o, hx, hcreates, -, hun⟩ := (h.holds hvalidt).live _ hp
  obtain ⟨⟨k', hcreates'⟩, -⟩ := mem_owned.mp hu
  -- the block that was scanned is `b`
  have hbs : b ∈ bs := by
    rcases List.mem_append.mp hx with hx | hx
    · obtain ⟨hx, hle⟩ := Chain.mem_upTo.mp hx
      obtain ⟨rfl, -⟩ := hvalid.creates_unique (hc hx) hb hcreates hcreates'
      omega
    · obtain ⟨x', hx', rfl⟩ := List.mem_map.mp hx
      have hmem := hc (h.onChain.subset (List.mem_append_right _ hx'))
      obtain ⟨rfl, -⟩ := hvalid.creates_unique hmem hb (BlockView.creates_settled.mp hcreates)
        hcreates'
      exact hx'
  refine ⟨h.pulled ▸ List.mem_map_of_mem hbs, fun hspent => ?_⟩
  obtain ⟨b', hb', hn', hin⟩ := hspent u hu
  exact hun b'.settled (List.mem_append_right _ (List.mem_map_of_mem (h.mem_of_number hb' hn'))) hin

/-- What the account owns in a pulled block, and pulled blocks do not spend, is in the maps. -/
theorem Scanned.held (h : Scanned config g account w
      ((w t config.net.first).chain.upTo N).blocks N t st bs)
    (hvalid : ValidBlocks (w t config.net.first).chain.blocks)
    (hM : ∀ b ∈ (w t config.net.first).chain.blocks, NoOverflow g b.number)
    {b : BlockView} (hb : b ∈ bs) {u : UTXO} (hu : u ∈ account.owned b)
    (hun : ∀ b' ∈ bs, u.outPoint ∉ b'.settled.inputPts) :
    u.outPoint ∈ st.cells.utxoset ∨ u.outPoint ∈ st.cells.unmatureds := by
  obtain ⟨⟨k, hcreates⟩, hlock⟩ := mem_owned.mp hu
  refine ((h.live hvalid hM).mem_iff _).mpr ⟨b.settled, k, u.output,
    List.mem_append_right _ (List.mem_map_of_mem hb), BlockView.creates_settled.mpr hcreates, hlock,
    fun x hx => ?_⟩
  rcases List.mem_append.mp hx with hx | hx
  · -- the blocks of the full scan stand below
    have hcross := (List.pairwise_append.mp (hvalid.sublist h.onChain).no_forward).2.2
    exact fun hin => hcross x hx b hb _ hin hcreates.mem_outPoints
  · obtain ⟨b', hb', rfl⟩ := List.mem_map.mp hx
    exact hun b' hb'

end Scanned

/-! ## The thread -/

section Thread

variable {orders : Orders} {fuel : ℕ} {spawned : Spawned}

/-- What is queued when `pull_forever` starts: the keys of the maps, each once. -/
theorem queued_start (h : (spawnPullUtxos config g account miner orders fuel).Returns w i
      (some spawned) j) :
    (queued spawned.start).Perm
      (spawned.topUp.cells.utxoset.keys ++ spawned.topUp.cells.unmatureds.keys) := by
  obtain ⟨-, -, -, -, -, -, hlists⟩ := spawnPullUtxos_cases h
  obtain ⟨hmatureds, hunmatureds⟩ := Prod.mk.inj hlists
  unfold queued Spawned.start
  rw [List.map_map]
  dsimp only
  rw [hmatureds, hunmatureds]
  exact (keys_matureds orders.utxoset orders.unmatureds _).append
    (keys_unmatureds orders.utxoset orders.unmatureds _)

theorem mem_queued_start (h : (spawnPullUtxos config g account miner orders fuel).Returns w i
      (some spawned) j) {p : OutPoint} :
    p ∈ queued spawned.start ↔
      p ∈ spawned.topUp.cells.utxoset ∨ p ∈ spawned.topUp.cells.unmatureds := by
  rw [(queued_start h).mem_iff, List.mem_append]
  rfl

theorem nodup_queued_start (h : (spawnPullUtxos config g account miner orders fuel).Returns w i
      (some spawned) j) {bs : List BlockView} (hholds : Holds account bs spawned.topUp.cells) :
    (queued spawned.start).Nodup := by
  rw [(queued_start h).nodup_iff, List.nodup_append']
  exact ⟨AList.keys_nodup _, AList.keys_nodup _, fun p hp hp' => hholds.disjoint p hp hp'⟩

/-- **What is queued twice.** The chain is valid and only grows, and no height overflows. After any
    number of iterations, no cell is sent and pending, sent twice or pending twice if and only if
    whatever the account owned in the pulled blocks reached so far was spent in pulled blocks. -/
theorem queued_nodup_iff (hminer : miner.net.first = config.net.first)
    (hgrow : Grows w config.net.first)
    (hvalid : ∀ t, ValidBlocks (w t config.net.first).chain.blocks)
    (hM : ∀ t, ∀ b ∈ (w t config.net.first).chain.blocks, NoOverflow g b.number)
    (hspawn : (spawnPullUtxos config g account miner orders fuel).Returns w i (some spawned) j)
    {recv : Receiver} {n k : ℕ} {st : PullState}
    (hreached : Reached account g recv config.net w j spawned.start n k st) :
    (queued st).Nodup ↔ ∀ b ∈ (w k config.net.first).chain.blocks,
      b.number ≤ st.currentHeader.number → b.number ∈ spawned.topUp.pulled →
        SpentByPulled account (w j config.net.first).chain.blocks spawned.topUp.pulled b := by
  obtain ⟨hon, bs, h⟩ := scanned_of_spawn hminer hgrow hspawn
  obtain ⟨hon', c, hqueued⟩ := queued_of_reached (Q := fun _ => True) hgrow hon
    (fun _ _ _ _ _ _ _ => trivial) n k st (Nat.le_refl n) hreached
  have hprefix := (hgrow.prefix_of_le hreached.le).subset
  rw [(hqueued.at_call hon').nodup_iff ((hvalid k).sublist (List.take_sublist _ _)),
    and_iff_right (nodup_queued_start hspawn (h.holds (hvalid j)))]
  constructor
  · intro hfresh b hb hle hpulled u hu
    -- `b` was pulled, so what no pulled block spends would be in the maps
    obtain ⟨b', hb', heq⟩ := List.mem_map.mp (h.pulled ▸ hpulled)
    have hb'k := hprefix (h.onChain.subset (List.mem_append_right _ hb'))
    obtain rfl := (w k config.net.first).chain.eq_of_number hb'k hb heq
    by_contra hnone
    have hheld := h.held (hvalid j) (hM j) hb' hu fun b hb hin => hnone
      ⟨b, h.onChain.subset (List.mem_append_right _ hb), h.pulled ▸ List.mem_map_of_mem hb, hin⟩
    exact hfresh b' (Chain.mem_after.mpr ⟨Chain.mem_upTo.mpr ⟨hb, hle⟩, h.above b' hb'⟩) u hu
      ((mem_queued_start hspawn).mpr hheld)
  · intro hspent b hb u hu hp
    obtain ⟨hbt, hn⟩ := Chain.mem_after.mp hb
    obtain ⟨hbk, hle⟩ := Chain.mem_upTo.mp hbt
    obtain ⟨hpulled, hnot⟩ := h.not_spent hprefix (hvalid k) (hvalid j) hbk hn hu
      ((mem_queued_start hspawn).mp hp)
    exact hnot (hspent b hbk hle hpulled)

end Thread

/-- **Sent once.** On a valid chain that only grows, if whatever the account owned in the pulled
    blocks that the thread processes was spent in pulled blocks, then the thread sends no cell
    twice, the matured cells of the start included. -/
theorem spawnPullUtxos_sends_once (config : Config) (g : Global) (account : Account)
    (miner : Miner) (orders : Orders) (fuel : ℕ) (recv : Receiver) (w : History T)
    (hminer : miner.net.first = config.net.first) (hgrow : Grows w config.net.first)
    (hvalid : ∀ t, ValidBlocks (w t config.net.first).chain.blocks) (i j : ℕ) (spawned : Spawned)
    (hspawn : (spawnPullUtxos config g account miner orders fuel).Returns w i (some spawned) j)
    (n : ℕ) (hspent : ∀ m i' st' b, m < n →
      Reached account g recv config.net w j spawned.start m i' st' →
      Fetches config.net w i' st' b → b.number ∈ spawned.topUp.pulled →
      SpentByPulled account (w j config.net.first).chain.blocks spawned.topUp.pulled b)
    (r : Except (List Sent) PullState) (k : ℕ)
    (hthread : (pullThread config g account recv spawned n).Returns w j r k) :
    ((sentBy r).map fun s => s.utxo.outPoint).Nodup := by
  obtain ⟨hon, bs, h⟩ := scanned_of_spawn hminer hgrow hspawn
  have hstart := nodup_queued_start hspawn (h.holds (hvalid j))
  rcases pullThread_cases hthread with hrun | ⟨m, rfl⟩
  · obtain ⟨st, t, hjt, hsub, hqueued⟩ := queued_of_run hgrow hon hspent hrun
    have hv : ValidBlocks ((w t config.net.first).chain.upTo st.currentHeader.number).blocks :=
      (hvalid t).sublist (List.take_sublist _ _)
    have hnodup := (hqueued.nodup_iff hv).mpr ⟨hstart, fun b hb u hu hp => ?_⟩
    · exact (hnodup.sublist (List.sublist_append_left _ _)).sublist (hsub.map _)
    · obtain ⟨hbt, hn⟩ := Chain.mem_after.mp hb
      obtain ⟨hpulled, hnot⟩ := h.not_spent (hgrow.prefix_of_le hjt).subset (hvalid t) (hvalid j)
        (Chain.mem_upTo.mp hbt).1 hn hu ((mem_queued_start hspawn).mp hp)
      exact hnot (hqueued.processed b hb hpulled)
  · have hsub : ((spawned.matureds.take m).map (Sent.mk spawned.currentHeader)).Sublist
        spawned.start.sent := (List.take_sublist _ _).map _
    exact (hstart.sublist (List.sublist_append_left _ _)).sublist (hsub.map _)

/-- The account has two cells of 100 at height 2 and asks for 300. The block pulled next matures a
    third one and has nothing for the account: each of the three is sent once. -/
theorem spawnPullUtxos_sends_once_third :
    ∃ spawned j, (spawnPullUtxos { topUpConfig with ensureMaturedCapacityGreaterThan := 300 } ⟨0, 0⟩
        Sample.account ⟨topUpConfig.net⟩ .stored 2).Returns (topUpHistory 2 5) 0 (some spawned) j ∧
      spawned.topUp.pulled = [3] ∧
      ∃ r k, (pullThread topUpConfig ⟨0, 0⟩ Sample.account (fun _ => true) spawned 1).Returns
          (topUpHistory 2 5) j r k ∧
        (sentBy r).length = 3 ∧ ((sentBy r).map fun s => s.utxo.outPoint).Nodup := by
  refine ⟨_, _, rfl, rfl, _, _, rfl, rfl, ?_⟩
  refine spawnPullUtxos_sends_once { topUpConfig with ensureMaturedCapacityGreaterThan := 300 }
    ⟨0, 0⟩ Sample.account ⟨topUpConfig.net⟩ .stored 2 (fun _ => true) (topUpHistory 2 5) rfl
    (grows_topUpHistory 2 5 _) (fun _ => validBlocks_topUpChain _) 0 _ _ rfl 1 ?_ _ _ rfl
  intro m i' st' b _ _ hfetch hpulled u hu
  have hnone : ∀ b ∈ topUpBlocks, b.number ∈ [3] → Sample.account.owned b = [] := by decide
  rw [hnone b (List.mem_of_mem_take (List.mem_of_getElem? hfetch.next)) hpulled] at hu
  exact absurd hu List.not_mem_nil

/-- **Sent twice.** The scan stops at the genesis block, and the loop pulls blocks 1 and 2, whose
    cells are sent first. The thread starts above the genesis block, reaches block 2 again and sends
    its transfer again. -/
theorem spawnPullUtxos_sends_twice :
    (∀ rpc, Grows (topUpHistory 0 3) rpc) ∧
    (∀ t rpc, ValidBlocks (topUpHistory 0 3 t rpc).chain.blocks) ∧
    ∃ spawned j r k, (topUpRun 0).Returns (topUpHistory 0 3) 0 (some spawned) j ∧
      (pullThread topUpConfig ⟨0, 0⟩ Sample.account (fun _ => true) spawned 2).Returns
        (topUpHistory 0 3) j r k ∧
      ¬ ((sentBy r).map fun s => s.utxo.outPoint).Nodup :=
  ⟨grows_topUpHistory 0 3, fun _ _ => validBlocks_topUpChain _, _, _, _, _, rfl, rfl, by decide⟩

end TpsBench
