/-
  Does the top-up loop of `spawn_pull_utxos` end?

  The loop counts what is spendable, and a cellbase is not until `1800 * CELLBASE_MATURITY` blocks
  above it. So the loop goes on after enough is mined, until enough of it has matured.

  * `Feeds`: above the start every block gives the account a cell, and none spends one.
  * `Scanned.spendable`, `Scanned.enough`: what the pulled blocks have come to.
  * `topUp_ends`: a bound on the blocks that the loop pulls, and on its iterations.
-/
import TpsBench.Threads.TopUp

namespace TpsBench

open Lib Account

variable {T : BlockTree} {config : Config} {g : Global} {account : Account} {miner : Miner}
  {w : History T} {N c t : ℕ} {st : TopUp} {bs : List BlockView}

/-- Of different numbers up to `last`, all but `m + 1` are more than `m` below it. -/
theorem length_le_filter {l : List ℕ} (hnodup : l.Nodup) {last : ℕ} (hle : ∀ n ∈ l, n ≤ last)
    (m : ℕ) : l.length ≤ (l.filter fun n => n + m < last).length + (m + 1) := by
  have hsub : (l.filter fun n => !decide (n + m < last)) ⊆ List.range' (last - m) (m + 1) := by
    intro n hn
    obtain ⟨hn, hlarge⟩ := List.mem_filter.mp hn
    have hlast := hle n hn
    rw [Bool.not_eq_true', decide_eq_false_iff_not] at hlarge
    rw [List.mem_range'_1]
    omega
  have hlen := (List.subperm_of_subset (hnodup.filter _) hsub).length_le
  rw [List.length_range'] at hlen
  rw [List.length_eq_length_filter_add fun n => decide (n + m < last)]
  exact Nat.add_le_add_left hlen _

/-! ## Feeding -/

/-- Above height `N` every block gives the account a cell of `c` shannons or more, and none spends a
    cell of the account. No sum overflows. -/
structure Feeds (g : Global) (account : Account) (net : Net) (w : History T) (N c : ℕ) : Prop where
  pays : ∀ t, ∀ b ∈ (w t net.first).chain.blocks, N < b.number →
    ∃ u ∈ account.owned b, c ≤ u.capacity
  spares : ∀ t, ∀ b ∈ (w t net.first).chain.blocks, N < b.number →
    ∀ b' ∈ (w t net.first).chain.blocks, ∀ u ∈ account.owned b', u.outPoint ∉ b.inputPts
  matures : ∀ t, ∀ b ∈ (w t net.first).chain.blocks, NoOverflow g b.number
  fits : ∀ t, (((w t net.first).chain.blocks.flatMap account.owned).map UTXO.capacity).sum < u64Size

/-- As many blocks as have to mature, and those that have not yet. -/
def topUpBound (config : Config) (g : Global) (c : ℕ) : ℕ :=
  1800 * g.cellbaseMaturity + 1 + (config.ensureMaturedCapacityGreaterThan + c - 1) / c

/-- The blocks whose cells are spendable when block `last` is pulled. -/
def ripe (g : Global) (last : ℕ) (bs : List BlockView) : List BlockView :=
  bs.filter fun b => b.number + 1800 * g.cellbaseMaturity < last

section Scanned

variable (h : Scanned config g account w ((w t config.net.first).chain.upTo N).blocks N t st bs)
  (hvalid : ValidBlocks (w t config.net.first).chain.blocks)
  (hfeeds : Feeds g account config.net w N c)

include h hvalid hfeeds

/-- What an old enough block gives the account is spendable. -/
theorem Scanned.spendable {b : BlockView} (hb : b ∈ bs)
    (hold : b.number + 1800 * g.cellbaseMaturity < st.pulled.getLastD N) {u : UTXO}
    (hu : u ∈ account.owned b) : st.cells.utxoset.lookup u.outPoint = some u.output := by
  obtain ⟨⟨k, hcreates⟩, hlock⟩ := mem_owned.mp hu
  have hchain : ∀ b' ∈ bs, b' ∈ (w t config.net.first).chain.blocks :=
    fun b' hb' => h.onChain.subset (List.mem_append_right _ hb')
  have hunspent : Unspent (((w t config.net.first).chain.upTo N).blocks ++
      bs.map BlockView.settled) u.outPoint := by
    intro x hx hin
    rcases List.mem_append.mp hx with hx | hx
    · obtain ⟨hx, hle⟩ := Chain.mem_upTo.mp hx
      exact Chain.notMem_outPoints hvalid hx (hchain b hb) (hle.trans_lt (h.above b hb)) hin
        hcreates.mem_outPoints
    · obtain ⟨b', hb', rfl⟩ := List.mem_map.mp hx
      exact hfeeds.spares t b' (hchain b' hb') (h.above b' hb') b (hchain b hb) u hu
        (BlockView.mem_inputPts_settled.mp hin).1
  refine ((h.live hvalid (hfeeds.matures t)).utxoset _ _).mpr ⟨b.settled, k,
    ⟨List.mem_append_right _ (List.mem_map_of_mem hb), BlockView.creates_settled.mpr hcreates,
      hlock, hunspent⟩, fun _ => ?_⟩
  exact (isMatured_iff (hfeeds.matures t b (hchain b hb)) _).mpr hold

theorem Scanned.fits :
    getTotalCapacityFromUtxo st.cells.utxoset =
      (st.cells.utxoset.entries.map fun e => e.2.capacity).sum := by
  refine Nat.mod_eq_of_lt (lt_of_le_of_lt (HashMap.sum_le_of_mem (f := CellOutput.capacity)
    (l := ((w t config.net.first).chain.blocks.flatMap account.owned).map UTXO.entry) ?_) ?_)
  · intro p o hlook
    obtain ⟨x, k, hcell, -⟩ :=
      ((h.live hvalid (hfeeds.matures t)).utxoset p o).mp hlook
    obtain ⟨b, hb, hcreates⟩ : ∃ b ∈ (w t config.net.first).chain.blocks, Creates b k p o := by
      rcases List.mem_append.mp hcell.1 with hx | hx
      · exact ⟨x, (Chain.mem_upTo.mp hx).1, hcell.2.1⟩
      · obtain ⟨b, hb, rfl⟩ := List.mem_map.mp hx
        exact ⟨b, h.onChain.subset (List.mem_append_right _ hb),
          BlockView.creates_settled.mp hcell.2.1⟩
    exact UTXO.mem_map_entry.mpr (List.mem_flatMap.mpr
      ⟨b, hb, mem_owned.mpr ⟨⟨k, hcreates⟩, hcell.2.2.1⟩⟩)
  · rw [List.map_map]
    exact hfeeds.fits t

omit hvalid hfeeds in
theorem Scanned.pairwise_number : bs.Pairwise fun b b' => b.number < b'.number :=
  ((w t config.net.first).chain.pairwise_number.sublist h.onChain).sublist
    (List.sublist_append_right _ _)

omit hvalid hfeeds in
/-- Only the last blocks are not ripe. -/
theorem Scanned.length_le_ripe :
    st.pulled.length ≤
      (ripe g (st.pulled.getLastD N) bs).length + (1800 * g.cellbaseMaturity + 1) := by
  have hnumbers : st.pulled.Nodup := by
    rw [← h.pulled]
    exact List.pairwise_map.mpr (h.pairwise_number.imp Nat.ne_of_lt)
  have hle : ∀ n ∈ st.pulled, n ≤ st.pulled.getLastD N := by
    intro n hn
    rw [← h.pulled] at hn
    obtain ⟨b, hb, rfl⟩ := List.mem_map.mp hn
    exact h.le_last b hb
  have hlen := length_le_filter hnumbers hle (1800 * g.cellbaseMaturity)
  generalize st.pulled.getLastD N = last at hlen ⊢
  rw [← h.pulled, List.filter_map, List.length_map, List.length_map] at hlen
  rw [← h.pulled, List.length_map]
  exact hlen

/-- Each ripe block has made the account richer. -/
theorem Scanned.ripe_mul_le :
    (ripe g (st.pulled.getLastD N) bs).length * c ≤
      (st.cells.utxoset.entries.map fun e => e.2.capacity).sum := by
  have hmem : ∀ b ∈ ripe g (st.pulled.getLastD N) bs, b ∈ bs ∧
      b.number + 1800 * g.cellbaseMaturity < st.pulled.getLastD N :=
    fun b hb => (List.mem_filter.mp hb).imp_right of_decide_eq_true
  have hchain : ∀ b ∈ ripe g (st.pulled.getLastD N) bs, b ∈ (w t config.net.first).chain.blocks :=
    fun b hb => h.onChain.subset (List.mem_append_right _ (hmem b hb).1)
  have : Nonempty UTXO :=
    ⟨{ output := { capacity := 0, lock := account.lockScript }, outPoint := ⟨0, 0⟩ }⟩
  choose! cell hcell hlarge using fun b (hb : b ∈ ripe g (st.pulled.getLastD N) bs) =>
    hfeeds.pays t b (hchain b hb) (h.above b (hmem b hb).1)
  have hcells : ((ripe g (st.pulled.getLastD N) bs).map fun b => (cell b).outPoint).Nodup := by
    refine List.pairwise_map.mpr ((h.pairwise_number.filter _).imp_of_mem ?_)
    -- two blocks have no cell in common
    intro b b' hb hb' hlt heq
    obtain ⟨⟨k, hcreates⟩, -⟩ := mem_owned.mp (hcell b hb)
    obtain ⟨⟨k', hcreates'⟩, -⟩ := mem_owned.mp (hcell b' hb')
    obtain rfl := hvalid.eq_of_mem_outPoints (hchain b hb) (hchain b' hb')
      hcreates.mem_outPoints (heq ▸ hcreates'.mem_outPoints)
    exact Nat.lt_irrefl _ hlt
  have hsum := HashMap.length_mul_le_sum (m := st.cells.utxoset) (f := CellOutput.capacity) (c := c)
    hcells fun p hp => by
      obtain ⟨b, hb, rfl⟩ := List.mem_map.mp hp
      exact ⟨_, h.spendable hvalid hfeeds (hmem b hb).1 (hmem b hb).2 (hcell b hb), hlarge b hb⟩
  rwa [List.length_map] at hsum

/-- Enough blocks make the account rich enough. -/
theorem Scanned.enough (hc : 0 < c)
    (htotal : st.totalCapacity = getTotalCapacityFromUtxo st.cells.utxoset)
    (hpulled : topUpBound config g c ≤ st.pulled.length) :
    config.ensureMaturedCapacityGreaterThan ≤ st.totalCapacity := by
  have hripe := h.length_le_ripe
  unfold topUpBound at hpulled
  rw [htotal, h.fits hvalid hfeeds]
  refine le_trans ?_ (h.ripe_mul_le hvalid hfeeds)
  refine le_trans ?_ (Nat.mul_le_mul_right c (show _ ≤ _ by omega :
    (config.ensureMaturedCapacityGreaterThan + c - 1) / c ≤
      (ripe g (st.pulled.getLastD N) bs).length))
  have hdiv := Nat.div_add_mod (config.ensureMaturedCapacityGreaterThan + c - 1) c
  have hmod := Nat.mod_lt (config.ensureMaturedCapacityGreaterThan + c - 1) hc
  rw [Nat.mul_comm]
  omega

end Scanned

/-! ## The loop -/

/-- The node accepts the block whose template it gives at call `t`, and has a block at that height
    at the call after. -/
def Miner.Mines (miner : Miner) (w : History T) (t : ℕ) : Prop :=
  ((w (t + 1) miner.net.first).accepts (toString (w t miner.net.first).getBlockTemplate.workId)
    (w t miner.net.first).getBlockTemplate).isSome ∧
  (w t miner.net.first).chain.tipNumber < (w (t + 2) miner.net.first).chain.tipNumber

instance (miner : Miner) (w : History T) (t : ℕ) : Decidable (miner.Mines w t) :=
  inferInstanceAs (Decidable (_ ∧ _))

theorem Miner.Mines.generateBlock_returns (hmines : miner.Mines w t) :
    miner.generateBlock.Returns w t (some ((w t miner.net.first).chain.tipNumber + 1)) (t + 2) := by
  obtain ⟨hash, haccepts⟩ := Option.isSome_iff_exists.mp hmines.1
  exact Rpc.returns_bind.mpr ⟨_, _, Jsonrpc.returns_getBlockTemplate.mpr ⟨rfl, rfl⟩,
    Rpc.returns_bind.mpr ⟨_, _, Jsonrpc.returns_submitBlock.mpr ⟨haccepts.symm, rfl⟩,
      Rpc.returns_pure.mpr ⟨rfl, rfl⟩⟩⟩

theorem Miner.Mines.topUpIter_returns (hmines : miner.Mines w t)
    (hminer : miner.net.first = config.net.first) (ord : PendingOrder) (st : TopUp) :
    ∃ st', (topUpIter config g account miner ord st).Returns w t st' (t + 3) ∧
      st'.pulled.length = st.pulled.length + 1 := by
  have hlt : (w t miner.net.first).chain.tipNumber + 1 <
      (w (t + 2) config.net.first).chain.blocks.length := by
    rw [Chain.length_eq, ← hminer]
    exact Nat.succ_lt_succ hmines.2
  have hblock := List.getElem?_eq_getElem hlt
  refine ⟨_, Rpc.returns_bind.mpr ⟨_, _, hmines.generateBlock_returns, Rpc.returns_bind.mpr
    ⟨_, _, Rpc.returns_bind.mpr ⟨_, _, Jsonrpc.returns_getBlockByNumber.mpr ⟨hblock.symm, rfl⟩,
      Rpc.returns_bind.mpr ⟨_, _, Rpc.returns_unwrapOr.mpr ⟨rfl, rfl⟩,
        Rpc.returns_pure.mpr ⟨rfl, rfl⟩⟩⟩, Rpc.returns_pure.mpr ⟨rfl, rfl⟩⟩⟩, ?_⟩
  show (st.pulled ++ [_]).length = _
  rw [List.length_append, List.length_singleton]

/-- The loop at call `t`. -/
structure Fed (config : Config) (g : Global) (account : Account) (w : History T)
    (base : List BlockView) (N c t : ℕ) (st : TopUp) : Prop where
  scanned : ∃ bs, Scanned config g account w base N t st bs
  total : st.totalCapacity = getTotalCapacityFromUtxo st.cells.utxoset
  pulled : st.pulled.length ≤ topUpBound config g c

section Loop

variable {base : List BlockView} {t₀ t' : ℕ} {st' : TopUp}
  (hgrow : Grows w config.net.first)
  (hvalid : ∀ t, ValidBlocks (w t config.net.first).chain.blocks)
  (hfeeds : Feeds g account config.net w N c) (hc : 0 < c)
  (hN : N ≤ (w t₀ config.net.first).chain.tipNumber)
  (hbase : base = ((w t₀ config.net.first).chain.upTo N).blocks) (ht : t₀ ≤ t)
  (h : Fed config g account w base N c t st)

include hgrow hvalid hfeeds hc hN hbase ht h

/-- With as many blocks as the bound says the loop stops. -/
theorem Fed.lt_bound (hpoor : st.totalCapacity < config.ensureMaturedCapacityGreaterThan) :
    st.pulled.length < topUpBound config g c := by
  obtain ⟨bs, hscanned⟩ := h.scanned
  rw [hbase, ← hgrow.upTo_blocks ht hN] at hscanned
  by_contra hpulled
  exact absurd (hscanned.enough (hvalid t) hfeeds hc h.total (Nat.not_lt.mp hpulled))
    (Nat.not_le.mpr hpoor)

theorem Fed.step (hminer : miner.net.first = config.net.first)
    (hpoor : st.totalCapacity < config.ensureMaturedCapacityGreaterThan)
    (hstep : TopUpStep config g account miner w t st st' t') :
    Fed config g account w base N c t' st' := by
  have hlt := h.lt_bound hgrow hvalid hfeeds hc hN hbase ht hpoor
  obtain ⟨bs, hscanned⟩ := h.scanned
  have hlength : base.length = N + 1 := hbase ▸ Chain.upTo_length hN
  refine ⟨hscanned.step hminer hgrow hlength hstep, ?_, ?_⟩
  · cases hstep with
    | refused => exact h.total
    | pulled => rfl
  · cases hstep with
    | refused => exact h.pulled
    | pulled =>
      show (st.pulled ++ [_]).length ≤ _
      rw [List.length_append, List.length_singleton]
      exact hlt

omit h ht in
/-- If the node accepts what is submitted, the loop ends in time. -/
theorem Fed.ends (hminer : miner.net.first = config.net.first) (ords : ℕ → PendingOrder)
    {fuel : ℕ} (ht : t₀ ≤ t) (h : Fed config g account w base N c t st)
    (hfuel : topUpBound config g c ≤ fuel + st.pulled.length)
    (hmines : ∀ n, n + st.pulled.length < topUpBound config g c → miner.Mines w (t + 3 * n)) :
    ∃ st' j, (topUp config g account miner ords fuel st).Returns w t (some st') j := by
  induction fuel generalizing t st with
  | zero =>
    have hrich : ¬ st.totalCapacity < config.ensureMaturedCapacityGreaterThan := by
      intro hpoor
      have hlt := h.lt_bound hgrow hvalid hfeeds hc hN hbase ht hpoor
      omega
    unfold topUp
    rw [if_neg hrich]
    exact ⟨st, t, Rpc.returns_pure.mpr ⟨rfl, rfl⟩⟩
  | succ fuel ih =>
    unfold topUp
    by_cases hpoor : st.totalCapacity < config.ensureMaturedCapacityGreaterThan
    · rw [if_pos hpoor]
      have hlt := h.lt_bound hgrow hvalid hfeeds hc hN hbase ht hpoor
      have hmines₀ : miner.Mines w t := hmines 0 (by omega)
      obtain ⟨st₁, hiter, hcount⟩ := hmines₀.topUpIter_returns hminer (ords fuel) st
      have h₁ := h.step hgrow hvalid hfeeds hc hN hbase ht hminer hpoor
        (topUpStep_of_returns hiter)
      obtain ⟨st', j, hrest⟩ := ih (by omega) h₁ (by omega) fun n hn => by
        have hnext := hmines (n + 1) (by omega)
        rwa [show t + 3 * (n + 1) = t + 3 + 3 * n by omega] at hnext
      exact ⟨st', j, Rpc.returns_bind.mpr ⟨_, _, hiter, hrest⟩⟩
    · rw [if_neg hpoor]
      exact ⟨st, t, Rpc.returns_pure.mpr ⟨rfl, rfl⟩⟩

end Loop

section Whole

variable {header : HeaderView} {i k : ℕ} (hgrow : Grows w config.net.first)
  (htip : (config.net.getConfirmedTipHeader g).Returns w i header k)

include hgrow htip

/-- The full scan of the blocks up to the confirmed tip, after which the loop begins. -/
theorem fed_start (account : Account) (c : ℕ) :
    header.number ≤ (w k config.net.first).chain.tipNumber ∧
      ∃ cells, (account.pullUntil g config.net.first header).Returns w k cells
          (k + (header.number + 1)) ∧
        Fed config g account w ((w k config.net.first).chain.upTo header.number).blocks
          header.number c (k + (header.number + 1)) (.start cells) := by
  obtain ⟨t, rfl, hseen⟩ := Net.getConfirmedTipHeader_seen htip
  have hseen := hgrow.header? (Nat.le_succ t) hseen
  obtain ⟨b, hb, -⟩ := Chain.header?_eq_some.mp hseen
  have hN := Chain.le_tipNumber hb
  have hscan := account.pullUntil_returns g header hN (serves_of_grows hgrow (t + 1) hN)
  refine ⟨hN, _, hscan, ⟨[], rfl, ?_, fun _ hb => absurd hb List.not_mem_nil,
    fun _ hb => absurd hb List.not_mem_nil, fun _ => .stored _, rfl⟩, rfl, Nat.zero_le _⟩
  rw [List.append_nil]
  exact (List.take_sublist _ _).trans (hgrow.prefix_of_le (Nat.le_add_right _ _)).sublist

/-- If the node accepts what is submitted, `spawn_pull_utxos` comes to the start of its thread. -/
theorem Feeds.spawns (hvalid : ∀ t, ValidBlocks (w t config.net.first).chain.blocks) (hc : 0 < c)
    (hfeeds : Feeds g account config.net w header.number c)
    (hminer : miner.net.first = config.net.first)
    (hmines : ∀ n < topUpBound config g c, miner.Mines w (k + (header.number + 1) + 3 * n))
    (orders : Orders) {fuel : ℕ} (hfuel : topUpBound config g c ≤ fuel) :
    ∃ spawned j,
      (spawnPullUtxos config g account miner orders fuel).Returns w i (some spawned) j := by
  obtain ⟨hN, cells, hscan, hstart⟩ := fed_start hgrow htip account c
  obtain ⟨st, j, htop⟩ := Fed.ends hgrow hvalid hfeeds hc hN rfl hminer orders.pulls
    (Nat.le_add_right _ _) hstart hfuel fun n hn => hmines n hn
  exact ⟨_, j, Rpc.returns_bind.mpr ⟨_, _, htip, Rpc.returns_bind.mpr ⟨_, _, hscan,
    Rpc.returns_bind.mpr ⟨_, _, htop, Rpc.returns_pure.mpr ⟨rfl, rfl⟩⟩⟩⟩⟩

end Whole

namespace Sample

end Sample

end TpsBench
