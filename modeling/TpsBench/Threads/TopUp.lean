/-
  The maps after the top-up loop of `spawn_pull_utxos`, on a chain without reorganization.

  The full scan stops at the confirmed tip, height `N`. The loop pulls the heights its templates
  name, each above the tip of its moment. So the heights in between are never scanned: those
  between `N` and the first template, which `CONFIRMATION_BLOCKS` sets apart, and those another
  miner fills between two templates.

  * `scanned_of_spawn`: which blocks a run has scanned. The maps are their live set
    (`Scanned.live`).
  * `spawnPullUtxos_eq_pullUntil_iff`: they are what `pull_until` returns for the last block pulled
    if and only if the other blocks matter to no cell (`NothingMissed`).
  * `spawnPullUtxos_skips`: a run in which they are not.
-/
import TpsBench.Account.Steady
import TpsBench.Threads.Spawn
import Mathlib.Data.List.Infix

namespace TpsBench

open Lib Account

variable {T : BlockTree} {config : Config} {g : Global} {account : Account} {miner : Miner}
  {w : History T} {i j : ℕ}

/-! ## What was scanned -/

/-- The loop at call `t`: it started from the full scan of `base`, the blocks up to height `N`, and
    has pulled `bs`. They stand in this order on the first endpoint's chain. -/
structure Scanned (config : Config) (g : Global) (account : Account) (w : History T)
    (base : List BlockView) (N t : ℕ) (st : TopUp) (bs : List BlockView) : Prop where
  pulled : bs.map BlockView.number = st.pulled
  onChain : (base ++ bs).Sublist (w t config.net.first).chain.blocks
  above : ∀ b ∈ bs, N < b.number
  le_last : ∀ b ∈ bs, b.number ≤ st.pulled.getLastD N
  cells : ∃ ords, st.cells = account.pullFromBlocks g ords bs (account.pullUntilBlocks g N base)

theorem pullFromBlocks_concat (a : Account) (g : Global) (ords : ℕ → PendingOrder)
    (ord : PendingOrder) {bs : List BlockView} {b : BlockView}
    (hb : ∀ b' ∈ bs, b'.number ≠ b.number) (cells : Cells) :
    a.pullFromBlock g ord b.number b (a.pullFromBlocks g ords bs cells) =
      a.pullFromBlocks g (Function.update ords b.number ord) (bs ++ [b]) cells := by
  unfold pullFromBlocks
  rw [List.foldl_append, List.foldl_cons, List.foldl_nil,
    Function.update_self]
  congr 1
  exact List.foldl_ext _ _ _ fun cells b' hb' => by rw [Function.update_of_ne (hb b' hb')]

/-- One iteration: the block pulled is above all that was scanned, because the template was made
    after that was read. -/
theorem Scanned.step (hminer : miner.net.first = config.net.first)
    (hgrow : Grows w config.net.first) {base bs : List BlockView} {N : ℕ}
    (hbase : base.length = N + 1) {st st' : TopUp} (h : Scanned config g account w base N i st bs)
    (hstep : TopUpStep config g account miner w i st st' j) :
    ∃ bs', Scanned config g account w base N j st' bs' := by
  cases hstep with
  | refused =>
    have hsub := h.onChain.trans (hgrow.prefix_of_le (show i ≤ i + 2 by omega)).sublist
    exact ⟨bs, { h with onChain := hsub }⟩
  | @pulled b ord hb =>
    rw [hminer, ← Chain.length_eq] at hb
    have hnumber := (w (i + 2) config.net.first).chain.number_eq hb
    have hb := hgrow.getElem? (Nat.le_succ (i + 2)) hb
    -- the chain of the template, and `b` directly behind it
    have hsub : (base ++ (bs ++ [b])).Sublist (w (i + 3) config.net.first).chain.blocks := by
      obtain ⟨hlt, hget⟩ := List.getElem?_eq_some_iff.mp hb
      have hprefix := List.concat_get_prefix (hgrow.prefix_of_le (show i ≤ i + 3 by omega)) hlt
      rw [List.get_eq_getElem, hget] at hprefix
      rw [← List.append_assoc]
      exact (h.onChain.append (List.Sublist.refl [b])).trans hprefix.sublist
    have hlower : ∀ b' ∈ bs, b'.number < b.number := fun b' hb' => by
      rw [hnumber]
      exact (w i config.net.first).chain.number_lt
        (h.onChain.subset (List.mem_append_right _ hb'))
    have hN : N < b.number := by
      have := h.onChain.length_le
      rw [List.length_append] at this
      omega
    have hlast : (st.pulled ++ [b.number]).getLastD N = b.number := List.getLastD_concat ..
    obtain ⟨ords, hcells⟩ := h.cells
    refine ⟨bs ++ [b], ?_, hsub, ?_, ?_, Function.update ords b.number ord, ?_⟩
    · rw [List.map_append, h.pulled]
      rfl
    · intro b' hb'
      rcases List.mem_append.mp hb' with hb' | hb'
      · exact h.above b' hb'
      · rwa [List.mem_singleton.mp hb']
    · intro b' hb'
      refine le_of_le_of_eq ?_ hlast.symm
      rcases List.mem_append.mp hb' with hb' | hb'
      · exact (hlower b' hb').le
      · rw [List.mem_singleton.mp hb']
    · rw [← pullFromBlocks_concat account g ords ord (fun b' hb' => (hlower b' hb').ne), ← hcells]
      rfl

/-- What `spawn_pull_utxos` has scanned when it ends: the blocks up to its header and the pulled
    ones, which are blocks of the chain at the end. -/
theorem scanned_of_spawn (hminer : miner.net.first = config.net.first)
    (hgrow : Grows w config.net.first) {orders : Orders} {fuel : ℕ} {spawned : Spawned}
    (h : (spawnPullUtxos config g account miner orders fuel).Returns w i (some spawned) j) :
    OnMainChain config.net w j spawned.currentHeader ∧
      ∃ bs, Scanned config g account w
        ((w j config.net.first).chain.upTo spawned.currentHeader.number).blocks
        spawned.currentHeader.number j spawned.topUp bs := by
  obtain ⟨t, t', cells, hseen, hscan, htop, -⟩ := spawnPullUtxos_cases h
  have hseen := hgrow.header? (show t ≤ t + 1 by omega) hseen
  obtain ⟨b, hb, -⟩ := Chain.header?_eq_some.mp hseen
  have hN := Chain.le_tipNumber hb
  have hret := account.pullUntil_returns g spawned.currentHeader hN
    (serves_of_grows hgrow (t + 1) hN)
  obtain ⟨rfl, rfl⟩ := hscan.unique hret
  have hj := (topUp_induction (P := fun _ _ => True) (fun _ _ _ _ _ _ _ => trivial) trivial htop).1
  refine ⟨hgrow.header? (by omega) hseen, ?_⟩
  -- the blocks up to the header are the same at every later call
  rw [hgrow.upTo_blocks (show t + 1 ≤ j by omega) hN]
  refine (topUp_induction (P := fun t' st => ∃ bs, Scanned config g account w
      ((w (t + 1) config.net.first).chain.upTo spawned.currentHeader.number).blocks
      spawned.currentHeader.number t' st bs)
    (fun _ _ _ _ _ ⟨_, hP⟩ hstep => hP.step hminer hgrow (Chain.upTo_length hN) hstep)
    ⟨[], rfl, ?_, ?_, ?_, fun _ => .stored _, rfl⟩ htop).2
  · rw [List.append_nil]
    exact (List.take_sublist _ _).trans (hgrow.prefix_of_le (by omega)).sublist
  · exact fun _ hb => absurd hb List.not_mem_nil
  · exact fun _ hb => absurd hb List.not_mem_nil

section Scanned

variable {N t : ℕ} {st : TopUp} {bs : List BlockView}

theorem Scanned.valid (h : Scanned config g account w ((w t config.net.first).chain.upTo N).blocks
    N t st bs) (hvalid : ValidBlocks (w t config.net.first).chain.blocks) :
    ValidBlocks (((w t config.net.first).chain.upTo N).blocks ++ bs.map BlockView.settled) :=
  ValidBlocks.append_settled (hvalid.sublist h.onChain)

/-- The maps are the live set of what was scanned. -/
theorem Scanned.live (h : Scanned config g account w ((w t config.net.first).chain.upTo N).blocks
    N t st bs) (hvalid : ValidBlocks (w t config.net.first).chain.blocks)
    (hM : ∀ b ∈ (w t config.net.first).chain.blocks, NoOverflow g b.number) :
    IsLiveSet account g (st.pulled.getLastD N)
      (((w t config.net.first).chain.upTo N).blocks ++ bs.map BlockView.settled) st.cells := by
  obtain ⟨ords, hcells⟩ := h.cells
  rw [hcells, ← h.pulled]
  refine isLiveSet_pullFromBlocks ords bs
    (isLiveSet_pullUntilBlocks (hvalid.sublist (List.take_sublist _ _)) account g N)
    (h.valid hvalid) ?_ fun b hb => ⟨(h.above b hb).le, ?_⟩
  · exact ((w t config.net.first).chain.pairwise_number.sublist h.onChain).imp fun hlt => hlt.le
  · exact hM b (h.onChain.subset (List.mem_append_right _ hb))

theorem Scanned.mem_of_number {base : List BlockView}
    (h : Scanned config g account w base N t st bs) {b : BlockView}
    (hb : b ∈ (w t config.net.first).chain.blocks) (hn : b.number ∈ st.pulled) :
    b ∈ bs := by
  rw [← h.pulled] at hn
  obtain ⟨b', hb', heq⟩ := List.mem_map.mp hn
  have hchain := h.onChain.subset (List.mem_append_right _ hb')
  rwa [← (w t config.net.first).chain.eq_of_number hchain hb heq]

/-- What was scanned, as blocks of the chain up to a height that no pulled block passes. -/
theorem Scanned.mem_scanned (h : Scanned config g account w
      ((w t config.net.first).chain.upTo N).blocks N t st bs) {last : ℕ} (hN : N ≤ last)
    (hle : ∀ b ∈ bs, b.number ≤ last) (x : BlockView) :
    x ∈ ((w t config.net.first).chain.upTo N).blocks ++ bs.map BlockView.settled ↔
      ∃ b ∈ ((w t config.net.first).chain.upTo last).blocks, (b.number ≤ N ∧ x = b) ∨
        (b.number ∈ st.pulled ∧ x = b.settled) := by
  rw [List.mem_append, Chain.mem_upTo, List.mem_map]
  constructor
  · rintro (⟨hx, hxN⟩ | ⟨b, hb, rfl⟩)
    · exact ⟨x, Chain.mem_upTo.mpr ⟨hx, hxN.trans hN⟩, Or.inl ⟨hxN, rfl⟩⟩
    · have hmem := Chain.mem_upTo.mpr ⟨h.onChain.subset (List.mem_append_right _ hb), hle b hb⟩
      exact ⟨b, hmem, Or.inr ⟨h.pulled ▸ List.mem_map_of_mem hb, rfl⟩⟩
  · rintro ⟨b, hb, ⟨hbN, rfl⟩ | ⟨hn, rfl⟩⟩
    · exact Or.inl ⟨(Chain.mem_upTo.mp hb).1, hbN⟩
    · exact Or.inr ⟨b, h.mem_of_number (Chain.mem_upTo.mp hb).1 hn, rfl⟩

end Scanned

/-! ## Partial scans -/

/-- The blocks of `bs` that were not scanned matter to no cell: what they create is spent, and what
    they consume is spent in a scanned block too. `N` is the height of the full scan. A pulled
    block does not count as spending its own cellbase. -/
structure NothingMissed (account : Account) (bs : List BlockView) (N : ℕ) (pulled : List ℕ) :
    Prop where
  created : ∀ b ∈ bs, N < b.number → b.number ∉ pulled → ∀ u ∈ account.owned b,
    ¬ Unspent bs u.outPoint
  consumed : ∀ b ∈ bs, (b.number ≤ N ∨ b.number ∈ pulled) → ∀ u ∈ account.owned b,
    ¬ Unspent bs u.outPoint → ∃ b' ∈ bs, (b'.number ≤ N ∧ u.outPoint ∈ b'.inputPts) ∨
      (b'.number ∈ pulled ∧ u.outPoint ∈ b'.settled.inputPts)

section Partial

variable {bs scanned : List BlockView} {N : ℕ} {pulled : List ℕ}

/-- Live among the scanned blocks: created in one and consumed by none. -/
theorem live_scanned_iff (hscanned : ∀ x, x ∈ scanned ↔
      ∃ b ∈ bs, (b.number ≤ N ∧ x = b) ∨ (b.number ∈ pulled ∧ x = b.settled)) (p : OutPoint) :
    (∃ b k o, LiveCell account scanned b k p o) ↔
      (∃ b ∈ bs, (b.number ≤ N ∨ b.number ∈ pulled) ∧ ∃ u ∈ account.owned b, u.outPoint = p) ∧
      ¬ ∃ b ∈ bs, (b.number ≤ N ∧ p ∈ b.inputPts) ∨
        (b.number ∈ pulled ∧ p ∈ b.settled.inputPts) := by
  constructor
  · rintro ⟨x, k, o, hx, hcreates, hlock, hun⟩
    constructor
    · obtain ⟨b, hb, ⟨hn, rfl⟩ | ⟨hn, rfl⟩⟩ := (hscanned x).mp hx
      · exact ⟨x, hb, Or.inl hn, ⟨o, p⟩, mem_owned.mpr ⟨⟨k, hcreates⟩, hlock⟩, rfl⟩
      · exact ⟨b, hb, Or.inr hn, ⟨o, p⟩,
          mem_owned.mpr ⟨⟨k, BlockView.creates_settled.mp hcreates⟩, hlock⟩, rfl⟩
    · rintro ⟨b, hb, ⟨hn, hin⟩ | ⟨hn, hin⟩⟩
      · exact hun b ((hscanned b).mpr ⟨b, hb, Or.inl ⟨hn, rfl⟩⟩) hin
      · exact hun b.settled ((hscanned _).mpr ⟨b, hb, Or.inr ⟨hn, rfl⟩⟩) hin
  · rintro ⟨⟨b, hb, hn, u, hu, rfl⟩, hspent⟩
    obtain ⟨⟨k, hcreates⟩, hlock⟩ := mem_owned.mp hu
    have hun : Unspent scanned u.outPoint := by
      intro x hx hin
      obtain ⟨b', hb', ⟨hn', rfl⟩ | ⟨hn', rfl⟩⟩ := (hscanned x).mp hx
      · exact hspent ⟨x, hb', Or.inl ⟨hn', hin⟩⟩
      · exact hspent ⟨b', hb', Or.inr ⟨hn', hin⟩⟩
    rcases hn with hn | hn
    · exact ⟨b, k, u.output, (hscanned b).mpr ⟨b, hb, Or.inl ⟨hn, rfl⟩⟩, hcreates, hlock, hun⟩
    · exact ⟨b.settled, k, u.output, (hscanned _).mpr ⟨b, hb, Or.inr ⟨hn, rfl⟩⟩,
        BlockView.creates_settled.mpr hcreates, hlock, hun⟩

theorem live_iff (p : OutPoint) :
    (∃ b k o, LiveCell account bs b k p o) ↔
      (∃ b ∈ bs, ∃ u ∈ account.owned b, u.outPoint = p) ∧ Unspent bs p := by
  constructor
  · rintro ⟨b, k, o, hb, hcreates, hlock, hun⟩
    exact ⟨⟨b, hb, ⟨o, p⟩, mem_owned.mpr ⟨⟨k, hcreates⟩, hlock⟩, rfl⟩, hun⟩
  · rintro ⟨⟨b, hb, u, hu, rfl⟩, hun⟩
    obtain ⟨⟨k, hcreates⟩, hlock⟩ := mem_owned.mp hu
    exact ⟨b, k, u.output, hb, hcreates, hlock, hun⟩

/-- A scan of some of the blocks of a valid ledger finds the live cells of all of them exactly
    when the blocks left out matter to none. -/
theorem live_scanned_eq_live_iff (hv : ValidBlocks bs) (hscanned : ∀ x, x ∈ scanned ↔
      ∃ b ∈ bs, (b.number ≤ N ∧ x = b) ∨ (b.number ∈ pulled ∧ x = b.settled)) :
    (∀ p, (∃ b k o, LiveCell account scanned b k p o) ↔ ∃ b k o, LiveCell account bs b k p o) ↔
      NothingMissed account bs N pulled := by
  simp only [live_scanned_iff hscanned, live_iff]
  -- an owned cell is from one block
  have hunique : ∀ b ∈ bs, ∀ b' ∈ bs, ∀ u ∈ account.owned b, ∀ u' ∈ account.owned b',
      u.outPoint = u'.outPoint → b = b' := by
    intro b hb b' hb' u hu u' hu' heq
    obtain ⟨⟨k, hcreates⟩, -⟩ := mem_owned.mp hu
    obtain ⟨⟨k', hcreates'⟩, -⟩ := mem_owned.mp hu'
    exact hv.eq_of_mem_outPoints hb hb' hcreates.mem_outPoints (heq ▸ hcreates'.mem_outPoints)
  constructor
  · intro hlive
    constructor
    · intro b hb hN hnot u hu hun
      obtain ⟨⟨b', hb', hn, u', hu', heq⟩, -⟩ := (hlive u.outPoint).mpr ⟨⟨b, hb, u, hu, rfl⟩, hun⟩
      obtain rfl := hunique b' hb' b hb u' hu' u hu heq
      rcases hn with hn | hn
      · exact absurd hn (by omega)
      · exact hnot hn
    · intro b hb hn u hu hspent
      by_contra hnone
      exact hspent ((hlive u.outPoint).mp ⟨⟨b, hb, hn, u, hu, rfl⟩, hnone⟩).2
  · rintro ⟨hcreated, hconsumed⟩ p
    constructor
    · rintro ⟨⟨b, hb, hn, u, hu, rfl⟩, hnone⟩
      refine ⟨⟨b, hb, u, hu, rfl⟩, ?_⟩
      by_contra hspent
      exact hnone (hconsumed b hb hn u hu hspent)
    · rintro ⟨⟨b, hb, u, hu, rfl⟩, hun⟩
      refine ⟨⟨b, hb, ?_, u, hu, rfl⟩, ?_⟩
      · by_contra hn
        rw [not_or] at hn
        exact hcreated b hb (by omega) hn.2 u hu hun
      · rintro ⟨b', hb', ⟨-, hin⟩ | ⟨-, hin⟩⟩
        · exact hun b' hb' hin
        · exact hun b' hb' (BlockView.mem_inputPts_settled.mp hin).1

/-- A cell live among the scanned blocks and a cell live among all of them are one cell, if they
    have one out point. -/
theorem live_scanned_unique (hv : ValidBlocks bs) (hscanned : ∀ x, x ∈ scanned ↔
      ∃ b ∈ bs, (b.number ≤ N ∧ x = b) ∨ (b.number ∈ pulled ∧ x = b.settled)) {x b : BlockView}
    {k k' : ℕ} {p : OutPoint} {o o' : CellOutput} (h : LiveCell account scanned x k p o)
    (h' : LiveCell account bs b k' p o') : x.number = b.number ∧ k = k' ∧ o = o' := by
  obtain ⟨b', hb', ⟨-, rfl⟩ | ⟨-, rfl⟩⟩ := (hscanned x).mp h.1
  · obtain ⟨rfl, hk, ho⟩ := hv.creates_unique hb' h'.1 h.2.1 h'.2.1
    exact ⟨rfl, hk, ho⟩
  · obtain ⟨rfl, hk, ho⟩ :=
      hv.creates_unique hb' h'.1 (BlockView.creates_settled.mp h.2.1) h'.2.1
    exact ⟨rfl, hk, ho⟩

end Partial

/-! ## Against the full scan -/

/-- **When the top-up ends with the maps of the full scan.** The chain is valid and only grows, and
    no height overflows. If the loop pulled anything, then its maps are those of `pull_until` for
    the last block pulled, and hold nothing that is not live there, if and only if the blocks
    that were not scanned matter to no cell. -/
theorem spawnPullUtxos_eq_pullUntil_iff (config : Config) (g : Global) (account : Account)
    (miner : Miner) (orders : Orders) (fuel : ℕ) (w : History T)
    (hminer : miner.net.first = config.net.first) (hgrow : Grows w config.net.first)
    (hvalid : ∀ t, ValidBlocks (w t config.net.first).chain.blocks)
    (hM : ∀ t, ∀ b ∈ (w t config.net.first).chain.blocks,
      b.number + 1800 * g.cellbaseMaturity < 2 ^ 64) (i j : ℕ) (spawned : Spawned)
    (hret : (spawnPullUtxos config g account miner orders fuel).Returns w i (some spawned) j)
    (hne : spawned.topUp.pulled ≠ []) :
    let last := spawned.topUp.pulled.getLast hne
    let bs := ((w j config.net.first).chain.upTo last).blocks
    let cells := spawned.topUp.cells
    ∃ header, (w j config.net.first).chain.header? last = some header ∧
      ∃ full j', (account.pullUntil g config.net.first header).Returns w j full j' ∧
        ((cells.Same full ∧ ∀ p ∈ cells.utxoset, ∃ b k o, LiveCell account bs b k p o) ↔
          NothingMissed account bs spawned.currentHeader.number spawned.topUp.pulled) := by
  intro last bs cells
  obtain ⟨-, new, h⟩ := scanned_of_spawn hminer hgrow hret
  have hlast : spawned.topUp.pulled.getLastD spawned.currentHeader.number = last := by
    rw [List.getLastD_eq_getLast?, List.getLast?_eq_some_getLast hne, Option.getD_some]
  have hle := h.le_last
  have hlive := h.live (hvalid j) (hM j)
  rw [hlast] at hle hlive
  -- the last pulled block, and the full scan for it
  have hmem : ∀ b ∈ new, b ∈ bs := fun b hb =>
    Chain.mem_upTo.mpr ⟨h.onChain.subset (List.mem_append_right _ hb), hle b hb⟩
  obtain ⟨b, hb, hnum⟩ : ∃ b ∈ new, b.number = last :=
    List.mem_map.mp (h.pulled ▸ List.getLast_mem hne)
  have hN : spawned.currentHeader.number ≤ last := hnum ▸ (h.above b hb).le
  have hget := (w j config.net.first).chain.getElem?_number (Chain.mem_upTo.mp (hmem b hb)).1
  have htip := Chain.le_tipNumber hget
  have hfull := account.pullUntil_returns g b.header htip (serves_of_grows hgrow j htip)
  have hv : ValidBlocks bs := (hvalid j).sublist (List.take_sublist _ _)
  have hfullLive := isLiveSet_pullUntilBlocks hv account g last
  refine ⟨b.header, Chain.header?_eq_some.mpr ⟨b, hnum ▸ hget, rfl⟩, _, _, hfull, ?_⟩
  rw [show b.header.number = last from hnum]
  have hscanned := h.mem_scanned hN hle
  rw [← live_scanned_eq_live_iff hv hscanned, ← hlive.same_iff hfullLive
    fun _ _ _ _ _ _ _ => live_scanned_unique hv hscanned]
  refine ⟨fun hboth => hboth.1, fun hsame => ⟨hsame, fun p hp => ?_⟩⟩
  exact (hfullLive.mem_iff p).mp ((hsame.mem_iff p).mp (Or.inl hp))

/-- With no confirmation block the scan stops at the tip, block 1, and block 2 is next: the maps
    are those of the full scan. -/
theorem spawnPullUtxos_eq_pullUntil_iff_contiguous :
    ∃ spawned j, (topUpRun 0).Returns (topUpHistory 1 3) 0 (some spawned) j ∧
      spawned.topUp.pulled = [2] ∧
      ∃ header, (topUpHistory 1 3 j topUpConfig.net.first).chain.header? 2 = some header ∧
        ∃ full j', (Sample.account.pullUntil ⟨0, 0⟩ topUpConfig.net.first header).Returns
          (topUpHistory 1 3) j full j' ∧ spawned.topUp.cells.Same full := by
  obtain ⟨header, hheader, full, j', hfull, hiff⟩ := spawnPullUtxos_eq_pullUntil_iff topUpConfig
    ⟨0, 0⟩ Sample.account ⟨topUpConfig.net⟩ .stored 2 (topUpHistory 1 3) rfl
    (grows_topUpHistory 1 3 _) (fun _ => validBlocks_topUpChain _)
    (fun _ b hb => Nat.lt_of_le_of_lt (number_le_topUpChain _ b hb) (by decide)) 0 8 _ rfl
    (by decide)
  exact ⟨_, _, rfl, rfl, header, hheader, full, j', hfull,
    (hiff.mpr ⟨by decide, by decide⟩).1⟩

/-- **A block in between.** With one confirmation block the scan stops at the genesis block and
    the template at height 1 is for block 2. Block 1, with a cell of the account, is not
    scanned. -/
theorem spawnPullUtxos_skips :
    (∀ rpc, Grows (topUpHistory 1 3) rpc) ∧
    (∀ t rpc, ValidBlocks (topUpHistory 1 3 t rpc).chain.blocks) ∧
    ∃ spawned j, (topUpRun 1).Returns (topUpHistory 1 3) 0 (some spawned) j ∧
      spawned.topUp.pulled = [2] ∧
      ∃ header, (topUpHistory 1 3 j topUpConfig.net.first).chain.header? 2 = some header ∧
        ∃ full j', (Sample.account.pullUntil ⟨0, 1⟩ topUpConfig.net.first header).Returns
          (topUpHistory 1 3) j full j' ∧ ¬ spawned.topUp.cells.Same full := by
  refine ⟨grows_topUpHistory 1 3, fun t _ => validBlocks_topUpChain _, ?_⟩
  refine ⟨_, _, rfl, rfl, _, rfl, _, _, rfl, fun hsame => ?_⟩
  exact absurd (hsame.1 ⟨101, 0⟩) (by decide)

end TpsBench
