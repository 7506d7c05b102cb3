/-
  `pull_forever` and spent cells.

  `pull_until` and `pull_from_block_number` remove what a block's inputs name. `pull_forever` never
  looks at inputs. So it sends a cell that the very block it comes from has spent, and a pending
  cell that was spent while it was pending (`pullForever_sends_spent`).

  * `pullForever_sends_unspent`: in a run without reorganization whose blocks leave alone what the
    scanner holds (`SparesHeld`), everything is unspent when it is sent.
  * `InStep.sent_unspent_iff`: for a sorted pending list, exactly when that is so.
-/
import TpsBench.Account.Steady

namespace TpsBench

variable {T : BlockTree}

namespace Account

variable {a : Account} {g : Global} {recv : Receiver} {net : Net} {w : History T} {i : ℕ}
  {st : PullState}

/-- No block up to the current header, at the moment of sending, had consumed the UTXO. -/
def SentUnspent (T : BlockTree) (s : Sent) : Prop :=
  ∃ c : Chain T, EndsAt c s.header ∧ Unspent c.blocks s.utxo.outPoint

/-- The block consumes nothing that is pending before it and no owned output of its own. -/
def SparesHeld (a : Account) (block : BlockView) (st : PullState) : Prop :=
  (∀ e ∈ st.unmatureds, e.2.outPoint ∉ block.inputPts) ∧
    ∀ u ∈ a.owned block, u.outPoint ∉ block.inputPts

/-- Every pending cell is unspent on the chain that ends at the current header. -/
def PendingUnspent (T : BlockTree) (st : PullState) : Prop :=
  ∃ c : Chain T, EndsAt c st.currentHeader ∧ ∀ e ∈ st.unmatureds, Unspent c.blocks e.2.outPoint

theorem unspent_append_singleton {bs : List BlockView} {b : BlockView} {p : OutPoint} :
    Unspent (bs ++ [b]) p ↔ Unspent bs p ∧ p ∉ b.inputPts := by
  simp only [Unspent, List.mem_append, List.mem_singleton, or_imp, forall_and, forall_eq]

/-- What the last block of a valid ledger creates, only that block can have consumed. -/
theorem unspent_of_owned {bs : List BlockView} {b : BlockView} (hv : ValidBlocks (bs ++ [b]))
    {u : UTXO} (hu : u ∈ a.owned b) (hb : u.outPoint ∉ b.inputPts) :
    Unspent (bs ++ [b]) u.outPoint := by
  obtain ⟨⟨k, hcreates⟩, hlock⟩ := mem_owned.mp hu
  exact ((liveCell_append_self hv).mpr ⟨hcreates, hlock, hb⟩).2.2.2

section Step

variable {block : BlockView} {c' : Chain T}

theorem Fetches.validBlocks (hfetch : Fetches net w i st block)
    (hvalid : ValidBlocks (w i net.first).chain.blocks) (hc' : EndsAt c' block.header) :
    ValidBlocks c'.blocks := by
  have hends : EndsAt ((w i net.first).chain.upTo (st.currentHeader.number + 1)) block.header :=
    EndsAt.upTo (Chain.header?_eq_some.mpr ⟨block, hfetch.next, rfl⟩)
  rw [hc'.unique hends]
  exact hvalid.sublist (List.take_sublist _ _)

/-- What is due for a block that spares what is held is unspent at that block. -/
theorem PendingUnspent.due (h : PendingUnspent T st)
    (hvalid : ValidBlocks (w i net.first).chain.blocks) (hspares : SparesHeld a block st)
    (hfetch : Fetches net w i st block) {u : UTXO}
    (hu : u ∈ a.due g block st.unmatureds) : SentUnspent T ⟨block.header, u⟩ := by
  obtain ⟨c, hc, hpending⟩ := h
  obtain ⟨c', hc', hblocks⟩ := hc.succ hfetch.next hfetch.link
  have hv := hfetch.validBlocks hvalid hc'
  refine ⟨c', hc', ?_⟩
  rw [hblocks] at hv ⊢
  rcases List.mem_append.mp hu with hu | hu
  · have howned : u ∈ a.owned block := List.mem_append_right _ hu
    exact unspent_of_owned hv howned (hspares.2 u howned)
  · obtain ⟨e, he, rfl⟩ := List.mem_map.mp hu
    have he := (List.takeWhile_sublist _).subset he
    exact unspent_append_singleton.mpr ⟨hpending e he, hspares.1 e he⟩

theorem PendingUnspent.step (h : PendingUnspent T st)
    (hvalid : ValidBlocks (w i net.first).chain.blocks) (hspares : SparesHeld a block st)
    (hfetch : Fetches net w i st block) :
    PendingUnspent T (a.afterBlock g block st) := by
  obtain ⟨c, hc, hpending⟩ := h
  obtain ⟨c', hc', hblocks⟩ := hc.succ hfetch.next hfetch.link
  have hv := hfetch.validBlocks hvalid hc'
  refine ⟨c', hc', fun e he => ?_⟩
  rw [hblocks] at hv ⊢
  rcases List.mem_append.mp he with he | he
  · have he := (List.dropWhile_sublist _).subset he
    exact unspent_append_singleton.mpr ⟨hpending e he, hspares.1 e he⟩
  · obtain ⟨u, hu, rfl⟩ := List.mem_map.mp he
    have howned : u ∈ a.owned block := List.mem_append_left _ hu
    exact unspent_of_owned hv howned (hspares.2 u howned)

end Step

/-- **Unspent when sent.** On a valid chain that only grows, if no processed block spends a cell
    that is pending or an owned output of its own, then every UTXO that was sent is unspent in the
    blocks up to the current header at that moment. -/
theorem pullForever_sends_unspent (a : Account) (g : Global) (recv : Receiver) (net : Net)
    (w : History T) (fromHeader : HeaderView) (unmatureds : List (ℕ × UTXO)) (i : ℕ)
    (hgrow : Grows w net.first) (hvalid : ∀ t, ValidBlocks (w t net.first).chain.blocks)
    (hfrom : (w i net.first).chain.header? fromHeader.number = some fromHeader)
    (hinit : ∀ e ∈ unmatureds,
      Unspent ((w i net.first).chain.upTo fromHeader.number).blocks e.2.outPoint) (n : ℕ)
    (hspares : ∀ m i' st' block, m < n →
      Reached a g recv net w i ⟨fromHeader, unmatureds, []⟩ m i' st' →
      Fetches net w i' st' block → SparesHeld a block st')
    (r : Except (List Sent) PullState) (j : ℕ)
    (hret : (a.pullForever g recv net n ⟨fromHeader, unmatureds, []⟩).Returns w i r j) :
    ∀ s ∈ sentBy r, SentUnspent T s := by
  have hall : ∀ m i' st', m ≤ n →
      Reached a g recv net w i ⟨fromHeader, unmatureds, []⟩ m i' st' →
      OnMainChain net w i' st'.currentHeader ∧
        PendingUnspent T st' ∧ ∀ s ∈ st'.sent, SentUnspent T s := by
    refine steady_induction hgrow hfrom
      ⟨⟨_, EndsAt.upTo hfrom, hinit⟩, fun _ hs => absurd hs List.not_mem_nil⟩ ?_
    intro m i' st' block hm hreached h hfetch
    have hblock := hspares m i' st' block hm hreached hfetch
    refine ⟨h.1.step (hvalid i') hblock hfetch, fun s hs => ?_⟩
    rcases List.mem_append.mp hs with hs | hs
    · exact h.2 s hs
    · obtain ⟨u, hu, rfl⟩ := List.mem_map.mp hs
      exact h.1.due (hvalid i') hblock hfetch hu
  refine sentBy_induction (fun m i' st' hm hreached => (hall m i' st' hm hreached).2.2) ?_ hret
  intro m i' st' block hm hreached hfetch u hu
  exact (hall m i' st' hm.le hreached).2.1.due (hvalid i')
    (hspares m i' st' block hm hreached hfetch) hfetch hu

/-- The account mined blocks 0 and 1, and block 2 spends the first of the two cells. -/
def sparedBlocks : List BlockView :=
  [Sample.block 10 0 0 [Sample.cellbase 100 Sample.account],
   Sample.block 11 10 1 [Sample.cellbase 101 Sample.account],
   Sample.block 12 11 2 [Sample.cellbase 102 Sample.stranger,
     Sample.transfer 202 100 Sample.stranger]]

def sparedChain : Chain (BlockTree.ofList sparedBlocks) where
  blocks := sparedBlocks
  genesis := by decide
  follows := by decide
  mem_tree := by decide

/-- The genesis block's cell is pending. -/
def sparedStart : PullState where
  currentHeader := (Sample.block 10 0 0 []).header
  unmatureds := [(0, ⟨Sample.output Sample.account, ⟨100, 0⟩⟩)]
  sent := []

/-- The cell that is pending at the start is sent for block 1. Block 2, which spends it,
    spares the cell of block 1, which is pending by then. -/
theorem pullForever_sends_unspent_spared :
    ∃ r j, (Sample.account.pullForever ⟨0, 0⟩ (fun _ => true) Sample.net 2 sparedStart).Returns
        (.still sparedChain) 0 r j ∧
      (sentBy r).length = 2 ∧ ∀ s ∈ sentBy r, SentUnspent (.ofList sparedBlocks) s := by
  have hv : ValidBlocks sparedChain.blocks := ⟨by decide, by decide⟩
  have h₀ : Reached Sample.account ⟨0, 0⟩ (fun _ => true) Sample.net (.still sparedChain) 0
      sparedStart 0 0 _ := rfl
  have h₁ : Reached Sample.account ⟨0, 0⟩ (fun _ => true) Sample.net (.still sparedChain) 0
      sparedStart 1 2 _ := rfl
  refine ⟨_, 4, rfl, rfl, ?_⟩
  refine pullForever_sends_unspent Sample.account ⟨0, 0⟩ (fun _ => true) Sample.net
    (.still sparedChain) (Sample.block 10 0 0 []).header sparedStart.unmatureds 0
    (fun _ => List.prefix_rfl) (fun _ => hv) rfl (by decide) 2 ?_ _ 4 rfl
  intro m i' st' block hm hreached hfetch
  match m, hm with
  | 0, _ =>
    obtain ⟨rfl, rfl⟩ := h₀.unique hreached
    obtain rfl := Option.some.inj hfetch.next
    exact ⟨by decide, by decide⟩
  | 1, _ =>
    obtain ⟨rfl, rfl⟩ := h₁.unique hreached
    obtain rfl := Option.some.inj hfetch.next
    exact ⟨by decide, by decide⟩

/-- For a sorted pending list the sends are known one by one, and so is when all are unspent: no
    block spends a transfer it creates, and no entry is spent at or below the block that is the
    first to mature it. -/
theorem InStep.sent_unspent_iff {init : List (ℕ × UTXO)} {n : ℕ} {c : Chain T}
    (h : InStep a g init n c st) (hv : ValidBlocks c.blocks) :
    (∀ s ∈ st.sent, Unspent (c.upTo s.header.number).blocks s.utxo.outPoint) ↔
      (∀ b ∈ c.after n, ∀ u ∈ a.ownedTransfers b, u.outPoint ∉ b.inputPts) ∧
      ∀ b ∈ c.after n, ∀ e ∈ entries a init n c, passed g n b.number e = true →
        passed g n (b.number - 1) e = false → Unspent (c.upTo b.number).blocks e.2.outPoint := by
  -- a transfer of `b` is spent up to `b` by `b` itself or not at all
  have htransfer : ∀ b ∈ c.after n, ∀ u ∈ a.ownedTransfers b,
      (Unspent (c.upTo b.number).blocks u.outPoint ↔ u.outPoint ∉ b.inputPts) := by
    intro b hb u hu
    have hb := (Chain.mem_after.mp hb).1
    obtain ⟨⟨k, -, hcreates⟩, -⟩ := mem_ownedTransfers.mp hu
    refine ⟨fun hun => hun b (Chain.mem_upTo.mpr ⟨hb, Nat.le_refl _⟩), fun hself b' hb' hin => ?_⟩
    obtain ⟨hb', hle⟩ := Chain.mem_upTo.mp hb'
    rcases Nat.lt_or_eq_of_le hle with hlt | heq
    · exact Chain.notMem_outPoints hv hb' hb hlt hin hcreates.mem_outPoints
    · obtain rfl := c.eq_of_number hb' hb heq
      exact hself hin
  rw [h.sent]
  simp only [List.mem_flatMap, List.mem_map, dueAt, List.mem_append, List.mem_filter,
    Bool.and_eq_true, Bool.not_eq_true']
  constructor
  · intro hall
    constructor
    · intro b hb u hu
      exact (htransfer b hb u hu).mp (hall ⟨b.header, u⟩ ⟨b, hb, u, Or.inl hu, rfl⟩)
    · intro b hb e he hnow hbefore
      exact hall ⟨b.header, e.2⟩ ⟨b, hb, e.2, Or.inr ⟨e, ⟨he, hnow, hbefore⟩, rfl⟩, rfl⟩
  · rintro ⟨hself, hentry⟩ s ⟨b, hb, u, hu | ⟨e, ⟨he, hnow, hbefore⟩, rfl⟩, rfl⟩
    · exact (htransfer b hb u hu).mpr (hself b hb u hu)
    · exact hentry b hb e he hnow hbefore

/-! ## A spent cell is sent -/

/-- The second block pays the account and moves the cell on. -/
def movedBlocks : List BlockView :=
  [Sample.block 10 0 0 [Sample.cellbase 100 Sample.stranger],
   Sample.block 11 10 1 [Sample.cellbase 101 Sample.stranger,
     Sample.transfer 201 100 Sample.account, Sample.transfer 202 201 Sample.stranger]]

def movedChain : Chain (BlockTree.ofList movedBlocks) where
  blocks := movedBlocks
  genesis := by decide
  follows := by decide
  mem_tree := by decide

/-- **A spent cell is sent**: the chain is valid, and the only UTXO sent for block 1 is consumed in
    block 1. -/
theorem pullForever_sends_spent :
    ValidBlocks movedChain.blocks ∧
    ∃ r j, (Sample.account.pullForever ⟨4, 0⟩ (fun _ => true)
        Sample.net 1 ⟨(Sample.block 10 0 0 []).header, [], []⟩).Returns (.still movedChain) 0 r j ∧
      ∃ s ∈ sentBy r, ¬ SentUnspent (.ofList movedBlocks) s := by
  refine ⟨⟨by decide, by decide⟩, _, _, rfl, ⟨(Sample.block 11 10 1 []).header,
    ⟨Sample.output Sample.account, ⟨201, 0⟩⟩⟩, by decide, ?_⟩
  rintro ⟨c, hc, hun⟩
  have hmoved : EndsAt movedChain (Sample.block 11 10 1 []).header := ⟨rfl, rfl⟩
  rw [hc.unique hmoved] at hun
  exact absurd hun (by decide)

end Account

end TpsBench
