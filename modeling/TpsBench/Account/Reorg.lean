/-
  `pull_forever` across reorganizations: what it never skips, and what it should not have sent.

  Both results carry an invariant that ties the state to the chain that ends at the current
  header. A forward step extends that chain by the block it processes, because the block links to
  the current header (`EndsAt.succ`). A rollback cuts it, if the header rolled back to is on it.

  * `pullForever_skips_nothing`: with reorganizations at most 1000 deep, every owned output above
    the start is sent or pending, after any number of iterations.
  * `pullForever_sends_orphan`: a run that sends the cellbase of an orphaned block. The rollback
    leaves `unmatureds` as it is.
  * `pullForever_sends_on_chain`: what is sent is on the chain, in a run that never meets an entry
    of an orphaned block again: `NoLeftovers`.
-/
import TpsBench.Account.PullForever
import Mathlib.Data.List.TakeWhile

namespace TpsBench

variable {T : BlockTree}

namespace Account

variable {a : Account} {g : Global} {recv : Receiver} {net : Net} {w : History T}

/-! ## Nothing is skipped -/

/-- Every owned output above height `n`, on the chain that ends at the current header, is sent or
    pending. -/
def AccountsFor (T : BlockTree) (a : Account) (n : ℕ) (st : PullState) : Prop :=
  ∃ c : Chain T, EndsAt c st.currentHeader ∧ ∀ b ∈ c.blocks, n < b.number → ∀ k p o,
    Creates b k p o → o.lock = a.lockScript →
      (⟨o, p⟩ : UTXO) ∈ st.sent.map Sent.utxo ∨ (b.number, ⟨o, p⟩) ∈ st.unmatureds

/-- From call `i` on, the first endpoint's chain keeps the block 1000 below `header`, or the
    genesis block, of the chain that ends at `header`. -/
def Anchored (net : Net) (w : History T) (i : ℕ) (header : HeaderView) : Prop :=
  ∀ c : Chain T, EndsAt c header → ∀ t, i ≤ t →
    (w t net.first).chain.blocks[header.number - 1000]? = c.blocks[header.number - 1000]?

theorem Anchored.header? {i t : ℕ} {header : HeaderView} (h : Anchored net w i header)
    {c : Chain T} (hc : EndsAt c header) (ht : i ≤ t) :
    (w t net.first).chain.header? (header.number - 1000) = c.header? (header.number - 1000) := by
  rw [Chain.header?, Chain.header?, h c hc t ht]

/-- What was sent or pending still is after a block, and so is everything the block adds. -/
theorem afterBlock_keeps (g : Global) (block : BlockView) (st : PullState) {n : ℕ} {u : UTXO}
    (h : u ∈ st.sent.map Sent.utxo ∨ (n, u) ∈ st.unmatureds) :
    u ∈ (a.afterBlock g block st).sent.map Sent.utxo ∨
      (n, u) ∈ (a.afterBlock g block st).unmatureds := by
  unfold afterBlock due
  simp only [List.map_append, List.mem_append, List.map_map]
  rcases h with h | h
  · exact Or.inl (Or.inl h)
  · rw [← List.takeWhile_append_dropWhile (p := fun e => isMatured g block.number e.1)
      (l := st.unmatureds), List.mem_append] at h
    rcases h with h | h
    · exact Or.inl (Or.inr (Or.inr (List.mem_map.mpr ⟨_, h, rfl⟩)))
    · exact Or.inr (Or.inl h)

theorem afterBlock_adds (g : Global) (block : BlockView) (st : PullState) {u : UTXO}
    (h : u ∈ a.owned block) :
    u ∈ (a.afterBlock g block st).sent.map Sent.utxo ∨
      (block.number, u) ∈ (a.afterBlock g block st).unmatureds := by
  unfold afterBlock due pendingOf
  simp only [List.map_append, List.mem_append, List.map_map]
  rcases List.mem_append.mp h with h | h
  · exact Or.inr (Or.inr (List.mem_map.mpr ⟨u, h, rfl⟩))
  · exact Or.inl (Or.inr (Or.inl (List.mem_map.mpr ⟨u, h, rfl⟩)))

theorem AccountsFor.afterBlock {n : ℕ} {st : PullState} {block : BlockView} {c₁ : Chain T}
    (h : AccountsFor T a n st) (hnext : c₁.blocks[st.currentHeader.number + 1]? = some block)
    (hlink : block.parentHash = st.currentHeader.hash) (g : Global) :
    AccountsFor T a n (a.afterBlock g block st) := by
  obtain ⟨c, hc, hall⟩ := h
  obtain ⟨c', hc', hblocks⟩ := hc.succ hnext hlink
  refine ⟨c', hc', fun b hb hn k p o hcreates hlock => ?_⟩
  rw [hblocks, List.mem_append, List.mem_singleton] at hb
  rcases hb with hb | rfl
  · exact afterBlock_keeps g block st (hall b hb hn k p o hcreates hlock)
  · exact afterBlock_adds g b st (mem_owned.mpr ⟨⟨k, hcreates⟩, hlock⟩)

theorem AccountsFor.step {n i : ℕ} {st st' : PullState} (h : AccountsFor T a n st)
    (hanchored : Anchored net w i st.currentHeader)
    (hiter : Iterates a g recv net w i st (.ok st')) : AccountsFor T a n st' := by
  cases hiter with
  | idle => exact h
  | rollback hroll =>
    obtain ⟨c, hc, hall⟩ := h
    have hold := hroll.old
    rw [hanchored.header? hc (by omega)] at hold
    exact ⟨_, EndsAt.upTo hold, fun b hb => hall b (Chain.mem_upTo.mp hb).1⟩
  | forward hfetch => exact h.afterBlock hfetch.next hfetch.link g

/-- The block 1000 below the current header is there to roll back to, so an iteration returns. -/
theorem AccountsFor.returns {n i : ℕ} {st : PullState} (h : AccountsFor T a n st)
    (hanchored : Anchored net w i st.currentHeader) :
    ∃ r j, (a.pullForeverIter g recv net st).Returns w i r j := by
  obtain ⟨c, hc, -⟩ := h
  refine pullForeverIter_total ?_
  rw [hanchored.header? hc (by omega), Chain.header?]
  have hlen : st.currentHeader.number - 1000 < c.blocks.length := by
    rw [hc.1]
    omega
  exact ⟨_, by rw [List.getElem?_eq_getElem hlen, Option.map_some]⟩

/-- **Nothing is skipped.** While the block 1000 below the current header stays on the first
    endpoint's chain, `pull_forever` does not panic, and at the head of every iteration each owned
    output of a block above `from_header`, on the chain that ends at the current header, has been
    sent or is in `unmatureds`. -/
theorem pullForever_skips_nothing (a : Account) (g : Global) (recv : Receiver) (net : Net)
    (w : History T) (fromHeader : HeaderView) (unmatureds : List (ℕ × UTXO)) (c : Chain T)
    (hfrom : EndsAt c fromHeader) (i n : ℕ)
    (hanchored : ∀ m i' st', m < n →
      Reached a g recv net w i ⟨fromHeader, unmatureds, []⟩ m i' st' →
      Anchored net w i' st'.currentHeader) :
    ∃ r j, (a.pullForever g recv net n ⟨fromHeader, unmatureds, []⟩).Returns w i r j ∧
      ∀ st, r = .ok st → ∃ c : Chain T, EndsAt c st.currentHeader ∧
        ∀ b ∈ c.blocks, fromHeader.number < b.number → ∀ k p o, Creates b k p o →
          o.lock = a.lockScript →
          (⟨o, p⟩ : UTXO) ∈ st.sent.map Sent.utxo ∨ (b.number, ⟨o, p⟩) ∈ st.unmatureds := by
  have hstart : AccountsFor T a fromHeader.number ⟨fromHeader, unmatureds, []⟩ := by
    refine ⟨c, hfrom, fun b hb hn => ?_⟩
    have hlt := c.number_lt hb
    rw [hfrom.1] at hlt
    omega
  have hall : ∀ m i' st', m ≤ n →
      Reached a g recv net w i ⟨fromHeader, unmatureds, []⟩ m i' st' →
      AccountsFor T a fromHeader.number st' :=
    Reached.induction hstart
      fun m i' st' _ _ hm hreached h hiter _ => h.step (hanchored m i' st' hm hreached) hiter
  have hreturns : ∀ m ≤ n, ∃ r j,
      (a.pullForever g recv net m ⟨fromHeader, unmatureds, []⟩).Returns w i r j := by
    intro m hm
    induction m with
    | zero => exact ⟨_, _, Rpc.returns_pure.mpr ⟨rfl, rfl⟩⟩
    | succ m ih =>
      obtain ⟨r, j, h⟩ := ih (by omega)
      refine h.exists_bind ?_
      cases r with
      | ok st => exact (hall m j st (by omega) h).returns (hanchored m j st (by omega) h)
      | error sent => exact ⟨_, _, Rpc.returns_pure.mpr ⟨rfl, rfl⟩⟩
  obtain ⟨r, j, h⟩ := hreturns n (Nat.le_refl n)
  refine ⟨r, j, h, fun st hr => ?_⟩
  rw [hr] at h
  exact hall n j st (Nat.le_refl n) h

/-! ### A run with a reorganization -/

/-- Block 11 is orphaned by blocks 21 and 22. The account mined 11 and 21. -/
def orphanBlocks : List BlockView :=
  [Sample.block 10 0 0 [Sample.cellbase 100 Sample.stranger],
   Sample.block 11 10 1 [Sample.cellbase 101 Sample.account],
   Sample.block 21 10 1 [Sample.cellbase 201 Sample.account],
   Sample.block 22 21 2 [Sample.cellbase 202 Sample.stranger]]

def orphanTree : BlockTree := .ofList orphanBlocks

def orphanedChain : Chain orphanTree where
  blocks := orphanBlocks.take 2
  genesis := by decide
  follows := by decide
  mem_tree := by decide

def mainChain : Chain orphanTree where
  blocks := orphanBlocks.take 1 ++ orphanBlocks.drop 2
  genesis := by decide
  follows := by decide
  mem_tree := by decide

/-- The endpoint switches after block 11 was processed, before call 2. -/
def orphanHistory : History orphanTree := .switch orphanedChain mainChain fun _ => 2

/-- The start of the sample runs: at the genesis block, nothing pending, nothing sent. -/
def orphanStart : PullState where
  currentHeader := (Sample.block 10 0 0 []).header
  unmatureds := []
  sent := []

theorem mem_orphanBlocks {c : Chain orphanTree} {b : BlockView} (h : b ∈ c.blocks) :
    b ∈ orphanBlocks := BlockTree.mem_of_ofList (c.mem_tree b h)

theorem anchored_orphanHistory (net : Net) (i : ℕ) (header : HeaderView) :
    Anchored net orphanHistory i header := by
  have hgenesis : ∀ c : Chain orphanTree, c.blocks[0]? = orphanBlocks.head? := by
    intro c
    obtain ⟨b, hb⟩ : ∃ b, c.blocks[0]? = some b := ⟨_, List.getElem?_eq_getElem c.length_pos⟩
    have hall : ∀ b ∈ orphanBlocks, b.number = 0 → some b = orphanBlocks.head? := by decide
    rw [hb]
    exact hall _ (mem_orphanBlocks (List.mem_of_getElem? hb)) (c.number_eq hb)
  intro c hc t _
  have hall : ∀ b ∈ orphanBlocks, b.number ≤ 2 := by decide
  obtain ⟨b, hb, rfl⟩ := Chain.header?_eq_some.mp hc.2
  have hle : b.header.number ≤ 2 := hall b (mem_orphanBlocks (List.mem_of_getElem? hb))
  rw [Nat.sub_eq_zero_of_le (by omega), hgenesis, hgenesis]

/-- Across the reorganization nothing is skipped. -/
theorem pullForever_skips_nothing_orphan :
    ∃ r j, (Sample.account.pullForever ⟨0, 0⟩ (fun _ => true) Sample.net 4 orphanStart).Returns
        orphanHistory 0 r j ∧
      ∀ st, r = .ok st → ∃ c : Chain orphanTree, EndsAt c st.currentHeader ∧
        ∀ b ∈ c.blocks, 0 < b.number → ∀ k p o, Creates b k p o →
          o.lock = Sample.account.lockScript →
          (⟨o, p⟩ : UTXO) ∈ st.sent.map Sent.utxo ∨ (b.number, ⟨o, p⟩) ∈ st.unmatureds :=
  pullForever_skips_nothing Sample.account ⟨0, 0⟩ (fun _ => true) Sample.net orphanHistory
    (Sample.block 10 0 0 []).header [] (orphanedChain.upTo 0) ⟨rfl, rfl⟩ 0 4
    (fun _ _ _ _ _ => anchored_orphanHistory _ _ _)

/-! ## Sent from the chain -/

/-- The UTXO was created on the chain that ended at the current header when it was sent. -/
def SentOnChain (T : BlockTree) (s : Sent) : Prop :=
  ∃ c : Chain T, EndsAt c s.header ∧ ∃ b ∈ c.blocks, ∃ k, Creates b k s.utxo.outPoint s.utxo.output

/-- The pending entry is a cellbase cell of the block at its number, on the chain that ends at
    `header`. -/
def PendingOnChain (T : BlockTree) (a : Account) (header : HeaderView) (e : ℕ × UTXO) : Prop :=
  ∃ c : Chain T, EndsAt c header ∧ ∃ b ∈ c.blocks, b.number = e.1 ∧ e.2 ∈ a.ownedCellbase b

/-- The iteration that starts at call `i` in `st` meets no entry of an orphaned block. If it
    processes a block, then the entries with that block's number are the block's own, and entries
    with a larger number are not mature. If it rolls back, then the entries up to the height
    rolled back to are of the chain rolled back to. -/
structure NoLeftovers (a : Account) (g : Global) (net : Net) (w : History T) (i : ℕ)
    (st : PullState) : Prop where
  forward : ∀ block, Fetches net w i st block → ∀ e ∈ st.unmatureds,
    (e.1 = block.number → e.2 ∈ a.ownedCellbase block) ∧
    (block.number < e.1 → isMatured g block.number e.1 = false)
  back : ∀ header old, RollsBack net w i st header old → ∀ e ∈ st.unmatureds,
    e.1 ≤ old.number → PendingOnChain T a old e

/-- The chain ends at the current header, and whatever is pending at or below its height was
    created on it. Entries above that height are those a rollback left behind. -/
structure PendingFresh (T : BlockTree) (a : Account) (st : PullState) : Prop where
  chain : ∃ c : Chain T, EndsAt c st.currentHeader
  pending : ∀ e ∈ st.unmatureds, e.1 ≤ st.currentHeader.number →
    PendingOnChain T a st.currentHeader e

theorem PendingOnChain.succ {c c' : Chain T} {header : HeaderView} {block : BlockView}
    {e : ℕ × UTXO} (h : PendingOnChain T a header e) (hc : EndsAt c header)
    (hc' : EndsAt c' block.header) (hblocks : c'.blocks = c.blocks ++ [block]) :
    PendingOnChain T a block.header e := by
  obtain ⟨c₁, hc₁, b, hb, he⟩ := h
  rw [hc₁.unique hc] at hb
  exact ⟨c', hc', b, by rw [hblocks]; exact List.mem_append_left _ hb, he⟩

section Step

variable {i : ℕ} {st : PullState} {block : BlockView}

/-- A pending entry that the new block's height has passed or reached is on the new chain. -/
theorem PendingFresh.of_le (h : PendingFresh T a st) (hfresh : NoLeftovers a g net w i st)
    (hfetch : Fetches net w i st block) {e : ℕ × UTXO} (he : e ∈ st.unmatureds)
    (hle : e.1 ≤ block.number) : PendingOnChain T a block.header e := by
  obtain ⟨c, hc⟩ := h.chain
  obtain ⟨c', hc', hblocks⟩ := hc.succ hfetch.next hfetch.link
  have hnumber := hfetch.number
  rcases Nat.lt_or_eq_of_le hle with hlt | heq
  · exact (h.pending e he (by omega)).succ hc hc' hblocks
  · refine ⟨c', hc', block, ?_, heq.symm, (hfresh.forward block hfetch e he).1 heq⟩
    rw [hblocks]
    exact List.mem_append_right _ (List.mem_singleton_self block)

theorem PendingFresh.due (h : PendingFresh T a st) (hfresh : NoLeftovers a g net w i st)
    (hfetch : Fetches net w i st block) {u : UTXO} (hu : u ∈ a.due g block st.unmatureds) :
    SentOnChain T ⟨block.header, u⟩ := by
  rcases List.mem_append.mp hu with hu | hu
  · obtain ⟨c, hc⟩ := h.chain
    obtain ⟨c', hc', hblocks⟩ := hc.succ hfetch.next hfetch.link
    obtain ⟨⟨k, -, hcreates⟩, -⟩ := mem_ownedTransfers.mp hu
    refine ⟨c', hc', block, ?_, k, hcreates⟩
    rw [hblocks]
    exact List.mem_append_right _ (List.mem_singleton_self block)
  · obtain ⟨e, he, rfl⟩ := List.mem_map.mp hu
    have hmat := List.mem_takeWhile_imp he
    have he := (List.takeWhile_sublist _).subset he
    -- a mature entry is not above the block
    have hle : e.1 ≤ block.number := by
      by_contra hlt
      have := (hfresh.forward block hfetch e he).2 (by omega)
      rw [this] at hmat
      exact Bool.false_ne_true hmat
    obtain ⟨c', hc', b, hb, -, hcell⟩ := h.of_le hfresh hfetch he hle
    exact ⟨c', hc', b, hb, 0, (mem_ownedCellbase.mp hcell).1⟩

/-- One iteration without leftovers keeps the pending entries on the chain, and sends from it. -/
theorem PendingFresh.step {st' : PullState} (h : PendingFresh T a st)
    (hsent : ∀ s ∈ st.sent, SentOnChain T s) (hfresh : NoLeftovers a g net w i st)
    (hiter : Iterates a g recv net w i st (.ok st')) :
    PendingFresh T a st' ∧ ∀ s ∈ st'.sent, SentOnChain T s := by
  cases hiter with
  | idle => exact ⟨h, hsent⟩
  | rollback hroll =>
    exact ⟨⟨⟨_, EndsAt.upTo hroll.old⟩, fun e he hle => hfresh.back _ _ hroll e he hle⟩, hsent⟩
  | @forward block hfetch =>
    obtain ⟨c, hc⟩ := h.chain
    obtain ⟨c', hc', hblocks⟩ := hc.succ hfetch.next hfetch.link
    refine ⟨⟨⟨c', hc'⟩, fun e he hle => ?_⟩, fun s hs => ?_⟩
    · rcases List.mem_append.mp he with he | he
      · exact h.of_le hfresh hfetch ((List.dropWhile_sublist _).subset he) hle
      · obtain ⟨u, hu, rfl⟩ := List.mem_map.mp he
        refine ⟨c', hc', block, ?_, rfl, hu⟩
        rw [hblocks]
        exact List.mem_append_right _ (List.mem_singleton_self block)
    · rcases List.mem_append.mp hs with hs | hs
      · exact hsent s hs
      · obtain ⟨u, hu, rfl⟩ := List.mem_map.mp hs
        exact h.due hfresh hfetch hu

end Step

/-- **Sent from the chain.** In a run of any length whose iterations meet no entry of an orphaned
    block, every UTXO was created on the chain that ended at the current header when it was
    sent. -/
theorem pullForever_sends_on_chain (a : Account) (g : Global) (recv : Receiver) (net : Net)
    (w : History T) (fromHeader : HeaderView) (unmatureds : List (ℕ × UTXO)) (c : Chain T)
    (hfrom : EndsAt c fromHeader)
    (hinit : ∀ e ∈ unmatureds, e.1 ≤ fromHeader.number → PendingOnChain T a fromHeader e) (i n : ℕ)
    (hfresh : ∀ m i' st', m < n → Reached a g recv net w i ⟨fromHeader, unmatureds, []⟩ m i' st' →
      NoLeftovers a g net w i' st') (r : Except (List Sent) PullState) (j : ℕ)
    (hret : (a.pullForever g recv net n ⟨fromHeader, unmatureds, []⟩).Returns w i r j) :
    ∀ s ∈ sentBy r, SentOnChain T s := by
  have hstart : PendingFresh T a ⟨fromHeader, unmatureds, []⟩ := ⟨⟨c, hfrom⟩, hinit⟩
  have hall : ∀ m i' st', m ≤ n →
      Reached a g recv net w i ⟨fromHeader, unmatureds, []⟩ m i' st' →
      PendingFresh T a st' ∧ ∀ s ∈ st'.sent, SentOnChain T s :=
    Reached.induction ⟨hstart, fun _ hs => absurd hs List.not_mem_nil⟩
      fun m i' st' _ _ hm hreached h hiter _ => h.1.step h.2 (hfresh m i' st' hm hreached) hiter
  refine sentBy_induction (fun m i' st' hm hreached => (hall m i' st' hm hreached).2) ?_ hret
  intro m i' st' block hm hreached hfetch u hu
  exact (hall m i' st' hm.le hreached).1.due (hfresh m i' st' hm hreached) hfetch hu

/-! ### A run that leaves an entry behind -/

/-- Block 12 is orphaned by blocks 22 and 23. Block 11, with a transfer to the account, stays. The
    account mined 10, 11 and 12. -/
def sharedBlocks : List BlockView :=
  [Sample.block 10 0 0 [Sample.cellbase 100 Sample.account,
     Sample.transfer 200 0 Sample.stranger],
   Sample.block 11 10 1 [Sample.cellbase 101 Sample.account,
     Sample.transfer 201 200 Sample.account],
   Sample.block 12 11 2 [Sample.cellbase 102 Sample.account],
   Sample.block 22 11 2 [Sample.cellbase 202 Sample.stranger],
   Sample.block 23 22 3 [Sample.cellbase 203 Sample.stranger]]

def shortChain : Chain (BlockTree.ofList sharedBlocks) where
  blocks := sharedBlocks.take 3
  genesis := by decide
  follows := by decide
  mem_tree := by decide

def longChain : Chain (BlockTree.ofList sharedBlocks) where
  blocks := sharedBlocks.take 2 ++ sharedBlocks.drop 3
  genesis := by decide
  follows := by decide
  mem_tree := by decide

/-- The endpoint switches after block 12 was processed, before call 4. -/
def sharedHistory : History (BlockTree.ofList sharedBlocks) :=
  .switch shortChain longChain fun _ => 4

/-- The genesis block's cell is pending. -/
def sharedStart : PullState where
  currentHeader := (Sample.block 10 0 0 []).header
  unmatureds := [(0, ⟨Sample.output Sample.account, ⟨100, 0⟩⟩)]
  sent := []

section Checks

variable {i : ℕ} {st : PullState}

/-- Where the next block links, only the first condition counts. -/
theorem noLeftovers_of_link {block : BlockView}
    (hnext : (w i net.first).chain.blocks[st.currentHeader.number + 1]? = some block)
    (hlink : block.parentHash = st.currentHeader.hash)
    (hall : ∀ e ∈ st.unmatureds, (e.1 = block.number → e.2 ∈ a.ownedCellbase block) ∧
      (block.number < e.1 → isMatured g block.number e.1 = false)) :
    NoLeftovers a g net w i st where
  forward b hfetch := by
    obtain rfl := Option.some.inj (hnext.symm.trans hfetch.next)
    exact hall
  back header old hroll := by
    obtain ⟨b, hb, rfl⟩ := Chain.header?_eq_some.mp hroll.next
    obtain rfl := Option.some.inj (hnext.symm.trans hb)
    exact absurd hlink hroll.link

/-- Where it does not, only the second. -/
theorem noLeftovers_of_not_link {block : BlockView} {old : HeaderView}
    (hnext : (w i net.first).chain.blocks[st.currentHeader.number + 1]? = some block)
    (hlink : block.parentHash ≠ st.currentHeader.hash)
    (hold : (w (i + net.endpoints.length) net.first).chain.header?
      (st.currentHeader.number - 1000) = some old)
    (hall : ∀ e ∈ st.unmatureds, e.1 ≤ old.number → PendingOnChain T a old e) :
    NoLeftovers a g net w i st where
  forward b hfetch := by
    obtain rfl := Option.some.inj (hnext.symm.trans hfetch.next)
    exact absurd hfetch.link hlink
  back header old' hroll := by
    obtain rfl := Option.some.inj (hold.symm.trans hroll.old)
    exact hall

end Checks

/-- Blocks 11 and 12 are processed, the loop goes back to block 10 and processes block 11 again. The
    entry of block 12 is left behind, and is above block 11. The entries of blocks 10 and 11 are the
    chain's own. The transfer is sent twice, each time from the chain. -/
theorem pullForever_sends_on_chain_shared :
    ∃ st, (Sample.account.pullForever ⟨1, 0⟩ (fun _ => true) Sample.net 4 sharedStart).Returns
        sharedHistory 0 (.ok st) 8 ∧
      (2, ⟨Sample.output Sample.account, ⟨102, 0⟩⟩) ∈ st.unmatureds ∧ st.sent.length = 2 ∧
      ∀ s ∈ st.sent, SentOnChain (BlockTree.ofList sharedBlocks) s := by
  have hends : EndsAt (shortChain.upTo 0) (Sample.block 10 0 0 []).header := ⟨rfl, rfl⟩
  have hgenesis : PendingOnChain (BlockTree.ofList sharedBlocks) Sample.account
      (Sample.block 10 0 0 []).header (0, ⟨Sample.output Sample.account, ⟨100, 0⟩⟩) :=
    ⟨_, hends, Sample.block 10 0 0 [Sample.cellbase 100 Sample.account,
      Sample.transfer 200 0 Sample.stranger], by decide, rfl, by decide⟩
  refine ⟨_, rfl, by decide, rfl, ?_⟩
  refine pullForever_sends_on_chain Sample.account ⟨1, 0⟩ (fun _ => true) Sample.net sharedHistory
    (Sample.block 10 0 0 []).header sharedStart.unmatureds (shortChain.upTo 0) hends
    (fun e he _ => ?_) 0 4 ?_ (.ok _) 8 rfl
  · rw [List.mem_singleton.mp he]
    exact hgenesis
  · have h₀ : Reached Sample.account ⟨1, 0⟩ (fun _ => true) Sample.net sharedHistory 0 sharedStart
      0 0 _ := rfl
    have h₁ : Reached Sample.account ⟨1, 0⟩ (fun _ => true) Sample.net sharedHistory 0 sharedStart
      1 2 _ := rfl
    have h₂ : Reached Sample.account ⟨1, 0⟩ (fun _ => true) Sample.net sharedHistory 0 sharedStart
      2 4 _ := rfl
    have h₃ : Reached Sample.account ⟨1, 0⟩ (fun _ => true) Sample.net sharedHistory 0 sharedStart
      3 6 _ := rfl
    intro m i' st' hm hreached
    match m, hm with
    | 0, _ =>
      obtain ⟨rfl, rfl⟩ := h₀.unique hreached
      exact noLeftovers_of_link rfl rfl (by decide)
    | 1, _ =>
      obtain ⟨rfl, rfl⟩ := h₁.unique hreached
      exact noLeftovers_of_link rfl rfl (by decide)
    | 2, _ =>
      obtain ⟨rfl, rfl⟩ := h₂.unique hreached
      refine noLeftovers_of_not_link rfl (by decide) rfl fun e he hle => ?_
      obtain rfl : e = (0, ⟨Sample.output Sample.account, ⟨100, 0⟩⟩) := by
        revert e
        decide
      exact hgenesis
    | 3, _ =>
      obtain ⟨rfl, rfl⟩ := h₃.unique hreached
      exact noLeftovers_of_link rfl rfl (by decide)

/-- **A cell of an orphaned block is sent.** The account's cellbase of block 11 is pending when
    blocks 21 and 22 replace it. The loop rolls back, processes block 21, and sends the cell while
    it processes block 22, whose chain does not contain it. -/
theorem pullForever_sends_orphan :
    ∃ r j, (Sample.account.pullForever ⟨0, 0⟩ (fun _ => true) Sample.net 4 orphanStart).Returns
        orphanHistory 0 r j ∧
      ∃ s ∈ sentBy r, ¬ SentOnChain orphanTree s := by
  refine ⟨_, _, rfl, ⟨(Sample.block 22 21 2 []).header, ⟨Sample.output Sample.account, ⟨101, 0⟩⟩⟩,
    by decide, ?_⟩
  rintro ⟨c, hc, b, hb, k, hcreates⟩
  have hmain : EndsAt mainChain (Sample.block 22 21 2 []).header := ⟨rfl, rfl⟩
  have hnot : ∀ b ∈ mainChain.blocks, (⟨101, 0⟩ : OutPoint) ∉ b.outPoints := by decide
  rw [hc.unique hmain] at hb
  exact hnot b hb hcreates.mem_outPoints

end Account

end TpsBench
