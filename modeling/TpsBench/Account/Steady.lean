/-
  `pull_forever` on a chain without reorganization: exactly what it sends, and when.

  The first endpoint's chain only grows. The other endpoints, and which bodies are served, are
  free: they only decide when an iteration stands still. Then the current header stays on the
  chain and the loop never rolls back (`steady_induction`).

  The pending list is kept sorted: entries are pushed in order of height. So the drain, which looks
  at the first entry only, removes all that are mature (`Lib.takeWhile_eq_filter`), and a state is a
  function of the chain that ends at its header (`InStep`): pending are the entries that no height
  passed so far matures, and block `b` sends its transfers and the entries that `b` is the first to
  mature.

  * `InStep.step`: one block.
  * `pullForever_exact`: after any number of iterations, the multiset of what was sent and the
    contents of the pending list.
-/
import TpsBench.Account.PullForever
import TpsBench.Account.PullUntil
import TpsBench.Lib.Drain
import Mathlib.Data.List.Perm.Basic

namespace TpsBench

open Lib

variable {T : BlockTree}

namespace Account

variable {a : Account} {g : Global} {recv : Receiver} {net : Net} {w : History T} {i : ℕ}
  {st : PullState}

/-! ## No rollback -/

/-- At call `t` the first endpoint has `header` on its main chain. -/
def OnMainChain (net : Net) (w : History T) (t : ℕ) (header : HeaderView) : Prop :=
  (w t net.first).chain.header? header.number = some header

/-- An iteration stands still or processes the next block. The next header of a chain links to
    the header before it, so there is nothing to roll back. -/
theorem steady_iterates (hgrow : Grows w net.first) (hon : OnMainChain net w i st.currentHeader)
    {st' : PullState} (hiter : Iterates a g recv net w i st (.ok st')) {j : ℕ} (hij : i ≤ j) :
    OnMainChain net w j st'.currentHeader ∧
      (st' = st ∨ ∃ block, Fetches net w i st block ∧ st' = a.afterBlock g block st) := by
  cases hiter with
  | idle => exact ⟨hgrow.header? hij hon, Or.inl rfl⟩
  | rollback hroll =>
    obtain ⟨b, hb, rfl⟩ := Chain.header?_eq_some.mp hroll.next
    obtain ⟨b', hb', hheader⟩ := Chain.header?_eq_some.mp hon
    refine absurd ?_ hroll.link
    rw [← hheader]
    exact (w i net.first).chain.linked.getElem? hb' hb
  | @forward block hfetch =>
    refine ⟨?_, Or.inr ⟨block, hfetch, rfl⟩⟩
    refine hgrow.header? hij (Chain.header?_eq_some.mpr ⟨block, ?_, rfl⟩)
    show (w i net.first).chain.blocks[block.number]? = some block
    rw [hfetch.number, hfetch.next]

/-- What each processed block keeps holds throughout a run without reorganization. -/
theorem steady_induction {n : ℕ} {P : PullState → Prop} (hgrow : Grows w net.first)
    (hon : OnMainChain net w i st.currentHeader) (hstart : P st)
    (hstep : ∀ m i' st' block, m < n → Reached a g recv net w i st m i' st' → P st' →
      Fetches net w i' st' block → P (a.afterBlock g block st')) :
    ∀ m i' st', m ≤ n → Reached a g recv net w i st m i' st' →
      OnMainChain net w i' st'.currentHeader ∧ P st' := by
  refine Reached.induction ⟨hon, hstart⟩ ?_
  intro m i' st' j' st'' hm hreached h hiter hij
  obtain ⟨hon', hcases⟩ := steady_iterates hgrow h.1 hiter hij
  refine ⟨hon', ?_⟩
  rcases hcases with rfl | ⟨block, hfetch, rfl⟩
  · exact h.2
  · exact hstep m i' st' block hm hreached h.2 hfetch

theorem steady_returns (hgrow : Grows w net.first) (hon : OnMainChain net w i st.currentHeader)
    (n : ℕ) : ∃ r j, (a.pullForever g recv net n st).Returns w i r j := by
  induction n with
  | zero => exact ⟨_, _, Rpc.returns_pure.mpr ⟨rfl, rfl⟩⟩
  | succ n ih =>
    obtain ⟨r, j, h⟩ := ih
    refine h.exists_bind ?_
    cases r with
    | error sent => exact ⟨_, _, Rpc.returns_pure.mpr ⟨rfl, rfl⟩⟩
    | ok st' =>
      have hon' := (steady_induction hgrow hon (P := fun _ => True) trivial
        (fun _ _ _ _ _ _ _ _ => trivial) n j st' (Nat.le_refl n) h).1
      obtain ⟨b, hb, -⟩ := Chain.header?_eq_some.mp
        (hgrow.header? (Nat.le_add_right j net.endpoints.length) hon')
      refine pullForeverIter_total ?_
      have hlt := (List.getElem?_eq_some_iff.mp hb).1
      rw [Chain.header?, List.getElem?_eq_getElem (by omega), Option.map_some]
      exact ⟨_, rfl⟩

/-! ## The reference -/

/-- All pending entries there ever were: the initial ones and the cellbase cells above height
    `n`. -/
def entries (a : Account) (init : List (ℕ × UTXO)) (n : ℕ) (c : Chain T) : List (ℕ × UTXO) :=
  init ++ (c.after n).flatMap a.pendingOf

/-- Does a run that started above height `n` find the entry mature by the time it has processed
    block `tip`? -/
def passed (g : Global) (n tip : ℕ) (e : ℕ × UTXO) : Bool := decide (n < tip) && isMatured g tip e.1

/-- What block `b` sends: its transfers, and the entries it is the first to mature. -/
def dueAt (a : Account) (g : Global) (n : ℕ) (all : List (ℕ × UTXO)) (b : BlockView) : List UTXO :=
  a.ownedTransfers b ++
    (all.filter fun e => passed g n b.number e && !passed g n (b.number - 1) e).map Prod.snd

theorem passed_mono {n tip : ℕ} {e : ℕ × UTXO} (h : passed g n tip e = true) :
    passed g n (tip + 1) e = true := by
  unfold passed at h ⊢
  rw [Bool.and_eq_true, decide_eq_true_iff] at h ⊢
  exact ⟨by omega, isMatured_mono h.2 (Nat.le_succ tip)⟩

theorem passed_self (n : ℕ) (e : ℕ × UTXO) : passed g n n e = false := by
  unfold passed
  rw [decide_eq_false (Nat.lt_irrefl n), Bool.false_and]

theorem passed_of_lt {n tip : ℕ} (h : n < tip) (e : ℕ × UTXO) :
    passed g n tip e = isMatured g tip e.1 := by
  unfold passed
  rw [decide_eq_true h, Bool.true_and]

theorem passed_pendingOf {b : BlockView} (hM : NoOverflow g b.number) {n tip : ℕ}
    (ht : tip ≤ b.number) {e : ℕ × UTXO} (he : e ∈ a.pendingOf b) : passed g n tip e = false := by
  have hself : isMatured g tip b.number = false := by
    rw [← Bool.not_eq_true, isMatured_iff hM]
    omega
  unfold passed
  rw [number_of_mem_pendingOf he, hself, Bool.and_false]

section Entries

variable {init : List (ℕ × UTXO)} {n : ℕ} {c c' : Chain T}

theorem entries_number_le (hinit : ∀ e ∈ init, e.1 ≤ n) (hn : n ≤ c.tipNumber) {e : ℕ × UTXO}
    (he : e ∈ entries a init n c) : e.1 ≤ c.tipNumber := by
  rcases List.mem_append.mp he with he | he
  · exact (hinit e he).trans hn
  · obtain ⟨b, hb, he⟩ := List.mem_flatMap.mp he
    have := c.number_lt (Chain.mem_after.mp hb).1
    rw [c.length_eq] at this
    rw [number_of_mem_pendingOf he]
    exact Nat.le_of_lt_succ this

theorem sortedBy_entries (hsorted : SortedBy Prod.fst init) (hinit : ∀ e ∈ init, e.1 ≤ n) :
    SortedBy Prod.fst (entries a init n c) := by
  refine sortedBy_append.mpr ⟨hsorted, ?_, fun e he e' he' => ?_⟩
  · refine List.pairwise_flatMap.mpr ⟨fun b _ => ?_, ?_⟩
    · exact sortedBy_of_const fun _ => number_of_mem_pendingOf
    refine (c.pairwise_after n).imp fun hlt e he e' he' => ?_
    rw [number_of_mem_pendingOf he, number_of_mem_pendingOf he']
    exact hlt.le
  · obtain ⟨b, hb, he'⟩ := List.mem_flatMap.mp he'
    rw [number_of_mem_pendingOf he']
    exact (hinit e he).trans (Chain.mem_after.mp hb).2.le

theorem entries_succ {b : BlockView} (hblocks : c'.blocks = c.blocks ++ [b])
    (hn : n ≤ c.tipNumber) : entries a init n c' = entries a init n c ++ a.pendingOf b := by
  unfold entries
  rw [Chain.after_succ hblocks hn, List.flatMap_append, List.flatMap_singleton,
    List.append_assoc]

end Entries

/-- The state is what the chain `c` that ends at its header makes it. -/
structure InStep (a : Account) (g : Global) (init : List (ℕ × UTXO)) (n : ℕ) (c : Chain T)
    (st : PullState) : Prop where
  ends : EndsAt c st.currentHeader
  above : n ≤ st.currentHeader.number
  unmatureds : st.unmatureds =
    (entries a init n c).filter fun e => !passed g n st.currentHeader.number e
  sent : st.sent = (c.after n).flatMap fun b =>
    (a.dueAt g n (entries a init n c) b).map (Sent.mk b.header)

section Step

variable {init : List (ℕ × UTXO)} {n : ℕ} {c c' : Chain T} {b : BlockView}

/-- On the sorted pending list the drain takes all that `b` matures, and only that. -/
theorem InStep.drained (h : InStep a g init n c st) (hsorted : SortedBy Prod.fst init)
    (hinit : ∀ e ∈ init, e.1 ≤ n) (hb : b.number = st.currentHeader.number + 1)
    (hM : NoOverflow g b.number) :
    (st.unmatureds.takeWhile fun e => isMatured g b.number e.1) =
        (entries a init n c).filter
          (fun e => passed g n b.number e && !passed g n (b.number - 1) e) ∧
      (st.unmatureds.dropWhile fun e => isMatured g b.number e.1) =
        (entries a init n c).filter fun e => !passed g n b.number e := by
  have htip := h.ends.tipNumber
  have hsorted' : SortedBy Prod.fst st.unmatureds := by
    rw [h.unmatureds]
    exact (sortedBy_entries hsorted hinit).sublist List.filter_sublist
  have hdown : DownClosed Prod.fst (fun e : ℕ × UTXO => isMatured g b.number e.1)
      st.unmatureds := by
    intro e _ e' he' hle hmat
    rw [h.unmatureds] at he'
    have hle' := entries_number_le hinit (htip ▸ h.above) (List.mem_filter.mp he').1
    exact isMatured_anti (hM.mono (by omega)) hle hmat
  have hpassed : ∀ e, passed g n b.number e = isMatured g b.number e.1 :=
    passed_of_lt (by have := h.above; omega)
  rw [takeWhile_eq_filter hsorted' hdown, dropWhile_eq_filter hsorted' hdown, h.unmatureds,
    List.filter_filter, List.filter_filter, hb, Nat.add_sub_cancel]
  rw [hb] at hpassed
  constructor
  · exact List.filter_congr fun e _ => by rw [hpassed]
  · refine List.filter_congr fun e _ => ?_
    rw [← hpassed]
    cases hp : passed g n st.currentHeader.number e with
    | false => rw [Bool.not_false, Bool.and_true]
    | true => rw [passed_mono hp, Bool.not_true, Bool.false_and]

theorem InStep.step (h : InStep a g init n c st) (hsorted : SortedBy Prod.fst init)
    (hinit : ∀ e ∈ init, e.1 ≤ n) (hc' : EndsAt c' b.header)
    (hblocks : c'.blocks = c.blocks ++ [b]) (hb : b.number = st.currentHeader.number + 1)
    (hM : NoOverflow g b.number) : InStep a g init n c' (a.afterBlock g b st) := by
  have habove := h.above
  have htip : n ≤ c.tipNumber := by
    rw [h.ends.tipNumber]
    exact habove
  have hentries : entries a init n c' = entries a init n c ++ a.pendingOf b :=
    entries_succ hblocks htip
  obtain ⟨htake, hdrop⟩ := h.drained hsorted hinit hb hM
  -- up to height `b` the new entries change nothing
  have hdueAt : ∀ b', b'.number ≤ b.number →
      a.dueAt g n (entries a init n c') b' = a.dueAt g n (entries a init n c) b' := by
    intro b' hle
    have hnone : (a.pendingOf b).filter
        (fun e => passed g n b'.number e && !passed g n (b'.number - 1) e) = [] :=
      List.filter_eq_nil_iff.mpr fun e he => by simp [passed_pendingOf hM hle he]
    unfold dueAt
    rw [hentries, List.filter_append, hnone, List.append_nil]
  refine ⟨hc', ?_, ?_, ?_⟩
  · show n ≤ b.number
    omega
  · have hkeep : (a.pendingOf b).filter (fun e => !passed g n b.number e) = a.pendingOf b :=
      List.filter_eq_self.mpr fun e he => by rw [passed_pendingOf hM (Nat.le_refl _) he]; rfl
    show _ ++ a.pendingOf b = (entries a init n c').filter fun e => !passed g n b.number e
    rw [hdrop, hentries, List.filter_append, hkeep]
  · show st.sent ++ (a.due g b st.unmatureds).map (Sent.mk b.header) = _
    rw [Chain.after_succ hblocks htip, List.flatMap_append, List.flatMap_singleton, h.sent]
    congr 1
    · refine List.flatMap_congr fun b' hb' => ?_
      have := c.number_lt (Chain.mem_after.mp hb').1
      rw [h.ends.1] at this
      rw [hdueAt b' (by omega)]
    · rw [hdueAt b (Nat.le_refl _), due, dueAt, htake]

end Step

/-! ## Whole runs -/

/-- After any number of iterations the state is what the chain makes it. -/
theorem inStep_of_reached {fromHeader : HeaderView} {init : List (ℕ × UTXO)} {n : ℕ}
    (hgrow : Grows w net.first) (hfrom : OnMainChain net w i fromHeader)
    (hM : ∀ t, ∀ b ∈ (w t net.first).chain.blocks, NoOverflow g b.number)
    (hsorted : SortedBy Prod.fst init) (hinit : ∀ e ∈ init, e.1 ≤ fromHeader.number) {j : ℕ}
    (hreached : Reached a g recv net w i ⟨fromHeader, init, []⟩ n j st) :
    OnMainChain net w j st.currentHeader ∧
      ∃ c : Chain T, InStep a g init fromHeader.number c st := by
  have hends : EndsAt ((w i net.first).chain.upTo fromHeader.number) fromHeader :=
    EndsAt.upTo hfrom
  have hstart : InStep a g init fromHeader.number ((w i net.first).chain.upTo fromHeader.number)
      ⟨fromHeader, init, []⟩ := by
    have hafter : ((w i net.first).chain.upTo fromHeader.number).after fromHeader.number = [] :=
      List.drop_eq_nil_of_le hends.1.le
    refine ⟨hends, Nat.le_refl _, ?_, ?_⟩
    · unfold entries
      rw [hafter, List.flatMap_nil, List.append_nil, eq_comm, List.filter_eq_self]
      intro e _
      rw [passed_self]
      rfl
    · rw [hafter]
      rfl
  refine steady_induction (P := fun st => ∃ c : Chain T, InStep a g init fromHeader.number c st)
    hgrow hfrom ⟨_, hstart⟩ ?_ n j st (Nat.le_refl n) hreached
  rintro m i' st' block - - ⟨c, h⟩ hfetch
  obtain ⟨c', hc', hblocks⟩ := h.ends.succ hfetch.next hfetch.link
  exact ⟨c', h.step hsorted hinit hc' hblocks hfetch.number
    (hM i' block (List.mem_of_getElem? hfetch.next))⟩

/-- What was sent block by block is, as a multiset, all transfers and all matured entries. -/
theorem InStep.sent_perm {init : List (ℕ × UTXO)} {n : ℕ} {c : Chain T}
    (h : InStep a g init n c st) :
    (st.sent.map Sent.utxo).Perm
      ((c.after n).flatMap a.ownedTransfers ++
        ((entries a init n c).filter (passed g n st.currentHeader.number)).map Prod.snd) := by
  have htip := h.ends.tipNumber
  have habove := h.above
  -- entry by entry, over the heights `n+1, …`
  have hlayers := flatMap_filter_perm (p := passed g n) (fun _ _ => passed_mono) (passed_self n)
    (entries a init n c) (st.currentHeader.number - n)
  rw [Nat.add_sub_cancel' habove, ← htip, ← Chain.map_number_after, List.flatMap_map,
    htip] at hlayers
  have hsent : st.sent.map Sent.utxo =
      (c.after n).flatMap (a.dueAt g n (entries a init n c)) := by
    rw [h.sent, List.map_flatMap]
    refine List.flatMap_congr fun b _ => ?_
    rw [List.map_map]
    exact List.map_id _
  rw [hsent]
  refine (List.flatMap_append_perm _ _ _).symm.trans (List.Perm.append_left _ ?_)
  rw [← List.map_flatMap]
  exact hlayers.map Prod.snd

/-- **What `pull_forever` sends.** On a chain that only grows the loop does not panic. Once it has
    processed the block at height `h`, it has sent, each once and nothing else, the owned outputs
    of the non-first transactions of the blocks above `from_header`, and the cellbase entries,
    initial or of those blocks, that `h` matures; the others are what is pending. -/
theorem pullForever_exact (a : Account) (g : Global) (recv : Receiver) (net : Net) (w : History T)
    (fromHeader : HeaderView) (unmatureds : List (ℕ × UTXO)) (i : ℕ) (hgrow : Grows w net.first)
    (hfrom : (w i net.first).chain.header? fromHeader.number = some fromHeader)
    (hM : ∀ t, ∀ b ∈ (w t net.first).chain.blocks, b.number + 1800 * g.cellbaseMaturity < 2 ^ 64)
    (hsorted : unmatureds.Pairwise fun e e' => e.1 ≤ e'.1)
    (hinit : ∀ e ∈ unmatureds, e.1 ≤ fromHeader.number) (n : ℕ) :
    ∃ r j, (a.pullForever g recv net n ⟨fromHeader, unmatureds, []⟩).Returns w i r j ∧
      ∀ st, r = .ok st → fromHeader.number < st.currentHeader.number →
        let h := st.currentHeader.number
        let new := ((w j net.first).chain.upTo h).after fromHeader.number
        let cellbases :=
          unmatureds ++ new.flatMap fun b => (a.ownedCellbase b).map (Prod.mk b.number)
        (w j net.first).chain.header? h = some st.currentHeader ∧
        (st.sent.map Sent.utxo).Perm (new.flatMap a.ownedTransfers ++
          (cellbases.filter fun e => h > e.1 + 1800 * g.cellbaseMaturity).map Prod.snd) ∧
        st.unmatureds = cellbases.filter fun e => ¬ h > e.1 + 1800 * g.cellbaseMaturity := by
  obtain ⟨r, j, hret⟩ : ∃ r j,
      (a.pullForever g recv net n ⟨fromHeader, unmatureds, []⟩).Returns w i r j := by
    apply steady_returns hgrow _ n
    exact hfrom
  refine ⟨r, j, hret, ?_⟩
  rintro st rfl hlt
  obtain ⟨hon, c, h⟩ := inStep_of_reached hgrow hfrom hM hsorted hinit hret
  have hblocks : c.blocks = ((w j net.first).chain.upTo st.currentHeader.number).blocks :=
    h.ends.unique (EndsAt.upTo hon)
  have hafter : c.after fromHeader.number =
      ((w j net.first).chain.upTo st.currentHeader.number).after fromHeader.number := by
    rw [Chain.after, hblocks]
    rfl
  -- on the entries, `passed` is the plain comparison
  have hpassed : ∀ e ∈ entries a unmatureds fromHeader.number c,
      passed g fromHeader.number st.currentHeader.number e =
        decide (st.currentHeader.number > e.1 + 1800 * g.cellbaseMaturity) := by
    intro e he
    obtain ⟨b, hb, -⟩ := Chain.header?_eq_some.mp hon
    have hMtip := hM j b (List.mem_of_getElem? hb)
    rw [(w j net.first).chain.number_eq hb] at hMtip
    have hle := entries_number_le hinit (h.above.trans_eq h.ends.tipNumber.symm) he
    rw [h.ends.tipNumber] at hle
    rw [passed_of_lt hlt, Bool.eq_iff_iff, isMatured_iff (NoOverflow.mono hMtip hle),
      decide_eq_true_iff]
  have hperm := h.sent_perm
  have hpending := h.unmatureds
  rw [List.filter_congr hpassed, entries, hafter] at hperm
  rw [List.filter_congr fun e he => by rw [hpassed e he, ← decide_not], entries, hafter] at hpending
  exact ⟨hon, hperm, hpending⟩

/-- From the first block of the sample chain, with that block's cellbase pending. -/
def steadyStart : PullState where
  currentHeader := (Sample.block 10 0 0 []).header
  unmatureds := [(0, ⟨Sample.output Sample.account, ⟨100, 0⟩⟩)]
  sent := []

/-- One iteration sends the transfer and the cell that was pending, and the new cellbase is
    pending. -/
theorem pullForever_exact_sample :
    ∃ st j, (Sample.account.pullForever ⟨0, 0⟩ (fun _ => true)
        Sample.net 1 steadyStart).Returns
        (.still sampleChain) 0 (.ok st) j ∧
      (st.sent.map Sent.utxo).Perm [⟨Sample.output Sample.account, ⟨201, 0⟩⟩,
        ⟨Sample.output Sample.account, ⟨100, 0⟩⟩] ∧
      st.unmatureds = [(1, ⟨Sample.output Sample.account, ⟨101, 0⟩⟩)] := by
  have hM : ∀ b ∈ sampleBlocks, b.number + 1800 * 0 < 2 ^ 64 := by decide
  obtain ⟨r, j, hret, h⟩ := pullForever_exact Sample.account ⟨0, 0⟩ (fun _ => true)
    Sample.net (.still sampleChain)
    steadyStart.currentHeader steadyStart.unmatureds 0 (fun _ => List.prefix_rfl) rfl
    (fun _ => hM) (by decide) (by decide) 1
  have hrun : (Sample.account.pullForever ⟨0, 0⟩ (fun _ => true)
      Sample.net 1 steadyStart).Returns
      (.still sampleChain) 0 (.ok (Sample.account.afterBlock ⟨0, 0⟩
        (Sample.block 11 10 1 [Sample.cellbase 101 Sample.account,
          Sample.transfer 201 100 Sample.account]) steadyStart)) 2 := rfl
  obtain ⟨rfl, rfl⟩ := hret.unique hrun
  obtain ⟨-, hperm, hpending⟩ := h _ rfl (by decide)
  exact ⟨_, _, hrun, hperm, hpending⟩

end Account

end TpsBench
