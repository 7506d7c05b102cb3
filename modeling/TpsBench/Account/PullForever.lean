/-
  `Account::pull_forever`: follow the chain from a header and send every cell that becomes
  spendable.

  Model (read this before the theorems). The loop's variables are a `PullState`: the current
  header, the pending list, and what has been sent. The channel is a `Receiver`: whether the
  receiving end is still there at the `n`-th send. A failed send makes the function return, which
  is `Except.error` with what it had sent; sending into a full channel only waits. One iteration is
  `pullForeverIter`, and `pullForever n` is `n` iterations. Each RPC call of an iteration sees its
  own world, so the header, the block body and the header rolled back to may come from different
  chains.

  Nothing below unfolds an iteration. `Iterates` lists what one iteration can do, with the answers
  that led there: stand still, roll back, or process the next block.
  `iterates_of_returns` is the only proof that looks inside, and `Reached.induction` carries an
  invariant through a run.

  * `processBlock_cases`: what processing a block sends, keeps and pushes.
  * `Fetches`, `RollsBack`: what an iteration that processes a block, or rolls back, was answered.
  * `iterates_of_returns`, `pullForeverIter_total`: what an iteration does, and that it returns
    unless the header to roll back to is missing.
  * `Reached.induction`, `reached_of_error`: invariants over runs of any length.
-/
import TpsBench.Account.Owned
import TpsBench.Net

namespace TpsBench

variable {T : BlockTree}

/-! ## The program -/

/-- A UTXO that went through the channel, with `current_header` at that moment. -/
structure Sent where
  header : HeaderView
  utxo : UTXO
  deriving DecidableEq, Repr

/-- The variables of the loop, and what has been sent. -/
structure PullState where
  currentHeader : HeaderView
  unmatureds : List (ℕ × UTXO)
  sent : List Sent
  deriving DecidableEq, Repr

/-- The receiving end of the channel: is it there at the `n`-th send? -/
abbrev Receiver := ℕ → Bool

/-- `send(utxo)`; on an error the function returns. -/
def send (recv : Receiver) (header : HeaderView) (sent : List Sent) (utxo : UTXO) :
    Except (List Sent) (List Sent) :=
  if recv sent.length then .ok (sent ++ [⟨header, utxo⟩]) else .error sent

/-- Send each of `utxos`. -/
def sendAll (recv : Receiver) (header : HeaderView) (utxos : List UTXO) (sent : List Sent) :
    Except (List Sent) (List Sent) :=
  utxos.foldlM (send recv header) sent

/-- The `while let` loop: remove and send the first pending entry while it is mature. -/
def drain (g : Global) (recv : Receiver) (header : HeaderView) :
    List (ℕ × UTXO) → List Sent → Except (List Sent) (List (ℕ × UTXO) × List Sent)
  | [], sent => .ok ([], sent)
  | (number, utxo) :: rest, sent =>
    if isMatured g header.number number then do
      let sent ← send recv header sent utxo
      drain g recv header rest sent
    else .ok ((number, utxo) :: rest, sent)

/-- The text of the panic shows the old header. -/
def rollbackForReorg (net : Net) (oldHeader : HeaderView) : Rpc T HeaderView := do
  let header ← net.first.getHeaderByNumber (oldHeader.number - 1000)
  Rpc.unwrapOr (.rollbackForOrg oldHeader) header

namespace Account

/-- The body of `if let Some(block)`. -/
def processBlock (a : Account) (g : Global) (recv : Receiver) (header : HeaderView)
    (block : BlockView) (st : PullState) : Except (List Sent) PullState := do
  let currentHeader := header
  let (matured, unmatured) := a.getOwnedUtxos block
  let sent ← sendAll recv currentHeader matured st.sent
  let (unmatureds, sent) ← drain g recv currentHeader st.unmatureds sent
  let unmatureds := unmatureds ++ unmatured.map fun utxo => (block.number, utxo)
  return { currentHeader, unmatureds, sent }

/-- One iteration of the loop. Where the source sleeps the state stays as it is. -/
def pullForeverIter (a : Account) (g : Global) (recv : Receiver) (net : Net) (st : PullState) :
    Rpc T (Except (List Sent) PullState) := do
  match ← net.getFixedHeader (st.currentHeader.number + 1) with
  | some header =>
    if header.parentHash ≠ st.currentHeader.hash then
      let currentHeader ← rollbackForReorg net st.currentHeader
      return .ok { st with currentHeader }
    else
      match ← net.first.getBlock header.hash with
      | some block => return a.processBlock g recv header block st
      | none => return .ok st
  | none => return .ok st

/-- `n` iterations. -/
def pullForever (a : Account) (g : Global) (recv : Receiver) (net : Net) :
    ℕ → PullState → Rpc T (Except (List Sent) PullState)
  | 0, st => return .ok st
  | n + 1, st => do
    match ← a.pullForever g recv net n st with
    | .ok st => a.pullForeverIter g recv net st
    | .error sent => return .error sent

/-! ## One block -/

/-- What the loop sends for `block`: its transfers, then the matured head of the pending list. -/
def due (a : Account) (g : Global) (block : BlockView) (unmatureds : List (ℕ × UTXO)) : List UTXO :=
  a.ownedTransfers block ++
    (unmatureds.takeWhile fun e => isMatured g block.number e.1).map Prod.snd

/-- The block's cellbase cells as pending entries. -/
def pendingOf (a : Account) (block : BlockView) : List (ℕ × UTXO) :=
  (a.ownedCellbase block).map fun utxo => (block.number, utxo)

theorem number_of_mem_pendingOf {a : Account} {block : BlockView} {e : ℕ × UTXO}
    (he : e ∈ a.pendingOf block) : e.1 = block.number := by
  obtain ⟨u, -, rfl⟩ := List.mem_map.mp he
  rfl

/-- The state after `block`, if nothing fails. -/
def afterBlock (a : Account) (g : Global) (block : BlockView) (st : PullState) : PullState where
  currentHeader := block.header
  unmatureds := (st.unmatureds.dropWhile fun e => isMatured g block.number e.1) ++ a.pendingOf block
  sent := st.sent ++ (a.due g block st.unmatureds).map (Sent.mk block.header)

end Account

theorem sendAll_append (recv : Receiver) (header : HeaderView) (us us' : List UTXO)
    (sent : List Sent) :
    sendAll recv header (us ++ us') sent =
      sendAll recv header us sent >>= sendAll recv header us' := List.foldlM_append

theorem sendAll_cons (recv : Receiver) (header : HeaderView) (u : UTXO) (us : List UTXO)
    (sent : List Sent) :
    sendAll recv header (u :: us) sent = send recv header sent u >>= sendAll recv header us := rfl

theorem sendAll_cases (recv : Receiver) (header : HeaderView) (us : List UTXO) (sent : List Sent) :
    sendAll recv header us sent = .ok (sent ++ us.map (Sent.mk header)) ∨
      ∃ m, sendAll recv header us sent = .error (sent ++ (us.take m).map (Sent.mk header)) := by
  induction us generalizing sent with
  | nil => exact Or.inl (by rw [List.map_nil, List.append_nil]; rfl)
  | cons u us ih =>
    rw [sendAll_cons, send]
    by_cases hrecv : recv sent.length = true
    · rw [if_pos hrecv]
      rcases ih (sent ++ [⟨header, u⟩]) with h | ⟨m, h⟩
      · exact Or.inl (h.trans (by rw [List.map_cons, List.append_assoc, List.singleton_append]))
      · refine Or.inr ⟨m + 1, h.trans ?_⟩
        rw [List.take_succ_cons, List.map_cons, List.append_assoc, List.singleton_append]
    · rw [if_neg hrecv]
      exact Or.inr ⟨0, by rw [List.take_zero, List.map_nil, List.append_nil]; rfl⟩

/-- The drain sends the entries it removes. -/
theorem drain_eq (g : Global) (recv : Receiver) (header : HeaderView) (l : List (ℕ × UTXO))
    (sent : List Sent) :
    drain g recv header l sent =
      (sendAll recv header ((l.takeWhile fun e => isMatured g header.number e.1).map Prod.snd)
        sent).map fun sent => (l.dropWhile fun e => isMatured g header.number e.1, sent) := by
  induction l generalizing sent with
  | nil => rfl
  | cons e l ih =>
    rw [drain, List.takeWhile_cons, List.dropWhile_cons]
    by_cases hmat : isMatured g header.number e.1 = true
    · rw [if_pos hmat, if_pos hmat, if_pos hmat, List.map_cons, sendAll_cons]
      cases send recv header sent e.2 with
      | ok sent' => exact ih sent'
      | error sent' => rfl
    · rw [if_neg hmat, if_neg hmat, if_neg hmat]
      rfl

namespace Account

theorem processBlock_eq (a : Account) (g : Global) (recv : Receiver) (block : BlockView)
    (st : PullState) :
    a.processBlock g recv block.header block st =
      (sendAll recv block.header (a.due g block st.unmatureds) st.sent).map fun sent =>
        { a.afterBlock g block st with sent } := by
  unfold processBlock
  rw [getOwnedUtxos_eq, due, sendAll_append]
  dsimp only
  cases sendAll recv block.header (a.ownedTransfers block) st.sent with
  | error sent => rfl
  | ok sent =>
    show (drain g recv block.header st.unmatureds sent >>= _) = _
    rw [drain_eq]
    unfold BlockView.number
    show _ = Except.map _ (sendAll recv block.header _ sent)
    cases sendAll recv block.header _ sent with
    | error sent => rfl
    | ok sent => rfl

/-- What processing a block can come to: all that is due is sent, or the first few of it. -/
theorem processBlock_cases (a : Account) (g : Global) (recv : Receiver) (block : BlockView)
    (st : PullState) :
    a.processBlock g recv block.header block st = .ok (a.afterBlock g block st) ∨
      ∃ m, a.processBlock g recv block.header block st =
        .error (st.sent ++ ((a.due g block st.unmatureds).take m).map (Sent.mk block.header)) := by
  rw [processBlock_eq]
  rcases sendAll_cases recv block.header (a.due g block st.unmatureds) st.sent with h | ⟨m, h⟩
  · exact Or.inl (by rw [h]; rfl)
  · exact Or.inr ⟨m, by rw [h]; rfl⟩

/-! ## One iteration -/

/-- The iteration that starts at call `i` in `st` comes to the body of `if let Some(block)`: all
    endpoints have the block's header at the next height, it links to the current header, and the
    first endpoint serves the block. -/
structure Fetches (net : Net) (w : History T) (i : ℕ) (st : PullState) (block : BlockView) :
    Prop where
  probe : (net.getFixedHeader (st.currentHeader.number + 1)).Returns w i (some block.header)
    (i + net.endpoints.length)
  link : block.parentHash = st.currentHeader.hash
  body : (w (i + net.endpoints.length) net.first).getBlock block.hash = some block

/-- The iteration that starts at call `i` in `st` finds `header`, which does not link to the current
    one, and goes back to `old`. -/
structure RollsBack (net : Net) (w : History T) (i : ℕ) (st : PullState)
    (header old : HeaderView) : Prop where
  probe : (net.getFixedHeader (st.currentHeader.number + 1)).Returns w i (some header)
    (i + net.endpoints.length)
  link : header.parentHash ≠ st.currentHeader.hash
  back : (rollbackForReorg net st.currentHeader).Returns w (i + net.endpoints.length) old
    (i + net.endpoints.length + 1)

/-- What one iteration, whose first call is number `i`, can come to. -/
inductive Iterates (a : Account) (g : Global) (recv : Receiver) (net : Net) (w : History T) (i : ℕ)
    (st : PullState) : Except (List Sent) PullState → Prop
  /-- No next header, or no body for it: nothing changes. -/
  | idle : Iterates a g recv net w i st (.ok st)
  | rollback {header old : HeaderView} (h : RollsBack net w i st header old) :
      Iterates a g recv net w i st (.ok { st with currentHeader := old })
  | forward {block : BlockView} (h : Fetches net w i st block) :
      Iterates a g recv net w i st (.ok (a.afterBlock g block st))
  /-- The receiver is gone after the first `m` of the UTXOs that are due. -/
  | returned {block : BlockView} {m : ℕ} (h : Fetches net w i st block) :
      Iterates a g recv net w i st
        (.error (st.sent ++ ((a.due g block st.unmatureds).take m).map (Sent.mk block.header)))

section Run

variable {a : Account} {g : Global} {recv : Receiver} {net : Net} {w : History T} {i j k : ℕ}
  {st : PullState} {r : Except (List Sent) PullState}

theorem returns_rollbackForReorg {header old : HeaderView} :
    (rollbackForReorg net header).Returns w i old j ↔
      (w i net.first).chain.header? (header.number - 1000) = some old ∧ j = i + 1 := by
  unfold rollbackForReorg
  rw [Rpc.returns_bind]
  constructor
  · rintro ⟨found, k, hcall, hunwrap⟩
    obtain ⟨rfl, rfl⟩ := Jsonrpc.returns_getHeaderByNumber.mp hcall
    exact Rpc.returns_unwrapOr.mp hunwrap
  · rintro ⟨hold, rfl⟩
    exact ⟨_, _, Jsonrpc.returns_getHeaderByNumber.mpr ⟨rfl, rfl⟩,
      Rpc.returns_unwrapOr.mpr ⟨hold, rfl⟩⟩

/-- The block that is fetched is the next one of the first endpoint's chain. Its body may be fetched
    after the chain has changed, but the hash it is asked by names one block. -/
theorem Fetches.next {block : BlockView} (h : Fetches net w i st block) :
    (w i net.first).chain.blocks[st.currentHeader.number + 1]? = some block := by
  obtain ⟨hnext, -⟩ := (Net.getFixedHeader_spec h.probe).2 _ rfl
  obtain ⟨b, hb, hheader⟩ := Chain.header?_eq_some.mp hnext
  have htree := (w i net.first).chain.mem_tree b (List.mem_of_getElem? hb)
  have hhash : b.hash = block.hash := congrArg HeaderView.hash hheader
  rw [hhash, Node.getBlock_eq_some h.body] at htree
  obtain rfl := Option.some.inj htree
  exact hb

theorem Fetches.number {block : BlockView} (h : Fetches net w i st block) :
    block.number = st.currentHeader.number + 1 := (w i net.first).chain.number_eq h.next

theorem RollsBack.next {header old : HeaderView} (h : RollsBack net w i st header old) :
    (w i net.first).chain.header? (st.currentHeader.number + 1) = some header :=
  ((Net.getFixedHeader_spec h.probe).2 _ rfl).1

theorem RollsBack.old {header old : HeaderView} (h : RollsBack net w i st header old) :
    (w (i + net.endpoints.length) net.first).chain.header? (st.currentHeader.number - 1000) =
      some old := (returns_rollbackForReorg.mp h.back).1

theorem iterates_of_returns (h : (a.pullForeverIter g recv net st).Returns w i r j) :
    i < j ∧ Iterates a g recv net w i st r := by
  obtain ⟨found, k, hprobe, hrest⟩ := Rpc.returns_bind.mp h
  obtain ⟨hik, hsome⟩ := Net.getFixedHeader_spec hprobe
  cases found with
  | none =>
    obtain ⟨rfl, rfl⟩ := Rpc.returns_pure.mp hrest
    exact ⟨hik, .idle⟩
  | some header =>
    obtain ⟨hnext, rfl⟩ := hsome header rfl
    dsimp only at hrest
    split at hrest
    · next hlink =>
      obtain ⟨old, k, hroll, hret⟩ := Rpc.returns_bind.mp hrest
      obtain ⟨-, rfl⟩ := returns_rollbackForReorg.mp hroll
      obtain ⟨rfl, rfl⟩ := Rpc.returns_pure.mp hret
      exact ⟨by omega, .rollback ⟨hprobe, hlink, hroll⟩⟩
    · next hlink =>
      obtain ⟨body, k', hcall, hret⟩ := Rpc.returns_bind.mp hrest
      obtain ⟨rfl, rfl⟩ := Jsonrpc.returns_getBlock.mp hcall
      cases hbody : (w (i + net.endpoints.length) net.first).getBlock header.hash with
      | none =>
        rw [hbody] at hret
        obtain ⟨rfl, rfl⟩ := Rpc.returns_pure.mp hret
        exact ⟨by omega, .idle⟩
      | some block =>
        rw [hbody] at hret
        obtain ⟨rfl, rfl⟩ := Rpc.returns_pure.mp hret
        -- the chain's own block has the same hash, and the tree has one block of that hash
        obtain ⟨b, hb, rfl⟩ := Chain.header?_eq_some.mp hnext
        have htree := (w i net.first).chain.mem_tree b (List.mem_of_getElem? hb)
        obtain rfl := Option.some.inj (htree.symm.trans (Node.getBlock_eq_some hbody))
        have hfetch : Fetches net w i st b := ⟨hprobe, not_not.mp hlink, hbody⟩
        refine ⟨by omega, ?_⟩
        rcases a.processBlock_cases g recv b st with h | ⟨m, h⟩
        · rw [h]
          exact .forward hfetch
        · rw [h]
          exact .returned hfetch

/-- An iteration returns unless the header to roll back to is missing. -/
theorem pullForeverIter_total
    (hold : ∃ old, (w (i + net.endpoints.length) net.first).chain.header?
      (st.currentHeader.number - 1000) = some old) :
    ∃ r j, (a.pullForeverIter g recv net st).Returns w i r j := by
  obtain ⟨probe, k, hprobe, -, hsome, -⟩ :=
    Net.getFixedHeader_total net (st.currentHeader.number + 1) w i
  refine hprobe.exists_bind ?_
  cases probe with
  | none => exact ⟨_, _, Rpc.returns_pure.mpr ⟨rfl, rfl⟩⟩
  | some header =>
    obtain ⟨-, rfl, -⟩ := hsome header rfl
    dsimp only
    split
    · obtain ⟨old, hold⟩ := hold
      have hroll := returns_rollbackForReorg.mpr ⟨hold, rfl⟩
      exact hroll.exists_bind ⟨_, _, Rpc.returns_pure.mpr ⟨rfl, rfl⟩⟩
    · refine Rpc.Returns.exists_bind (Jsonrpc.returns_getBlock.mpr ⟨rfl, rfl⟩) ?_
      split <;> exact ⟨_, _, Rpc.returns_pure.mpr ⟨rfl, rfl⟩⟩

/-! ## Runs -/

/-- What has been sent when a run stands at `r`. -/
def sentBy : Except (List Sent) PullState → List Sent
  | .ok st => st.sent
  | .error sent => sent

/-- A run that starts at call `i` in state `st` is, after `m` iterations, at call `i'` in state
    `st'`. -/
def Reached (a : Account) (g : Global) (recv : Receiver) (net : Net) (w : History T) (i : ℕ)
    (st : PullState) (m i' : ℕ) (st' : PullState) : Prop :=
  (a.pullForever g recv net m st).Returns w i (.ok st') i'

theorem Reached.unique {m : ℕ} {st' st'' : PullState} (h : Reached a g recv net w i st m j st')
    (h' : Reached a g recv net w i st m k st'') : st' = st'' ∧ j = k :=
  (Rpc.Returns.unique h h').imp_left Except.ok.inj

/-- One more iteration of a run: from a state that was reached, one iteration, or the run had
    ended before. -/
theorem pullForever_succ {n : ℕ} (h : (a.pullForever g recv net (n + 1) st).Returns w i r j) :
    (∃ i' st', Reached a g recv net w i st n i' st' ∧
      (a.pullForeverIter g recv net st').Returns w i' r j) ∨
    ∃ sent, r = .error sent ∧ (a.pullForever g recv net n st).Returns w i (.error sent) j := by
  obtain ⟨prev, i', hprev, hrest⟩ := Rpc.returns_bind.mp h
  cases prev with
  | ok st' => exact Or.inl ⟨i', st', hprev, hrest⟩
  | error sent =>
    obtain ⟨rfl, rfl⟩ := Rpc.returns_pure.mp hrest
    exact Or.inr ⟨sent, rfl, hprev⟩

theorem Reached.prev {m : ℕ} {st' : PullState} (h : Reached a g recv net w i st (m + 1) j st') :
    ∃ i' st'', Reached a g recv net w i st m i' st'' ∧ i' ≤ j ∧
      Iterates a g recv net w i' st'' (.ok st') := by
  rcases pullForever_succ h with ⟨i', st'', hprev, hiter⟩ | ⟨sent, heq, -⟩
  · obtain ⟨hlt, hiter⟩ := iterates_of_returns hiter
    exact ⟨i', st'', hprev, hlt.le, hiter⟩
  · cases heq

/-- What holds at the start and across each iteration of a run of `n` holds at the head of each. -/
theorem Reached.induction {n : ℕ} {P : ℕ → PullState → Prop} (hstart : P i st)
    (hstep : ∀ m i' st' j' st'', m < n → Reached a g recv net w i st m i' st' → P i' st' →
      Iterates a g recv net w i' st' (.ok st'') → i' ≤ j' → P j' st'') :
    ∀ m i' st', m ≤ n → Reached a g recv net w i st m i' st' → P i' st' := by
  intro m
  induction m with
  | zero =>
    rintro i' st' - h
    obtain ⟨heq, rfl⟩ := Rpc.returns_pure.mp h
    obtain rfl := Except.ok.inj heq
    exact hstart
  | succ m ih =>
    intro i' st' hm h
    obtain ⟨i'', st'', hprev, hle, hiter⟩ := Reached.prev h
    exact hstep m i'' st'' i' st' hm hprev (ih i'' st'' (by omega) hprev) hiter hle

theorem Reached.le {m i' : ℕ} {st' : PullState} (h : Reached a g recv net w i st m i' st') :
    i ≤ i' :=
  Reached.induction (P := fun t _ => i ≤ t) (Nat.le_refl i)
    (fun _ _ _ _ _ _ _ hi _ hij => hi.trans hij) m i' st' (Nat.le_refl m) h

/-- A run that returned did so in an iteration it reached. -/
theorem reached_of_error {n : ℕ} {sent : List Sent}
    (h : (a.pullForever g recv net n st).Returns w i (.error sent) j) :
    ∃ m i' st', m < n ∧ Reached a g recv net w i st m i' st' ∧
      Iterates a g recv net w i' st' (.error sent) := by
  induction n with
  | zero => cases (Rpc.returns_pure.mp h).1
  | succ n ih =>
    rcases pullForever_succ h with ⟨i', st', hprev, hiter⟩ | ⟨sent', heq, hprev⟩
    · exact ⟨n, i', st', by omega, hprev, (iterates_of_returns hiter).2⟩
    · cases heq
      obtain ⟨m, i', st', hm, hreached, hiter⟩ := ih hprev
      exact ⟨m, i', st', by omega, hreached, hiter⟩

/-- What a run has sent is the beginning of what some state has sent: one it reached, or the one
    after the block in whose middle it returned. -/
theorem sentBy_sublist {n : ℕ} (h : (a.pullForever g recv net n st).Returns w i r j) :
    ∃ m i' st', Reached a g recv net w i st m i' st' ∧ m ≤ n ∧
      ((sentBy r).Sublist st'.sent ∨ m < n ∧ ∃ block, Fetches net w i' st' block ∧
        (sentBy r).Sublist (a.afterBlock g block st').sent) := by
  cases r with
  | ok st' => exact ⟨n, j, st', h, Nat.le_refl n, Or.inl (List.Sublist.refl _)⟩
  | error sent =>
    obtain ⟨m, i', st', hm, hreached, hiter⟩ := reached_of_error h
    cases hiter with
    | @returned block m' hfetch =>
      refine ⟨m, i', st', hreached, hm.le, Or.inr ⟨hm, block, hfetch, ?_⟩⟩
      exact ((List.take_sublist _ _).map _).append_left st'.sent

/-- A property of single sends that every state's `sent` has, and that what is due in the next
    block has, holds of all that a run sends, also if it returns in the middle of a block. -/
theorem sentBy_induction {n : ℕ} {Q : Sent → Prop}
    (hstate : ∀ m i' st', m ≤ n → Reached a g recv net w i st m i' st' → ∀ s ∈ st'.sent, Q s)
    (hdue : ∀ m i' st' block, m < n → Reached a g recv net w i st m i' st' →
      Fetches net w i' st' block → ∀ u ∈ a.due g block st'.unmatureds, Q ⟨block.header, u⟩)
    (h : (a.pullForever g recv net n st).Returns w i r j) : ∀ s ∈ sentBy r, Q s := by
  obtain ⟨m, i', st', hreached, hm, hsub | ⟨hlt, block, hfetch, hsub⟩⟩ := sentBy_sublist h
  · exact fun s hs => hstate m i' st' hm hreached s (hsub.subset hs)
  · intro s hs
    rcases List.mem_append.mp (hsub.subset hs) with hs | hs
    · exact hstate m i' st' hm hreached s hs
    · obtain ⟨u, hu, rfl⟩ := List.mem_map.mp hs
      exact hdue m i' st' block hlt hreached hfetch u hu

end Run

end Account

end TpsBench
