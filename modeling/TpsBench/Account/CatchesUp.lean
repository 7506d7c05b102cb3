/-
  Does `pull_forever` recover from a reorganization?

  `pullForever_skips_nothing` says that nothing is lost while the endpoints change their chains.
  Here they have stopped: from some call on every endpoint's chain begins with the chain `c`. One
  rollback, to a header of `c`, is enough, and from there each iteration processes a block of `c`.

  What a rollback leaves behind in the pending list is not in order, but it is not above the height
  `K` that was scanned before. So the list is sorted as far as numbers above `K` go, and when `K`
  is mature nothing keeps the drain back.

  * `SettlesOn.forward`, `SettlesOn.rollback`: what an iteration does.
  * `CatchingUp.step`, `catchesUp`: one block of `c`, and any number of them.
  * `pullForever_catches_up`: how many iterations it takes, and what has been sent then.
-/
import TpsBench.Account.Reorg
import TpsBench.Lib.Drain

namespace TpsBench

open Lib

variable {T : BlockTree}

namespace Account

variable {a : Account} {g : Global} {recv : Receiver} {net : Net} {w : History T}
  {i t t₀ m n n₀ K : ℕ} {st st₀ : PullState} {c : Chain T} {block : BlockView}

/-- From call `t₀` on every endpoint's chain begins with `c`, and the first endpoint has the bodies
    of its blocks. -/
structure SettlesOn (net : Net) (w : History T) (t₀ : ℕ) (c : Chain T) : Prop where
  agree : ∀ t, t₀ ≤ t → ∀ e ∈ net.endpoints, c.blocks <+: (w t e).chain.blocks
  serves : ∀ t, t₀ ≤ t → ∀ b ∈ c.blocks, (w t net.first).serves b.hash = true

theorem SettlesOn.getElem? (h : SettlesOn net w t₀ c) (ht : t₀ ≤ t) {e : Jsonrpc}
    (he : e ∈ net.endpoints) (hn : n ≤ c.tipNumber) :
    (w t e).chain.blocks[n]? = c.blocks[n]? := by
  obtain ⟨l, hl⟩ := h.agree t ht e he
  rw [← hl, List.getElem?_append_left (by rw [c.length_eq]; omega)]

theorem SettlesOn.header? (h : SettlesOn net w t₀ c) (ht : t₀ ≤ t) {e : Jsonrpc}
    (he : e ∈ net.endpoints) (hn : n ≤ c.tipNumber) :
    (w t e).chain.header? n = c.header? n := by
  rw [Chain.header?, Chain.header?, h.getElem? ht he hn]

/-! ## One iteration -/

theorem sendAll_of_open (hrecv : ∀ k, recv k = true) (header : HeaderView) (us : List UTXO)
    (sent : List Sent) : sendAll recv header us sent = .ok (sent ++ us.map (Sent.mk header)) := by
  induction us generalizing sent with
  | nil => rw [List.map_nil, List.append_nil]; rfl
  | cons u us ih =>
    rw [sendAll_cons, send, if_pos (hrecv _)]
    refine (ih _).trans ?_
    rw [List.map_cons, List.append_assoc, List.singleton_append]

theorem SettlesOn.probe (h : SettlesOn net w t₀ c) (ht : t₀ ≤ t)
    (hblock : c.blocks[n]? = some block) :
    (net.getFixedHeader n).Returns w t (some block.header) (t + net.endpoints.length) := by
  refine Net.getFixedHeader_of_shared fun t' ht' _ e he => ?_
  rw [h.header? (ht.trans ht') he (Chain.le_tipNumber hblock)]
  exact Chain.header?_eq_some.mpr ⟨block, hblock, rfl⟩

theorem SettlesOn.getBlock (h : SettlesOn net w t₀ c) (ht : t₀ ≤ t) (hblock : block ∈ c.blocks) :
    (w t net.first).getBlock block.header.hash = some block :=
  (if_pos (h.serves t ht block hblock)).trans (c.mem_tree block hblock)

/-- At a header of `c`, the next block of `c` is processed. -/
theorem SettlesOn.forward (h : SettlesOn net w t₀ c) (hrecv : ∀ k, recv k = true) (ht : t₀ ≤ t)
    (hon : c.header? st.currentHeader.number = some st.currentHeader)
    (hnext : c.blocks[st.currentHeader.number + 1]? = some block) :
    ∃ t', t ≤ t' ∧
      (a.pullForeverIter g recv net st).Returns w t (.ok (a.afterBlock g block st)) t' := by
  obtain ⟨b, hb, hheader⟩ := Chain.header?_eq_some.mp hon
  have hlink : block.header.parentHash = st.currentHeader.hash := by
    rw [← hheader]
    exact c.linked.getElem? hb hnext
  have hbody := h.getBlock (ht.trans (Nat.le_add_right t net.endpoints.length))
    (List.mem_of_getElem? hnext)
  refine ⟨t + net.endpoints.length + 1, by omega,
    Rpc.returns_bind.mpr ⟨_, _, h.probe ht hnext, ?_⟩⟩
  dsimp only
  rw [if_neg (not_not.mpr hlink)]
  refine Rpc.returns_bind.mpr ⟨_, _, Jsonrpc.returns_getBlock.mpr ⟨rfl, rfl⟩, ?_⟩
  rw [hbody]
  refine Rpc.returns_pure.mpr ⟨?_, rfl⟩
  rw [processBlock_eq, sendAll_of_open hrecv]
  rfl

/-- At a header that is not on `c`, but below its tip, the loop goes back to a header of `c`. -/
theorem SettlesOn.rollback (h : SettlesOn net w t₀ c) (ht : t₀ ≤ t) {c' : Chain T}
    (hends : EndsAt c' st.currentHeader)
    (hoff : c.header? st.currentHeader.number ≠ some st.currentHeader)
    (hbehind : st.currentHeader.number < c.tipNumber) :
    ∃ old t', t ≤ t' ∧ c.header? (st.currentHeader.number - 1000) = some old ∧
      (a.pullForeverIter g recv net st).Returns w t (.ok { st with currentHeader := old }) t' := by
  have hlen := c.length_eq
  obtain ⟨block, hnext⟩ : ∃ b, c.blocks[st.currentHeader.number + 1]? = some b :=
    ⟨_, List.getElem?_eq_getElem (by omega)⟩
  obtain ⟨old, hold⟩ : ∃ old, c.header? (st.currentHeader.number - 1000) = some old :=
    ⟨_, Chain.header?_eq_some.mpr ⟨_, List.getElem?_eq_getElem (by omega), rfl⟩⟩
  -- otherwise the current header's block is the one below `block`
  have hlink : block.header.parentHash ≠ st.currentHeader.hash := by
    intro hlink
    obtain ⟨b, hb, hheader⟩ := Chain.header?_eq_some.mp hends.2
    have hbelow : c.blocks[st.currentHeader.number]? = some (c.blocks[st.currentHeader.number]) :=
      List.getElem?_eq_getElem (by omega)
    have hhash : c.blocks[st.currentHeader.number].hash = b.hash := by
      refine (c.linked.getElem? hbelow hnext).symm.trans (hlink.trans ?_)
      rw [← hheader]
      rfl
    rw [c.eq_of_hash c' _ (List.getElem_mem _) b (List.mem_of_getElem? hb) hhash] at hbelow
    exact hoff (Chain.header?_eq_some.mpr ⟨b, hbelow, hheader⟩)
  have hroll : (rollbackForReorg net st.currentHeader).Returns w (t + net.endpoints.length) old
      (t + net.endpoints.length + 1) := by
    refine returns_rollbackForReorg.mpr ⟨?_, rfl⟩
    rw [h.header? (ht.trans (Nat.le_add_right _ _)) net.first_mem (by omega), hold]
  refine ⟨old, t + net.endpoints.length + 1, by omega, hold,
    Rpc.returns_bind.mpr ⟨_, _, h.probe ht hnext, ?_⟩⟩
  dsimp only
  rw [if_pos hlink]
  exact Rpc.returns_bind.mpr ⟨_, _, hroll, Rpc.returns_pure.mpr ⟨rfl, rfl⟩⟩

/-! ## Catching up -/

/-- The loop is at a header of `c`, has lost nothing, and has scanned no higher than `K`, or than
    the current header. -/
structure CatchingUp (a : Account) (c : Chain T) (n₀ K : ℕ) (st : PullState) : Prop where
  on : c.header? st.currentHeader.number = some st.currentHeader
  accounts : AccountsFor T a n₀ st
  sorted : SortedBy (fun e => max K e.1) st.unmatureds
  below : ∀ e ∈ st.unmatureds, e.1 ≤ max K st.currentHeader.number

/-- Whatever is pending, in whatever order, if it is not above `K`. -/
theorem CatchingUp.of_le (hon : c.header? st.currentHeader.number = some st.currentHeader)
    (haccounts : AccountsFor T a n₀ st) (hK : ∀ e ∈ st.unmatureds, e.1 ≤ K) :
    CatchingUp a c n₀ K st where
  on := hon
  accounts := haccounts
  sorted := sortedBy_of_const fun e he => max_eq_left (hK e he)
  below e he := (hK e he).trans (Nat.le_max_left _ _)

section Step

variable (h : CatchingUp a c n₀ K st) (hnext : c.blocks[st.currentHeader.number + 1]? = some block)

include h hnext

theorem CatchingUp.step : CatchingUp a c n₀ K (a.afterBlock g block st) := by
  have hnumber := c.number_eq hnext
  have hpending : ∀ e ∈ a.pendingOf block, e.1 = block.number := fun e he =>
    number_of_mem_pendingOf he
  have hold : ∀ e ∈ st.unmatureds.dropWhile fun e => isMatured g block.number e.1,
      e.1 ≤ max K st.currentHeader.number := fun e he =>
    h.below e ((List.dropWhile_sublist _).subset he)
  constructor
  · show c.header? block.number = some block.header
    rw [hnumber]
    exact Chain.header?_eq_some.mpr ⟨block, hnext, rfl⟩
  · obtain ⟨b, hb, hheader⟩ := Chain.header?_eq_some.mp h.on
    have hlink : block.parentHash = st.currentHeader.hash := by
      rw [← hheader]
      exact c.linked.getElem? hb hnext
    exact h.accounts.afterBlock hnext hlink g
  · refine sortedBy_append.mpr ⟨h.sorted.sublist (List.dropWhile_sublist _),
      sortedBy_of_const fun e he => by rw [hpending e he], fun e he e' he' => ?_⟩
    have hle := hold e he
    rw [hpending e' he']
    omega
  · intro e he
    show e.1 ≤ max K block.number
    rcases List.mem_append.mp he with he | he
    · have hle := hold e he
      omega
    · exact (hpending e he).le.trans (Nat.le_max_right _ _)

/-- What stays pending is not mature, or something scanned before keeps it back. -/
theorem CatchingUp.drained (hM : NoOverflow g (max K block.number)) :
    ∀ e ∈ (a.afterBlock g block st).unmatureds, isMatured g block.number (max K e.1) = false := by
  have hnumber := c.number_eq hnext
  intro e he
  rcases List.mem_append.mp he with he | he
  · have hle := h.below e ((List.dropWhile_sublist _).subset he)
    by_contra hmat
    refine notMem_dropWhile h.sorted (fun e' _ hkey => ?_) he
    refine isMatured_anti (hM.mono (by omega)) ?_ (Bool.eq_true_of_not_eq_false hmat)
    exact (Nat.le_max_right K e'.1).trans hkey
  · rw [number_of_mem_pendingOf he, ← Bool.not_eq_true, isMatured_iff hM]
    omega

end Step

theorem catchesUp (hsettles : SettlesOn net w t₀ c) (hrecv : ∀ k, recv k = true) (k : ℕ)
    (hreached : Reached a g recv net w i st₀ m t st) (ht : t₀ ≤ t)
    (h : CatchingUp a c n₀ K st) (hk : st.currentHeader.number + k ≤ c.tipNumber) :
    ∃ t' st', t₀ ≤ t' ∧ Reached a g recv net w i st₀ (m + k) t' st' ∧ CatchingUp a c n₀ K st' ∧
      st'.currentHeader.number = st.currentHeader.number + k := by
  induction k with
  | zero => exact ⟨t, st, ht, hreached, h, rfl⟩
  | succ k ih =>
    obtain ⟨t', st', ht', hreached', h', hnumber⟩ := ih (by omega)
    have hlen := c.length_eq
    obtain ⟨block, hnext⟩ : ∃ b, c.blocks[st'.currentHeader.number + 1]? = some b :=
      ⟨_, List.getElem?_eq_getElem (by omega)⟩
    obtain ⟨t'', hle, hiter⟩ := hsettles.forward hrecv ht' h'.on hnext
    refine ⟨t'', _, ht'.trans hle, Rpc.returns_bind.mpr ⟨_, _, hreached', hiter⟩,
      h'.step hnext, ?_⟩
    exact (c.number_eq hnext).trans (by omega)

/-- From a header of `c` below its tip, the loop comes to `c`'s tip. -/
theorem CatchingUp.tip (h : CatchingUp a c n₀ K st) (hsettles : SettlesOn net w t₀ c)
    (hrecv : ∀ k, recv k = true) (hreached : Reached a g recv net w i st₀ m t st) (ht : t₀ ≤ t)
    (hbehind : st.currentHeader.number < c.tipNumber) (hM : NoOverflow g (max K c.tipNumber)) :
    ∃ t' st', Reached a g recv net w i st₀ (m + (c.tipNumber - st.currentHeader.number)) t' st' ∧
      CatchingUp a c n₀ K st' ∧ EndsAt c st'.currentHeader ∧
      ∀ e ∈ st'.unmatureds, isMatured g c.tipNumber (max K e.1) = false := by
  obtain ⟨k, hk⟩ : ∃ k, c.tipNumber - st.currentHeader.number = k + 1 :=
    ⟨_, (Nat.succ_pred_eq_of_pos (by omega)).symm⟩
  obtain ⟨t', st', ht', hreached', h', hnumber⟩ :=
    catchesUp hsettles hrecv k hreached ht h (by omega)
  have hlen := c.length_eq
  obtain ⟨block, hnext⟩ : ∃ b, c.blocks[st'.currentHeader.number + 1]? = some b :=
    ⟨_, List.getElem?_eq_getElem (by omega)⟩
  have htip : block.number = c.tipNumber := (c.number_eq hnext).trans (by omega)
  obtain ⟨t'', -, hiter⟩ := hsettles.forward hrecv ht' h'.on hnext
  have h'' : CatchingUp a c n₀ K (a.afterBlock g block st') := h'.step hnext
  rw [hk]
  refine ⟨t'', _, Rpc.returns_bind.mpr ⟨_, _, hreached', hiter⟩, h'', ⟨?_, h''.on⟩, ?_⟩
  · exact hlen.trans (congrArg (· + 1) htip.symm)
  · rw [← htip] at hM ⊢
    exact h'.drained hnext hM

/-- The loop is on `c`, or one iteration takes it back to `c`. -/
theorem AccountsFor.catchingUp (h : AccountsFor T a n₀ st) (hsettles : SettlesOn net w t c)
    (hanchored : Anchored net w t st.currentHeader) (hreached : Reached a g recv net w i st₀ m t st)
    (hbehind : st.currentHeader.number < c.tipNumber) (hK : ∀ e ∈ st.unmatureds, e.1 ≤ K) :
    ∃ k t₁ st₁, k ≤ 1 ∧ t ≤ t₁ ∧ Reached a g recv net w i st₀ (m + k) t₁ st₁ ∧
      CatchingUp a c n₀ K st₁ ∧ st.currentHeader.number - 1000 ≤ st₁.currentHeader.number ∧
      st₁.currentHeader.number ≤ st.currentHeader.number := by
  by_cases hhead : c.header? st.currentHeader.number = some st.currentHeader
  · exact ⟨0, t, st, Nat.zero_le 1, le_rfl, hreached, .of_le hhead h hK, Nat.sub_le _ _, le_rfl⟩
  · obtain ⟨c', hc'⟩ : ∃ c' : Chain T, EndsAt c' st.currentHeader := h.imp fun _ hc => hc.1
    obtain ⟨old, t₁, hle, hold, hiter⟩ := hsettles.rollback le_rfl hc' hhead hbehind
    have hnumber := Chain.number_of_header? hold
    refine ⟨1, t₁, _, le_rfl, hle, Rpc.returns_bind.mpr ⟨_, _, hreached, hiter⟩, ?_, ?_, ?_⟩
    · refine .of_le (hnumber.symm ▸ hold) ?_ hK
      exact h.step hanchored (iterates_of_returns hiter).2
    · exact hnumber.ge
    · exact hnumber.le.trans (Nat.sub_le _ _)

/-- **It catches up.** Whatever the endpoints did before, if every endpoint's chain begins with `c`
    from now on, and `c` goes on above the current header, then `pull_forever` comes to the tip of
    `c`: one iteration goes back, if need be, and then each processes a block. Each owned output of
    `c` above `from_header` was sent by then, or it is pending. If it is, then its height is not
    mature at the tip, or `K` is not, where `K` bounds the heights that were pending when the
    endpoints settled: an entry that a rollback left behind may hold it back so long. -/
theorem pullForever_catches_up (a : Account) (g : Global) (recv : Receiver)
    (hrecv : ∀ k, recv k = true) (net : Net) (w : History T) (i : ℕ) (fromHeader : HeaderView)
    (unmatureds : List (ℕ × UTXO)) (c₀ : Chain T) (hfrom : EndsAt c₀ fromHeader) (n t : ℕ)
    (st : PullState) (hreached : Reached a g recv net w i ⟨fromHeader, unmatureds, []⟩ n t st)
    (hanchored : ∀ m i' st', m ≤ n →
      Reached a g recv net w i ⟨fromHeader, unmatureds, []⟩ m i' st' →
      Anchored net w i' st'.currentHeader)
    (c : Chain T) (hsettles : SettlesOn net w t c) (hbehind : st.currentHeader.number < c.tipNumber)
    (K : ℕ) (hK : ∀ e ∈ st.unmatureds, e.1 ≤ K) (hM : NoOverflow g (max K c.tipNumber)) :
    ∃ m t' st', m ≤ 1 + (c.tipNumber - (st.currentHeader.number - 1000)) ∧
      Reached a g recv net w i ⟨fromHeader, unmatureds, []⟩ (n + m) t' st' ∧
      EndsAt c st'.currentHeader ∧
      ∀ b ∈ c.blocks, fromHeader.number < b.number → ∀ k p o, Creates b k p o →
        o.lock = a.lockScript →
        (⟨o, p⟩ : UTXO) ∈ st'.sent.map Sent.utxo ∨
          (b.number, ⟨o, p⟩) ∈ st'.unmatureds ∧
            isMatured g c.tipNumber (max K b.number) = false := by
  have hstart : AccountsFor T a fromHeader.number ⟨fromHeader, unmatureds, []⟩ := by
    refine ⟨c₀, hfrom, fun b hb hn => ?_⟩
    have hlt := c₀.number_lt hb
    rw [hfrom.1] at hlt
    omega
  have haccounts : AccountsFor T a fromHeader.number st :=
    Reached.induction (P := fun _ st => AccountsFor T a fromHeader.number st) hstart
      (fun m i' st' _ _ hm hreached h hiter _ => h.step (hanchored m i' st' hm.le hreached) hiter)
      n t st le_rfl hreached
  obtain ⟨k, t₁, st₁, hk, ht₁, hreached₁, hcatching, hge, hle⟩ :=
    haccounts.catchingUp hsettles (hanchored n t st le_rfl hreached) hreached hbehind hK
  obtain ⟨t', st', hreached', h', hends, hdrained⟩ :=
    hcatching.tip hsettles hrecv hreached₁ ht₁ (hle.trans_lt hbehind) hM
  refine ⟨k + (c.tipNumber - st₁.currentHeader.number), t', st', by omega,
    Nat.add_assoc n k _ ▸ hreached', hends, fun b hb hn k' p o hcreates hlock => ?_⟩
  obtain ⟨c', hc', hall⟩ := h'.accounts
  rcases hall b (hc'.unique hends ▸ hb) hn k' p o hcreates hlock with hsent | hpending
  · exact .inl hsent
  · exact .inr ⟨hpending, hdrained _ hpending⟩

/-- Blocks 21 and 22 replace block 11, in which the account has a cell. One iteration goes back to
    the genesis block, and two more process blocks 21 and 22. -/
theorem pullForever_catches_up_orphan :
    ∃ m t st, m ≤ 3 ∧
      Reached Sample.account ⟨0, 0⟩ (fun _ => true) Sample.net orphanHistory 0 orphanStart
        (1 + m) t st ∧
      EndsAt mainChain st.currentHeader ∧
      (⟨Sample.output Sample.account, ⟨201, 0⟩⟩ : UTXO) ∈ st.sent.map Sent.utxo := by
  have hsettles : SettlesOn Sample.net orphanHistory 2 mainChain := by
    refine ⟨fun t ht e _ => ?_, fun _ _ _ _ => rfl⟩
    have hchain : (orphanHistory t e).chain = mainChain := if_neg (Nat.not_lt.mpr ht)
    exact (congrArg Chain.blocks hchain).symm ▸ List.prefix_rfl
  have hfits : NoOverflow ⟨0, 0⟩ (max 1 mainChain.tipNumber) := by
    unfold NoOverflow
    decide
  have hreached : Reached Sample.account ⟨0, 0⟩ (fun _ => true) Sample.net orphanHistory 0
      orphanStart 1 2 _ := rfl
  obtain ⟨m, t, st, hm, hreached', hends, hall⟩ :=
    pullForever_catches_up Sample.account ⟨0, 0⟩ (fun _ => true) (fun _ => rfl) Sample.net
      orphanHistory 0 (Sample.block 10 0 0 []).header [] (orphanedChain.upTo 0) ⟨rfl, rfl⟩ 1 2 _
      hreached (fun _ _ _ _ _ => anchored_orphanHistory _ _ _) mainChain hsettles (by decide) 1
      (by decide) hfits
  refine ⟨m, t, st, hm, hreached', hends, ?_⟩
  have hcell := hall (Sample.block 21 10 1 [Sample.cellbase 201 Sample.account]) (by decide)
    (by decide) 0 ⟨201, 0⟩ (Sample.output Sample.account)
    ⟨Sample.cellbase 201 Sample.account, rfl, rfl, rfl⟩ rfl
  rcases hcell with hsent | ⟨-, hmat⟩
  · exact hsent
  · cases hmat

end Account

end TpsBench
