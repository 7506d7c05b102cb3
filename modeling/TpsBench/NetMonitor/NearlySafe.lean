/-
  When does `wait_recent_blocktxns_nearly` run without a panic and without a popping loop that does
  not end?

  The queue is popped in three places, and nothing checks `window`: for `window = 0` the popping
  loop does not end, for 1 the second pop of an evaluation finds the queue empty, for 2 there is
  nothing left to take the minimum of. `mintxns + margin` can leave the range of u64.

  * `nearlyLoop_total`: with a window of at least 3 every poll returns, if the margin fits.
  * `NearlyInv.panics`, `nearlyLoop_small_popping`: on a chain that keeps growing, anything
    else is met sooner or later.
  * `waitRecentBlocktxnsNearly_safe_iff`: the two together.
-/
import TpsBench.NetMonitor.Covered

namespace TpsBench

open Lib Net

variable {T : BlockTree} {g : Global} {net : Net} {maxCapacity window margin s k n i j : ℕ}
  {w : History T} {queue : List BlockView} {b : BlockView}

/-- Whatever the number of polls, the run has not panicked, and no popping loop goes on forever. -/
def NearlySafe (g : Global) (net : Net) (maxCapacity window margin : ℕ) (w : History T) (i : ℕ) :
    Prop :=
  ∀ fuel, ∃ r j, (waitRecentBlocktxnsNearly g net maxCapacity window margin fuel).Returns w i r j ∧
    r ≠ .popping

/-- From height `s` on, `mintxns + margin` is a u64 for every window up to the first that does not
    fail. -/
def MarginFits (net : Net) (window margin : ℕ) (w : History T) (s : ℕ) : Prop :=
  ∀ k l, l.length = window → net.SettledAt w (s + k) l →
    (∀ k' < k, WindowFails net window margin w (s + k')) →
    blocktxnsNearly margin (innerBlocks l) ≠ .error .addOverflow

/-- At every height all endpoints have one header from some moment on. -/
def KeepsGrowing (net : Net) (w : History T) : Prop :=
  ∀ n, ∃ header t₀, ∀ t, t₀ ≤ t → ∀ e ∈ net.endpoints, (w t e).chain.header? n = some header

theorem KeepsGrowing.passes (h : KeepsGrowing net w) (g : Global) (n : ℕ) :
    ∃ t₀, ∀ i tip j, t₀ ≤ i → (net.getConfirmedTipNumber g).Returns w i tip j → n ≤ tip := by
  obtain ⟨header, t₀, hshared⟩ := h (n + g.confirmationBlocks)
  refine ⟨t₀, fun i tip j hi hcall => ?_⟩
  obtain ⟨unconfirmed, k, hwalk, -, rfl, -⟩ := getConfirmedTipNumber_cases hcall
  obtain ⟨tip, k', htip, hwalk'⟩ := Rpc.returns_bind.mp hwalk
  obtain ⟨rfl, rfl⟩ := Jsonrpc.returns_getTipBlockNumber.mp htip
  obtain ⟨b, hb, -⟩ := Chain.header?_eq_some.mp (hshared i hi net.first net.first_mem)
  have := le_findFixed (Chain.le_tipNumber hb) (fun t ht => hshared t (by omega)) hwalk'
  omega

theorem blocktxnsNearly_total (hne : queue ≠ [])
    (hfits : blocktxnsNearly margin queue ≠ .error .addOverflow) :
    ∃ nearly, blocktxnsNearly margin queue = .ok nearly := by
  obtain ⟨least, -, most, -, -, htest⟩ := blocktxnsNearly_cases margin hne
  rw [htest] at hfits ⊢
  unfold addU64 at hfits ⊢
  split
  · exact ⟨_, rfl⟩
  · next hover =>
    rw [if_neg hover] at hfits
    exact absurd rfl hfits

/-! ## Every poll returns -/

theorem evaluateQueue_total (hwindow : 3 ≤ window) (hu64 : window < u64Size)
    {l : List BlockView} {a t : ℕ} (hlen : l.length ≤ window) (hset : net.SettledAt w a l)
    (hblocks : ∀ t', t ≤ t' → ∀ n, n < a + l.length →
      ∃ b, (w t' net.first).chain.blocks[n]? = some b)
    (hfits : l.length = window → blocktxnsNearly margin (innerBlocks l) ≠ .error .addOverflow) :
    ∃ r j, (evaluateQueue net window margin l).Returns w t r j ∧ r ≠ .popping := by
  unfold evaluateQueue
  split
  next hfull =>
    have hfull' : l.length = window := by omega
    obtain ⟨front, hfront⟩ : ∃ front, l[0]? = some front :=
      ⟨_, List.getElem?_eq_getElem (by omega)⟩
    obtain ⟨back, hback⟩ : ∃ back, l[l.length - 1]? = some back :=
      ⟨_, List.getElem?_eq_getElem (by omega)⟩
    have hhead : l.head? = some front := by
      rw [List.head?_eq_getElem?, hfront]
    have hlast : l.tail.getLast? = some back := by
      rw [List.getLast?_eq_getElem?, List.getElem?_tail, List.length_tail,
        show l.length - 1 - 1 + 1 = l.length - 1 by omega, hback]
    have hnumber := hset.number hfront
    have hnumber' := hset.number hback
    obtain ⟨metrics, j, heval⟩ : ∃ metrics j,
        (evalBlocks net front.number back.number).Returns w t metrics j :=
      evalBlocks_total (by omega) (by omega) fun t' ht' n hn => hblocks t' ht' n (by omega)
    have hinner : innerBlocks l ≠ [] := by
      apply List.ne_nil_of_length_pos
      rw [length_innerBlocks]
      omega
    obtain ⟨nearly, htest⟩ := blocktxnsNearly_total hinner (hfits hfull')
    refine ⟨if nearly then .metrics metrics else .waiting (innerBlocks l), j, ?_, ?_⟩
    · refine Rpc.returns_bind.mpr ⟨front, t, Rpc.returns_unwrapOr.mpr ⟨hhead, rfl⟩, ?_⟩
      refine Rpc.returns_bind.mpr ⟨back, t, Rpc.returns_unwrapOr.mpr ⟨hlast, rfl⟩, ?_⟩
      refine Rpc.returns_bind.mpr ⟨metrics, j, heval, ?_⟩
      refine Rpc.returns_bind.mpr ⟨nearly, j, Rpc.returns_lift.mpr ⟨htest, rfl⟩, ?_⟩
      cases nearly <;> exact Rpc.returns_pure.mpr ⟨rfl, rfl⟩
    · cases nearly <;> simp
  next => exact ⟨_, _, Rpc.returns_pure.mpr ⟨rfl, rfl⟩, by simp⟩

theorem nearlyPoll_total
    (hcalls : ∀ i, ∃ header j, (net.getConfirmedTipHeader g).Returns w i header j)
    (hstay : net.ConfirmedStays g w) (hwindow : 3 ≤ window) (hu64 : window < u64Size)
    (hfits : MarginFits net window margin w s) (h : NearlyInv net window margin w s k queue)
    (i : ℕ) : ∃ r j, (nearlyPoll g net window margin queue).Returns w i r j ∧ r ≠ .popping := by
  obtain ⟨header, t, hcall⟩ := hcalls i
  have htip := getConfirmedTipNumber_iff.mpr ⟨header, hcall, rfl⟩
  obtain ⟨back, hback⟩ : ∃ back, queue.getLast? = some back :=
    ⟨_, List.getLast?_eq_some_getLast h.nonempty⟩
  have hnumber := h.settled.numberedFrom.getLast? hback
  have hend : (Rpc.unwrapOr .unwrapNone queue.getLast? : Rpc T BlockView).Returns w t back t :=
    Rpc.returns_unwrapOr.mpr ⟨hback, rfl⟩
  by_cases hpast : header.number > back.number
  · obtain ⟨next, hnext⟩ := exists_settled_of_confirmed hstay hcall hpast (Nat.le_succ t)
    have hsettled : net.Settled w (s + k + queue.length) next := by
      rw [← hnumber]
      exact settled_of_confirmed hstay hcall hpast (Nat.le_succ t) hnext
    have hset := h.settled.append hsettled
    have hlen : (queue ++ [next]).length = queue.length + 1 := List.length_append
    have hshort := h.short
    -- every block up to the new one is up to the confirmed tip
    obtain ⟨r, j, hret, hne⟩ : ∃ r j, (evaluateQueue net window margin (queue ++ [next])).Returns w
        (t + 1) r j ∧ r ≠ .popping :=
      evaluateQueue_total hwindow hu64 (by omega) hset
        (fun t' ht' n hn => exists_settled_of_confirmed hstay hcall (by omega) (by omega))
        (fun hfull => hfits k _ hfull hset h.failed)
    refine ⟨r, j, Rpc.returns_bind.mpr ⟨_, t, htip, Rpc.returns_bind.mpr ⟨back, t, hend, ?_⟩⟩, hne⟩
    rw [if_pos hpast, popFull_short hshort]
    exact Rpc.returns_bind.mpr ⟨next, t + 1, returns_blockByNumber.mpr ⟨hnext, rfl⟩, hret⟩
  · refine ⟨.waiting queue, t, ?_, by simp⟩
    refine Rpc.returns_bind.mpr ⟨_, t, htip, Rpc.returns_bind.mpr ⟨back, t, hend, ?_⟩⟩
    rw [if_neg hpast]
    exact Rpc.returns_pure.mpr ⟨rfl, rfl⟩

theorem nearlyLoop_total
    (hcalls : ∀ i, ∃ header j, (net.getConfirmedTipHeader g).Returns w i header j)
    (hstay : net.ConfirmedStays g w) (hwindow : 3 ≤ window) (hu64 : window < u64Size)
    (hfits : MarginFits net window margin w s) (fuel : ℕ) :
    ∀ k queue i, NearlyInv net window margin w s k queue →
      ∃ r j, (nearlyLoop g net window margin fuel queue).Returns w i r j ∧ r ≠ .popping := by
  induction fuel with
  | zero => exact fun k queue i _ => ⟨_, _, Rpc.returns_pure.mpr ⟨rfl, rfl⟩, by simp⟩
  | succ fuel ih =>
    intro k queue i h
    obtain ⟨r, t, hpoll, hne⟩ := nearlyPoll_total hcalls hstay hwindow hu64 hfits h i
    have hstep := nearlyStep_of_nearlyPoll hstay h.settled h.short hpoll
    cases r with
    | metrics metrics =>
      exact ⟨_, t, Rpc.returns_bind.mpr ⟨_, t, hpoll, Rpc.returns_pure.mpr ⟨rfl, rfl⟩⟩, by simp⟩
    | waiting queue' =>
      obtain ⟨k', h'⟩ := h.waiting hstep
      obtain ⟨r, j, hret, hne⟩ := ih k' queue' t h'
      exact ⟨r, j, Rpc.returns_bind.mpr ⟨_, t, hpoll, hret⟩, hne⟩
    | popping => exact absurd rfl hne

/-! ## What is met on a growing chain -/

/-- With a window of less than three blocks, a run that has not panicked by the time the confirmed
    tip is past the queue is in a popping loop. -/
theorem nearlyLoop_small_popping (hwindow : window < 3) {t₀ : ℕ}
    (hpast : ∀ i tip j, t₀ ≤ i → (net.getConfirmedTipNumber g).Returns w i tip j → b.number < tip)
    (d : ℕ) : ∀ i r j, t₀ ≤ i + d →
      (nearlyLoop g net window margin (d + 1) [b]).Returns w i r j → r = .popping := by
  induction d with
  | zero =>
    intro i r j hi h
    obtain ⟨r', t, hpoll, hrest⟩ := Rpc.returns_bind.mp h
    rcases nearlyPoll_small hwindow hpoll with ⟨rfl, tip, hcall, htip⟩ | rfl
    · have := hpast i tip t hi hcall
      omega
    · exact (Rpc.returns_pure.mp hrest).1
  | succ d ih =>
    intro i r j hi h
    obtain ⟨r', t, hpoll, hrest⟩ := Rpc.returns_bind.mp h
    rcases nearlyPoll_small hwindow hpoll with ⟨rfl, tip, hcall, htip⟩ | rfl
    · have := getConfirmedTipNumber_lt hcall
      exact ih t r j (by omega) hrest
    · exact (Rpc.returns_pure.mp hrest).1

/-- With enough polls the loop does not return. -/
def Panics (g : Global) (net : Net) (window margin : ℕ) (w : History T) (i : ℕ)
    (queue : List BlockView) : Prop :=
  ∃ fuel, ∀ r j, ¬ (nearlyLoop g net window margin fuel queue).Returns w i r j

/-- If a panic follows whatever a poll comes to, it follows. -/
theorem panics_of_poll
    (h : ∀ r j, (nearlyPoll g net window margin queue).Returns w i r j →
      ∃ queue', r = .waiting queue' ∧ Panics g net window margin w j queue') :
    Panics g net window margin w i queue := by
  by_cases hret : ∃ r j, (nearlyPoll g net window margin queue).Returns w i r j
  · obtain ⟨r, j, hpoll⟩ := hret
    obtain ⟨queue', rfl, fuel, hfuel⟩ := h r j hpoll
    refine ⟨fuel + 1, fun r j' hrun => ?_⟩
    obtain ⟨r', t, hpoll', hrest⟩ := Rpc.returns_bind.mp hrun
    obtain ⟨rfl, rfl⟩ := hpoll.unique hpoll'
    exact hfuel r j' hrest
  · refine ⟨1, fun r j' hrun => ?_⟩
    obtain ⟨r', t, hpoll', -⟩ := Rpc.returns_bind.mp hrun
    exact hret ⟨r', t, hpoll'⟩

/-- On a growing chain polls that see no new block come to an end, so it is enough that a panic
    follows the others. -/
theorem panics_of_poll_or_stay (hgrow : KeepsGrowing net w)
    (h : ∀ i r j, (nearlyPoll g net window margin queue).Returns w i r j →
      (r = .waiting queue ∧ ∃ tip, (net.getConfirmedTipNumber g).Returns w i tip j ∧ tip < n) ∨
      ∃ queue', r = .waiting queue' ∧ Panics g net window margin w j queue') (i : ℕ) :
    Panics g net window margin w i queue := by
  obtain ⟨t₀, hpast⟩ := hgrow.passes g n
  -- the induction is on the calls until the tip is past `n`
  induction hd : t₀ - i using Nat.strong_induction_on generalizing i with
  | _ d ih =>
    apply panics_of_poll
    intro r j hr
    rcases h i r j hr with ⟨rfl, tip, hcall, htip⟩ | hnext
    · have hij := getConfirmedTipNumber_lt hcall
      refine ⟨queue, rfl, ?_⟩
      rcases Nat.lt_or_ge i t₀ with hbefore | hafter
      · exact ih (t₀ - j) (by omega) j rfl
      · have := hpast i tip j hafter hcall
        omega
    · exact hnext

/-- A window that overflows is reached, since no window before it passes. The induction is on how
    many blocks are still to be pushed until it is full. -/
theorem NearlyInv.panics (hstay : net.ConfirmedStays g w) (hwindow : 3 ≤ window)
    (hgrow : KeepsGrowing net w) {k₁ : ℕ} {l : List BlockView} (hlen : l.length = window)
    (hset : net.SettledAt w (s + k₁) l)
    (hfailed : ∀ k < k₁, WindowFails net window margin w (s + k))
    (hover : blocktxnsNearly margin (innerBlocks l) = .error .addOverflow) (pushes : ℕ) :
    ∀ k queue i, NearlyInv net window margin w s k queue → k ≤ k₁ →
      (k₁ - k) * window + (window - queue.length) = pushes →
      Panics g net window margin w i queue := by
  induction pushes using Nat.strong_induction_on with
  | _ pushes ih =>
    intro k queue i h hk hpushes
    have hshort := h.short
    -- a window up to `k₁` that is evaluated fails before `k₁`, and overflows at `k₁`
    have hfull : ∀ next nearly, net.SettledAt w (s + k) (queue ++ [next]) →
        queue.length + 1 = window →
        blocktxnsNearly margin (innerBlocks (queue ++ [next])) = .ok nearly →
        k < k₁ ∧ nearly = false := by
      intro next nearly hset' hlen' htest
      have hlen'' : (queue ++ [next]).length = window := by simpa using hlen'
      rcases Nat.lt_or_eq_of_le hk with hlt | rfl
      · refine ⟨hlt, ?_⟩
        cases nearly with
        | true => exact absurd (hfailed k hlt) (not_windowFails hlen'' hset' htest)
        | false => rfl
      · obtain rfl := hset.unique hset' (by omega)
        rw [hover] at htest
        cases htest
    have hpoll : ∀ i r j, (nearlyPoll g net window margin queue).Returns w i r j →
        (r = .waiting queue ∧ ∃ tip, (net.getConfirmedTipNumber g).Returns w i tip j ∧
          tip < s + k + queue.length) ∨
        ∃ queue', r = .waiting queue' ∧ Panics g net window margin w j queue' := by
      intro i r j hpoll
      cases nearlyStep_of_nearlyPoll hstay h.settled hshort hpoll with
      | stay hcall htip => exact Or.inl ⟨rfl, _, hcall, htip⟩
      | @push next hset' hlen' =>
        have hlength : (queue ++ [next]).length = queue.length + 1 := List.length_append
        exact Or.inr ⟨_, rfl, ih _ (by omega) k _ j (h.push hset' hlen') hk rfl⟩
      | pass hset' hlen' _ _ htest => exact absurd (hfull _ _ hset' hlen' htest).2 (by simp)
      | @fail next hset' hlen' htest =>
        obtain ⟨hlt, -⟩ := hfull _ _ hset' hlen' htest
        have hinner := length_innerBlocks (queue ++ [next])
        have hlength : (queue ++ [next]).length = queue.length + 1 := List.length_append
        have hmul : (k₁ - k) * window = (k₁ - (k + 1)) * window + window := by
          rw [← Nat.succ_mul]
          congr 1
          omega
        exact Or.inr ⟨_, rfl, ih _ (by omega) (k + 1) _ j (h.fail hset' hlen' htest) hlt rfl⟩
    exact panics_of_poll_or_stay hgrow hpoll i

/-! ## The whole -/

/-- A run whose first call is known. -/
theorem returns_waitRecentBlocktxnsNearly_of_start {fuel t : ℕ} {r : Nearly}
    (hb : (net.getConfirmedTipBlock g).Returns w i b t) :
    (waitRecentBlocktxnsNearly g net maxCapacity window margin fuel).Returns w i r j ↔
      window ≤ maxCapacity ∧ (nearlyLoop g net window margin fuel [b]).Returns w t r j := by
  rw [returns_waitRecentBlocktxnsNearly]
  apply and_congr_right
  intro _
  constructor
  · rintro ⟨b', t', hb', h⟩
    obtain ⟨rfl, rfl⟩ := hb.unique hb'
    exact h
  · intro h
    exact ⟨b, t, hb, h⟩

/-- **The bounds.** On chains with a shared genesis block and reorganizations of at most
    `confirmationBlocks` blocks, a run neither panics nor pops forever if the window is at least 3,
    the queue can be made that large, and the margin fits every window up to the first that does
    not fail; and on chains that keep growing it does so only then. -/
theorem waitRecentBlocktxnsNearly_safe_iff (g : Global) (net : Net)
    (maxCapacity window margin : ℕ) (w : History T) (i : ℕ) (genesis : HeaderView) (b : BlockView)
    (t : ℕ) (hu64 : window < u64Size)
    (hgen : ∀ t, ∀ e ∈ net.endpoints, (w t e).chain.header? 0 = some genesis)
    (hreorg : BoundedReorgs g.confirmationBlocks net w)
    (hstart : (net.getConfirmedTipBlock g).Returns w i b t) :
    (3 ≤ window ∧ window ≤ maxCapacity ∧ MarginFits net window margin w b.number →
      NearlySafe g net maxCapacity window margin w i) ∧
    (KeepsGrowing net w → NearlySafe g net maxCapacity window margin w i →
      3 ≤ window ∧ window ≤ maxCapacity ∧ MarginFits net window margin w b.number) := by
  have hstay := confirmedStays_of_boundedReorgs hgen hreorg
  have hsettled := settled_of_getConfirmedTipBlock hstay hstart
  constructor
  · intro ⟨hwindow, hcap, hfits⟩ fuel
    obtain ⟨r, j, hret, hne⟩ := nearlyLoop_total (getConfirmedTipHeader_total hgen hreorg) hstay
      hwindow hu64 hfits fuel 0 [b] t (NearlyInv.start (by omega) hsettled)
    exact ⟨r, j, (returns_waitRecentBlocktxnsNearly_of_start hstart).mpr ⟨hcap, hret⟩, hne⟩
  · intro hgrow hsafe
    have hcap : window ≤ maxCapacity := by
      obtain ⟨r, j, hret, -⟩ := hsafe 0
      exact ((returns_waitRecentBlocktxnsNearly_of_start hstart).mp hret).1
    have hwindow : 3 ≤ window := by
      by_contra hsmall
      obtain ⟨t₀, hpast⟩ := hgrow.passes g (b.number + 1)
      obtain ⟨r, j, hret, hne⟩ := hsafe (t₀ + 1)
      apply hne
      exact nearlyLoop_small_popping (by omega) hpast t₀ t r j (by omega)
        ((returns_waitRecentBlocktxnsNearly_of_start hstart).mp hret).2
    refine ⟨hwindow, hcap, fun k l hlen hset hfailed hover => ?_⟩
    obtain ⟨fuel, hpanics⟩ := NearlyInv.panics hstay hwindow hgrow hlen hset hfailed hover _ 0 [b] t
      (NearlyInv.start (by omega) hsettled) (Nat.zero_le k) rfl
    obtain ⟨r, j, hret, -⟩ := hsafe fuel
    exact hpanics r j ((returns_waitRecentBlocktxnsNearly_of_start hstart).mp hret).2

/-! ## The sample chain -/

/-- Windows 0, 1 and 2, and a margin that overflows, over a chain that grows from height 0 to 4. -/
theorem waitRecentBlocktxnsNearly_unsafe :
    (waitRecentBlocktxnsNearly nearlyGlobal Sample.net 100 0 0 1).Returns
      (nearlyHistory 0) 0 .popping 8 ∧
    waitRecentBlocktxnsNearly nearlyGlobal Sample.net 100 1 0 1 (nearlyHistory 0) 0 =
      .error .unwrapNone ∧
    waitRecentBlocktxnsNearly nearlyGlobal Sample.net 100 2 0 1 (nearlyHistory 0) 0 =
      .error .unwrapNone ∧
    waitRecentBlocktxnsNearly nearlyGlobal Sample.net 100 3 (u64Size - 1) 2 (nearlyHistory 0) 0 =
      .error .addOverflow := ⟨rfl, rfl, rfl, rfl⟩

theorem marginFits_nearlyHistory (start s : ℕ) :
    MarginFits Sample.net 3 0 (nearlyHistory start) s := by
  intro k l hlen hset _ hover
  have hinner : innerBlocks l ≠ [] := by
    apply List.ne_nil_of_length_pos
    rw [length_innerBlocks]
    omega
  obtain ⟨least, hleast, most, -, -, htest⟩ := blocktxnsNearly_cases 0 hinner
  obtain ⟨n, hn⟩ := List.getElem?_of_mem hleast
  obtain ⟨t₀, ht₀⟩ := settledAt_innerBlocks hset n least hn
  have hmem : least ∈ nearlyBlocks := List.mem_of_mem_take (List.mem_of_getElem? (ht₀ t₀ (by simp)))
  have hsmall : ∀ b ∈ nearlyBlocks, b.txns ≤ 3 := by decide
  have hfits : least.txns + 0 < u64Size :=
    Nat.lt_of_le_of_lt (hsmall least hmem) (by decide)
  rw [htest, addU64_eq_ok.mpr ⟨hfits, rfl⟩] at hover
  cases hover

/-- A window of 3 is safe on it. -/
theorem waitRecentBlocktxnsNearly_safe_iff_sample :
    NearlySafe nearlyGlobal Sample.net 100 3 0 (nearlyHistory 0) 0 := by
  have hgrows : ∀ rpc, Grows (nearlyHistory 0) rpc :=
    grows_growing nearlyChain fun t => by split_ifs <;> omega
  refine (waitRecentBlocktxnsNearly_safe_iff nearlyGlobal Sample.net 100 3 0 (nearlyHistory 0) 0
    (nearlyBlock 0 2).header (nearlyBlock 0 2) 4 (by decide) (fun t e _ => ?_)
    (boundedReorgs_of_grows fun e _ => hgrows e) rfl).1 ⟨le_rfl, by decide, ?_⟩
  · simp only [nearlyHistory, History.growing]
    split_ifs <;> rfl
  · exact marginFits_nearlyHistory 0 0

end TpsBench
