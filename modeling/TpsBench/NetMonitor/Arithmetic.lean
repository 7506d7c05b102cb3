/-
  Is the arithmetic of `eval_blocks` defined on the ranges that its callers pass?

  `blocks_count` is computed by a subtraction that can underflow, two integer divisions are by it,
  and the TPS is divided by the elapsed time. Nothing in `eval_blocks` checks its arguments.

  * `evalDefined_iff`: the arithmetic is defined if the range is ordered and its last block is
    later than its first.
  * `Evaluates`, `nearlyPoll_eq_evalBlocks`: the ranges of `wait_recent_blocktxns_nearly`, which
    hands one over in every poll that fills its window.
  * `CallerRange`: the ranges that the four callers pass.
  * `endsLater_iff_settled`: what the second condition means where confirmed blocks stay.
  * `evalBlocks_defined_iff`: the two together, caller by caller.
-/
import TpsBench.NetMonitor.Waits
import TpsBench.NetMonitor.NearlySafe

namespace TpsBench

open Lib Net

variable {T : BlockTree} {g : Global} {net : Net} {w : History T} {i j t : ℕ} {range : ℕ × ℕ}

/-! ## The four operations -/

/-- The arithmetic of `eval_blocks` on `range`, started at call `j`: the count is defined and not
    0, and the elapsed time is positive, if the run comes to it. -/
structure EvalDefined (net : Net) (w : History T) (j : ℕ) (range : ℕ × ℕ) : Prop where
  counted : ∃ count, blocksCount range.1 range.2 = .ok count ∧ 1 ≤ count
  elapsed : ∀ reads k, (readBlocks net range.1 range.2).Returns w j reads k → 0 < reads.elapsedMs

/-- The last block of the range has a later timestamp than the first, as the endpoint has them when
    `eval_blocks`, started at call `j`, asks for them. -/
def EndsLater (net : Net) (w : History T) (j : ℕ) (range : ℕ × ℕ) : Prop :=
  ∀ front back, ReadsEnds net w j range.1 range.2 front back → front.timestamp < back.timestamp

theorem evalDefined_iff : EvalDefined net w j range ↔
    range.1 ≤ range.2 ∧ range.2 - range.1 + 1 < u64Size ∧ EndsLater net w j range := by
  constructor
  · intro h
    obtain ⟨count, hcount, -⟩ := h.counted
    obtain ⟨hle, hfits, -⟩ := blocksCount_eq_ok.mp hcount
    refine ⟨hle, hfits, fun front back hends => ?_⟩
    obtain ⟨reads, k, hreads, rfl, rfl⟩ := exists_readBlocks hle hfits hends
    exact Nat.sub_pos_iff_lt.mp (h.elapsed reads k hreads)
  · intro ⟨hle, hfits, hlater⟩
    refine ⟨⟨_, blocksCount_eq_ok.mpr ⟨hle, hfits, rfl⟩, Nat.le_add_left _ _⟩, ?_⟩
    intro reads k hreads
    obtain ⟨-, -, hends⟩ := returns_readBlocks hreads
    exact Nat.sub_pos_iff_lt.mpr (hlater _ _ hends)

/-! ## The range of `wait_recent_blocktxns_nearly` -/

section Nearly

variable {window margin a s : ℕ} {queue queue' : List BlockView} {b next : BlockView}

/-- The range that `evaluateQueue` hands to `eval_blocks`, if it comes to that. -/
def queueRange (window : ℕ) (queue : List BlockView) : Option (ℕ × ℕ) := do
  let front ← queue.head?
  let back ← queue.tail.getLast?
  if window ≤ queue.length then some (front.number, back.number) else none

theorem queueRange_eq_some {l : List BlockView} {range : ℕ × ℕ}
    (h : queueRange window l = some range) : window ≤ l.length ∧
      ∃ front back, l.head? = some front ∧ l.tail.getLast? = some back ∧
        range = (front.number, back.number) := by
  unfold queueRange at h
  obtain ⟨front, hfront, h₁⟩ := Option.bind_eq_some_iff.mp h
  obtain ⟨back, hback, h₂⟩ := Option.bind_eq_some_iff.mp h₁
  split at h₂
  next hfull => exact ⟨hfull, front, back, hfront, hback, (Option.some.inj h₂).symm⟩
  next => cases h₂

theorem queueRange_of_full {front back : BlockView} (hfull : window ≤ queue.length)
    (hfront : queue.head? = some front) (hback : queue.tail.getLast? = some back) :
    queueRange window queue = some (front.number, back.number) := by
  unfold queueRange
  rw [hfront, hback]
  exact if_pos hfull

/-- `eval_blocks` on `range`, and then the test of the queue without its two ends. -/
def evaluateRange (net : Net) (margin : ℕ) (queue : List BlockView) (range : ℕ × ℕ) :
    Rpc T Nearly := do
  let metrics ← evalBlocks net range.1 range.2
  if ← Rpc.lift (blocktxnsNearly margin (innerBlocks queue)) then return .metrics metrics
  else return .waiting (innerBlocks queue)

theorem evaluateQueue_eq_evalBlocks (hrange : queueRange window queue = some range) :
    evaluateQueue net window margin queue w i = evaluateRange net margin queue range w i := by
  obtain ⟨hfull, front, back, hfront, hback, rfl⟩ := queueRange_eq_some hrange
  unfold evaluateQueue
  rw [if_pos hfull, (Rpc.returns_unwrapOr.mpr ⟨hfront, rfl⟩).bind_eq]
  exact (Rpc.returns_unwrapOr.mpr ⟨hback, rfl⟩).bind_eq

/-- A run that polls with `queue` at call `i` hands `range` to `eval_blocks` at call `t`. -/
inductive Evaluates (g : Global) (net : Net) (window margin : ℕ) (w : History T) :
    ℕ → List BlockView → ℕ → ℕ × ℕ → Prop
  /-- In this poll. -/
  | here {i t : ℕ} {queue queue' : List BlockView} {tip : ℕ} {back next : BlockView}
      {range : ℕ × ℕ} (hcall : (net.getConfirmedTipNumber g).Returns w i tip t)
      (hback : queue.getLast? = some back) (hpast : back.number < tip)
      (hnext : (w t net.first).chain.blocks[back.number + 1]? = some next)
      (hpop : popFull window queue = some queue')
      (hrange : queueRange window (queue' ++ [next]) = some range) :
      Evaluates g net window margin w i queue (t + 1) range
  /-- In a later one. -/
  | later {i j t : ℕ} {queue queue' : List BlockView} {range : ℕ × ℕ}
      (hpoll : (nearlyPoll g net window margin queue).Returns w i (.waiting queue') j)
      (hrest : Evaluates g net window margin w j queue' t range) :
      Evaluates g net window margin w i queue t range

/-- `Evaluates.here` is about the poll: it goes on with `eval_blocks` on that range. -/
theorem nearlyPoll_eq_evalBlocks {t tip : ℕ} {queue' : List BlockView} {back next : BlockView}
    {range : ℕ × ℕ} (hcall : (net.getConfirmedTipNumber g).Returns w i tip t)
    (hback : queue.getLast? = some back) (hpast : back.number < tip)
    (hnext : (w t net.first).chain.blocks[back.number + 1]? = some next)
    (hpop : popFull window queue = some queue')
    (hrange : queueRange window (queue' ++ [next]) = some range) :
    nearlyPoll g net window margin queue w i =
      evaluateRange net margin (queue' ++ [next]) range w (t + 1) := by
  unfold nearlyPoll
  rw [hcall.bind_eq, (Rpc.returns_unwrapOr.mpr ⟨hback, rfl⟩).bind_eq, if_pos hpast,
    (returns_blockByNumber.mpr ⟨hnext, rfl⟩).bind_eq, hpop]
  exact evaluateQueue_eq_evalBlocks hrange

/-- A range that is evaluated is a window, and up to a confirmed tip that was seen before. -/
theorem NearlyInv.evaluates (hstay : net.ConfirmedStays g w) {t : ℕ} {range : ℕ × ℕ}
    (heval : Evaluates g net window margin w i queue t range) :
    ∀ k, NearlyInv net window margin w s k queue →
      (∃ k', range.1 = s + k' ∧ range.2 + 1 = s + k' + window) ∧
      ∃ i' header t', (net.getConfirmedTipHeader g).Returns w i' header t' ∧ t' ≤ t ∧
        range.2 ≤ header.number := by
  induction heval with
  | @here i t queue queue' tip back next range hcall hback hpast hnext hpop hrange =>
    intro k h
    obtain ⟨header, hheader, rfl⟩ := getConfirmedTipNumber_iff.mp hcall
    rw [popFull_short h.short] at hpop
    obtain rfl := Option.some.inj hpop
    obtain ⟨hfull, front, last, hfront, hlast, rfl⟩ := queueRange_eq_some hrange
    have hshort := h.short
    have hlen : (queue ++ [next]).length = queue.length + 1 := List.length_append
    have hsettled : net.Settled w (s + k + queue.length) next :=
      h.settled.numberedFrom.getLast? hback ▸
        settled_of_confirmed hstay hheader hpast (Nat.le_succ t) hnext
    have hnumbered := (h.settled.append hsettled).numberedFrom
    have hfirst := hnumbered.head? hfront
    have hend := hnumbered.tail.getLast? hlast
    rw [List.length_tail] at hend
    refine ⟨⟨k, hfirst, ?_⟩, i, header, t, hheader, Nat.le_succ t, ?_⟩
    · show last.number + 1 = s + k + window
      omega
    · show last.number ≤ header.number
      have := h.settled.numberedFrom.getLast? hback
      omega
  | @later i j t queue queue' range hpoll hrest ih =>
    intro k h
    obtain ⟨k', h'⟩ := h.waiting (nearlyStep_of_nearlyPoll hstay h.settled h.short hpoll)
    exact ih k' h'

/-- A queue that is about to poll, for a window of at least 2. -/
structure Polling (window : ℕ) (queue : List BlockView) : Prop where
  numbered : ∃ a, NumberedFrom a queue
  nonempty : queue ≠ []
  short : queue.length < window

theorem Polling.append (h : Polling window queue) (hb : queue.getLast? = some b)
    (hnext : (w t net.first).chain.blocks[b.number + 1]? = some next) :
    ∃ a, NumberedFrom a (queue ++ [next]) := by
  obtain ⟨a, ha⟩ := h.numbered
  refine ⟨a, ha.append ?_⟩
  rw [(w t net.first).chain.number_eq hnext]
  exact ha.getLast? hb

theorem Polling.poll (h : Polling window queue)
    (hpoll : (nearlyPoll g net window margin queue).Returns w i (.waiting queue') j) :
    Polling window queue' := by
  obtain ⟨tip, t, back, -, hback, hcases⟩ := nearlyPoll_cases h.short hpoll
  rcases hcases with ⟨-, hqueue, -⟩ | ⟨-, next, hnext, heval⟩
  · obtain rfl := Nearly.waiting.inj hqueue
    exact h
  · obtain ⟨a, ha⟩ := h.append hback hnext
    cases evaluated_of_evaluateQueue heval with
    | short hnotfull => exact ⟨⟨a, ha⟩, by simp, hnotfull⟩
    | fail hfull hfront hback htest =>
      refine ⟨⟨a + 1, ha.tail.dropLast⟩, ?_, ?_⟩
      · intro hnil
        rw [hnil, blocktxnsNearly_nil] at htest
        cases htest
      · have hlen : (queue ++ [next]).length = queue.length + 1 := List.length_append
        have hshort := h.short
        rw [length_innerBlocks]
        omega

/-- The window has at least two blocks, and they are evaluated together. -/
theorem Polling.evaluates (heval : Evaluates g net window margin w i queue t range)
    (h : Polling window queue) : range.1 ≤ range.2 ∧ range.2 - range.1 + 1 = window := by
  induction heval with
  | @here i t queue queue' tip back next range hcall hback hpast hnext hpop hrange =>
    rw [popFull_short h.short] at hpop
    obtain rfl := Option.some.inj hpop
    obtain ⟨a, ha⟩ := h.append hback hnext
    obtain ⟨hfull, front, last, hfront, hlast, rfl⟩ := queueRange_eq_some hrange
    have hlen : (queue ++ [next]).length = queue.length + 1 := List.length_append
    have hshort := h.short
    have hfirst := ha.head? hfront
    have hend := ha.tail.getLast? hlast
    have hpos := List.length_pos_iff.mpr h.nonempty
    rw [List.length_tail] at hend
    show front.number ≤ last.number ∧ last.number - front.number + 1 = window
    omega
  | @later i j t queue queue' range hpoll hrest ih => exact ih (h.poll hpoll)

/-- A smaller window is never evaluated: the queue runs empty before. -/
theorem not_evaluates (hwindow : window < 2) :
    ¬ Evaluates g net window margin w i [b] t range := by
  intro heval
  generalize hqueue : [b] = queue at heval
  induction heval with
  | @here i t queue queue' tip back next range hcall hback hpast hnext hpop hrange =>
    subst hqueue
    obtain ⟨-, front, last, -, hlast, -⟩ := queueRange_eq_some hrange
    obtain rfl | rfl : window = 0 ∨ window = 1 := by omega
    · rw [popFull_zero] at hpop
      cases hpop
    · obtain rfl : [] = queue' := Option.some.inj hpop
      cases hlast
  | @later i j t queue queue' range hpoll hrest ih =>
    subst hqueue
    rcases nearlyPoll_small (by omega) hpoll with ⟨hstays, -⟩ | hpops
    · exact ih (Nearly.waiting.inj hstays).symm
    · cases hpops

/-- A run of `wait_recent_blocktxns_nearly` evaluates windows of two blocks or more. -/
theorem two_le_of_evaluates (heval : Evaluates g net window margin w i [b] t range) :
    2 ≤ window :=
  Nat.not_lt.mp fun hsmall => not_evaluates hsmall heval

theorem polling_singleton (hwindow : 2 ≤ window) (b : BlockView) : Polling window [b] where
  numbered := ⟨b.number, rfl⟩
  nonempty := by simp
  short := hwindow

end Nearly

/-! ## The callers -/

/-- `range` is evaluated by one of the callers of `eval_blocks`, from call `j` on. -/
inductive CallerRange (g : Global) (net : Net) (w : History T) : ℕ → ℕ × ℕ → Prop
  | metricMode {i j : ℕ} {range : ℕ × ℕ} (h : (metricRange g net).Returns w i range j) :
      CallerRange g net w j range
  | customBlocksElapsed {window warmup fuel i j : ℕ} {range : ℕ × ℕ}
      (h : (customRange g net window warmup fuel).Returns w i (some range) j) :
      CallerRange g net w j range
  | recentBlocktxnsNearly {window margin i t j : ℕ} {b : BlockView} {range : ℕ × ℕ}
      (hstart : (net.getConfirmedTipBlock g).Returns w i b t)
      (h : Evaluates g net window margin w t [b] j range) : CallerRange g net w j range
  | durationTimeElapsed {i j : ℕ} {range : ℕ × ℕ}
      (h : (durationRange g net).Returns w i range j) : CallerRange g net w j range

theorem returns_metricRange (h : (metricRange g net).Returns w i range j) :
    range.1 = 1 ∧ (net.getConfirmedTipNumber g).Returns w i range.2 j := by
  obtain ⟨tip, k, hcall, h₁⟩ := Rpc.returns_bind.mp h
  obtain ⟨rfl, rfl⟩ := Rpc.returns_pure.mp h₁
  exact ⟨rfl, hcall⟩

theorem waitTip_reached {target fuel : ℕ}
    (h : (waitTip g net target fuel).Returns w i true j) :
    ∃ i' tip, (net.getConfirmedTipNumber g).Returns w i' tip j ∧ target ≤ tip := by
  induction fuel generalizing i with
  | zero => cases (Rpc.returns_pure.mp h).1
  | succ fuel ih =>
    obtain ⟨tip, k, hcall, h₁⟩ := Rpc.returns_bind.mp h
    split at h₁
    next => exact ih h₁
    next hreached =>
      obtain ⟨-, rfl⟩ := Rpc.returns_pure.mp h₁
      exact ⟨i, tip, hcall, Nat.not_lt.mp hreached⟩

theorem returns_waitBlocks {blocks fuel : ℕ}
    (h : (waitBlocks g net blocks fuel).Returns w i (some range) j) :
    range.2 = range.1 + blocks ∧ (∃ k, (net.getConfirmedTipNumber g).Returns w i range.1 k) ∧
      ∃ i' tip, (net.getConfirmedTipNumber g).Returns w i' tip j ∧ range.2 ≤ tip := by
  obtain ⟨tip, k, htip, h₁⟩ := Rpc.returns_bind.mp h
  obtain ⟨target, k', hlift, h₂⟩ := Rpc.returns_bind.mp h₁
  obtain ⟨hadd, rfl⟩ := Rpc.returns_lift.mp hlift
  obtain ⟨-, rfl⟩ := addU64_eq_ok.mp hadd
  obtain ⟨reached, t, hwait, h₃⟩ := Rpc.returns_bind.mp h₂
  cases reached with
  | true =>
    obtain ⟨hrange, rfl⟩ := Rpc.returns_pure.mp h₃
    obtain rfl := Option.some.inj hrange
    exact ⟨rfl, ⟨k', htip⟩, waitTip_reached hwait⟩
  | false => cases (Rpc.returns_pure.mp h₃).1

theorem returns_customRange {window warmup fuel : ℕ}
    (h : (customRange g net window warmup fuel).Returns w i (some range) j) :
    ∃ warmed k, (waitBlocks g net warmup fuel).Returns w i (some warmed) k ∧
      (waitBlocks g net window fuel).Returns w k (some range) j := by
  obtain ⟨warmed, k, hwarmup, h₁⟩ := Rpc.returns_bind.mp h
  cases warmed with
  | none => cases (Rpc.returns_pure.mp h₁).1
  | some warmed => exact ⟨warmed, k, hwarmup, h₁⟩

/-- The range of `wait_custom_blocks_elapsed` has one block more than the window, up to a confirmed
    tip. -/
theorem customRange_reached {window warmup fuel : ℕ}
    (h : (customRange g net window warmup fuel).Returns w i (some range) j) :
    range.2 = range.1 + window ∧
      ∃ i' tip, (net.getConfirmedTipNumber g).Returns w i' tip j ∧ range.2 ≤ tip := by
  obtain ⟨warmed, k, -, hwait⟩ := returns_customRange h
  obtain ⟨hrange, -, hreached⟩ := returns_waitBlocks hwait
  exact ⟨hrange, hreached⟩

theorem returns_durationRange (h : (durationRange g net).Returns w i range j) :
    ∃ k, (net.getConfirmedTipNumber g).Returns w k range.2 j := by
  obtain ⟨first, k, -, h₁⟩ := Rpc.returns_bind.mp h
  obtain ⟨last, k', hlast, h₂⟩ := Rpc.returns_bind.mp h₁
  obtain ⟨rfl, rfl⟩ := Rpc.returns_pure.mp h₂
  exact ⟨k, hlast⟩

theorem CallerRange.confirmed (hstay : net.ConfirmedStays g w) (h : CallerRange g net w j range) :
    ∃ i header t, (net.getConfirmedTipHeader g).Returns w i header t ∧ t ≤ j ∧
      range.2 ≤ header.number := by
  cases h with
  | @metricMode i _ _ h =>
    obtain ⟨header, hcall, hnumber⟩ := getConfirmedTipNumber_iff.mp (returns_metricRange h).2
    exact ⟨i, header, j, hcall, le_rfl, hnumber.ge⟩
  | customBlocksElapsed h =>
    obtain ⟨-, i', tip, hreached, hle⟩ := customRange_reached h
    obtain ⟨header, hcall, rfl⟩ := getConfirmedTipNumber_iff.mp hreached
    exact ⟨i', header, j, hcall, le_rfl, hle⟩
  | recentBlocktxnsNearly hstart h =>
    have hsettled := settled_of_getConfirmedTipBlock hstay hstart
    exact ((NearlyInv.start (two_le_of_evaluates h) hsettled).evaluates hstay h).2
  | durationTimeElapsed h =>
    obtain ⟨k, hlast⟩ := returns_durationRange h
    obtain ⟨header, hcall, hnumber⟩ := getConfirmedTipNumber_iff.mp hlast
    exact ⟨k, header, j, hcall, le_rfl, hnumber.ge⟩

/-- Where confirmed blocks stay, the blocks at the ends are the settled ones, and they are two. -/
theorem endsLater_iff_settled (hstay : net.ConfirmedStays g w) (h : CallerRange g net w j range)
    (hle : range.1 ≤ range.2) :
    EndsLater net w j range ↔ range.1 < range.2 ∧
      ∀ front back, net.Settled w range.1 front → net.Settled w range.2 back →
        front.timestamp < back.timestamp := by
  obtain ⟨i', header, t', hcall, ht', hend⟩ := h.confirmed hstay
  constructor
  · intro hlater
    have hread : ∀ t, j ≤ t → ∀ number, number ≤ range.2 →
        ∃ b, (w t net.first).chain.blocks[number]? = some b := fun t ht number hnumber =>
      exists_settled_of_confirmed hstay hcall (hnumber.trans hend) (by omega)
    obtain ⟨front, hfront⟩ := hread (j + (range.2 - range.1) + 2) (by omega) range.1 hle
    obtain ⟨back, hback⟩ := hread (j + (range.2 - range.1) + 3) (by omega) range.2 le_rfl
    have hlt := hlater front back
      ⟨fun number _ hnumber => hread _ (by omega) number hnumber, hfront, hback⟩
    have hfront' := settled_of_confirmed hstay hcall (hle.trans hend) (by omega) hfront
    have hback' := settled_of_confirmed hstay hcall hend (by omega) hback
    refine ⟨Nat.lt_of_le_of_ne hle fun heq => ?_, fun front' back' hf hb => ?_⟩
    · rw [heq] at hfront'
      rw [hfront'.unique hback'] at hlt
      exact absurd hlt (Nat.lt_irrefl _)
    · rwa [hf.unique hfront', hb.unique hback']
  · intro hlater front back hends
    exact hlater.2 front back
      (settled_of_confirmed hstay hcall (hle.trans hend) (by omega) hends.front)
      (settled_of_confirmed hstay hcall hend (by omega) hends.back)

/-- **The boundaries.** The arithmetic of `eval_blocks` is defined for `MetricMode` if and only if
    the confirmed tip is past the genesis block, for `wait_duration_time_elapsed` if and only if the
    confirmed tip has not gone back, and always for the two others, provided that the last block of
    the range is later than the first. Where confirmed blocks stay, these two must not be one
    block. -/
theorem evalBlocks_defined_iff (g : Global) (net : Net) (w : History T) :
    (∀ i range j, (metricRange g net).Returns w i range j →
      (EvalDefined net w j range ↔
        1 ≤ range.2 ∧ range.2 < u64Size ∧ EndsLater net w j range)) ∧
    (∀ window warmup fuel i range j,
      (customRange g net window warmup fuel).Returns w i (some range) j →
      (EvalDefined net w j range ↔ window + 1 < u64Size ∧ EndsLater net w j range)) ∧
    (∀ window margin i b t range j, (net.getConfirmedTipBlock g).Returns w i b t →
      Evaluates g net window margin w t [b] j range →
      (EvalDefined net w j range ↔ window < u64Size ∧ EndsLater net w j range)) ∧
    (∀ i range j, (durationRange g net).Returns w i range j →
      (EvalDefined net w j range ↔
        range.1 ≤ range.2 ∧ range.2 - range.1 + 1 < u64Size ∧ EndsLater net w j range)) ∧
    (net.ConfirmedStays g w → ∀ range j, CallerRange g net w j range → range.1 ≤ range.2 →
      (EndsLater net w j range ↔ range.1 < range.2 ∧
        ∀ front back, net.Settled w range.1 front → net.Settled w range.2 back →
          front.timestamp < back.timestamp)) := by
  refine ⟨?_, ?_, ?_, ?_, ?_⟩
  · intro i range j h
    obtain ⟨hfirst, -⟩ := returns_metricRange h
    rw [evalDefined_iff, hfirst]
    apply and_congr_right
    intro htip
    rw [Nat.sub_add_cancel htip]
  · intro window warmup fuel i range j h
    obtain ⟨hlast, -⟩ := customRange_reached h
    rw [evalDefined_iff, hlast, Nat.add_sub_cancel_left]
    exact and_iff_right (Nat.le_add_right _ _)
  · intro window margin i b t range j hstart h
    obtain ⟨hle, hcount⟩ := (polling_singleton (two_le_of_evaluates h) b).evaluates h
    rw [evalDefined_iff, hcount]
    exact and_iff_right hle
  · intro i range j _
    exact evalDefined_iff
  · intro hstay range j h hle
    exact endsLater_iff_settled hstay h hle

/-! ## Runs at the boundaries -/

/-- `MetricMode` while the confirmed tip is the genesis block, and a window without blocks: the
    count underflows, and the elapsed time is 0. -/
theorem evalBlocks_undefined :
    metricMode nearlyGlobal Sample.net (nearlyHistory 0) 0 = .error .subOverflow ∧
    (∃ j, (metricRange nearlyGlobal Sample.net).Returns (nearlyHistory 0) 0 (1, 0) j ∧
      ¬ EvalDefined Sample.net (nearlyHistory 0) j (1, 0)) ∧
    ∃ j, (customRange nearlyGlobal Sample.net 0 0 1).Returns (.still timedChain) 0
        (some (4, 4)) j ∧
      ¬ EvalDefined Sample.net (.still timedChain) j (4, 4) := by
  refine ⟨rfl, ⟨_, rfl, fun h => ?_⟩, ⟨_, rfl, fun h => ?_⟩⟩
  · exact absurd (evalDefined_iff.mp h).1 (by decide)
  · have hends := (evalDefined_iff.mp h).2.2 (timedBlock 4 11) (timedBlock 4 11)
      ⟨fun number hfrom hend => ⟨timedBlock 4 11, by
        obtain rfl : number = 4 := Nat.le_antisymm hend hfrom
        rfl⟩, rfl, rfl⟩
    exact absurd hends (Nat.lt_irrefl _)

/-- Over the four intervals of the sample chain everything is defined. -/
theorem evalBlocks_defined_iff_sample :
    ∃ j, EvalDefined Sample.net (.still timedChain) j (1, 4) := by
  refine ⟨_, ((evalBlocks_defined_iff nearlyGlobal Sample.net (.still timedChain)).1 0 (1, 4) _
    rfl).mpr ⟨by decide, by decide, ?_⟩⟩
  intro front back hends
  obtain rfl : timedBlock 1 4 = front := Option.some.inj hends.front
  obtain rfl : timedBlock 4 11 = back := Option.some.inj hends.back
  decide

end TpsBench
