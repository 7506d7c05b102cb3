/-
  `net_monitor.rs`: `wait_recent_blocktxns_nearly`.

  Model (read this before the theorems). The queue is a list, oldest block first. The two nested
  loops poll the confirmed tip; an iteration of the inner one that fetches a block leaves it, and
  the rest of the outer body follows, so one `nearlyPoll` is one poll with whatever follows it.
  `nearlyLoop` takes fuel, one unit a poll, and ends in `waiting` when it runs out.

  `popFull` is the loop `while queue.len() >= window { queue.pop_front(); }`. `pop_front` of an
  empty queue changes nothing, so for `window = 0` the loop never ends: `popFull` is `none` then,
  and the run ends in `popping`.

  `VecDeque::with_capacity(window)` panics if the queue cannot be made that large. `maxCapacity` is
  the largest capacity that it can be made with.

  * `NearlyStep`, `nearlyStep_of_nearlyPoll`: what one poll can come to.
  * `NearlyInv`: after `k` evaluations the queue holds the settled blocks from height `s + k` on,
    fewer than `window`, and no window before the `k`-th passed the test.
-/
import TpsBench.Net.Settled
import TpsBench.NetMonitor.Metrics

namespace TpsBench

open Lib Net

variable {T : BlockTree}

/-! ## The program -/

/-- `while queue.len() >= window { queue.pop_front(); }`, up to `fuel` iterations. -/
def popLoop (window : ℕ) : ℕ → List BlockView → Option (List BlockView)
  | 0, _ => none
  | fuel + 1, queue =>
    if window ≤ queue.length then popLoop window fuel queue.tail else some queue

/-- The loop, if it ends: it pops one block an iteration. -/
def popFull (window : ℕ) (queue : List BlockView) : Option (List BlockView) :=
  popLoop window (queue.length + 1) queue

/-- `unwrap` outside a call. -/
def unwrapNone {α : Type} : Option α → Except Panic α
  | some a => .ok a
  | none => .error .unwrapNone

/-- `b.transactions().len()`. -/
def BlockView.txns (b : BlockView) : ℕ := b.transactions.length

/-- The test: `maxtxns <= mintxns + margin` over the blocks left in the queue. -/
def blocktxnsNearly (margin : ℕ) (queue : List BlockView) : Except Panic Bool := do
  let mintxns ← unwrapNone (queue.map BlockView.txns).min?
  let maxtxns ← unwrapNone (queue.map BlockView.txns).max?
  let bound ← addU64 mintxns margin
  return decide (maxtxns ≤ bound)

/-- How a run stands. -/
inductive Nearly where
  /-- It has returned. -/
  | metrics (metrics : Metrics)
  /-- It is about to poll. -/
  | waiting (queue : List BlockView)
  /-- It is in a popping loop that does not end. -/
  | popping

/-- The rest of the outer loop's body, once a block was fetched. -/
def evaluateQueue (net : Net) (window margin : ℕ) (queue : List BlockView) : Rpc T Nearly := do
  if window ≤ queue.length then
    let front ← Rpc.unwrapOr .unwrapNone queue.head?
    let queue := queue.tail
    let back ← Rpc.unwrapOr .unwrapNone queue.getLast?
    let queue := queue.dropLast
    let metrics ← evalBlocks net front.number back.number
    if ← Rpc.lift (blocktxnsNearly margin queue) then return .metrics metrics
    else return .waiting queue
  else return .waiting queue

/-- One poll, and what follows it. -/
def nearlyPoll (g : Global) (net : Net) (window margin : ℕ) (queue : List BlockView) :
    Rpc T Nearly := do
  let tipNumber ← net.getConfirmedTipNumber g
  let back ← Rpc.unwrapOr .unwrapNone queue.getLast?
  if tipNumber > back.number then
    let nextBlock ← net.blockByNumber (back.number + 1)
    match popFull window queue with
    | some queue => evaluateQueue net window margin (queue ++ [nextBlock])
    | none => return .popping
  else return .waiting queue

def nearlyLoop (g : Global) (net : Net) (window margin : ℕ) : ℕ → List BlockView → Rpc T Nearly
  | 0, queue => return .waiting queue
  | fuel + 1, queue => do
    match ← nearlyPoll g net window margin queue with
    | .waiting queue => nearlyLoop g net window margin fuel queue
    | .metrics metrics => return .metrics metrics
    | .popping => return .popping

/-- `VecDeque::with_capacity`. -/
def withCapacity (maxCapacity capacity : ℕ) : Except Panic (List BlockView) :=
  if capacity ≤ maxCapacity then .ok [] else .error .capacityOverflow

def waitRecentBlocktxnsNearly (g : Global) (net : Net) (maxCapacity window margin fuel : ℕ) :
    Rpc T Nearly := do
  let queue ← Rpc.lift (withCapacity maxCapacity window)
  let block ← net.getConfirmedTipBlock g
  nearlyLoop g net window margin fuel (queue ++ [block])

/-! ## The popping loop -/

section Popping

variable {window : ℕ} {queue : List BlockView}

theorem popLoop_zero (fuel : ℕ) (queue : List BlockView) : popLoop 0 fuel queue = none := by
  induction fuel generalizing queue with
  | zero => rfl
  | succ fuel ih =>
    unfold popLoop
    rw [if_pos (Nat.zero_le _)]
    exact ih _

theorem popFull_zero : popFull 0 queue = none := popLoop_zero _ _

theorem popLoop_pos (hwindow : 0 < window) {fuel : ℕ} (hfuel : queue.length < fuel) :
    popLoop window fuel queue = some (queue.drop (queue.length + 1 - window)) := by
  induction fuel generalizing queue with
  | zero => omega
  | succ fuel ih =>
    unfold popLoop
    split
    · have hlen := List.length_tail (l := queue)
      rw [ih (by omega), ← List.drop_one, List.drop_drop, List.length_drop]
      congr 2
      omega
    · rw [Nat.sub_eq_zero_of_le (by omega), List.drop_zero]

/-- With a positive window the loop ends and leaves room for one block. -/
theorem popFull_pos (hwindow : 0 < window) :
    popFull window queue = some (queue.drop (queue.length + 1 - window)) :=
  popLoop_pos hwindow (Nat.lt_succ_self _)

/-- `popFull` is what the loop comes to with any fuel, if it ends. -/
theorem popFull_of_popLoop {fuel : ℕ} {queue' : List BlockView}
    (h : popLoop window fuel queue = some queue') : popFull window queue = some queue' := by
  rcases Nat.eq_zero_or_pos window with rfl | hwindow
  · rw [popLoop_zero] at h
    cases h
  · induction fuel generalizing queue with
    | zero => cases h
    | succ fuel ih =>
      unfold popLoop at h
      split at h
      · have hlen := List.length_tail (l := queue)
        rw [← ih h, popFull_pos hwindow, popFull_pos hwindow, ← List.drop_one, List.drop_drop,
          List.length_drop]
        congr 2
        omega
      · rw [popFull_pos hwindow, Nat.sub_eq_zero_of_le (by omega), List.drop_zero]
        exact h

theorem popFull_short (h : queue.length < window) : popFull window queue = some queue := by
  rw [popFull_pos (by omega), Nat.sub_eq_zero_of_le (by omega), List.drop_zero]

end Popping

/-! ## The test -/

section Test

variable {margin : ℕ} {queue : List BlockView}

theorem blocktxnsNearly_nil : blocktxnsNearly margin [] = .error .unwrapNone := rfl

/-- The test on a queue that is not empty, by its smallest and its largest block. -/
theorem blocktxnsNearly_cases (margin : ℕ) (hne : queue ≠ []) :
    ∃ least ∈ queue, ∃ most ∈ queue, (∀ b ∈ queue, least.txns ≤ b.txns ∧ b.txns ≤ most.txns) ∧
      blocktxnsNearly margin queue =
        (addU64 least.txns margin).map fun bound => decide (most.txns ≤ bound) := by
  have hmap : queue.map BlockView.txns ≠ [] := by simpa using hne
  obtain ⟨mintxns, hmin⟩ := Option.ne_none_iff_exists'.mp (mt List.min?_eq_none_iff.mp hmap)
  obtain ⟨maxtxns, hmax⟩ := Option.ne_none_iff_exists'.mp (mt List.max?_eq_none_iff.mp hmap)
  obtain ⟨hminmem, hminle⟩ := List.min?_eq_some_iff.mp hmin
  obtain ⟨hmaxmem, hmaxle⟩ := List.max?_eq_some_iff.mp hmax
  obtain ⟨least, hleast, rfl⟩ := List.mem_map.mp hminmem
  obtain ⟨most, hmost, rfl⟩ := List.mem_map.mp hmaxmem
  refine ⟨least, hleast, most, hmost, fun b hb => ?_, ?_⟩
  · exact ⟨hminle _ (List.mem_map_of_mem hb), hmaxle _ (List.mem_map_of_mem hb)⟩
  · unfold blocktxnsNearly
    rw [hmin, hmax]
    show (addU64 least.txns margin >>= fun bound => pure (decide (most.txns ≤ bound))) = _
    cases addU64 least.txns margin <;> rfl

theorem le_of_blocktxnsNearly (h : blocktxnsNearly margin queue = .ok true) {a b : BlockView}
    (ha : a ∈ queue) (hb : b ∈ queue) : a.txns ≤ b.txns + margin := by
  obtain ⟨least, -, most, -, hbounds, htest⟩ :=
    blocktxnsNearly_cases margin (List.ne_nil_of_mem ha)
  rw [htest] at h
  unfold addU64 at h
  split at h
  · have hle : most.txns ≤ least.txns + margin := of_decide_eq_true (Except.ok.inj h)
    have := (hbounds a ha).2
    have := (hbounds b hb).1
    omega
  · cases h

end Test

/-! ## Numbered queues -/

section Numbered

variable {net : Net} {w : History T} {a : ℕ} {queue : List BlockView} {b next : BlockView}

/-- The blocks of the queue are numbered from `a` on, without gaps. -/
def NumberedFrom (a : ℕ) (queue : List BlockView) : Prop :=
  queue.map BlockView.number = List.range' a queue.length

theorem NumberedFrom.append (h : NumberedFrom a queue) (hnext : next.number = a + queue.length) :
    NumberedFrom a (queue ++ [next]) := by
  unfold NumberedFrom
  rw [List.map_append, h, List.length_append, List.length_singleton, List.range'_1_concat,
    List.map_singleton, hnext]

theorem NumberedFrom.tail (h : NumberedFrom a queue) : NumberedFrom (a + 1) queue.tail := by
  unfold NumberedFrom
  rw [List.map_tail, h, List.tail_range', List.length_tail]

theorem NumberedFrom.dropLast (h : NumberedFrom a queue) : NumberedFrom a queue.dropLast := by
  unfold NumberedFrom
  rw [List.map_dropLast, h, List.length_dropLast, List.dropLast_eq_take, List.length_range',
    List.take_range'_of_length_ge (Nat.sub_le _ _)]

theorem NumberedFrom.head? (h : NumberedFrom a queue) (hb : queue.head? = some b) :
    b.number = a := by
  have hhead : (queue.map BlockView.number).head? = some b.number := by
    rw [List.head?_map, hb, Option.map_some]
  rw [h, List.head?_range'] at hhead
  split at hhead
  · cases hhead
  · exact (Option.some.inj hhead).symm

theorem NumberedFrom.getLast? (h : NumberedFrom a queue) (hb : queue.getLast? = some b) :
    b.number + 1 = a + queue.length := by
  have hlast : (queue.map BlockView.number).getLast? = some b.number := by
    rw [List.getLast?_map, hb, Option.map_some]
  rw [h, List.getLast?_range'] at hlast
  split at hlast
  · cases hlast
  · have := Option.some.inj hlast
    omega

theorem Net.SettledAt.numberedFrom (h : net.SettledAt w a queue) : NumberedFrom a queue := by
  apply List.ext_getElem (by simp)
  intro n hn hn'
  rw [List.length_map] at hn
  rw [List.getElem_map, List.getElem_range', Nat.one_mul]
  exact h.number (List.getElem?_eq_getElem hn)

end Numbered

/-! ## One poll -/

/-- What is left of a window when both ends are popped. -/
def innerBlocks (l : List BlockView) : List BlockView := l.tail.dropLast

section Poll

variable {g : Global} {net : Net} {window margin : ℕ} {w : History T} {i j a s k : ℕ}
  {queue : List BlockView}

/-- What the rest of the outer loop's body can make of a queue. -/
inductive Evaluated (window margin : ℕ) (queue : List BlockView) : Nearly → Prop
  /-- The window is not full. -/
  | short (hnotfull : queue.length < window) : Evaluated window margin queue (.waiting queue)
  /-- It is full and passes the test. -/
  | pass {front back : BlockView} {metrics : Metrics} (hfull : window ≤ queue.length)
      (hfront : queue.head? = some front) (hback : queue.tail.getLast? = some back)
      (htest : blocktxnsNearly margin (innerBlocks queue) = .ok true)
      (hstart : metrics.startBlockNumber = front.number)
      (hend : metrics.endBlockNumber = back.number) :
      Evaluated window margin queue (.metrics metrics)
  /-- It is full and fails the test. -/
  | fail {front back : BlockView} (hfull : window ≤ queue.length)
      (hfront : queue.head? = some front) (hback : queue.tail.getLast? = some back)
      (htest : blocktxnsNearly margin (innerBlocks queue) = .ok false) :
      Evaluated window margin queue (.waiting (innerBlocks queue))

theorem evaluated_of_evaluateQueue {r : Nearly}
    (h : (evaluateQueue net window margin queue).Returns w i r j) :
    Evaluated window margin queue r := by
  unfold evaluateQueue at h
  split at h
  next hfull =>
    obtain ⟨front, k₁, hhead, h₁⟩ := Rpc.returns_bind.mp h
    obtain ⟨hfront, rfl⟩ := Rpc.returns_unwrapOr.mp hhead
    obtain ⟨back, k₂, hlast, h₂⟩ := Rpc.returns_bind.mp h₁
    obtain ⟨hback, rfl⟩ := Rpc.returns_unwrapOr.mp hlast
    obtain ⟨metrics, k₃, heval, h₃⟩ := Rpc.returns_bind.mp h₂
    obtain ⟨nearly, k₄, hlift, h₄⟩ := Rpc.returns_bind.mp h₃
    obtain ⟨htest, rfl⟩ := Rpc.returns_lift.mp hlift
    obtain ⟨-, -, hstart, hend, -⟩ := returns_evalBlocks heval
    cases nearly with
    | true =>
      obtain ⟨rfl, -⟩ := Rpc.returns_pure.mp h₄
      exact .pass hfull hfront hback htest hstart hend
    | false =>
      obtain ⟨rfl, -⟩ := Rpc.returns_pure.mp h₄
      exact .fail hfull hfront hback htest
  next hnotfull =>
    obtain ⟨rfl, -⟩ := Rpc.returns_pure.mp h
    exact .short (Nat.not_le.mp hnotfull)

/-- A poll sees a confirmed tip that is not past the queue, or it fetches the next block. -/
theorem nearlyPoll_cases {r : Nearly} (hshort : queue.length < window)
    (h : (nearlyPoll g net window margin queue).Returns w i r j) :
    ∃ tip t back, (net.getConfirmedTipNumber g).Returns w i tip t ∧
      queue.getLast? = some back ∧
      ((tip ≤ back.number ∧ r = .waiting queue ∧ j = t) ∨
      (back.number < tip ∧ ∃ next,
        (w t net.first).chain.blocks[back.number + 1]? = some next ∧
        (evaluateQueue net window margin (queue ++ [next])).Returns w (t + 1) r j)) := by
  obtain ⟨tip, t, htip, h₁⟩ := Rpc.returns_bind.mp h
  obtain ⟨back, t', hlast, h₂⟩ := Rpc.returns_bind.mp h₁
  obtain ⟨hback, rfl⟩ := Rpc.returns_unwrapOr.mp hlast
  refine ⟨tip, t', back, htip, hback, ?_⟩
  split at h₂
  next hpast =>
    obtain ⟨next, k, hblock, h₃⟩ := Rpc.returns_bind.mp h₂
    obtain ⟨hnext, rfl⟩ := returns_blockByNumber.mp hblock
    rw [popFull_short hshort] at h₃
    exact Or.inr ⟨hpast, next, hnext, h₃⟩
  next hpast =>
    obtain ⟨rfl, rfl⟩ := Rpc.returns_pure.mp h₂
    exact Or.inl ⟨Nat.not_lt.mp hpast, rfl, rfl⟩

/-- What one poll, from call `i` up to call `j`, of a queue of settled blocks from height `a` on
    can come to. -/
inductive NearlyStep (g : Global) (net : Net) (window margin : ℕ) (w : History T) (i j a : ℕ)
    (queue : List BlockView) : Nearly → Prop
  /-- The confirmed tip is not past the queue. -/
  | stay {tip : ℕ} (hcall : (net.getConfirmedTipNumber g).Returns w i tip j)
      (htip : tip < a + queue.length) :
      NearlyStep g net window margin w i j a queue (.waiting queue)
  /-- The next block is fetched, and the window is not full. -/
  | push {next : BlockView} (hset : net.SettledAt w a (queue ++ [next]))
      (hlen : queue.length + 1 < window) :
      NearlyStep g net window margin w i j a queue (.waiting (queue ++ [next]))
  /-- The window is full and passes the test. -/
  | pass {next : BlockView} {metrics : Metrics} (hset : net.SettledAt w a (queue ++ [next]))
      (hlen : queue.length + 1 = window) (hstart : metrics.startBlockNumber = a)
      (hend : metrics.endBlockNumber + 1 = a + window)
      (htest : blocktxnsNearly margin (innerBlocks (queue ++ [next])) = .ok true) :
      NearlyStep g net window margin w i j a queue (.metrics metrics)
  /-- The window is full and fails the test: both ends are gone. -/
  | fail {next : BlockView} (hset : net.SettledAt w a (queue ++ [next]))
      (hlen : queue.length + 1 = window)
      (htest : blocktxnsNearly margin (innerBlocks (queue ++ [next])) = .ok false) :
      NearlyStep g net window margin w i j a queue (.waiting (innerBlocks (queue ++ [next])))

theorem nearlyStep_of_evaluateQueue {next : BlockView} {r : Nearly}
    (hset : net.SettledAt w a (queue ++ [next])) (hshort : queue.length < window)
    {t t' : ℕ} (h : (evaluateQueue net window margin (queue ++ [next])).Returns w t r t') :
    NearlyStep g net window margin w i j a queue r := by
  have hlen : (queue ++ [next]).length = queue.length + 1 := List.length_append
  cases evaluated_of_evaluateQueue h with
  | short hnotfull => exact .push hset (by omega)
  | pass hfull hfront hback htest hstart hend =>
    refine .pass hset (by omega) ?_ ?_ htest
    · rw [hstart]
      exact hset.numberedFrom.head? hfront
    · -- the tail of the window ends where the window ends
      have hlast := hset.numberedFrom.tail.getLast? hback
      rw [List.length_tail] at hlast
      omega
  | fail hfull hfront hback htest => exact .fail hset (by omega) htest

theorem nearlyStep_of_nearlyPoll {r : Nearly} (hstay : net.ConfirmedStays g w)
    (hset : net.SettledAt w a queue) (hshort : queue.length < window)
    (h : (nearlyPoll g net window margin queue).Returns w i r j) :
    NearlyStep g net window margin w i j a queue r := by
  obtain ⟨tip, k, back, htip, hback, hcases⟩ := nearlyPoll_cases hshort h
  obtain ⟨header, hcall, rfl⟩ := getConfirmedTipNumber_iff.mp htip
  have hnumber := hset.numberedFrom.getLast? hback
  rcases hcases with ⟨hpast, rfl, rfl⟩ | ⟨hpast, next, hnext, heval⟩
  · exact .stay htip (by omega)
  · -- the block after the queue is up to the confirmed tip, so it is settled
    have hsettled : net.Settled w (a + queue.length) next :=
      hnumber ▸ settled_of_confirmed hstay hcall hpast (Nat.le_succ _) hnext
    exact nearlyStep_of_evaluateQueue (hset.append hsettled) hshort heval

/-! ## The loop -/

/-- The window of settled blocks from height `a` on fails the test. -/
def WindowFails (net : Net) (window margin : ℕ) (w : History T) (a : ℕ) : Prop :=
  ∃ l, l.length = window ∧ net.SettledAt w a l ∧
    blocktxnsNearly margin (innerBlocks l) = .ok false

/-- The state after `k` evaluations of a run that started at height `s`. -/
structure NearlyInv (net : Net) (window margin : ℕ) (w : History T) (s k : ℕ)
    (queue : List BlockView) : Prop where
  settled : net.SettledAt w (s + k) queue
  nonempty : queue ≠ []
  short : queue.length < window
  failed : ∀ k' < k, WindowFails net window margin w (s + k')

/-- The metrics are of the first window that passes the test. -/
def FirstPassed (net : Net) (window margin : ℕ) (w : History T) (s : ℕ) (metrics : Metrics) :
    Prop :=
  ∃ k l, l.length = window ∧ net.SettledAt w (s + k) l ∧
    blocktxnsNearly margin (innerBlocks l) = .ok true ∧
    (∀ k' < k, WindowFails net window margin w (s + k')) ∧
    metrics.startBlockNumber = s + k ∧ metrics.endBlockNumber + 1 = s + k + window

theorem length_innerBlocks (l : List BlockView) : (innerBlocks l).length = l.length - 2 := by
  simp only [innerBlocks, List.length_dropLast, List.length_tail]
  omega

theorem settledAt_innerBlocks {l : List BlockView} (h : net.SettledAt w a l) :
    net.SettledAt w (a + 1) (innerBlocks l) := h.tail.of_isPrefix (List.dropLast_prefix _)

theorem NearlyInv.push (h : NearlyInv net window margin w s k queue) {next : BlockView}
    (hset : net.SettledAt w (s + k) (queue ++ [next])) (hlen : queue.length + 1 < window) :
    NearlyInv net window margin w s k (queue ++ [next]) where
  settled := hset
  nonempty := by simp
  short := by simpa using hlen
  failed := h.failed

theorem NearlyInv.fail (h : NearlyInv net window margin w s k queue) {next : BlockView}
    (hset : net.SettledAt w (s + k) (queue ++ [next])) (hlen : queue.length + 1 = window)
    (htest : blocktxnsNearly margin (innerBlocks (queue ++ [next])) = .ok false) :
    NearlyInv net window margin w s (k + 1) (innerBlocks (queue ++ [next])) where
  settled := settledAt_innerBlocks hset
  nonempty := by
    intro hnil
    rw [hnil, blocktxnsNearly_nil] at htest
    cases htest
  short := by
    rw [length_innerBlocks, List.length_append, List.length_singleton]
    omega
  failed := by
    intro k' hk'
    rcases Nat.lt_succ_iff_lt_or_eq.mp hk' with hlt | rfl
    · exact h.failed k' hlt
    · exact ⟨_, by simpa using hlen, hset, htest⟩

theorem NearlyInv.waiting (h : NearlyInv net window margin w s k queue) {queue' : List BlockView}
    (hstep : NearlyStep g net window margin w i j (s + k) queue (.waiting queue')) :
    ∃ k', NearlyInv net window margin w s k' queue' := by
  cases hstep with
  | stay _ _ => exact ⟨k, h⟩
  | push hset hlen => exact ⟨k, h.push hset hlen⟩
  | fail hset hlen htest => exact ⟨k + 1, h.fail hset hlen htest⟩

theorem NearlyInv.metrics (h : NearlyInv net window margin w s k queue) {metrics : Metrics}
    (hstep : NearlyStep g net window margin w i j (s + k) queue (.metrics metrics)) :
    FirstPassed net window margin w s metrics := by
  cases hstep with
  | @pass next _ hset hlen hstart hend htest =>
    exact ⟨k, queue ++ [next], by simpa using hlen, hset, htest, h.failed, hstart, hend⟩

/-- What a run of the loop returns. -/
theorem NearlyInv.firstPassed (hstay : net.ConfirmedStays g w)
    (h : NearlyInv net window margin w s k queue) {fuel : ℕ} {metrics : Metrics}
    (hrun : (nearlyLoop g net window margin fuel queue).Returns w i (.metrics metrics) j) :
    FirstPassed net window margin w s metrics := by
  induction fuel generalizing k queue i with
  | zero => cases (Rpc.returns_pure.mp hrun).1
  | succ fuel ih =>
    obtain ⟨r, t, hpoll, hrest⟩ := Rpc.returns_bind.mp hrun
    have hstep := nearlyStep_of_nearlyPoll hstay h.settled h.short hpoll
    cases r with
    | metrics metrics' =>
      obtain ⟨hmetrics, -⟩ := Rpc.returns_pure.mp hrest
      obtain rfl := Nearly.metrics.inj hmetrics
      exact h.metrics hstep
    | waiting queue' =>
      obtain ⟨k', h'⟩ := h.waiting hstep
      exact ih h' hrest
    | popping => cases hstep

/-! ## Windows that are too small -/

/-- A window of less than three blocks leaves nothing to test. -/
theorem nearlyPoll_small (hwindow : window < 3) {b : BlockView} {r : Nearly}
    (h : (nearlyPoll g net window margin [b]).Returns w i r j) :
    (r = .waiting [b] ∧ ∃ tip, (net.getConfirmedTipNumber g).Returns w i tip j ∧
      tip ≤ b.number) ∨ r = .popping := by
  obtain ⟨tip, k, htip, h₁⟩ := Rpc.returns_bind.mp h
  obtain ⟨back, k', hlast, h₂⟩ := Rpc.returns_bind.mp h₁
  obtain ⟨hback, rfl⟩ := Rpc.returns_unwrapOr.mp hlast
  obtain rfl : b = back := Option.some.inj hback
  split at h₂
  next =>
    obtain ⟨next, t, hblock, h₃⟩ := Rpc.returns_bind.mp h₂
    obtain rfl | rfl | rfl : window = 0 ∨ window = 1 ∨ window = 2 := by omega
    · rw [popFull_zero] at h₃
      exact Or.inr (Rpc.returns_pure.mp h₃).1
    · -- the front pop takes the only block
      obtain ⟨front, t, hfront, h₄⟩ := Rpc.returns_bind.mp h₃
      obtain ⟨back, t, hback, -⟩ := Rpc.returns_bind.mp h₄
      cases (Rpc.returns_unwrapOr.mp hback).1
    · -- the two pops take both blocks
      obtain ⟨front, t, hfront, h₄⟩ := Rpc.returns_bind.mp h₃
      obtain ⟨back, t, hback, h₅⟩ := Rpc.returns_bind.mp h₄
      obtain ⟨metrics, t, hmetrics, h₆⟩ := Rpc.returns_bind.mp h₅
      obtain ⟨nearly, t, hnearly, -⟩ := Rpc.returns_bind.mp h₆
      cases (Rpc.returns_lift.mp hnearly).1
  next hpast =>
    obtain ⟨rfl, rfl⟩ := Rpc.returns_pure.mp h₂
    exact Or.inl ⟨rfl, tip, htip, Nat.not_lt.mp hpast⟩

theorem nearlyLoop_small (hwindow : window < 3) {b : BlockView} {fuel : ℕ} {metrics : Metrics} :
    ¬ (nearlyLoop g net window margin fuel [b]).Returns w i (.metrics metrics) j := by
  induction fuel generalizing i with
  | zero =>
    intro h
    cases (Rpc.returns_pure.mp h).1
  | succ fuel ih =>
    intro h
    obtain ⟨r, t, hpoll, hrest⟩ := Rpc.returns_bind.mp h
    rcases nearlyPoll_small hwindow hpoll with ⟨rfl, -⟩ | rfl
    · exact ih hrest
    · cases (Rpc.returns_pure.mp hrest).1

/-! ## The whole -/

variable {b : BlockView} {maxCapacity fuel : ℕ}

/-- The first block of the queue is the settled block at the confirmed tip. -/
theorem settled_of_getConfirmedTipBlock (hstay : net.ConfirmedStays g w)
    (h : (net.getConfirmedTipBlock g).Returns w i b j) : net.Settled w b.number b := by
  obtain ⟨t, hheader, -, hb⟩ := returns_getConfirmedTipBlock h
  exact settled_of_confirmed hstay hheader (Nat.le_refl _) (Nat.le_refl _) hb

theorem NearlyInv.start (hwindow : 2 ≤ window) (h : net.Settled w b.number b) :
    NearlyInv net window margin w b.number 0 [b] where
  settled := settledAt_singleton h
  nonempty := by simp
  short := by
    rw [List.length_singleton]
    omega
  failed k' hk' := absurd hk' (Nat.not_lt_zero k')

theorem returns_waitRecentBlocktxnsNearly {r : Nearly} :
    (waitRecentBlocktxnsNearly g net maxCapacity window margin fuel).Returns w i r j ↔
      window ≤ maxCapacity ∧ ∃ b t, (net.getConfirmedTipBlock g).Returns w i b t ∧
        (nearlyLoop g net window margin fuel [b]).Returns w t r j := by
  constructor
  · intro h
    obtain ⟨queue, t', hlift, h₁⟩ := Rpc.returns_bind.mp h
    obtain ⟨hqueue, rfl⟩ := Rpc.returns_lift.mp hlift
    obtain ⟨b, t, hb, h₂⟩ := Rpc.returns_bind.mp h₁
    unfold withCapacity at hqueue
    split at hqueue
    next hcap =>
      obtain rfl := Except.ok.inj hqueue
      exact ⟨hcap, b, t, hb, h₂⟩
    next => cases hqueue
  · rintro ⟨hcap, b, t, hb, h⟩
    refine Rpc.returns_bind.mpr ⟨[], i, Rpc.returns_lift.mpr ⟨if_pos hcap, rfl⟩, ?_⟩
    exact Rpc.returns_bind.mpr ⟨b, t, hb, h⟩

/-- A run that returns: the window is at least 3, and the metrics are of the first window from the
    confirmed tip at the start on that passes the test. -/
theorem waitRecentBlocktxnsNearly_cases (hstay : net.ConfirmedStays g w) {metrics : Metrics}
    (h : (waitRecentBlocktxnsNearly g net maxCapacity window margin fuel).Returns w i
      (.metrics metrics) j) :
    3 ≤ window ∧ ∃ b t, (net.getConfirmedTipBlock g).Returns w i b t ∧
      FirstPassed net window margin w b.number metrics := by
  obtain ⟨-, b, t, hblock, hloop⟩ := returns_waitRecentBlocktxnsNearly.mp h
  have hwindow : 3 ≤ window := by
    by_contra hsmall
    exact nearlyLoop_small (by omega) hloop
  have hsettled := settled_of_getConfirmedTipBlock hstay hblock
  exact ⟨hwindow, b, t, hblock, (NearlyInv.start (by omega) hsettled).firstPassed hstay hloop⟩

end Poll

end TpsBench
