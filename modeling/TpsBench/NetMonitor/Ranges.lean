/-
  The ranges that `wait_recent_blocktxns_nearly` evaluates, one after the other.

  `NearlyRun` follows a run poll by poll and keeps a log of the ranges that it has handed to
  `eval_blocks`. Nothing is assumed about the chains, so the tip may advance at any pace.

  An evaluation pops both ends of the queue, so the next poll fetches the newest block again. What
  the queue holds between two polls is shorter than the window, and numbered from the first block
  that the next range starts with (`Sliding`).

  * `nearlyPoll_eq_evaluateQueue`, `evaluateQueue_eq_evalBlocks`: the log is what the code does.
  * `Sliding.poll`: what one poll preserves.
  * `waitRecentBlocktxnsNearly_slides`: the ranges of a run.
-/
import TpsBench.NetMonitor.Arithmetic

namespace TpsBench

open Lib Net

variable {T : BlockTree} {g : Global} {net : Net} {window margin s i j t : ℕ} {w : History T}
  {queue queue' : List BlockView} {ranges : List (ℕ × ℕ)} {r : Nearly}

/-! ## One poll -/

/-- One iteration of the inner loop: the queue that it leaves the loop with, or none if it goes
    on. -/
def pollQueue (g : Global) (net : Net) (window : ℕ) (queue : List BlockView) :
    Rpc T (Option (List BlockView)) := do
  let tipNumber ← net.getConfirmedTipNumber g
  let back ← Rpc.unwrapOr .unwrapNone queue.getLast?
  if tipNumber > back.number then
    let nextBlock ← net.blockByNumber (back.number + 1)
    return (popFull window queue).map (· ++ [nextBlock])
  else return none

theorem pollQueue_cases {pushed : Option (List BlockView)} (hshort : queue.length < window)
    (h : (pollQueue g net window queue).Returns w i pushed t) :
    ∃ tip k back, (net.getConfirmedTipNumber g).Returns w i tip k ∧ queue.getLast? = some back ∧
      ((tip ≤ back.number ∧ pushed = none ∧ t = k) ∨
      (back.number < tip ∧ ∃ next, (w k net.first).chain.blocks[back.number + 1]? = some next ∧
        pushed = some (queue ++ [next]) ∧ t = k + 1)) := by
  obtain ⟨tip, k, htip, h₁⟩ := Rpc.returns_bind.mp h
  obtain ⟨back, k', hlast, h₂⟩ := Rpc.returns_bind.mp h₁
  obtain ⟨hback, rfl⟩ := Rpc.returns_unwrapOr.mp hlast
  refine ⟨tip, k', back, htip, hback, ?_⟩
  split at h₂
  next hpast =>
    obtain ⟨next, k, hblock, h₃⟩ := Rpc.returns_bind.mp h₂
    obtain ⟨hnext, rfl⟩ := returns_blockByNumber.mp hblock
    obtain ⟨rfl, rfl⟩ := Rpc.returns_pure.mp h₃
    exact Or.inr ⟨hpast, next, hnext, by rw [popFull_short hshort, Option.map_some], rfl⟩
  next hpast =>
    obtain ⟨rfl, rfl⟩ := Rpc.returns_pure.mp h₂
    exact Or.inl ⟨Nat.not_lt.mp hpast, rfl, rfl⟩

/-- A poll goes on with the rest of the outer loop's body, on the queue that the inner loop is left
    with. -/
theorem nearlyPoll_eq_evaluateQueue {pushed : Option (List BlockView)}
    (hshort : queue.length < window)
    (h : (pollQueue g net window queue).Returns w i pushed t) :
    nearlyPoll g net window margin queue w i =
      pushed.elim (pure (.waiting queue)) (evaluateQueue net window margin) w t := by
  obtain ⟨tip, k, back, htip, hback, hcases⟩ := pollQueue_cases hshort h
  unfold nearlyPoll
  rw [htip.bind_eq, (Rpc.returns_unwrapOr.mpr ⟨hback, rfl⟩).bind_eq]
  rcases hcases with ⟨hpast, rfl, rfl⟩ | ⟨hpast, next, hnext, rfl, rfl⟩
  · rw [if_neg (Nat.not_lt.mpr hpast)]
    rfl
  · rw [if_pos hpast, (returns_blockByNumber.mpr ⟨hnext, rfl⟩).bind_eq, popFull_short hshort]
    rfl

/-- A poll that returns has come through the inner loop. -/
theorem exists_pollQueue (hshort : queue.length < window)
    (h : (nearlyPoll g net window margin queue).Returns w i r j) :
    ∃ pushed t, (pollQueue g net window queue).Returns w i pushed t := by
  obtain ⟨tip, k, back, htip, hback, hcases⟩ := nearlyPoll_cases hshort h
  unfold pollQueue
  apply htip.exists_bind
  apply (Rpc.returns_unwrapOr.mpr ⟨hback, rfl⟩ : Rpc.Returns _ w k back k).exists_bind
  rcases hcases with ⟨hpast, -, -⟩ | ⟨hpast, next, hnext, -⟩
  · rw [if_neg (Nat.not_lt.mpr hpast)]
    exact ⟨none, k, Rpc.returns_pure.mpr ⟨rfl, rfl⟩⟩
  · rw [if_pos hpast]
    apply (returns_blockByNumber.mpr ⟨hnext, rfl⟩).exists_bind
    exact ⟨_, k + 1, Rpc.returns_pure.mpr ⟨rfl, rfl⟩⟩

theorem NumberedFrom.queueRange {a : ℕ} (h : NumberedFrom a queue) (htwo : 2 ≤ queue.length)
    (hlen : queue.length ≤ window) :
    queueRange window queue =
      if queue.length = window then some (a, a + window - 1) else none := by
  have hne : queue ≠ [] := List.ne_nil_of_length_pos (by omega)
  have htail : queue.tail ≠ [] := List.ne_nil_of_length_pos (by rw [List.length_tail]; omega)
  have hfront := List.head?_eq_some_head hne
  have hback := List.getLast?_eq_some_getLast htail
  have hfirst := h.head? hfront
  have hlast := h.tail.getLast? hback
  rw [List.length_tail] at hlast
  unfold TpsBench.queueRange
  rw [hfront, hback]
  show (if window ≤ queue.length then
    some ((queue.head hne).number, (queue.tail.getLast htail).number) else none) = _
  by_cases hfull : queue.length = window
  · rw [if_pos hfull, if_pos hfull.ge, hfirst]
    congr 2
    omega
  · rw [if_neg hfull, if_neg (by omega)]

/-! ## A run -/

/-- A run that polls with `queue` at call `i`. It has come to `r` before call `j`, and has handed
    `ranges` to `eval_blocks`, in this order. -/
inductive NearlyRun (g : Global) (net : Net) (window margin : ℕ) (w : History T) (i : ℕ)
    (queue : List BlockView) : Nearly → ℕ → List (ℕ × ℕ) → Prop
  | start : NearlyRun g net window margin w i queue (.waiting queue) i []
  | poll {queue' : List BlockView} {pushed : Option (List BlockView)} {r : Nearly} {j t k : ℕ}
      {ranges : List (ℕ × ℕ)}
      (h : NearlyRun g net window margin w i queue (.waiting queue') j ranges)
      (hpush : (pollQueue g net window queue').Returns w j pushed t)
      (hpoll : (nearlyPoll g net window margin queue').Returns w j r k) :
      NearlyRun g net window margin w i queue r k
        (ranges ++ (pushed.bind (queueRange window)).toList)

/-- The first `n` windows from block `s` on. -/
def windows (window s n : ℕ) : List (ℕ × ℕ) :=
  (List.range n).map fun k => (s + k, s + k + window - 1)

theorem windows_succ (window s n : ℕ) :
    windows window s (n + 1) = windows window s n ++ [(s + n, s + n + window - 1)] := by
  rw [windows, List.range_succ, List.map_append, List.map_singleton, ← windows]

/-- Between two polls: the ranges so far are the first windows, and the queue holds the blocks from
    the one on that the next window starts with. -/
structure Sliding (window s : ℕ) (ranges : List (ℕ × ℕ)) (queue : List BlockView) : Prop where
  evaluated : ranges = windows window s ranges.length
  numbered : NumberedFrom (s + ranges.length) queue
  nonempty : queue ≠ []
  short : queue.length < window

/-- How a run stands whose ranges so far are the first windows. -/
inductive Slid (window s : ℕ) (ranges : List (ℕ × ℕ)) : Nearly → Prop
  | waiting {queue : List BlockView} (h : Sliding window s ranges queue) :
      Slid window s ranges (.waiting queue)
  /-- The metrics are of the last range. -/
  | metrics {metrics : Metrics} (hevaluated : ranges = windows window s ranges.length)
      (hlast : ranges.getLast? = some (metrics.startBlockNumber, metrics.endBlockNumber)) :
      Slid window s ranges (.metrics metrics)

theorem Slid.evaluated (h : Slid window s ranges r) :
    ranges = windows window s ranges.length := by
  cases h with
  | waiting h => exact h.evaluated
  | metrics hevaluated _ => exact hevaluated

theorem sliding_singleton (hwindow : 2 ≤ window) (b : BlockView) :
    Sliding window b.number [] [b] where
  evaluated := rfl
  numbered := rfl
  nonempty := by simp
  short := hwindow

theorem evaluated_append (h : ranges = windows window s ranges.length) :
    ranges ++ [(s + ranges.length, s + ranges.length + window - 1)] =
      windows window s (ranges.length + 1) := by
  rw [windows_succ, ← h]

/-- A poll fetches the block after the queue, unless that is not confirmed yet. -/
theorem Sliding.pushed (h : Sliding window s ranges queue) {pushed : Option (List BlockView)}
    (hpush : (pollQueue g net window queue).Returns w i pushed t) :
    (pushed = none ∧ ∃ tip, (net.getConfirmedTipNumber g).Returns w i tip t ∧
      tip < s + ranges.length + queue.length) ∨
    ∃ next, pushed = some (queue ++ [next]) ∧ (queue ++ [next]).length ≤ window ∧
      NumberedFrom (s + ranges.length) (queue ++ [next]) := by
  obtain ⟨tip, k, back, htip, hback, hcases⟩ := pollQueue_cases h.short hpush
  have hnumber := h.numbered.getLast? hback
  rcases hcases with ⟨hpast, rfl, rfl⟩ | ⟨-, next, hnext, rfl, rfl⟩
  · exact Or.inl ⟨rfl, tip, htip, by omega⟩
  · refine Or.inr ⟨next, rfl, ?_, h.numbered.append ?_⟩
    · rw [List.length_append]
      exact h.short
    · rw [(w k net.first).chain.number_eq hnext]
      exact hnumber

/-- The range that is evaluated once the queue is full is the next window. -/
theorem Sliding.queueRange (h : Sliding window s ranges queue) {next : BlockView}
    (hlen : (queue ++ [next]).length ≤ window)
    (hnumbered : NumberedFrom (s + ranges.length) (queue ++ [next])) :
    queueRange window (queue ++ [next]) =
      if queue.length + 1 = window then
        some (s + ranges.length, s + ranges.length + window - 1)
      else none := by
  have hpos := List.length_pos_iff.mpr h.nonempty
  rw [hnumbered.queueRange (by rw [List.length_append, List.length_singleton]; omega) hlen,
    List.length_append, List.length_singleton]

/-- When both ends are popped, the queue starts with the next window. -/
theorem Sliding.pop (hwindow : 3 ≤ window) (hevaluated : ranges = windows window s ranges.length)
    (hlen : queue.length = window) (hnumbered : NumberedFrom (s + ranges.length) queue) :
    Sliding window s (ranges ++ [(s + ranges.length, s + ranges.length + window - 1)])
      (innerBlocks queue) where
  evaluated := by
    rw [List.length_append, List.length_singleton]
    exact evaluated_append hevaluated
  numbered := by
    rw [List.length_append, List.length_singleton, ← Nat.add_assoc]
    exact hnumbered.tail.dropLast
  nonempty := by
    apply List.ne_nil_of_length_pos
    rw [length_innerBlocks]
    omega
  short := by
    rw [length_innerBlocks]
    omega

/-- **Step.** A poll evaluates nothing or the next window. -/
theorem Sliding.poll (hwindow : 3 ≤ window) (h : Sliding window s ranges queue)
    {pushed : Option (List BlockView)}
    (hpush : (pollQueue g net window queue).Returns w i pushed t)
    (hpoll : (nearlyPoll g net window margin queue).Returns w i r j) :
    Slid window s (ranges ++ (pushed.bind (TpsBench.queueRange window)).toList) r := by
  unfold Rpc.Returns at hpoll
  rw [nearlyPoll_eq_evaluateQueue h.short hpush] at hpoll
  rcases h.pushed hpush with ⟨rfl, -⟩ | ⟨next, rfl, hlen, hnumbered⟩
  · obtain ⟨rfl, -⟩ := Rpc.returns_pure.mp hpoll
    rw [Option.bind_none, Option.toList_none, List.append_nil]
    exact .waiting h
  · rw [Option.bind_some, h.queueRange hlen hnumbered]
    have hlength : (queue ++ [next]).length = queue.length + 1 := List.length_append
    cases evaluated_of_evaluateQueue hpoll with
    | short hnotfull =>
      rw [if_neg (by omega), Option.toList_none, List.append_nil]
      exact .waiting ⟨h.evaluated, hnumbered, by simp, hnotfull⟩
    | pass hfull hfront hback htest hstart hend =>
      have hrange := queueRange_of_full hfull hfront hback
      rw [h.queueRange hlen hnumbered, ← hstart, ← hend] at hrange
      have hend' : queue.length + 1 = window := by omega
      rw [if_pos hend'] at hrange ⊢
      refine .metrics ?_ ?_
      · rw [Option.toList_some, List.length_append, List.length_singleton]
        exact evaluated_append h.evaluated
      · rw [Option.toList_some, List.getLast?_append, List.getLast?_singleton, ← hrange]
        rfl
    | fail hfull hfront hback htest =>
      rw [if_pos (by omega), Option.toList_some]
      exact .waiting (.pop hwindow h.evaluated (by omega) hnumbered)

/-- **Run.** -/
theorem NearlyRun.slid (hwindow : 3 ≤ window) (h : Sliding window s [] queue)
    (hrun : NearlyRun g net window margin w i queue r j ranges) : Slid window s ranges r := by
  induction hrun with
  | start => exact .waiting h
  | poll _ hpush hpoll ih =>
    cases ih with
    | waiting h' => exact h'.poll hwindow hpush hpoll

theorem NearlyRun.nearlyLoop (hwindow : 3 ≤ window) {i₀ : ℕ} {queue₀ : List BlockView}
    (hstart : Sliding window s [] queue₀) {fuel : ℕ}
    (hrun : NearlyRun g net window margin w i₀ queue₀ (.waiting queue) i ranges)
    (h : (nearlyLoop g net window margin fuel queue).Returns w i r j) :
    ∃ ranges', NearlyRun g net window margin w i₀ queue₀ r j ranges' := by
  induction fuel generalizing queue i ranges with
  | zero =>
    obtain ⟨rfl, rfl⟩ := Rpc.returns_pure.mp h
    exact ⟨ranges, hrun⟩
  | succ fuel ih =>
    obtain ⟨r', k, hpoll, hrest⟩ := Rpc.returns_bind.mp h
    cases hrun.slid hwindow hstart with
    | waiting hsliding =>
      obtain ⟨pushed, t, hpush⟩ := exists_pollQueue hsliding.short hpoll
      have hnext := hrun.poll hpush hpoll
      cases r' with
      | waiting queue' => exact ih hnext hrest
      | metrics metrics =>
        obtain ⟨rfl, rfl⟩ := Rpc.returns_pure.mp hrest
        exact ⟨_, hnext⟩
      | popping =>
        obtain ⟨rfl, rfl⟩ := Rpc.returns_pure.mp hrest
        exact ⟨_, hnext⟩

/-! ## The whole -/

variable {b : BlockView} {maxCapacity fuel : ℕ}

/-- Whatever `wait_recent_blocktxns_nearly` comes to is the end of a run from the block at the
    confirmed tip. -/
theorem exists_nearlyRun (hwindow : 3 ≤ window)
    (h : (waitRecentBlocktxnsNearly g net maxCapacity window margin fuel).Returns w i r j) :
    ∃ b t ranges, (net.getConfirmedTipBlock g).Returns w i b t ∧
      NearlyRun g net window margin w t [b] r j ranges := by
  obtain ⟨-, b, t, hblock, hloop⟩ := returns_waitRecentBlocktxnsNearly.mp h
  obtain ⟨ranges, hrun⟩ := NearlyRun.start.nearlyLoop hwindow
    (sliding_singleton (by omega) b) hloop
  exact ⟨b, t, ranges, hblock, hrun⟩

/-- **The window slides by one.** Let `s` be the number of the confirmed tip at the start. At any
    moment of any run the ranges handed over so far are `[s, s + w - 1]`, `[s + 1, s + w]` and so
    on. Between two polls the queue holds the blocks from the one on that the next range starts
    with. The next poll leaves it as it is only while the block after it is not confirmed, and
    otherwise fetches that block. Then the queue has at most `w` blocks, and once it has `w`, the
    poll calls `eval_blocks` on the next range. -/
theorem waitRecentBlocktxnsNearly_slides (g : Global) (net : Net) (window margin : ℕ)
    (w : History T) (hwindow : 3 ≤ window) (i : ℕ) (b : BlockView) (t : ℕ)
    (hstart : (net.getConfirmedTipBlock g).Returns w i b t) (r : Nearly) (j : ℕ)
    (ranges : List (ℕ × ℕ)) (hrun : NearlyRun g net window margin w t [b] r j ranges) :
    (∃ k, (net.getConfirmedTipNumber g).Returns w i b.number k) ∧
    ranges = windows window b.number ranges.length ∧
    ∀ queue, r = .waiting queue →
      NumberedFrom (b.number + ranges.length) queue ∧ queue ≠ [] ∧ queue.length < window ∧
      ∀ pushed k, (pollQueue g net window queue).Returns w j pushed k →
        (pushed = none ∧ ∃ tip, (net.getConfirmedTipNumber g).Returns w j tip k ∧
          tip < b.number + ranges.length + queue.length) ∨
        ∃ next, pushed = some (queue ++ [next]) ∧ (queue ++ [next]).length ≤ window ∧
          NumberedFrom (b.number + ranges.length) (queue ++ [next]) ∧
          queueRange window (queue ++ [next]) =
            (if queue.length + 1 = window then
              some (b.number + ranges.length, b.number + ranges.length + window - 1)
            else none) ∧
          ∀ range, queueRange window (queue ++ [next]) = some range →
            nearlyPoll g net window margin queue w j =
              evaluateRange net margin (queue ++ [next]) range w k := by
  have hslid := hrun.slid hwindow (sliding_singleton (by omega) b)
  obtain ⟨t', hheader, -⟩ := returns_getConfirmedTipBlock hstart
  refine ⟨⟨_, getConfirmedTipNumber_iff.mpr ⟨_, hheader, rfl⟩⟩, hslid.evaluated, ?_⟩
  rintro queue rfl
  cases hslid with
  | waiting h =>
    refine ⟨h.numbered, h.nonempty, h.short, fun pushed k hpush => ?_⟩
    rcases h.pushed hpush with hidle | ⟨next, hpushed, hlen, hnumbered⟩
    · exact Or.inl hidle
    · refine Or.inr ⟨next, hpushed, hlen, hnumbered, h.queueRange hlen hnumbered,
        fun range hrange => ?_⟩
      rw [nearlyPoll_eq_evaluateQueue h.short hpush, hpushed]
      exact evaluateQueue_eq_evalBlocks hrange

/-- The blocks have 2, 1, 3, 3 and 3 transactions. With a margin of 0 the first window of four fails
    the test, and the second passes it. -/
theorem waitRecentBlocktxnsNearly_slides_once :
    ∃ t metrics j ranges, (Sample.net.getConfirmedTipBlock nearlyGlobal).Returns
        (nearlyHistory 0) 0 (nearlyBlock 0 2) t ∧
      NearlyRun nearlyGlobal Sample.net 4 0 (nearlyHistory 0) t [nearlyBlock 0 2]
        (.metrics metrics) j ranges ∧
      metrics.startBlockNumber = 1 ∧ metrics.endBlockNumber = 4 ∧
      ranges = windows 4 0 ranges.length := by
  obtain ⟨ranges, hrun⟩ := NearlyRun.start.nearlyLoop (by decide)
    (sliding_singleton (by decide) (nearlyBlock 0 2))
    (rfl : (nearlyLoop nearlyGlobal Sample.net 4 0 5 [nearlyBlock 0 2]).Returns
      (nearlyHistory 0) 4 (.metrics _) _)
  exact ⟨_, _, _, ranges, rfl, hrun, rfl, rfl, (waitRecentBlocktxnsNearly_slides nearlyGlobal
    Sample.net 4 0 (nearlyHistory 0) (by decide) 0 (nearlyBlock 0 2) _ rfl _ _ ranges hrun).2.1⟩

end TpsBench
