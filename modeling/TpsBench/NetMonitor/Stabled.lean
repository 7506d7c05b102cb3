/-
  `net_monitor.rs`: `wait_network_stabled` and the methods it chooses from.

  Two of them are set up with a window, a number of blocks. `wait_recent_blocktxns_nearly` evaluates
  the queue, which has `window` blocks. `wait_custom_blocks_elapsed` adds `window` to the number of
  a block, and `eval_blocks` takes both ends.

  A run of `Never` does not end. It is `none` here, as are runs that have not come to an end with
  the fuel they got.

  * `waitNetworkStabled_covers_iff`: when do the metrics cover the window?
-/
import TpsBench.NetMonitor.Ranges

namespace TpsBench

open Lib Net

variable {T : BlockTree}

/-! ## The program -/

inductive MethodToEvalNetStable where
  | recentBlocktxnsNearly (window margin : ℕ)
  | customBlocksElapsed (warmup window : ℕ)
  | never
  | timedTask (durationTime : ℕ)
  deriving DecidableEq, Repr

def waitNetworkStabled (g : Global) (net : Net) (maxCapacity fuel : ℕ) :
    MethodToEvalNetStable → Rpc T (Option Metrics)
  | .recentBlocktxnsNearly window margin => do
    match ← waitRecentBlocktxnsNearly g net maxCapacity window margin fuel with
    | .metrics metrics => return some metrics
    | .waiting _ => return none
    | .popping => return none
  | .customBlocksElapsed warmup window => waitCustomBlocksElapsed g net window warmup fuel
  | .never => return none
  | .timedTask _ => return some (← waitDurationTimeElapsed g net)

/-! ## The window -/

/-- The window that a method is set up with. -/
def MethodToEvalNetStable.window : MethodToEvalNetStable → Option ℕ
  | .recentBlocktxnsNearly window _ => some window
  | .customBlocksElapsed _ window => some window
  | .never => none
  | .timedTask _ => none

variable {g : Global} {net : Net} {w : History T} {i j fuel maxCapacity window warmup margin : ℕ}
  {method : MethodToEvalNetStable} {metrics : Metrics}

/-- The metrics are of `window` consecutive blocks. -/
def CoversWindow (window : ℕ) (metrics : Metrics) : Prop :=
  metrics.startBlockNumber ≤ metrics.endBlockNumber ∧
    metrics.endBlockNumber - metrics.startBlockNumber + 1 = window

/-- If a run from call `i` on warms up until call `k`, the metrics are of no block that is confirmed
    then. -/
def AfterWarmup (g : Global) (net : Net) (fuel : ℕ) (w : History T) (i : ℕ)
    (method : MethodToEvalNetStable) (metrics : Metrics) : Prop :=
  ∀ warmup window warmed k tip k', method = .customBlocksElapsed warmup window →
    (waitBlocks g net warmup fuel).Returns w i (some warmed) k →
    (net.getConfirmedTipNumber g).Returns w k tip k' →
    ∀ number, metrics.startBlockNumber ≤ number → number ≤ metrics.endBlockNumber → tip < number

theorem mem_windows {s n : ℕ} {range : ℕ × ℕ} (h : range ∈ windows window s n) :
    range.2 = range.1 + window - 1 := by
  obtain ⟨k, -, rfl⟩ := List.mem_map.mp h
  rfl

theorem window_of_waitRecentBlocktxnsNearly (hwindow : 3 ≤ window)
    (h : (waitRecentBlocktxnsNearly g net maxCapacity window margin fuel).Returns w i
      (.metrics metrics) j) :
    metrics.endBlockNumber = metrics.startBlockNumber + window - 1 := by
  obtain ⟨b, t, ranges, -, hrun⟩ := exists_nearlyRun hwindow h
  cases hrun.slid hwindow (sliding_singleton (by omega) b) with
  | metrics hevaluated hlast =>
    have hmem := List.mem_of_getLast? hlast
    rw [hevaluated] at hmem
    exact mem_windows hmem

/-- The first block that is evaluated is the confirmed tip when the warmup ends, and the last one is
    `window` blocks above it. -/
theorem returns_waitCustomBlocksElapsed
    (h : (waitCustomBlocksElapsed g net window warmup fuel).Returns w i (some metrics) j) :
    metrics.endBlockNumber = metrics.startBlockNumber + window ∧
      ∃ warmed k k', (waitBlocks g net warmup fuel).Returns w i (some warmed) k ∧
        (net.getConfirmedTipNumber g).Returns w k metrics.startBlockNumber k' := by
  obtain ⟨range, k, hrange, h₁⟩ := Rpc.returns_bind.mp h
  cases range with
  | none => cases (Rpc.returns_pure.mp h₁).1
  | some range =>
    obtain ⟨metrics', k', heval, h₂⟩ := Rpc.returns_bind.mp h₁
    obtain ⟨hmetrics, rfl⟩ := Rpc.returns_pure.mp h₂
    obtain rfl := Option.some.inj hmetrics
    obtain ⟨-, -, hstart, hend, -⟩ := returns_evalBlocks heval
    obtain ⟨warmed, k₁, hwarmup, hwait⟩ := returns_customRange hrange
    obtain ⟨hspan, ⟨k₂, htip⟩, -⟩ := returns_waitBlocks hwait
    rw [hstart, hend]
    exact ⟨hspan, warmed, k₁, k₂, hwarmup, htip⟩

/-- **One block more.** Metrics of a method with a window cover the window, and no block confirmed
    when the warmup ended, if and only if the method is `RecentBlocktxnsNearly`. Those of
    `CustomBlocksElapsed` do neither. -/
theorem waitNetworkStabled_covers_iff (g : Global) (net : Net) (maxCapacity fuel : ℕ)
    (w : History T) (i : ℕ) (method : MethodToEvalNetStable) (window : ℕ) (metrics : Metrics)
    (j : ℕ) (hwindow : 3 ≤ window) (hmethod : method.window = some window)
    (h : (waitNetworkStabled g net maxCapacity fuel method).Returns w i (some metrics) j) :
    (CoversWindow window metrics ∧ AfterWarmup g net fuel w i method metrics ↔
      ∃ margin, method = .recentBlocktxnsNearly window margin) ∧
    ((∃ warmup, method = .customBlocksElapsed warmup window) →
      ¬ CoversWindow window metrics ∧ ¬ AfterWarmup g net fuel w i method metrics) := by
  cases method with
  | recentBlocktxnsNearly window' margin =>
    obtain rfl : window' = window := Option.some.inj hmethod
    obtain ⟨r, k, hrun, h₁⟩ := Rpc.returns_bind.mp h
    cases r with
    | metrics metrics' =>
      obtain ⟨hmetrics, rfl⟩ := Rpc.returns_pure.mp h₁
      obtain rfl := Option.some.inj hmetrics
      have hspan := window_of_waitRecentBlocktxnsNearly hwindow hrun
      have hcovers : CoversWindow window' metrics := ⟨by omega, by omega⟩
      refine ⟨⟨fun _ => ⟨margin, rfl⟩, fun _ => ⟨hcovers, ?_⟩⟩, ?_⟩
      · intro warmup window warmed k tip k' hcustom
        cases hcustom
      · rintro ⟨warmup, hcustom⟩
        cases hcustom
    | waiting queue => cases (Rpc.returns_pure.mp h₁).1
    | popping => cases (Rpc.returns_pure.mp h₁).1
  | customBlocksElapsed warmup window' =>
    obtain rfl : window' = window := Option.some.inj hmethod
    obtain ⟨hspan, warmed, k, k', hwarmup, htip⟩ := returns_waitCustomBlocksElapsed h
    have hcount : ¬ CoversWindow window' metrics := by
      unfold CoversWindow
      omega
    have hfresh : ¬ AfterWarmup g net fuel w i (.customBlocksElapsed warmup window') metrics := by
      intro hafter
      exact absurd (hafter warmup window' warmed k _ k' rfl hwarmup htip _ (le_refl _) (by omega))
        (Nat.lt_irrefl _)
    refine ⟨⟨fun hcovers => absurd hcovers.1 hcount, ?_⟩, fun _ => ⟨hcount, hfresh⟩⟩
    rintro ⟨margin, hnearly⟩
    cases hnearly
  | never => cases hmethod
  | timedTask durationTime => cases hmethod

/-! ## A window of three -/

/-- The confirmed tip is block 1 when the warmup ends, and block 4 afterwards. -/
def warmedHistory : History (BlockTree.ofList timedBlocks) :=
  .growing timedChain fun t => if t < 3 then 0 else if t < 9 then 1 else 4

/-- After a warmup of one block, blocks 1 to 4 are evaluated for a window of three. -/
theorem waitCustomBlocksElapsed_covers_more :
    ∃ metrics j, (waitNetworkStabled nearlyGlobal Sample.net 100 3
        (.customBlocksElapsed 1 3)).Returns warmedHistory 0 (some metrics) j ∧
      metrics.startBlockNumber = 1 ∧ metrics.endBlockNumber = 4 ∧
      ¬ CoversWindow 3 metrics ∧
      ¬ AfterWarmup nearlyGlobal Sample.net 3 warmedHistory 0 (.customBlocksElapsed 1 3)
        metrics := by
  refine ⟨_, _, rfl, rfl, rfl, by unfold CoversWindow; decide, fun h => ?_⟩
  exact absurd (h 1 3 (0, 1) 6 1 9 rfl rfl rfl 1 (by decide) (by decide)) (Nat.lt_irrefl 1)

/-- Of three blocks, for the same window. -/
theorem waitNetworkStabled_covers_iff_nearly :
    ∃ metrics j, (waitNetworkStabled nearlyGlobal Sample.net 100 4
        (.recentBlocktxnsNearly 3 0)).Returns (nearlyHistory 0) 0 (some metrics) j ∧
      CoversWindow 3 metrics :=
  ⟨_, _, rfl, ((waitNetworkStabled_covers_iff nearlyGlobal Sample.net 100 4 (nearlyHistory 0) 0
    (.recentBlocktxnsNearly 3 0) 3 _ _ (by decide) rfl rfl).1.mpr ⟨0, rfl⟩).1⟩

end TpsBench
