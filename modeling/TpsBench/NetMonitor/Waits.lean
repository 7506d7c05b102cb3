/-
  `net_monitor.rs`: the ranges that `wait_custom_blocks_elapsed`, `wait_duration_time_elapsed` and
  `MetricMode` (`main.rs`) hand to `eval_blocks`.

  Sleeping makes no call. What happens meanwhile shows in the history only, where anything may
  change between two calls, so the duration that `wait_duration_time_elapsed` waits for is no
  argument here. A polling loop takes fuel, one unit a poll.

  `confirmedTips` is any number of successive calls of `get_confirmed_tip_number`.

  * `confirmedTips_nondecreasing_iff`: do the numbers never go back, and is the range of
    `wait_duration_time_elapsed` ordered? If what all endpoints have in common stays, yes. With
    reorganizations of at most `confirmationBlocks` blocks this holds of every run over one
    endpoint, and over more only if `confirmationBlocks` is 0.
-/
import TpsBench.Net.ConfirmedTip
import TpsBench.NetMonitor.Metrics

namespace TpsBench

open Lib Net

variable {T : BlockTree}

/-! ## The program -/

/-- `count` successive calls. -/
def confirmedTips (g : Global) (net : Net) : ℕ → Rpc T (List ℕ)
  | 0 => return []
  | count + 1 => do
    let number ← net.getConfirmedTipNumber g
    let rest ← confirmedTips g net count
    return number :: rest

/-- The range of `MetricMode`: every confirmed block but the genesis block. -/
def metricRange (g : Global) (net : Net) : Rpc T (ℕ × ℕ) := do
  return (1, ← net.getConfirmedTipNumber g)

def metricMode (g : Global) (net : Net) : Rpc T Metrics := do
  let range ← metricRange g net
  evalBlocks net range.1 range.2

/-- `while target > net.get_confirmed_tip_number() { .. }`: is the target reached within `fuel`
    polls? -/
def waitTip (g : Global) (net : Net) (target : ℕ) : ℕ → Rpc T Bool
  | 0 => return false
  | fuel + 1 => do
    if target > (← net.getConfirmedTipNumber g) then waitTip g net target fuel else return true

/-- The current confirmed tip and the number `blocks` above it, once the tip is there. -/
def waitBlocks (g : Global) (net : Net) (blocks fuel : ℕ) : Rpc T (Option (ℕ × ℕ)) := do
  let currentTipNumber ← net.getConfirmedTipNumber g
  let target ← Rpc.lift (addU64 currentTipNumber blocks)
  if ← waitTip g net target fuel then return some (currentTipNumber, target) else return none

/-- The range of `wait_custom_blocks_elapsed`. -/
def customRange (g : Global) (net : Net) (window warmup fuel : ℕ) : Rpc T (Option (ℕ × ℕ)) := do
  match ← waitBlocks g net warmup fuel with
  | some _ => waitBlocks g net window fuel
  | none => return none

def waitCustomBlocksElapsed (g : Global) (net : Net) (window warmup fuel : ℕ) :
    Rpc T (Option Metrics) := do
  match ← customRange g net window warmup fuel with
  | some range => return some (← evalBlocks net range.1 range.2)
  | none => return none

/-- The range of `wait_duration_time_elapsed`: the confirmed tip before and after the wait. -/
def durationRange (g : Global) (net : Net) : Rpc T (ℕ × ℕ) := do
  let firstTipNumber ← net.getConfirmedTipNumber g
  let lastTipNumber ← net.getConfirmedTipNumber g
  return (firstTipNumber, lastTipNumber)

def waitDurationTimeElapsed (g : Global) (net : Net) : Rpc T Metrics := do
  let range ← durationRange g net
  evalBlocks net range.1 range.2

/-! ## Successive calls -/

variable {g : Global} {net : Net} {w : History T} {i j k k' n n' : ℕ}

theorem mem_confirmedTips {count : ℕ} {numbers : List ℕ}
    (h : (confirmedTips g net count).Returns w i numbers j) (hn : n ∈ numbers) :
    ∃ k k', i ≤ k ∧ (net.getConfirmedTipNumber g).Returns w k n k' := by
  induction count generalizing i j numbers with
  | zero =>
    obtain ⟨rfl, -⟩ := Rpc.returns_pure.mp h
    simp at hn
  | succ count ih =>
    obtain ⟨number, k, hcall, h⟩ := Rpc.returns_bind.mp h
    obtain ⟨rest, k', hrest, h⟩ := Rpc.returns_bind.mp h
    obtain ⟨rfl, -⟩ := Rpc.returns_pure.mp h
    rcases List.mem_cons.mp hn with rfl | hn
    · exact ⟨i, k, Nat.le_refl i, hcall⟩
    · obtain ⟨t, t', ht, hcall'⟩ := ih hrest hn
      exact ⟨t, t', (getConfirmedTipNumber_lt hcall).le.trans ht, hcall'⟩

/-- Successive calls return numbers that never go back, and the range of
    `wait_duration_time_elapsed` is ordered. -/
def NonDecreasing (g : Global) (net : Net) (w : History T) : Prop :=
  (∀ count i numbers j, (confirmedTips g net count).Returns w i numbers j →
    numbers.Pairwise (· ≤ ·)) ∧
  ∀ i range j, (durationRange g net).Returns w i range j → range.1 ≤ range.2

theorem nonDecreasing_of_calls
    (hmono : ∀ i n j k n' k', (net.getConfirmedTipNumber g).Returns w i n j → j ≤ k →
      (net.getConfirmedTipNumber g).Returns w k n' k' → n ≤ n') : NonDecreasing g net w := by
  constructor
  · intro count
    induction count with
    | zero =>
      intro i numbers j h
      obtain ⟨rfl, -⟩ := Rpc.returns_pure.mp h
      exact .nil
    | succ count ih =>
      intro i numbers j h
      obtain ⟨number, k, hcall, h⟩ := Rpc.returns_bind.mp h
      obtain ⟨rest, k', hrest, h⟩ := Rpc.returns_bind.mp h
      obtain ⟨rfl, -⟩ := Rpc.returns_pure.mp h
      refine .cons (fun n hn => ?_) (ih k rest k' hrest)
      obtain ⟨t, t', ht, hcall'⟩ := mem_confirmedTips hrest hn
      exact hmono i number k t n t' hcall ht hcall'
  · intro i range j h
    obtain ⟨first, k, hfirst, h⟩ := Rpc.returns_bind.mp h
    obtain ⟨last, k', hlast, h⟩ := Rpc.returns_bind.mp h
    obtain ⟨rfl, -⟩ := Rpc.returns_pure.mp h
    exact hmono i first k k last k' hfirst (Nat.le_refl k) hlast

theorem nonDecreasing_of_unconfirmed
    (hmono : ∀ i h j k h' k', (net.getUnconfirmedFixedTipHeader).Returns w i h j → j ≤ k →
      (net.getUnconfirmedFixedTipHeader).Returns w k h' k' → h.number ≤ h'.number) :
    NonDecreasing g net w := by
  apply nonDecreasing_of_calls
  intro i n j k n' k' h hjk h'
  obtain ⟨u, t, hwalk, rfl, rfl, -⟩ := getConfirmedTipNumber_cases h
  obtain ⟨u', t', hwalk', rfl, rfl, -⟩ := getConfirmedTipNumber_cases h'
  exact Nat.sub_le_sub_right (hmono i u t k u' t' hwalk (by omega) hwalk') _

/-- What all endpoints have in common stays: the numbers do not go back. -/
theorem nonDecreasing_of_sharedStays (hstay : net.SharedStays w) : NonDecreasing g net w :=
  nonDecreasing_of_unconfirmed fun _ _ _ _ _ _ h hjk h' =>
    unconfirmed_le_of_sharedStays hstay h hjk h'

theorem nonDecreasing_of_one (hone : net.endpoints.length = 1) {d : ℕ}
    (hreorg : BoundedReorgs d net w) : NonDecreasing g net w := by
  have htip : ∀ t t', t ≤ t' →
      (w t net.first).chain.tipNumber ≤ (w t' net.first).chain.tipNumber := by
    intro t t' ht
    exact Nat.sub_le_sub_right (hreorg.evolves net.first_mem ht).length_le 1
  apply nonDecreasing_of_unconfirmed
  intro i u j k u' k' h hjk h'
  obtain ⟨hij, hu⟩ := unconfirmed_eq_tip hone (fun t => htip t (t + 1) (Nat.le_succ t)) h
  obtain ⟨-, hu'⟩ := unconfirmed_eq_tip hone (fun t => htip t (t + 1) (Nat.le_succ t)) h'
  rw [hu, hu']
  exact htip i k (by omega)

/-- **The confirmed tip can go back.** If every header that all endpoints have had at a height
    stays on all chains, then successive calls return numbers that never go back and
    `wait_duration_time_elapsed` evaluates an ordered range. Where chains may reorganize, by at
    most `confirmationBlocks` blocks, this holds of every run if and only if there is one endpoint
    or `confirmationBlocks` is 0. -/
theorem confirmedTips_nondecreasing_iff (g : Global) (net : Net) :
    (∀ (T : BlockTree) (w : History T), net.SharedStays w → NonDecreasing g net w) ∧
    ((∀ (T : BlockTree) (w : History T), BoundedReorgs g.confirmationBlocks net w →
        NonDecreasing g net w) ↔
      net.endpoints.length = 1 ∨ g.confirmationBlocks = 0) := by
  refine ⟨fun T w => nonDecreasing_of_sharedStays, ?_, ?_⟩
  · intro hall
    by_contra hmany
    push Not at hmany
    obtain ⟨start, j, hfirst, hlast⟩ := confirmed_goes_back g hmany.1
    obtain ⟨-, hrange⟩ := hall _ _ (boundedReorgs_switchHistory g.confirmationBlocks start net)
    have hgoes : g.confirmationBlocks ≤ 0 := hrange 0 (g.confirmationBlocks, 0) j
      (Rpc.returns_bind.mpr ⟨_, start, hfirst,
        Rpc.returns_bind.mpr ⟨_, j, hlast, Rpc.returns_pure.mpr ⟨rfl, rfl⟩⟩⟩)
    omega
  · intro hfew T w hreorg
    rcases hfew with hone | hzero
    · exact nonDecreasing_of_one hone hreorg
    · apply nonDecreasing_of_sharedStays
      apply sharedStays_of_grows
      intro e he t
      rw [hzero] at hreorg
      exact (hreorg t e he).prefix_of_zero

/-! ## A reorganization between two calls -/

/-- Endpoints `a` and `b`, and one block to confirm. -/
def pairNet : Net := .connectAll ["http://a", "http://b"] (by simp)

def pairGlobal : Global := { cellbaseMaturity := 0, confirmationBlocks := 1 }

/-- Both endpoints stand at blocks 10, 11, 12 until, before call 4, `b` replaces block 12 by blocks
    22 and 23. Endpoint `a` follows later. -/
def pairHistory : History forkTree :=
  .switch beforeFork afterFork fun rpc => if rpc.uri = "http://a" then 20 else 4

/-- Block 12 was the last common block, and then block 11 is. Waiting in between ends in a
    panic. -/
theorem confirmedTips_decrease :
    BoundedReorgs pairGlobal.confirmationBlocks pairNet pairHistory ∧
    (∀ t, ∀ e ∈ pairNet.endpoints,
      (pairHistory t e).chain.header? 0 = some (Sample.block 10 0 0 []).header) ∧
    (confirmedTips pairGlobal pairNet 2).Returns pairHistory 0 [1, 0] 10 ∧
    (durationRange pairGlobal pairNet).Returns pairHistory 0 (1, 0) 10 ∧
    waitDurationTimeElapsed pairGlobal pairNet pairHistory 0 = .error .subOverflow := by
  refine ⟨boundedReorgs_switch (by decide) _ _, fun t e _ => ?_, rfl, rfl, rfl⟩
  simp only [pairHistory, History.switch]
  split_ifs <;> rfl

/-- On a chain that only grows the numbers do not go back. -/
theorem confirmedTips_nondecreasing_iff_grows :
    NonDecreasing pairGlobal pairNet (.growing afterFork fun t => t / 5) := by
  apply (confirmedTips_nondecreasing_iff pairGlobal pairNet).1
  apply sharedStays_of_grows
  intro e _
  exact grows_growing afterFork (fun t => by omega) e

end TpsBench
