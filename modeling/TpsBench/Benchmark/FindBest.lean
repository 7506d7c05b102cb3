/-
  `benchmark.rs`: `find_best_bench`.

  Model (read this before the theorems). `bench n d` is what the `n`-th call of `bench` returns for
  the send delay `d`: any number, as the network chooses it. The loop takes fuel, one unit an
  iteration. `Search` are its variables.

  The loop compares the TPS at the two ends of the bracket and moves one of them to the middle. It
  never compares the TPS at the middle.

  * `Search.step_spec`, `searchLoop_spec`: an iteration halves the bracket, so the loop ends.
  * `searchLoop_terminates`: the same for the loop entered with any bracket, and what each iteration
    does to it.
  * `findBestBench_defined_iff`: when does no division by zero and no underflow occur?
  * `findBestBench_keeps_iff`: when does the bracket keep the delay with the best TPS?
-/
import TpsBench.U64
import TpsBench.Lib.Bisect
import Mathlib.Order.CompletePartialOrder

namespace TpsBench

open Lib

/-! ## The program -/

/-- The variables of the loop. -/
structure Search where
  minSendDelay : ℕ
  minSendDelayTps : ℕ
  maxSendDelay : ℕ
  maxSendDelayTps : ℕ
  nearlySendDelayTps : List ℕ
  deriving DecidableEq, Repr

/-- The two calls of `bench` before the loop. -/
def startSearch (bench : ℕ → ℕ → ℕ) (sendDelay : ℕ) : Except Panic Search := do
  let minSendDelayTps := bench 0 sendDelay
  let maxSendDelay ← divU64 1000000 minSendDelayTps
  return {
    minSendDelay := sendDelay
    minSendDelayTps
    maxSendDelay
    maxSendDelayTps := bench 1 maxSendDelay
    nearlySendDelayTps := [] }

/-- `min_send_delay < max_send_delay - 1`. -/
def Search.continues (s : Search) : Except Panic Bool := do
  return decide (s.minSendDelay < (← subU64 s.maxSendDelay 1))

/-- The body of the loop. -/
def Search.step (bench : ℕ → ℕ) (s : Search) : Except Panic Search := do
  let midSendDelay := (← addU64 s.minSendDelay s.maxSendDelay) / 2
  let midSendDelayTps := bench midSendDelay
  let width ← subU64 s.maxSendDelay s.minSendDelay
  let nearlySendDelayTps :=
    if width < 200 then s.nearlySendDelayTps ++ [midSendDelayTps] else s.nearlySendDelayTps
  if s.minSendDelayTps < s.maxSendDelayTps then
    return { s with minSendDelay := midSendDelay, minSendDelayTps := midSendDelayTps,
                    nearlySendDelayTps }
  else
    return { s with maxSendDelay := midSendDelay, maxSendDelayTps := midSendDelayTps,
                    nearlySendDelayTps }

/-- The loop, from call `calls` of `bench` on. -/
def searchLoop (bench : ℕ → ℕ → ℕ) : ℕ → ℕ → Search → Except Panic (Option Search)
  | 0, _, _ => return none
  | fuel + 1, calls, s => do
    if ← s.continues then searchLoop bench fuel (calls + 1) (← s.step (bench calls))
    else return some s

/-- `find_best_bench` up to the end of the loop. -/
def search (bench : ℕ → ℕ → ℕ) (sendDelay fuel : ℕ) : Except Panic (Option Search) := do
  searchLoop bench fuel 2 (← startSearch bench sendDelay)

/-- The average over the samples. -/
def Search.average (s : Search) : Except Panic ℕ := do
  divU64 (← sumU64 s.nearlySendDelayTps) s.nearlySendDelayTps.length

def findBestBench (bench : ℕ → ℕ → ℕ) (sendDelay fuel : ℕ) : Except Panic (Option ℕ) := do
  match ← search bench sendDelay fuel with
  | some s => return some (← s.average)
  | none => return none

/-! ## One iteration -/

variable {bench : ℕ → ℕ → ℕ} {s s' : Search} {sendDelay fuel calls : ℕ}

/-- `[min_send_delay, max_send_delay]`. -/
def Search.bracket (s : Search) : ℕ × ℕ := (s.minSendDelay, s.maxSendDelay)

/-- Is the TPS better at the upper end? -/
def Search.choice (s : Search) : Bool := decide (s.minSendDelayTps < s.maxSendDelayTps)

theorem Search.continues_eq (h : 1 ≤ s.maxSendDelay) :
    s.continues = .ok (decide (s.minSendDelay + 1 < s.maxSendDelay)) := by
  unfold Search.continues
  rw [subU64_eq_ok.mpr ⟨h, rfl⟩]
  show Except.ok (decide (s.minSendDelay < s.maxSendDelay - 1)) = _
  congr 1
  apply decide_eq_decide.mpr
  omega

theorem Search.continues_iff :
    s.continues = .ok true ↔ s.minSendDelay + 1 < s.maxSendDelay := by
  rcases Nat.eq_zero_or_pos s.maxSendDelay with hzero | hpos
  · unfold Search.continues
    rw [subU64_eq_error (by omega), hzero]
    simp [bind, Except.bind]
  · rw [Search.continues_eq hpos]
    simp

/-- What an iteration does: it halves the bracket, knows the TPS at the new end, and takes a sample
    if the bracket was narrow. -/
theorem Search.step_spec (tps : ℕ → ℕ) (hwide : s.minSendDelay + 1 < s.maxSendDelay)
    (hfits : 2 * s.maxSendDelay < u64Size) :
    ∃ s', s.step tps = .ok s' ∧ s'.bracket = half s.choice s.bracket ∧
      s'.minSendDelayTps = (if s.choice then tps s'.minSendDelay else s.minSendDelayTps) ∧
      s'.maxSendDelayTps = (if s.choice then s.maxSendDelayTps else tps s'.maxSendDelay) ∧
      s'.nearlySendDelayTps =
        s.nearlySendDelayTps ++
          (if s.maxSendDelay - s.minSendDelay < 200 then [tps (middle s.bracket)] else []) := by
  have hsum : addU64 s.minSendDelay s.maxSendDelay = .ok (s.minSendDelay + s.maxSendDelay) :=
    addU64_eq_ok.mpr ⟨by omega, rfl⟩
  have hwidth : subU64 s.maxSendDelay s.minSendDelay = .ok (s.maxSendDelay - s.minSendDelay) :=
    subU64_eq_ok.mpr ⟨by omega, rfl⟩
  unfold Search.step Search.choice
  rw [hsum, hwidth]
  simp only [bind, Except.bind, pure, Except.pure]
  by_cases hless : s.minSendDelayTps < s.maxSendDelayTps
  · rw [if_pos hless]
    refine ⟨_, rfl, ?_, ?_, ?_, ?_⟩
    · simp [Search.bracket, half, middle, hless]
    · simp [hless]
    · simp [hless]
    · split <;> simp [Search.bracket, middle]
  · rw [if_neg hless]
    refine ⟨_, rfl, ?_, ?_, ?_, ?_⟩
    · simp [Search.bracket, half, middle, hless]
    · simp [hless]
    · simp [hless]
    · split <;> simp [Search.bracket, middle]

/-! ## The loop -/

/-- The samples are not empty when the loop ends. -/
def Search.Sampled (s : Search) : Prop :=
  s.maxSendDelay ≤ s.minSendDelay + 1 → s.nearlySendDelayTps ≠ []

/-- The last bracket that is halved is narrow, so it is sampled. -/
theorem Search.step_sampled {tps : ℕ → ℕ} (hwide : s.minSendDelay + 1 < s.maxSendDelay)
    (hfits : 2 * s.maxSendDelay < u64Size) (h : s.step tps = .ok s') : s'.Sampled := by
  obtain ⟨s₁, hstep, hbracket, -, -, hnearly⟩ := step_spec tps hwide hfits
  obtain rfl := Except.ok.inj (h.symm.trans hstep)
  intro hnarrow
  have hnested := half_nested s.choice (b := s.bracket) hwide
  rw [← hbracket] at hnested
  simp only [Search.bracket] at hnested
  rw [hnearly, if_pos (by omega)]
  simp

/-- With an upper end of at least 1 the loop neither panics nor goes on forever: it ends with a
    bracket of at most two delays. -/
theorem searchLoop_spec (bench : ℕ → ℕ → ℕ) (fuel calls : ℕ) (hpos : 1 ≤ s.maxSendDelay)
    (hfits : 2 * s.maxSendDelay < u64Size) :
    (∃ s', searchLoop bench fuel calls s = .ok (some s') ∧
      s'.maxSendDelay ≤ s'.minSendDelay + 1 ∧ (s.Sampled → s'.nearlySendDelayTps ≠ [])) ∨
    (searchLoop bench fuel calls s = .ok none ∧ fuel ≤ s.maxSendDelay - s.minSendDelay) := by
  induction fuel generalizing s calls with
  | zero => exact Or.inr ⟨rfl, Nat.zero_le _⟩
  | succ fuel ih =>
    unfold searchLoop
    rw [Search.continues_eq hpos]
    by_cases hwide : s.minSendDelay + 1 < s.maxSendDelay
    · obtain ⟨s₁, hstep, hbracket, -⟩ := Search.step_spec (bench calls) hwide hfits
      have hnested := half_nested s.choice (b := s.bracket) hwide
      rw [← hbracket] at hnested
      simp only [Search.bracket] at hnested
      rw [decide_eq_true hwide, hstep]
      show (∃ s', searchLoop bench fuel (calls + 1) s₁ = .ok (some s') ∧ _) ∨
        (searchLoop bench fuel (calls + 1) s₁ = .ok none ∧ _)
      rcases ih (calls + 1) (s := s₁) (by omega) (by omega) with
        ⟨s', hloop, hnarrow, hsampled⟩ | ⟨hloop, hfuel⟩
      · exact Or.inl ⟨s', hloop, hnarrow, fun _ =>
          hsampled (Search.step_sampled hwide hfits hstep)⟩
      · exact Or.inr ⟨hloop, by omega⟩
    · rw [decide_eq_false hwide]
      exact Or.inl ⟨s, rfl, by omega, fun hsampled => hsampled (by omega)⟩

theorem startSearch_eq (bench : ℕ → ℕ → ℕ) (sendDelay : ℕ) (h : bench 0 sendDelay ≠ 0) :
    startSearch bench sendDelay = .ok {
      minSendDelay := sendDelay
      minSendDelayTps := bench 0 sendDelay
      maxSendDelay := 1000000 / bench 0 sendDelay
      maxSendDelayTps := bench 1 (1000000 / bench 0 sendDelay)
      nearlySendDelayTps := [] } := by
  simp only [startSearch, divU64_eq_ok.mpr ⟨h, rfl⟩]
  rfl

theorem startSearch_maxSendDelay (h : startSearch bench sendDelay = .ok s) :
    s.maxSendDelay ≤ 1000000 := by
  obtain ⟨q, hq, h⟩ := bind_eq_ok.mp h
  obtain ⟨-, rfl⟩ := divU64_eq_ok.mp hq
  obtain rfl := Except.ok.inj h
  exact Nat.div_le_self _ _

/-- The search ends if the first upper end is at least 1, with samples if the loop ran. -/
theorem search_spec (fuel : ℕ) (hpos : 1 ≤ bench 0 sendDelay)
    (hmax : 1 ≤ 1000000 / bench 0 sendDelay) :
    (∃ s, search bench sendDelay fuel = .ok (some s) ∧ s.maxSendDelay ≤ s.minSendDelay + 1 ∧
      (sendDelay + 1 < 1000000 / bench 0 sendDelay → s.nearlySendDelayTps ≠ [])) ∨
    (search bench sendDelay fuel = .ok none ∧
      fuel ≤ 1000000 / bench 0 sendDelay - sendDelay) := by
  have hstart := startSearch_eq bench sendDelay (Nat.one_le_iff_ne_zero.mp hpos)
  have hbound : 1000000 / bench 0 sendDelay ≤ 1000000 := startSearch_maxSendDelay hstart
  unfold search
  rw [hstart]
  generalize hq : 1000000 / bench 0 sendDelay = q at hmax hbound
  rcases searchLoop_spec bench fuel 2 (s := ⟨sendDelay, bench 0 sendDelay, q, bench 1 q, []⟩) hmax
    (show 2 * q < u64Size by simp only [u64Size]; omega) with
    ⟨s, hloop, hnarrow, hsampled⟩ | hwaits
  · refine Or.inl ⟨s, hloop, hnarrow, fun hwide => hsampled fun hnarrow' => ?_⟩
    exact absurd hwide (Nat.not_lt.mpr hnarrow')
  · exact Or.inr hwaits

/-! ## Any bracket -/

/-- The loop, entered with the variables `s` before call `calls` of `bench`, comes to others before
    a later call. -/
inductive LoopVisits (bench : ℕ → ℕ → ℕ) (calls : ℕ) (s : Search) : ℕ → Search → Prop
  | start : LoopVisits bench calls s calls s
  | step {calls' : ℕ} {s₁ s₂ : Search} (h : LoopVisits bench calls s calls' s₁)
      (hcont : s₁.continues = .ok true) (hstep : s₁.step (bench calls') = .ok s₂) :
      LoopVisits bench calls s (calls' + 1) s₂

/-- The body of the loop returns. It measures the TPS with the delay `mid`, which is strictly inside
    the bracket, and makes it an end of the next bracket, which is strictly contained in this
    one. -/
structure Search.Shrinks (s : Search) (tps : ℕ → ℕ) (mid : ℕ) (s' : Search) : Prop where
  step : s.step tps = .ok s'
  inside : s.minSendDelay < mid ∧ mid < s.maxSendDelay
  moved : (s'.bracket = (mid, s.maxSendDelay) ∧ s'.minSendDelayTps = tps mid) ∨
    (s'.bracket = (s.minSendDelay, mid) ∧ s'.maxSendDelayTps = tps mid)
  contained : Set.Icc s'.minSendDelay s'.maxSendDelay ⊂ Set.Icc s.minSendDelay s.maxSendDelay

theorem Search.shrinks (tps : ℕ → ℕ) (hwide : s.minSendDelay + 1 < s.maxSendDelay)
    (hfits : 2 * s.maxSendDelay < u64Size) : ∃ mid s', s.Shrinks tps mid s' := by
  obtain ⟨s', hstep, hbracket, hmin, hmax, -⟩ := Search.step_spec tps hwide hfits
  have hmid := middle_mem (b := s.bracket) hwide
  have hnested := half_nested s.choice (b := s.bracket) hwide
  rw [← hbracket] at hnested
  obtain ⟨hlower, hupper, hle, hwidth, -⟩ := hnested
  refine ⟨middle s.bracket, s', hstep, hmid, ?_, ?_⟩
  · cases hchoice : s.choice with
    | true =>
      have hmoved : s'.bracket = (middle s.bracket, s.maxSendDelay) := by
        rw [hbracket, half, if_pos hchoice]
        rfl
      rw [if_pos hchoice] at hmin
      exact Or.inl ⟨hmoved, hmin.trans (congrArg (fun b => tps b.1) hmoved)⟩
    | false =>
      have hmoved : s'.bracket = (s.minSendDelay, middle s.bracket) := by
        rw [hbracket, half, if_neg (by simp [hchoice])]
        rfl
      rw [if_neg (by simp [hchoice])] at hmax
      exact Or.inr ⟨hmoved, hmax.trans (congrArg (fun b => tps b.2) hmoved)⟩
  · refine (Set.ssubset_iff_subset_ne).mpr ⟨Set.Icc_subset_Icc hlower hupper, fun hsame => ?_⟩
    have hends := (Set.Icc_eq_Icc_iff hle.le).mp hsame
    simp only [Search.bracket] at hwidth hends
    omega

theorem LoopVisits.searchLoop {calls₀ : ℕ} {s₀ : Search}
    (hvisits : LoopVisits bench calls₀ s₀ calls s)
    (h : searchLoop bench fuel calls s = .ok (some s')) :
    s'.continues = .ok false ∧ ∃ calls', LoopVisits bench calls₀ s₀ calls' s' := by
  induction fuel generalizing s calls with
  | zero => cases h
  | succ fuel ih =>
    unfold TpsBench.searchLoop at h
    cases hcont : s.continues with
    | error e =>
      rw [hcont] at h
      cases h
    | ok continues =>
      rw [hcont] at h
      cases continues with
      | false =>
        obtain rfl : s = s' := Option.some.inj (Except.ok.inj h)
        exact ⟨hcont, calls, hvisits⟩
      | true =>
        cases hstep : s.step (bench calls) with
        | error e =>
          simp only [bind, Except.bind, hstep] at h
          cases h
        | ok s₁ =>
          simp only [bind, Except.bind, hstep] at h
          exact ih (hvisits.step hcont hstep) h

theorem LoopVisits.maxSendDelay (hpos : 1 ≤ s.maxSendDelay) (hfits : 2 * s.maxSendDelay < u64Size)
    {calls' : ℕ} {t : Search} (h : LoopVisits bench calls s calls' t) :
    1 ≤ t.maxSendDelay ∧ 2 * t.maxSendDelay < u64Size := by
  induction h with
  | start => exact ⟨hpos, hfits⟩
  | @step calls' s₁ s₂ h hcont hstep ih =>
    have hwide := Search.continues_iff.mp hcont
    obtain ⟨s', hstep', hbracket, -⟩ := Search.step_spec (bench calls') hwide ih.2
    obtain rfl := Except.ok.inj (hstep.symm.trans hstep')
    have hnested := half_nested s₁.choice (b := s₁.bracket) hwide
    rw [← hbracket] at hnested
    simp only [Search.bracket] at hnested
    omega

/-- **The loop ends.** Enter it with any lower end and an upper end of at least 1, and let the calls
    of `bench` return any TPS. Then neither its test nor its body panics, each iteration shrinks the
    bracket, and it ends with variables that these iterations come to, with a sample if the body
    ran. The sum of the ends is a u64 as `find_best_bench` starts with at most 1000000
    (`startSearch_maxSendDelay`). -/
theorem searchLoop_terminates (bench : ℕ → ℕ → ℕ) (calls : ℕ) (s : Search)
    (hpos : 1 ≤ s.maxSendDelay) (hfits : 2 * s.maxSendDelay < u64Size) :
    (∀ fuel, s.maxSendDelay - s.minSendDelay < fuel →
      ∃ s' calls', searchLoop bench fuel calls s = .ok (some s') ∧
        LoopVisits bench calls s calls' s' ∧ s'.continues = .ok false ∧
        (s.continues = .ok true → s'.nearlySendDelayTps ≠ [])) ∧
    ∀ calls' t, LoopVisits bench calls s calls' t →
      t.continues = .ok false ∨
      (t.continues = .ok true ∧ ∃ mid t', t.Shrinks (bench calls') mid t') := by
  constructor
  · intro fuel hfuel
    rcases searchLoop_spec bench fuel calls hpos hfits with
      ⟨s', hloop, -, hsampled⟩ | ⟨-, hwaits⟩
    · obtain ⟨hdone, calls', hvisits⟩ := LoopVisits.start.searchLoop hloop
      exact ⟨s', calls', hloop, hvisits, hdone, fun hcont => hsampled fun hnarrow' =>
        absurd (Search.continues_iff.mp hcont) (Nat.not_lt.mpr hnarrow')⟩
    · exact absurd hfuel (Nat.not_lt.mpr hwaits)
  · intro calls' t hvisits
    obtain ⟨htpos, htfits⟩ := hvisits.maxSendDelay hpos hfits
    rw [Search.continues_eq htpos]
    by_cases hwide : t.minSendDelay + 1 < t.maxSendDelay
    · rw [decide_eq_true hwide]
      exact Or.inr ⟨rfl, Search.shrinks _ hwide htfits⟩
    · rw [decide_eq_false hwide]
      exact Or.inl rfl

/-- The first brackets of 0 and 2000 microseconds. -/
theorem searchLoop_terminates_sample :
    (∀ fuel, 2000 - 0 < fuel →
      ∃ s' calls', searchLoop (fun _ d => 500 + d) fuel 2 ⟨0, 500, 2000, 900, []⟩ =
          .ok (some s') ∧
        LoopVisits (fun _ d => 500 + d) 2 ⟨0, 500, 2000, 900, []⟩ calls' s' ∧
        s'.continues = .ok false ∧
        (Search.continues ⟨0, 500, 2000, 900, []⟩ = .ok true → s'.nearlySendDelayTps ≠ [])) ∧
    ∀ calls' t, LoopVisits (fun _ d => 500 + d) 2 ⟨0, 500, 2000, 900, []⟩ calls' t →
      t.continues = .ok false ∨
      (t.continues = .ok true ∧ ∃ mid t', t.Shrinks (fun d => 500 + d) mid t') :=
  searchLoop_terminates (fun _ d => 500 + d) 2 ⟨0, 500, 2000, 900, []⟩ (by decide) (by decide)

/-! ## The partial operations -/

/-- No division by zero and no underflow, however many iterations are made. -/
def DefinedSearch (bench : ℕ → ℕ → ℕ) (sendDelay : ℕ) : Prop :=
  ∀ fuel, findBestBench bench sendDelay fuel ≠ .error .divideByZero ∧
    findBestBench bench sendDelay fuel ≠ .error .subOverflow

theorem Search.average_cases (h : s.nearlySendDelayTps ≠ []) :
    (∃ tps, s.average = .ok tps) ∨ s.average = .error .addOverflow := by
  unfold Search.average
  cases hsum : sumU64 s.nearlySendDelayTps with
  | ok total =>
    have hlen : s.nearlySendDelayTps.length ≠ 0 := (List.length_pos_iff.mpr h).ne'
    exact Or.inl ⟨_, divU64_eq_ok.mpr ⟨hlen, rfl⟩⟩
  | error e =>
    obtain rfl := sumU64_error hsum
    exact Or.inr rfl

/-- **The first measurement decides.** Started with the send delay 0, whatever TPS the calls of
    `bench` return, no division by zero and no underflow occurs if and only if the first TPS is at
    least 1 and at most 500000. -/
theorem findBestBench_defined_iff (bench : ℕ → ℕ → ℕ) :
    DefinedSearch bench 0 ↔ 1 ≤ bench 0 0 ∧ bench 0 0 ≤ 500000 := by
  constructor
  · intro h
    obtain ⟨hdiv, hsub⟩ := h 1
    have hpos : bench 0 0 ≠ 0 := by
      intro hzero
      apply hdiv
      unfold findBestBench search startSearch
      rw [hzero]
      rfl
    refine ⟨Nat.one_le_iff_ne_zero.mpr hpos, ?_⟩
    by_contra hlarge
    have hmax : 1000000 / bench 0 0 = 0 ∨ 1000000 / bench 0 0 = 1 := by
      have hlt : 1000000 / bench 0 0 < 2 := (Nat.div_lt_iff_lt_mul (by omega)).mpr (by omega)
      generalize 1000000 / bench 0 0 = q at hlt ⊢
      omega
    rcases hmax with hmax | hmax
    · -- the upper end is 0: the test of the loop underflows
      apply hsub
      unfold findBestBench search
      rw [startSearch_eq bench 0 hpos, hmax]
      rfl
    · -- the upper end is 1: the loop does not run, and there is no sample
      apply hdiv
      unfold findBestBench search
      rw [startSearch_eq bench 0 hpos, hmax]
      rfl
  · intro ⟨hpos, hle⟩ fuel
    have hmax : 2 ≤ 1000000 / bench 0 0 := (Nat.le_div_iff_mul_le hpos).mpr (by omega)
    rcases search_spec fuel hpos (Nat.le_of_succ_le hmax) with
      ⟨s, hsearch, -, hsampled⟩ | ⟨hsearch, -⟩
    · unfold findBestBench
      rw [hsearch]
      rcases s.average_cases (hsampled hmax) with ⟨tps, haverage⟩ | haverage
      · simp [bind, Except.bind, haverage, pure, Except.pure]
      · simp [bind, Except.bind, haverage]
    · unfold findBestBench
      rw [hsearch]
      simp [bind, Except.bind, pure, Except.pure]

/-- A first call that returns 0, one that is fast, and one that is faster. -/
theorem findBestBench_undefined :
    findBestBench (fun _ _ => 0) 0 1 = .error .divideByZero ∧
    findBestBench (fun _ _ => 600000) 0 1 = .error .divideByZero ∧
    findBestBench (fun _ _ => 1000001) 0 1 = .error .subOverflow := ⟨rfl, rfl, rfl⟩

/-! ## The delay with the best TPS -/

section Keeps

variable {f : ℕ → ℕ} {p : ℕ} {b : ℕ × ℕ}

/-- The loop comes to the variables `s` before an iteration, with `calls` calls of `bench` made. -/
inductive SearchVisits (bench : ℕ → ℕ → ℕ) (sendDelay : ℕ) : ℕ → Search → Prop
  | start {s : Search} (h : startSearch bench sendDelay = .ok s) :
      SearchVisits bench sendDelay 2 s
  | step {calls : ℕ} {s s' : Search} (h : SearchVisits bench sendDelay calls s)
      (hcont : s.continues = .ok true) (hstep : s.step (bench calls) = .ok s') :
      SearchVisits bench sendDelay (calls + 1) s'

theorem LoopVisits.searchVisits (hstart : startSearch bench sendDelay = .ok s)
    (h : LoopVisits bench 2 s calls s') : SearchVisits bench sendDelay calls s' := by
  induction h with
  | start => exact .start hstart
  | step h hcont hstep ih => exact ih.step hcont hstep

/-- The variables that the search ends with are among them. -/
theorem searchVisits_of_search (h : search bench sendDelay fuel = .ok (some s)) :
    ∃ calls, SearchVisits bench sendDelay calls s := by
  obtain ⟨s₀, hstart, hloop⟩ := bind_eq_ok.mp h
  obtain ⟨-, calls, hvisits⟩ := LoopVisits.start.searchLoop hloop
  exact ⟨calls, hvisits.searchVisits hstart⟩

/-- If every call with the delay `d` returns `f d`, then every bracket has a delay at which `f` is
    the largest over the first bracket, and the loop ends with a bracket of at most two delays. -/
structure FindsBest (f : ℕ → ℕ) (sendDelay : ℕ) : Prop where
  keeps : ∀ calls s, SearchVisits (fun _ => f) sendDelay calls s →
    ∃ d ∈ Set.Icc sendDelay (1000000 / f sendDelay), s.minSendDelay ≤ d ∧ d ≤ s.maxSendDelay ∧
      IsMaxOn f (Set.Icc sendDelay (1000000 / f sendDelay)) d
  ends : ∃ fuel s, search (fun _ => f) sendDelay fuel = .ok (some s) ∧
    s.maxSendDelay ≤ s.minSendDelay + 1

/-- The half that the code takes. -/
def better (f : ℕ → ℕ) (b : ℕ × ℕ) : Bool := decide (f b.1 < f b.2)

/-- The loop knows the TPS at the ends of its bracket, and visits the brackets of a bisection. -/
theorem SearchVisits.visits (hpos : f sendDelay ≠ 0)
    (h : SearchVisits (fun _ => f) sendDelay calls s) :
    Visits (better f) (sendDelay, 1000000 / f sendDelay) s.bracket ∧
      s.minSendDelayTps = f s.minSendDelay ∧ s.maxSendDelayTps = f s.maxSendDelay ∧
      s.maxSendDelay ≤ 1000000 := by
  induction h with
  | start h =>
    rw [startSearch_eq _ sendDelay hpos] at h
    obtain rfl := Except.ok.inj h
    exact ⟨.start, rfl, rfl, Nat.div_le_self _ _⟩
  | @step calls s s' h hcont hstep ih =>
    obtain ⟨hvisits, hmin, hmax, hbound⟩ := ih
    have hwide := Search.continues_iff.mp hcont
    obtain ⟨s₁, hstep', hbracket, hmin', hmax', -⟩ := Search.step_spec f hwide
      (by simp only [u64Size]; omega)
    obtain rfl := Except.ok.inj (hstep.symm.trans hstep')
    have hchoice : s.choice = better f s.bracket := by
      unfold Search.choice better
      rw [hmin, hmax]
      rfl
    have hnested := half_nested s.choice (b := s.bracket) hwide
    rw [← hbracket] at hnested
    refine ⟨?_, ?_, ?_, hnested.2.1.trans hbound⟩
    · rw [hbracket, hchoice]
      exact hvisits.halve hwide
    · rw [hmin']
      split
      · rfl
      next hlower =>
        have hsame : s'.bracket.1 = s.bracket.1 := by rw [hbracket, half, if_neg hlower]
        rw [hmin]
        exact congrArg f hsame.symm
    · rw [hmax']
      split
      next hupper =>
        have hsame : s'.bracket.2 = s.bracket.2 := by rw [hbracket, half, if_pos hupper]
        rw [hmax]
        exact congrArg f hsame.symm
      · rfl

/-- The loop comes to every bracket of that bisection. -/
theorem searchVisits_of_visits (hpos : f sendDelay ≠ 0)
    (h : Visits (better f) (sendDelay, 1000000 / f sendDelay) b) :
    ∃ calls s, SearchVisits (fun _ => f) sendDelay calls s ∧ s.bracket = b := by
  induction h with
  | start => exact ⟨2, _, .start (startSearch_eq _ sendDelay hpos), rfl⟩
  | halve h hwide ih =>
    obtain ⟨calls, s, hvisits, rfl⟩ := ih
    obtain ⟨-, hmin, hmax, hbound⟩ := hvisits.visits hpos
    obtain ⟨s', hstep, hbracket, -⟩ := Search.step_spec f hwide (by simp only [u64Size]; omega)
    refine ⟨_, s', hvisits.step (Search.continues_iff.mpr hwide) hstep, ?_⟩
    rw [hbracket]
    unfold Search.choice better
    rw [hmin, hmax]
    rfl

/-- The brackets have a maximum in them if they have the peak in them. -/
theorem keeps_iff (hpos : f sendDelay ≠ 0)
    (hpeak : SinglePeaked f sendDelay (1000000 / f sendDelay) p) :
    (∀ calls s, SearchVisits (fun _ => f) sendDelay calls s →
      ∃ d ∈ Set.Icc sendDelay (1000000 / f sendDelay), s.minSendDelay ≤ d ∧ d ≤ s.maxSendDelay ∧
        IsMaxOn f (Set.Icc sendDelay (1000000 / f sendDelay)) d) ↔
    ∀ b, Visits (better f) (sendDelay, 1000000 / f sendDelay) b → b.1 ≤ p ∧ p ≤ b.2 := by
  constructor
  · intro hkeeps b h
    obtain ⟨calls, s, hvisits, rfl⟩ := searchVisits_of_visits hpos h
    obtain ⟨d, hd, hmin, hmax, hbest⟩ := hkeeps calls s hvisits
    obtain rfl := (hpeak.isMaxOn_iff hd).mp hbest
    exact ⟨hmin, hmax⟩
  · intro hcontains calls s hvisits
    obtain ⟨hmin, hmax⟩ := hcontains _ (hvisits.visits hpos).1
    exact ⟨p, hpeak.mem, hmin, hmax, (hpeak.isMaxOn_iff hpeak.mem).mpr rfl⟩

theorem ends_iff (hpos : 1 ≤ bench 0 sendDelay) :
    (∃ fuel s, search bench sendDelay fuel = .ok (some s) ∧
      s.maxSendDelay ≤ s.minSendDelay + 1) ↔ 1 ≤ 1000000 / bench 0 sendDelay := by
  constructor
  · intro ⟨fuel, s, hsearch, _⟩
    by_contra hzero
    unfold search at hsearch
    rw [startSearch_eq _ sendDelay (Nat.one_le_iff_ne_zero.mp hpos),
      Nat.lt_one_iff.mp (Nat.not_le.mp hzero)] at hsearch
    cases fuel <;> cases hsearch
  · intro hmax
    rcases search_spec (1000000 / bench 0 sendDelay - sendDelay + 1) hpos hmax with
      ⟨s, hsearch, hnarrow, -⟩ | ⟨-, hfuel⟩
    · exact ⟨_, s, hsearch, hnarrow⟩
    · omega

/-- **The wrong half.** Let the TPS be single-peaked between the first two delays, with the best one
    at `p`. The bisection finds it if and only if these are an interval, its upper end is at least
    1, and in every bracket on the way towards `p` the end with the better TPS is in the half with
    `p`. -/
theorem findBestBench_keeps_iff (f : ℕ → ℕ) (sendDelay p : ℕ) (hpos : 1 ≤ f sendDelay)
    (hpeak : sendDelay ≤ 1000000 / f sendDelay →
      SinglePeaked f sendDelay (1000000 / f sendDelay) p) :
    FindsBest f sendDelay ↔
      sendDelay ≤ 1000000 / f sendDelay ∧ 1 ≤ 1000000 / f sendDelay ∧
        ∀ b, Towards p (sendDelay, 1000000 / f sendDelay) b → b.1 + 1 < b.2 →
          (p < middle b → f b.2 ≤ f b.1) ∧ (middle b < p → f b.1 < f b.2) := by
  have hne : f sendDelay ≠ 0 := Nat.one_le_iff_ne_zero.mp hpos
  rcases Nat.lt_or_ge (1000000 / f sendDelay) sendDelay with hempty | hle
  · -- the first bracket is empty
    constructor
    · intro h
      obtain ⟨d, hd, -⟩ := h.keeps 2 _ (.start (startSearch_eq _ sendDelay hne))
      exact absurd (hd.1.trans hd.2) (Nat.not_le.mpr hempty)
    · intro h
      exact absurd h.1 (Nat.not_le.mpr hempty)
  · have hpeak := hpeak hle
    have hright : ∀ b, ChoosesRight (better f) p b ↔
        (p < middle b → f b.2 ≤ f b.1) ∧ (middle b < p → f b.1 < f b.2) := by
      intro b
      unfold ChoosesRight better
      rw [decide_eq_false_iff_not, decide_eq_true_iff, Nat.not_lt]
    have hcontains : (∀ b, Visits (better f) (sendDelay, 1000000 / f sendDelay) b →
        b.1 ≤ p ∧ p ≤ b.2) ↔ _ := visits_contain_iff
      (fun r hr hhigh => decide_eq_false (Nat.not_lt.mpr
        (hpeak.lt ⟨by have := hpeak.mem.1; omega, hhigh⟩ (by omega)).le))
      (fun l hl hlow => decide_eq_true
        (hpeak.lt ⟨hlow, by have := hpeak.mem.2; omega⟩ (by omega)))
    simp only [hright] at hcontains
    constructor
    · intro h
      exact ⟨hle, (ends_iff hpos).mp h.ends,
        (hcontains.mp ((keeps_iff hne hpeak).mp h.keeps)).2⟩
    · intro ⟨_, hmax, htowards⟩
      exact ⟨(keeps_iff hne hpeak).mpr (hcontains.mpr ⟨hpeak.mem, htowards⟩),
        (ends_iff hpos).mpr hmax⟩

end Keeps

/-! ## Sample curves -/

/-- 500 transactions per second without a delay, 2300 with one of 600, 900 with one of 2000. -/
def earlyPeak (d : ℕ) : ℕ := if d ≤ 600 then 500 + 3 * d else 2900 - d

theorem singlePeaked_earlyPeak : SinglePeaked earlyPeak 0 2000 600 where
  mem := ⟨by decide, by decide⟩
  increasing := by
    intro d hd e he hlt
    have := he.2
    unfold earlyPeak
    split_ifs <;> omega
  decreasing := by
    intro d hd e he hlt
    have := hd.1
    have := he.2
    unfold earlyPeak
    split_ifs <;> omega

/-- The two ends are 0 and 2000. The TPS is better at 2000, so the loop goes on with the delays from
    1000 on, and the best one is 600. -/
theorem findBestBench_loses :
    1 ≤ earlyPeak 0 ∧ 1000000 / earlyPeak 0 = 2000 ∧ SinglePeaked earlyPeak 0 2000 600 ∧
      ¬ FindsBest earlyPeak 0 := by
  refine ⟨by decide, by decide, singlePeaked_earlyPeak, fun h => ?_⟩
  have hcontains := (keeps_iff (p := 600) (by decide) singlePeaked_earlyPeak).mp h.keeps
  have hnext := hcontains _ (Visits.start.halve (by decide))
  exact absurd hnext.1 (by decide)

/-- A TPS that grows with the delay is found. -/
theorem findBestBench_keeps_iff_grows : FindsBest (fun d => 500 + d) 0 := by
  refine (findBestBench_keeps_iff (fun d => 500 + d) 0 2000 (by decide) fun _ => ?_).mpr
    ⟨by decide, by decide, fun b hto hwide => ⟨fun hp => ?_, fun _ => ?_⟩⟩
  · exact ⟨⟨by decide, by decide⟩, fun d _ e _ hlt => Nat.add_lt_add_left hlt 500,
      fun d hd e he hlt => absurd (hd.1.trans_lt hlt) (Nat.not_lt.mpr he.2)⟩
  · have hmid := middle_mem hwide
    have hend : b.2 ≤ 2000 := hto.subset.2
    omega
  · show 500 + b.1 < 500 + b.2
    omega

end TpsBench
