/-
  What does `find_best_bench` cost, and what does it average?

  Each call of `bench` takes as long as the network needs to become stable, so the number of calls
  is what the search costs. The result is the mean of the TPS that were measured while the bracket
  was narrower than 200 microseconds.

  * `searchLoop_ends`: fuel for one iteration more than the bracket can be halved is enough.
  * `Samples`: the samples are what the last calls return. `SampledSince.step`,
    `sampledSince_of_visits`: one iteration, and any number.
  * `findBestBench_samples`: at most 22 calls, the last 6 to 8 of them sampled.
-/
import TpsBench.Benchmark.FindBest
import Mathlib.Algebra.Order.BigOperators.Group.List

namespace TpsBench

open Lib

variable {bench : ℕ → ℕ → ℕ} {s s' t t' : Search} {sendDelay fuel calls calls' k : ℕ}

/-! ## The number of calls -/

theorem LoopVisits.halvings (hpos : 1 ≤ s.maxSendDelay) (hfits : 2 * s.maxSendDelay < u64Size)
    (h : LoopVisits bench calls s calls' t) :
    ∃ n, calls' = calls + n ∧ Halvings s.bracket n t.bracket := by
  induction h with
  | start => exact ⟨0, rfl, .none⟩
  | @step calls' t₁ t₂ h hcont hstep ih =>
    obtain ⟨n, rfl, hhalvings⟩ := ih
    have hwide := Search.continues_iff.mp hcont
    obtain ⟨t', hstep', hbracket, -⟩ :=
      Search.step_spec (bench (calls + n)) hwide (h.maxSendDelay hpos hfits).2
    obtain rfl := Except.ok.inj (hstep.symm.trans hstep')
    exact ⟨n + 1, rfl, hbracket ▸ hhalvings.halve t₁.choice hwide⟩

theorem searchLoop_of_narrow (hpos : 1 ≤ s.maxSendDelay)
    (hnarrow : ¬ s.minSendDelay + 1 < s.maxSendDelay) (hfuel : 0 < fuel) :
    searchLoop bench fuel calls s = .ok (some s) := by
  obtain ⟨fuel, rfl⟩ := Nat.exists_eq_succ_of_ne_zero hfuel.ne'
  unfold searchLoop
  rw [Search.continues_eq hpos, decide_eq_false hnarrow]
  rfl

theorem searchLoop_of_wide (hpos : 1 ≤ s.maxSendDelay)
    (hwide : s.minSendDelay + 1 < s.maxSendDelay) (hstep : s.step (bench calls) = .ok s') :
    searchLoop bench (fuel + 1) calls s = searchLoop bench fuel (calls + 1) s' := by
  conv_lhs => unfold searchLoop
  rw [Search.continues_eq hpos, decide_eq_true hwide, hstep]
  rfl

/-- A bracket of at most `2 ^ k` needs `k` iterations at most. -/
theorem searchLoop_ends (hpos : 1 ≤ s.maxSendDelay) (hfits : 2 * s.maxSendDelay < u64Size)
    (hk : s.maxSendDelay - s.minSendDelay ≤ 2 ^ k) :
    ∃ s', ∀ fuel, k < fuel → searchLoop bench fuel calls s = .ok (some s') := by
  induction k generalizing s calls with
  | zero => exact ⟨s, fun fuel hfuel => searchLoop_of_narrow hpos (by omega) hfuel⟩
  | succ k ih =>
    by_cases hwide : s.minSendDelay + 1 < s.maxSendDelay
    · obtain ⟨s₁, hstep, hbracket, -⟩ := Search.step_spec (bench calls) hwide hfits
      have hnested := half_nested s.choice (b := s.bracket) hwide
      have hwidth := half_width_le s.choice (b := s.bracket) hwide
      rw [← hbracket] at hnested hwidth
      simp only [Search.bracket] at hnested hwidth
      rw [Nat.pow_succ] at hk
      have hrest : ∃ s', ∀ fuel, k < fuel → searchLoop bench fuel (calls + 1) s₁ = .ok (some s') :=
        ih (by omega) (by omega) (by omega)
      obtain ⟨s', hends⟩ := hrest
      refine ⟨s', fun fuel hfuel => ?_⟩
      obtain ⟨fuel, rfl⟩ := Nat.exists_eq_succ_of_ne_zero (Nat.ne_zero_of_lt hfuel)
      rw [searchLoop_of_wide hpos hwide hstep]
      exact hends fuel (Nat.lt_of_succ_lt_succ hfuel)
    · exact ⟨s, fun fuel hfuel => searchLoop_of_narrow hpos hwide (Nat.zero_lt_of_lt hfuel)⟩

/-! ## The samples -/

/-- What the calls of `bench` from number `first` on return for `delays`. -/
def measured (bench : ℕ → ℕ → ℕ) (first : ℕ) (delays : List ℕ) : List ℕ :=
  (delays.zipIdx first).map fun x => bench x.2 x.1

theorem measured_concat (bench : ℕ → ℕ → ℕ) (first : ℕ) (delays : List ℕ) (d : ℕ) :
    measured bench first (delays ++ [d]) =
      measured bench first delays ++ [bench (first + delays.length) d] := by
  unfold measured
  rw [List.zipIdx_append, List.map_append]
  rfl

/-- Before call `calls` of a search that began with the bracket `start`, the samples `delays` were
    taken: since the bracket is narrower than 200, and `b` was the first such. -/
structure Samples (bench : ℕ → ℕ → ℕ) (start : ℕ × ℕ) (calls : ℕ) (t : Search) (b : ℕ × ℕ)
    (delays : List ℕ) : Prop where
  narrow : b.2 - b.1 < 200
  first : b = start ∨ 100 ≤ b.2 - b.1
  halvings : Halvings b delays.length t.bracket
  inside : ∀ d ∈ delays, b.1 < d ∧ d < b.2
  samples : ∃ first, first + delays.length = calls ∧
    t.nearlySendDelayTps = measured bench first delays

/-- While the bracket is wide there are no samples. -/
def SampledSince (bench : ℕ → ℕ → ℕ) (start : ℕ × ℕ) (calls : ℕ) (t : Search) : Prop :=
  (200 ≤ t.maxSendDelay - t.minSendDelay ∧ t.nearlySendDelayTps = []) ∨
    ∃ b delays, Samples bench start calls t b delays

theorem samples_none {start : ℕ × ℕ} (hnarrow : t.maxSendDelay - t.minSendDelay < 200)
    (hfirst : t.bracket = start ∨ 100 ≤ t.maxSendDelay - t.minSendDelay)
    (hnone : t.nearlySendDelayTps = []) : Samples bench start calls t t.bracket [] where
  narrow := hnarrow
  first := hfirst
  halvings := .none
  inside _ hd := absurd hd List.not_mem_nil
  samples := ⟨calls, rfl, hnone⟩

theorem Samples.step {start b : ℕ × ℕ} {delays : List ℕ} (h : Samples bench start calls t b delays)
    (hwide : t.minSendDelay + 1 < t.maxSendDelay) (hbracket : t'.bracket = half t.choice t.bracket)
    (hnearly : t'.nearlySendDelayTps = t.nearlySendDelayTps ++ [bench calls (middle t.bracket)]) :
    Samples bench start (calls + 1) t' b (delays ++ [middle t.bracket]) where
  narrow := h.narrow
  first := h.first
  halvings := by
    rw [List.length_append, List.length_singleton, hbracket]
    exact h.halvings.halve t.choice hwide
  inside d hd := by
    rcases List.mem_append.mp hd with hold | hnew
    · exact h.inside d hold
    · obtain rfl := List.mem_singleton.mp hnew
      have hmid := middle_mem (b := t.bracket) hwide
      have hsub := h.halvings.subset
      omega
  samples := by
    obtain ⟨first, rfl, hsamples⟩ := h.samples
    refine ⟨first, by rw [List.length_append, List.length_singleton, Nat.add_assoc], ?_⟩
    rw [hnearly, hsamples, measured_concat]

/-- What one iteration does to the samples. -/
theorem SampledSince.step {start : ℕ × ℕ} (h : SampledSince bench start calls t)
    (hwide : t.minSendDelay + 1 < t.maxSendDelay) (hfits : 2 * t.maxSendDelay < u64Size)
    (hstep : t.step (bench calls) = .ok t') : SampledSince bench start (calls + 1) t' := by
  obtain ⟨t₁, hstep', hbracket, -, -, hnearly⟩ := Search.step_spec (bench calls) hwide hfits
  obtain rfl := Except.ok.inj (hstep.symm.trans hstep')
  rcases h with ⟨hbroad, hnone⟩ | ⟨b, delays, h⟩
  · rw [if_neg (by omega), List.append_nil, hnone] at hnearly
    by_cases hbroad' : 200 ≤ t'.maxSendDelay - t'.minSendDelay
    · exact .inl ⟨hbroad', hnearly⟩
    · have hnested := half_nested t.choice (b := t.bracket) hwide
      rw [← hbracket] at hnested
      simp only [Search.bracket] at hnested
      exact .inr ⟨_, [], samples_none (by omega) (.inr (by omega)) hnearly⟩
  · have hsub := h.halvings.subset
    have hnarrow := h.narrow
    simp only [Search.bracket] at hsub
    rw [if_pos (by omega)] at hnearly
    exact .inr ⟨b, _, h.step hwide hbracket hnearly⟩

theorem sampledSince_of_visits (hpos : 1 ≤ s.maxSendDelay) (hfits : 2 * s.maxSendDelay < u64Size)
    (hnone : s.nearlySendDelayTps = []) (h : LoopVisits bench calls s calls' t) :
    SampledSince bench s.bracket calls' t := by
  induction h with
  | start =>
    by_cases hbroad : 200 ≤ s.maxSendDelay - s.minSendDelay
    · exact .inl ⟨hbroad, hnone⟩
    · exact .inr ⟨_, [], samples_none (Nat.not_le.mp hbroad) (.inl rfl) hnone⟩
  | step h hcont hstep ih =>
    exact ih.step (Search.continues_iff.mp hcont) (h.maxSendDelay hpos hfits).2 hstep

theorem Samples.count_le {start b : ℕ × ℕ} {delays : List ℕ}
    (h : Samples bench start calls t b delays) : delays.length ≤ 8 :=
  h.halvings.le_of_width (h.narrow.le.trans (by decide))

/-- Enough samples, if the bracket was wide at first. -/
theorem Samples.le_count {start b : ℕ × ℕ} {delays : List ℕ}
    (h : Samples bench start calls t b delays) (hk : 2 ^ k ≤ 100)
    (hstart : 2 ^ k ≤ start.2 - start.1) (hnarrow : t.maxSendDelay ≤ t.minSendDelay + 1) :
    k ≤ delays.length := by
  refine h.halvings.le_of_narrow ?_ hnarrow
  rcases h.first with rfl | hfirst
  · exact hstart
  · exact hk.trans hfirst

/-- **The mean of a few calls.** Whatever TPS the calls of `bench` return, if the loop is entered it
    ends before 21 iterations, so there are at most 22 calls. The samples are what the last of these
    calls return, at most 8, for delays less than 200 microseconds apart; at least 6 if the first
    bracket is 200 wide. The result is their mean, rounded down, unless their sum overflows. -/
theorem findBestBench_samples (bench : ℕ → ℕ → ℕ) (sendDelay : ℕ) (hpos : 1 ≤ bench 0 sendDelay)
    (hwide : sendDelay + 1 < 1000000 / bench 0 sendDelay) :
    ∃ s₀ s calls first delays, startSearch bench sendDelay = .ok s₀ ∧
      LoopVisits bench 2 s₀ calls s ∧ s.continues = .ok false ∧ calls ≤ 22 ∧
      s.nearlySendDelayTps = measured bench first delays ∧ first + delays.length = calls ∧
      1 ≤ delays.length ∧ delays.length ≤ 8 ∧
      (sendDelay + 200 ≤ 1000000 / bench 0 sendDelay → 6 ≤ delays.length) ∧
      (∀ d ∈ delays, ∀ d' ∈ delays, d < d' + 200) ∧
      ((measured bench first delays).sum < u64Size → ∀ fuel, 20 < fuel →
        findBestBench bench sendDelay fuel =
          .ok (some ((measured bench first delays).sum / delays.length))) := by
  have hstart := startSearch_eq bench sendDelay (Nat.one_le_iff_ne_zero.mp hpos)
  have hmax : 1000000 / bench 0 sendDelay ≤ 1000000 := startSearch_maxSendDelay hstart
  generalize hq : 1000000 / bench 0 sendDelay = q at hstart hmax hwide ⊢
  generalize hs₀ : (⟨sendDelay, bench 0 sendDelay, q, bench 1 q, []⟩ : Search) = s₀ at hstart
  have hbracket : s₀.bracket = (sendDelay, q) := hs₀ ▸ rfl
  have hmin : s₀.minSendDelay = sendDelay := hs₀ ▸ rfl
  have hq₀ : s₀.maxSendDelay = q := hs₀ ▸ rfl
  have hpos₀ : 1 ≤ s₀.maxSendDelay := by omega
  have hfits : 2 * s₀.maxSendDelay < u64Size := by
    rw [u64Size]
    omega
  have hwidth : s₀.maxSendDelay - s₀.minSendDelay ≤ 2 ^ 20 := by omega
  have hloop : ∃ s, ∀ fuel, 20 < fuel → searchLoop bench fuel 2 s₀ = .ok (some s) :=
    searchLoop_ends hpos₀ hfits hwidth
  obtain ⟨s, hends⟩ := hloop
  obtain ⟨hdone, calls, hvisits⟩ := LoopVisits.start.searchLoop (hends 21 (by decide))
  obtain ⟨n, hcalls, hhalvings⟩ := hvisits.halvings hpos₀ hfits
  have hn : n ≤ 20 := hhalvings.le_of_width hwidth
  have hnarrow : s.maxSendDelay ≤ s.minSendDelay + 1 := by
    by_contra hwide'
    have hcont := Search.continues_iff.mpr (Nat.not_le.mp hwide')
    rw [hdone] at hcont
    cases hcont
  rcases sampledSince_of_visits hpos₀ hfits (hs₀ ▸ rfl) hvisits with
    ⟨hbroad, -⟩ | ⟨b, delays, hsamples⟩
  · omega
  · obtain ⟨first, hfirst, hnearly⟩ := hsamples.samples
    have hlength : 1 ≤ delays.length :=
      hsamples.le_count (k := 1) (by decide) (by rw [hbracket]; dsimp only; omega) hnarrow
    refine ⟨s₀, s, calls, first, delays, hstart, hvisits, hdone, by omega, hnearly, hfirst, hlength,
      hsamples.count_le, fun hbroad => ?_, fun d hd d' hd' => ?_, fun hsum fuel hfuel => ?_⟩
    · exact hsamples.le_count (k := 6) (by decide) (by rw [hbracket]; dsimp only; omega) hnarrow
    · have hd := hsamples.inside d hd
      have hd' := hsamples.inside d' hd'
      have hclose := hsamples.narrow
      omega
    · have htotal : sumU64 s.nearlySendDelayTps = .ok (measured bench first delays).sum := by
        rw [hnearly]
        exact sumU64_eq_ok.mpr ⟨hsum, rfl⟩
      have hcount : s.nearlySendDelayTps.length = delays.length := by
        rw [hnearly, measured, List.length_map, List.length_zipIdx]
      unfold findBestBench search Search.average
      rw [hstart]
      simp only [bind, Except.bind, hends fuel hfuel, htotal, hcount]
      rw [divU64_eq_ok.mpr ⟨by omega, rfl⟩]
      rfl

/-- A TPS that grows with the delay up to 2490. -/
def cappedBench : ℕ → ℕ → ℕ := fun _ d => min (500 + d) 2490

/-- The first bracket is 0 to 2000 microseconds, and the samples are small. -/
theorem findBestBench_samples_capped :
    ∃ first delays, 6 ≤ delays.length ∧ delays.length ≤ 8 ∧
      (∀ fuel, 20 < fuel → findBestBench cappedBench 0 fuel = .ok (some 2478)) ∧
      (measured cappedBench first delays).sum / delays.length = 2478 := by
  obtain ⟨-, -, -, first, delays, -, -, -, -, -, -, -, hle, hge, -, hmean⟩ :=
    findBestBench_samples cappedBench 0 (by decide) (by decide)
  have hsum : (measured cappedBench first delays).sum ≤ delays.length * 2490 := by
    have hall : ∀ tps ∈ measured cappedBench first delays, tps ≤ 2490 := by
      intro tps htps
      obtain ⟨x, -, rfl⟩ := List.mem_map.mp htps
      exact min_le_right _ _
    have hcard := List.sum_le_card_nsmul _ 2490 hall
    rwa [measured, List.length_map, List.length_zipIdx, Nat.nsmul_eq_mul] at hcard
  have hfits : (measured cappedBench first delays).sum < u64Size := by
    rw [u64Size]
    omega
  have hresult : findBestBench cappedBench 0 21 = .ok (some 2478) := by decide
  have heq := Option.some.inj (Except.ok.inj ((hmean hfits 21 (by decide)).symm.trans hresult))
  exact ⟨first, delays, hge (by decide), hle, fun fuel hfuel => heq ▸ hmean hfits fuel hfuel, heq⟩

end TpsBench
