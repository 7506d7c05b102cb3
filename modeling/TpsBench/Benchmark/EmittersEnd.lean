/-
  Do the threads of a call end?

  A call of `bench` spawns an emitter for each endpoint and joins none, and `find_best_bench` makes
  call after call. An emitter ends when its channel is empty and its sender is gone. The senders are
  gone with the call, and no later call gets one: it makes its own.

  * `System.hungUp_step`: a sender that is gone does not come back.
  * `System.enqueued_step`: an emitter without a sender is given nothing.
  * `bench_emitters_end`: so it answers what it has, and ends.
-/
import TpsBench.Benchmark.Runs
import Mathlib.Order.Filter.AtTopBot.Basic
import Mathlib.Order.Filter.Finite

namespace TpsBench

open Lib

variable {depGroupTxHash : Byte32} {sign : Transaction → List UInt8} {s s' : System}
  {e : Emitter} {k t u : ℕ}

namespace System

/-- A sender that is gone does not come back. -/
theorem hungUp_step (hstep : Step depGroupTxHash sign s s') (hk : k < s.emitters.length)
    (h : s.hungUp k = true) : s'.hungUp k = true := by
  rw [hungUp_eq_true] at h ⊢
  intro c' hcall'
  rcases hstep.txemitters_cases hcall' with ⟨c, hcall, htxemitters⟩ | ⟨n, htxemitters, -⟩
  · rw [htxemitters]
    exact h c hcall
  · rw [htxemitters, List.mem_range'_1]
    omega

theorem enqueued_step (hstep : Step depGroupTxHash sign s s') (hk : s.emitters[k]? = some e)
    (h : s.hungUp k = true) : ∃ e', s'.emitters[k]? = some e' ∧ e'.enqueued = e.enqueued := by
  obtain ⟨e', hk', rfl | ⟨c, signed, hcall, rfl, -⟩ | hemit⟩ := emitter_step hstep hk
  · exact ⟨e', hk', rfl⟩
  · exact absurd c.target_mem (hungUp_eq_true.mp h c hcall)
  · exact ⟨e', hk', hemit.enqueued⟩

theorem ended_step (hstep : Step depGroupTxHash sign s s') (hk : s.emitters[k]? = some e)
    (hended : e.ended = true) : ∃ e', s'.emitters[k]? = some e' ∧ e'.ended = true := by
  obtain ⟨e', hk', rfl | ⟨c, signed, -, -, rfl⟩ | hemit⟩ := emitter_step hstep hk
  · exact ⟨e', hk', hended⟩
  · exact ⟨_, hk', hended⟩
  · exact ⟨e', hk', hemit.ended hended⟩

end System

namespace Run

variable {run : Run depGroupTxHash sign}

/-- An emitter whose channel is empty and whose sender is gone ends. -/
def Finishes (run : Run depGroupTxHash sign) : Prop :=
  ∀ (t k : ℕ) (e : Emitter), (run.state t).emitters[k]? = some e → e.ended = false →
    e.hand = none → e.queue = [] → (run.state t).hungUp k = true → ∃ (u : ℕ) (e' : Emitter), t ≤ u ∧
      (run.state u).emitters[k]? = some e' ∧ e'.ended = true

theorem left_alone (htu : t ≤ u) (hk : (run.state t).emitters[k]? = some e)
    (hgone : (run.state t).hungUp k = true) :
    ∃ e', (run.state u).emitters[k]? = some e' ∧ e'.enqueued = e.enqueued ∧
      (run.state u).hungUp k = true := by
  induction u, htu using Nat.le_induction with
  | base => exact ⟨e, hk, rfl, hgone⟩
  | succ u _ ih =>
    obtain ⟨e₁, hk₁, henqueued₁, hgone₁⟩ := ih
    rcases run.step u with hsame | hstep
    · rw [hsame]
      exact ⟨e₁, hk₁, henqueued₁, hgone₁⟩
    · obtain ⟨e₂, hk₂, henqueued₂⟩ := System.enqueued_step hstep hk₁ hgone₁
      exact ⟨e₂, hk₂, henqueued₂.trans henqueued₁,
        System.hungUp_step hstep (List.getElem?_eq_some_iff.mp hk₁).1 hgone₁⟩

theorem stays_ended (htu : t ≤ u) (hk : (run.state t).emitters[k]? = some e)
    (hended : e.ended = true) :
    ∃ e', (run.state u).emitters[k]? = some e' ∧ e'.ended = true := by
  induction u, htu using Nat.le_induction with
  | base => exact ⟨e, hk, hended⟩
  | succ u _ ih =>
    obtain ⟨e₁, hk₁, hended₁⟩ := ih
    rcases run.step u with hsame | hstep
    · rw [hsame]
      exact ⟨e₁, hk₁, hended₁⟩
    · exact System.ended_step hstep hk₁ hended₁

/-- Without a sender an emitter answers everything. By induction on what it has not answered. -/
theorem Fair.empties (hfair : run.Fair) (hk : (run.state t).emitters[k]? = some e)
    (hgone : (run.state t).hungUp k = true) :
    ∃ (u : ℕ) (e' : Emitter), t ≤ u ∧ (run.state u).emitters[k]? = some e' ∧ e'.hand = none ∧
      e'.queue = [] := by
  induction hd : e.enqueued.length - e.answered.length using Nat.strong_induction_on
    generalizing t e with
  | _ d ih =>
    have hvalid := run.valid hk
    by_cases hle : e.enqueued.length ≤ e.answered.length
    · obtain ⟨hhand, hqueue⟩ := hvalid.idle_of_le hle
      exact ⟨t, e, le_rfl, hk, hhand, hqueue⟩
    · obtain ⟨u, e₁, htu, hk₁, hmore⟩ := hfair.answers_more hk
        (List.getElem?_eq_getElem (Nat.not_le.mp hle)) le_rfl
      obtain ⟨e₁', hk₁', henqueued, hgone₁⟩ := left_alone htu hk hgone
      obtain rfl := Option.some.inj (hk₁.symm.trans hk₁')
      obtain ⟨v, e₂, huv, hk₂, hhand, hqueue⟩ :=
        ih (e₁.enqueued.length - e₁.answered.length) (by rw [henqueued]; omega) hk₁ hgone₁ rfl
      exact ⟨v, e₂, htu.trans huv, hk₂, hhand, hqueue⟩

theorem Fair.ends (hfair : run.Fair) (hfinishes : run.Finishes)
    (hk : (run.state t).emitters[k]? = some e) (hgone : (run.state t).hungUp k = true) :
    ∃ (u : ℕ) (e' : Emitter), t ≤ u ∧ (run.state u).emitters[k]? = some e' ∧ e'.ended = true := by
  obtain ⟨u, e₁, htu, hk₁, hhand, hqueue⟩ := hfair.empties hk hgone
  obtain ⟨e₁', hk₁', -, hgone₁⟩ := left_alone htu hk hgone
  cases hended : e₁.ended with
  | true => exact ⟨u, e₁, htu, hk₁, hended⟩
  | false =>
    obtain ⟨v, e₂, huv, hk₂, hended₂⟩ := hfinishes u k e₁ hk₁ hended hhand hqueue hgone₁
    exact ⟨v, e₂, htu.trans huv, hk₂, hended₂⟩

end Run

/-- **No thread is left.** In a run in which the emitters go on, the nodes answer, and an emitter
    whose channel is empty and closed ends: from some time on all emitters spawned by the calls that
    are over have ended, each with an answer to everything that it was sent, in that order. This is
    so whatever calls are made meanwhile. -/
theorem bench_emitters_end (depGroupTxHash : Byte32) (sign : Transaction → List UInt8)
    (run : Run depGroupTxHash sign) (hfair : run.Fair) (hfinishes : run.Finishes) (t : ℕ)
    (hcall : (run.state t).call = none) :
    ∃ u, t ≤ u ∧ ∀ v, u ≤ v → ∀ (k : ℕ) (e : Emitter), (run.state t).emitters[k]? = some e →
      ∃ e', (run.state v).emitters[k]? = some e' ∧ e'.ended = true ∧
        e'.answers = e.enqueued := by
  have hgone : ∀ k, (run.state t).hungUp k = true := by
    intro k
    rw [System.hungUp_eq_true, hcall]
    exact fun c hc => absurd hc.symm (Option.some_ne_none c)
  have hends : ∀ᶠ v in Filter.atTop, ∀ k ∈ List.range (run.state t).emitters.length, ∃ e',
      (run.state v).emitters[k]? = some e' ∧ e'.ended = true := by
    refine (Filter.eventually_all_finite (List.finite_toSet _)).mpr fun k hk => ?_
    have hk' := List.getElem?_eq_getElem (List.mem_range.mp hk)
    obtain ⟨u, e₁, -, hk₁, hended⟩ := hfair.ends hfinishes hk' (hgone k)
    filter_upwards [Filter.eventually_ge_atTop u] with v huv
    exact Run.stays_ended huv hk₁ hended
  obtain ⟨u, hu⟩ := Filter.eventually_atTop.mp hends
  refine ⟨max t u, le_max_left t u, fun v hv k e hk => ?_⟩
  obtain ⟨htv, huv⟩ := max_le_iff.mp hv
  obtain ⟨e', hk', hended⟩ :=
    hu v huv k (List.mem_range.mpr (List.getElem?_eq_some_iff.mp hk).1)
  obtain ⟨e'', hk'', henqueued, -⟩ := Run.left_alone htv hk (hgone k)
  obtain rfl := Option.some.inj (hk'.symm.trans hk'')
  have hvalid := run.valid hk'
  exact ⟨e', hk', hended, (hvalid.answers_of_ended hended).trans henqueued⟩

/-! ## A sample run -/

namespace Sample

set_option maxRecDepth 20000 in
/-- The call is over, and its emitter has ended. -/
theorem exists_ended : ∃ s s', Reachable 0 (fun _ => []) s ∧ Step 0 (fun _ => []) s s' ∧
    s.call = none ∧ (∃ e, s.emitters = [e] ∧ e.enqueued = [built]) ∧
    ∃ e, s'.emitters = [e] ∧ e.hand = none ∧ e.queue = [] ∧ e.ended = true := by
  have h : Reachable 0 (fun _ => []) .init := .refl
  have h := h.tail (.start (.connectAll ["http://a"] (by decide)) account .in2Out2 rfl rfl)
  have h := h.tail (.receive (ckbCell 0 100) rfl rfl rfl)
  have h := h.tail (.receive (ckbCell 1 30) rfl rfl rfl)
  have h := h.tail (.construct rfl rfl)
  have h := h.tail (.trySend rfl rfl)
  have h := h.tail (.notified metrics rfl rfl)
  have h := h.tail (.emit (k := 0) rfl (.take rfl rfl rfl))
  have h := h.tail (.emit (k := 0) rfl (.answer (r := Answer.ok 9) rfl rfl))
  exact ⟨_, _, h, .emit (k := 0) rfl (.finish rfl rfl rfl rfl), rfl, ⟨_, rfl, rfl⟩, _, rfl, rfl,
    rfl, rfl⟩

end Sample

theorem bench_emitters_end_sample :
    ∃ (run : Run 0 (fun _ => [])) (u : ℕ) (e : Emitter), (run.state u).emitters[0]? = some e ∧
      e.ended = true ∧ e.answers = [Sample.built] := by
  obtain ⟨s, s', h, hstep, hcall, ⟨e, hemitters, henqueued⟩, e', hemitters', hhand, hqueue,
    hended⟩ := Sample.exists_ended
  obtain ⟨run, t, hstill⟩ := Run.exists_of_reachable h
  obtain ⟨run, ht, hafter⟩ := run.exists_extend hstill hstep
  have hstill : ∀ u, t + 1 ≤ u → run.state u = s' := fun u hu => hafter u (Nat.lt_of_succ_le hu)
  have hfair : run.Fair := by
    refine Run.fair_of_quiet hstill fun e₁ he₁ => ?_
    rw [hemitters', List.mem_singleton] at he₁
    exact he₁ ▸ ⟨hhand, hqueue⟩
  have hfinishes : run.Finishes := by
    intro u k e₁ hk _ _ _ _
    obtain ⟨e₂, hk₂, -⟩ := Run.later (le_max_left u (t + 1)) hk
    have hmem := List.mem_of_getElem? hk₂
    rw [hstill _ (le_max_right u (t + 1)), hemitters', List.mem_singleton] at hmem
    exact ⟨max u (t + 1), e₂, le_max_left u (t + 1), hk₂, hmem ▸ hended⟩
  obtain ⟨u, -, hlast⟩ := bench_emitters_end 0 (fun _ => []) run hfair hfinishes t (ht ▸ hcall)
  have hk : (run.state t).emitters[0]? = some e := by
    rw [ht, hemitters]
    rfl
  obtain ⟨e₁, hk₁, hended₁, hanswers⟩ := hlast u le_rfl 0 e hk
  exact ⟨run, u, e₁, hk₁, hended₁, hanswers.trans henqueued⟩

end TpsBench
