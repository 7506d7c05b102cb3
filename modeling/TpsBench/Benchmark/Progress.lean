/-
  Does `bench` get stuck, and how much does it keep in memory?

  The loop around `try_send` ends only when an emitter takes the transaction. `try_send` fails on a
  full channel and on a channel whose thread is gone. An emitter ends once its senders are gone, and
  the running call holds the senders of all of its emitters, so only the first can be.

  * `Served`: the emitters of the running call are there. `served_step`, `served_of_reachable`: one
    step, and any run.
  * `bench_never_stuck`: so the transaction on offer can always be handed over.
  * `bench_backlog`: a bound on the transactions that have no answer yet.
-/
import TpsBench.Benchmark.Steps

namespace TpsBench

open Lib

variable {depGroupTxHash : Byte32} {sign : Transaction → List UInt8} {s s' : System}
  {e e' : Emitter} {k : ℕ}

/-! ## The emitters of the running call -/

namespace System

/-- Each emitter of the running call has a thread that has not ended. -/
def Served (s : System) : Prop :=
  ∀ c, s.call = some c → ∀ k ∈ c.txemitters, ∃ e, s.emitters[k]? = some e ∧ e.ended = false

theorem served_step (h : s.Served) (hstep : Step depGroupTxHash sign s s') : s'.Served := by
  intro c' hcall' k hk
  rcases hstep.txemitters_cases hcall' with ⟨c, hcall, htxemitters⟩ | ⟨n, htxemitters, hemitters⟩
  · rw [htxemitters] at hk
    obtain ⟨e, he, hlive⟩ := h c hcall k hk
    obtain ⟨e', he', rfl | ⟨c₁, signed, -, -, rfl⟩ | hemit⟩ := emitter_step hstep he
    · exact ⟨e', he', hlive⟩
    · exact ⟨_, he', hlive⟩
    · refine ⟨e', he', ?_⟩
      cases hemit with
      | take => exact hlive
      | again => exact hlive
      | answer => exact hlive
      -- an emitter whose sender is there does not end
      | finish _ _ _ hsender => exact absurd hk (hungUp_eq_true.mp hsender c hcall)
  · rw [htxemitters, List.mem_range'_1] at hk
    refine ⟨Worker.idle, ?_, rfl⟩
    rw [hemitters, List.getElem?_append_right hk.1, List.getElem?_replicate, if_pos (by omega)]

theorem served_of_reachable (h : Reachable depGroupTxHash sign s) : s.Served := by
  induction h with
  | refl => exact fun c hc => absurd hc.symm (Option.some_ne_none c)
  | tail _ hstep ih => exact served_step ih hstep

end System

/-! ## The transaction on offer -/

namespace System

theorem set_emitter_self (hk : s.emitters[k]? = some e) :
    { s with emitters := s.emitters.set k e } = s := by
  obtain ⟨hlt, rfl⟩ := List.getElem?_eq_some_iff.mp hk
  rw [List.set_getElem_self]

/-- Steps of one emitter. -/
theorem emit_run (hk : s.emitters[k]? = some e)
    (hrun : Relation.ReflTransGen (Worker.Step Answer.retries (s.hungUp k)) e e') :
    Relation.ReflTransGen (Step depGroupTxHash sign) s
      { s with emitters := s.emitters.set k e' } := by
  induction hrun with
  | refl => rw [set_emitter_self hk]
  | @tail e₁ e₂ _ hstep ih =>
    have hk₁ : (s.emitters.set k e₁)[k]? = some e₁ :=
      List.getElem?_set_self (List.getElem?_eq_some_iff.mp hk).1
    have hnext : Step depGroupTxHash sign { s with emitters := s.emitters.set k e₁ }
        { s with emitters := (s.emitters.set k e₁).set k e₂ } := .emit hk₁ hstep
    rw [List.set_set] at hnext
    exact ih.tail hnext

end System

/-- **Never stuck.** In every state of every run, the threads of the running call's emitters are
    there, so a transaction is refused only because a channel is full. If a node can give a final
    answer, the transaction on offer can be handed over by steps that neither build nor receive
    anything. -/
theorem bench_never_stuck (depGroupTxHash : Byte32) (sign : Transaction → List UInt8) (s : System)
    (h : Reachable depGroupTxHash sign s) (c : Call) (hcall : s.call = some c) :
    (∀ k ∈ c.txemitters, ∃ e, s.emitters[k]? = some e ∧
      e.accepts emitterCapacity = decide (e.queue.length < emitterCapacity)) ∧
    ∀ signed, c.phase = .offering signed → ∀ answer : Answer, answer.retries = false →
      ∃ s' c', Relation.ReflTransGen (Step depGroupTxHash sign) s s' ∧
        s'.call = some c' ∧ c'.phase = .sent ∧ s'.built = s.built ∧ s'.received = s.received := by
  have hserved := System.served_of_reachable h c hcall
  refine ⟨fun k hk => ?_, fun signed hphase answer hfinal => ?_⟩
  · obtain ⟨e, he, hlive⟩ := hserved k hk
    refine ⟨e, he, ?_⟩
    unfold Worker.accepts
    rw [hlive]
    rfl
  · obtain ⟨e, he, hlive⟩ := hserved c.target c.target_mem
    have hvalid := (System.placed_of_reachable h).valid e (List.mem_of_getElem? he)
    -- first its emitter makes room, then the next attempt succeeds
    obtain ⟨e', hrun, hroom⟩ :=
      hvalid.makes_room hfinal (by decide) hlive (s.hungUp c.target)
    have he' : (s.emitters.set c.target e')[c.target]? = some e' :=
      List.getElem?_set_self (List.getElem?_eq_some_iff.mp he).1
    have hstep : Step depGroupTxHash sign { s with emitters := s.emitters.set c.target e' }
        (System.trySend c signed { s with emitters := s.emitters.set c.target e' }) :=
      .trySend hcall hphase
    refine ⟨_, { c with cursor := c.nextCursor, phase := .sent },
      (System.emit_run he hrun).tail hstep, ?_⟩
    unfold System.trySend
    dsimp only
    rw [he']
    dsimp only
    rw [if_pos hroom]
    exact ⟨rfl, rfl, rfl, rfl⟩

/-! ## The backlog -/

theorem Call.length_offered (c : Call) : c.offered.length ≤ 1 := by
  unfold Call.offered
  split
  · exact le_rfl
  · exact Nat.zero_le 1

/-- **Backlog.** In every state of every run, the transactions without an answer are at most one on
    offer, and for each emitter 1000 in its channel and one that it sends. -/
theorem bench_backlog (depGroupTxHash : Byte32) (sign : Transaction → List UInt8) (s : System)
    (h : Reachable depGroupTxHash sign s) :
    s.built.length ≤
      (s.emitters.flatMap Worker.answers).length + s.emitters.length * 1001 + 1 := by
  have hplaced := System.placed_of_reachable h
  rw [← hplaced.places.length_eq]
  have hoffered : s.offered.length ≤ 1 := by
    unfold System.offered
    cases s.call with
    | none => exact Nat.zero_le 1
    | some c => exact c.length_offered
  have hemitters := Worker.length_messages_le hplaced.valid
  unfold emitterCapacity at hemitters
  unfold System.places
  rw [List.length_append]
  omega

/-! ## A sample run -/

namespace Sample

set_option maxRecDepth 20000 in
theorem exists_offering : ∃ s c, Reachable 0 (fun _ => []) s ∧ s.call = some c ∧
    c.phase = .offering built ∧ s.built = [built] := by
  have h : Reachable 0 (fun _ => []) .init := .refl
  have h := h.tail (.start (.connectAll ["http://a"] (by decide)) account .in2Out2 rfl rfl)
  have h := h.tail (.receive (ckbCell 0 100) rfl rfl rfl)
  have h := h.tail (.receive (ckbCell 1 30) rfl rfl rfl)
  have h := h.tail (.construct rfl rfl)
  exact ⟨_, _, h, rfl, rfl, rfl⟩

/-- An emitter of the call is there, and the transaction can be handed over. -/
theorem bench_never_stuck_sample :
    ∃ s c, s.call = some c ∧ c.phase = .offering built ∧
      (∃ e, s.emitters[c.target]? = some e ∧
        e.accepts emitterCapacity = decide (e.queue.length < emitterCapacity)) ∧
      ∃ s' c', Relation.ReflTransGen (Step 0 (fun _ => [])) s s' ∧ s'.call = some c' ∧
        c'.phase = .sent ∧ s'.built = [built] := by
  obtain ⟨s, c, h, hcall, hphase, hbuilt⟩ := exists_offering
  obtain ⟨hserved, hsends⟩ := bench_never_stuck 0 (fun _ => []) s h c hcall
  obtain ⟨s', c', hrun, hcall', hphase', hbuilt', -⟩ := hsends built hphase (Answer.ok 9) rfl
  exact ⟨s, c, hcall, hphase, hserved c.target c.target_mem, s', c', hrun, hcall', hphase',
    hbuilt'.trans hbuilt⟩

/-- One transaction has no answer, of two emitters. -/
theorem bench_backlog_sample :
    system.built.length ≤
      (system.emitters.flatMap Worker.answers).length + system.emitters.length * 1001 + 1 :=
  bench_backlog 0 (fun _ => []) system reachable_system

end Sample

end TpsBench
