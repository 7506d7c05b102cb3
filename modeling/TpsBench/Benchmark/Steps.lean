/-
  What a step of `bench` and its emitters can do.

  * `System.emitter_step`: to one emitter.
  * `MainStep`, `Step.mainStep_or_emit`: while a call runs.
  * `Step.call_cases`, `Step.txemitters_cases`: to the call and its senders.
-/
import TpsBench.Benchmark.Emitters

namespace TpsBench

open Lib

variable {depGroupTxHash : Byte32} {sign : Transaction → List UInt8} {s s' : System}
  {c c' : Call} {signed : Built} {e : Emitter} {k : ℕ}

/-! ## To an emitter -/

namespace System

/-- An emitter stays where it is. A step leaves it as it is, puts a transaction into its channel, if
    the running call has a sender for it, or is its own. -/
theorem emitter_step (hstep : Step depGroupTxHash sign s s') (hk : s.emitters[k]? = some e) :
    ∃ e', s'.emitters[k]? = some e' ∧ (e' = e ∨
      (∃ c signed, s.call = some c ∧ c.target = k ∧ e' = e.put signed) ∨
      e.Step Answer.retries (s.hungUp k) e') := by
  have hlt := (List.getElem?_eq_some_iff.mp hk).1
  have hsame : s'.emitters = s.emitters → s'.emitters[k]? = some e := fun h => by rw [h, hk]
  cases hstep with
  | start net recipient transactionType =>
    obtain ⟨c, hstart, -⟩ := Call.start_spec net recipient transactionType s.emitters.length
    unfold System.start
    rw [hstart]
    refine ⟨e, ?_, .inl rfl⟩
    show (s.emitters ++ _)[k]? = some e
    rw [List.getElem?_append_left hlt, hk]
  | receive => exact ⟨e, hsame (apply_run emitters (fun _ => rfl) fun _ => rfl), .inl rfl⟩
  | close => exact ⟨e, hk, .inl rfl⟩
  | construct => exact ⟨e, hsame (apply_run emitters (fun _ => rfl) fun _ => rfl), .inl rfl⟩
  | @trySend c signed hcall =>
    unfold System.trySend
    split
    next e₀ he₀ =>
      split
      next =>
        by_cases heq : c.target = k
        · subst heq
          obtain rfl := Option.some.inj (he₀.symm.trans hk)
          exact ⟨e₀.put signed, List.getElem?_set_self hlt,
            .inr (.inl ⟨c, signed, hcall, rfl, rfl⟩)⟩
        · exact ⟨e, (List.getElem?_set_ne heq).trans hk, .inl rfl⟩
      next => exact ⟨e, hk, .inl rfl⟩
    next => exact ⟨e, hk, .inl rfl⟩
  | goOn => exact ⟨e, hk, .inl rfl⟩
  | notified => exact ⟨e, hk, .inl rfl⟩
  | @emit k' e₀ e₁ hk' hemit =>
    by_cases heq : k' = k
    · subst heq
      obtain rfl := Option.some.inj (hk'.symm.trans hk)
      exact ⟨e₁, List.getElem?_set_self hlt, .inr (.inr hemit)⟩
    · exact ⟨e, (List.getElem?_set_ne heq).trans hk, .inl rfl⟩

theorem later_step (hstep : Step depGroupTxHash sign s s') (hk : s.emitters[k]? = some e) :
    ∃ e', s'.emitters[k]? = some e' ∧ e.Later e' := by
  obtain ⟨e', hk', rfl | ⟨c, signed, -, -, rfl⟩ | hemit⟩ := emitter_step hstep hk
  · exact ⟨e', hk', .refl e'⟩
  · exact ⟨_, hk', Worker.later_put e signed⟩
  · exact ⟨e', hk', hemit.later⟩

theorem hungUp_eq_true : s.hungUp k = true ↔ ∀ c, s.call = some c → k ∉ c.txemitters := by
  unfold hungUp
  cases s.call with
  | none => exact ⟨fun _ c h => absurd h.symm (Option.some_ne_none c), fun _ => rfl⟩
  | some c =>
    rw [decide_eq_true_iff]
    constructor
    · rintro h c' hc'
      obtain rfl := Option.some.inj hc'
      exact h
    · exact fun h => h c rfl

end System

/-! ## To the call -/

/-- A step of the main thread in the call `c`. -/
def MainStep (depGroupTxHash : Byte32) (sign : Transaction → List UInt8) (c : Call)
    (s s' : System) : Prop :=
  match c.phase with
  | .receiving => (∃ utxo, s' = s.receive c utxo) ∨ s' = { s.ret c none with closed := true }
  | .constructing => s' = s.construct depGroupTxHash sign c
  | .offering signed => s' = s.trySend c signed
  | .sent =>
    s' = { s with call := some { c with phase := .receiving } } ∨
      ∃ metrics, s' = s.ret c (some metrics)

namespace MainStep

theorem receiving (h : MainStep depGroupTxHash sign c s s') (hphase : c.phase = .receiving) :
    (∃ utxo, s' = s.receive c utxo) ∨ s' = { s.ret c none with closed := true } := by
  unfold MainStep at h
  rwa [hphase] at h

theorem constructing (h : MainStep depGroupTxHash sign c s s')
    (hphase : c.phase = .constructing) : s' = s.construct depGroupTxHash sign c := by
  unfold MainStep at h
  rwa [hphase] at h

theorem offering (h : MainStep depGroupTxHash sign c s s')
    (hphase : c.phase = .offering signed) : s' = s.trySend c signed := by
  unfold MainStep at h
  rwa [hphase] at h

theorem sent (h : MainStep depGroupTxHash sign c s s') (hphase : c.phase = .sent) :
    s' = { s with call := some { c with phase := .receiving } } ∨
      ∃ metrics, s' = s.ret c (some metrics) := by
  unfold MainStep at h
  rwa [hphase] at h

end MainStep

/-- While a call runs, a step is one of the main thread or of an emitter. -/
theorem Step.mainStep_or_emit (hstep : Step depGroupTxHash sign s s') (hcall : s.call = some c) :
    MainStep depGroupTxHash sign c s s' ∨
    ∃ k e e', s.emitters[k]? = some e ∧ e.Step Answer.retries (s.hungUp k) e' ∧
      s' = { s with emitters := s.emitters.set k e' } := by
  unfold MainStep
  cases hstep with
  | start _ _ _ hnone =>
    rw [hcall] at hnone
    cases hnone
  | receive utxo hcall' hphase =>
    obtain rfl := Option.some.inj (hcall.symm.trans hcall')
    rw [hphase]
    exact .inl (.inl ⟨utxo, rfl⟩)
  | close hcall' hphase =>
    obtain rfl := Option.some.inj (hcall.symm.trans hcall')
    rw [hphase]
    exact .inl (.inr rfl)
  | construct hcall' hphase =>
    obtain rfl := Option.some.inj (hcall.symm.trans hcall')
    rw [hphase]
    exact .inl rfl
  | trySend hcall' hphase =>
    obtain rfl := Option.some.inj (hcall.symm.trans hcall')
    rw [hphase]
    exact .inl rfl
  | goOn hcall' hphase =>
    obtain rfl := Option.some.inj (hcall.symm.trans hcall')
    rw [hphase]
    exact .inl (.inl rfl)
  | notified metrics hcall' hphase =>
    obtain rfl := Option.some.inj (hcall.symm.trans hcall')
    rw [hphase]
    exact .inl (.inr ⟨metrics, rfl⟩)
  | @emit k e e' hk hstep => exact .inr ⟨k, e, e', hk, hstep, rfl⟩

/-- The running call goes on with its senders, or it panics, or it returns. -/
theorem Step.call_cases (hstep : Step depGroupTxHash sign s s') (hcall : s.call = some c) :
    (∃ c', s'.call = some c' ∧ c'.txemitters = c.txemitters ∧ s'.returned = s.returned) ∨
    (s'.call = none ∧ (s'.crashed ≠ none ∨ ∃ r, s'.returned = s.returned ++ [r])) := by
  rcases hstep.mainStep_or_emit hcall with hmain | ⟨k, e, e', -, -, rfl⟩
  · cases hphase : c.phase with
    | receiving =>
      rcases hmain.receiving hphase with ⟨utxo, rfl⟩ | rfl
      · unfold System.receive
        cases hreceive : c.receive utxo with
        | error e => exact .inr ⟨rfl, .inl (Option.some_ne_none e)⟩
        | ok c' =>
          obtain ⟨-, rfl⟩ := Call.receive_eq_ok.mp hreceive
          exact .inl ⟨_, rfl, rfl, rfl⟩
      · exact .inr ⟨rfl, .inr ⟨_, rfl⟩⟩
    | constructing =>
      obtain rfl := hmain.constructing hphase
      unfold System.construct
      cases c.construct depGroupTxHash sign s.built.length with
      | error e => exact .inr ⟨rfl, .inl (Option.some_ne_none e)⟩
      | ok signed => exact .inl ⟨c.offer signed, rfl, rfl, rfl⟩
    | offering signed =>
      obtain rfl := hmain.offering hphase
      left
      unfold System.trySend
      split
      · split <;> exact ⟨_, rfl, rfl, rfl⟩
      · exact ⟨_, rfl, rfl, rfl⟩
    | sent =>
      rcases hmain.sent hphase with rfl | ⟨metrics, rfl⟩
      · exact .inl ⟨_, rfl, rfl, rfl⟩
      · exact .inr ⟨rfl, .inr ⟨_, rfl⟩⟩
  · exact .inl ⟨c, hcall, rfl, rfl⟩

/-- A call has the senders that it had, or it starts, with those of the emitters it spawns. -/
theorem Step.txemitters_cases (hstep : Step depGroupTxHash sign s s') (hcall' : s'.call = some c') :
    (∃ c, s.call = some c ∧ c'.txemitters = c.txemitters) ∨
    ∃ n, c'.txemitters = List.range' s.emitters.length n ∧
      s'.emitters = s.emitters ++ List.replicate n Worker.idle := by
  cases hcall : s.call with
  | some c =>
    rcases hstep.call_cases hcall with ⟨c₁, hcall₁, htxemitters, -⟩ | ⟨hnone, -⟩
    · obtain rfl := Option.some.inj (hcall₁.symm.trans hcall')
      exact .inl ⟨c, rfl, htxemitters⟩
    · rw [hnone] at hcall'
      cases hcall'
  | none =>
    cases hstep with
    | start net recipient transactionType =>
      obtain ⟨c, hstart, -⟩ := Call.start_spec net recipient transactionType s.emitters.length
      unfold System.start at hcall' ⊢
      rw [hstart] at hcall' ⊢
      obtain rfl := Option.some.inj hcall'
      exact .inr ⟨_, Call.txemitters_of_start hstart, rfl⟩
    | emit =>
      rw [show s.call = some c' from hcall'] at hcall
      cases hcall
    | receive _ h => rw [hcall] at h; cases h
    | close h => rw [hcall] at h; cases h
    | construct h => rw [hcall] at h; cases h
    | trySend h => rw [hcall] at h; cases h
    | goOn h => rw [hcall] at h; cases h
    | notified _ h => rw [hcall] at h; cases h

end TpsBench
