/-
  Does a call of `bench` return, and does every transaction get an answer?

  `bench_never_stuck` says that the transaction on offer can be handed over. Here is what makes it
  happen: the threads go on, and the nodes answer. The main thread spins around `try_send` while the
  channels are full. Only the main thread fills them, so room that an emitter has made stays until
  the main thread comes to it.

  * `Run.Spins`: the main thread offers one transaction forever. `Fair.not_spins`: then each channel
    has room at some time, so it does not.
  * `bench_answers_all`: every transaction built is answered.
  * `bench_returns`: once the metrics are there, the call returns.
-/
import TpsBench.Benchmark.Progress
import TpsBench.Benchmark.Runs
import TpsBench.Benchmark.Value
import Mathlib.Order.Filter.AtTopBot.Basic
import Mathlib.Order.Filter.Finite

namespace TpsBench

open Lib

variable {depGroupTxHash : Byte32} {sign : Transaction → List UInt8} {s s' : System}
  {c c' : Call} {signed b : Built} {e e' : Emitter} {txemitters : List ℕ} {k t u v T : ℕ}

/-! ## The transaction on offer -/

/-- An attempt hands the transaction over, or the call goes on to offer it, to the same emitters. -/
theorem System.trySend_cases (s : System) (c : Call) (signed : Built) :
    (∃ c' e, (s.trySend c signed).call = some c' ∧ c'.phase = .sent ∧
      (s.trySend c signed).emitters[c.target]? = some e ∧ signed ∈ e.enqueued) ∨
    (s.trySend c signed = { s with call := some { c with cursor := c.nextCursor } } ∧
      ∀ e, s.emitters[c.target]? = some e → e.accepts emitterCapacity = false) := by
  unfold System.trySend
  cases he : s.emitters[c.target]? with
  | none => exact .inr ⟨rfl, fun e he => nomatch he⟩
  | some e =>
    dsimp only
    by_cases hroom : e.accepts emitterCapacity = true
    · rw [if_pos hroom]
      refine .inl ⟨_, e.put signed, rfl, rfl, ?_, ?_⟩
      · exact List.getElem?_set_self (List.getElem?_eq_some_iff.mp he).1
      · exact List.mem_append_right _ (List.mem_singleton_self signed)
    · rw [if_neg hroom]
      refine .inr ⟨rfl, fun e' he' => ?_⟩
      obtain rfl := Option.some.inj he'
      exact Bool.eq_false_of_not_eq_true hroom

theorem System.exists_of_mem_offered (hmem : signed ∈ s.offered) :
    ∃ c, s.call = some c ∧ c.phase = .offering signed := by
  unfold System.offered at hmem
  cases hcall : s.call with
  | none =>
    rw [hcall] at hmem
    cases hmem
  | some c =>
    rw [hcall] at hmem
    replace hmem : signed ∈ c.offered := hmem
    unfold Call.offered at hmem
    split at hmem
    next signed' hphase =>
      obtain rfl := List.mem_singleton.mp hmem
      exact ⟨c, rfl, hphase⟩
    next => cases hmem

namespace Run

variable {run : Run depGroupTxHash sign}

/-- From `t` on the main thread offers `signed` to the emitters `txemitters`. -/
def Spins (run : Run depGroupTxHash sign) (t : ℕ) (signed : Built) (txemitters : List ℕ) : Prop :=
  ∀ u, t ≤ u → ∃ c, (run.state u).call = some c ∧ c.phase = .offering signed ∧
    c.txemitters = txemitters

theorem Spins.refused (hspins : run.Spins t signed txemitters) (htu : t ≤ u)
    (hcall : (run.state u).call = some c)
    (hmain : MainStep depGroupTxHash sign c (run.state u) (run.state (u + 1))) :
    (run.state (u + 1)).emitters = (run.state u).emitters ∧
    ∀ e, (run.state u).emitters[c.target]? = some e → e.accepts emitterCapacity = false := by
  obtain ⟨c₁, hc₁, hphase, -⟩ := hspins u htu
  obtain rfl := Option.some.inj (hcall.symm.trans hc₁)
  have hnext := hmain.offering hphase
  rcases (run.state u).trySend_cases c signed with ⟨c', e, hc', hsent, -⟩ | ⟨hsame, hfull⟩
  · obtain ⟨c₂, hc₂, hphase₂, -⟩ := hspins (u + 1) (Nat.le_succ_of_le htu)
    rw [hnext, hc'] at hc₂
    obtain rfl := Option.some.inj hc₂
    rw [hsent] at hphase₂
    cases hphase₂
  · rw [hnext, hsame]
    exact ⟨rfl, hfull⟩

theorem Spins.step (hspins : run.Spins t signed txemitters) (htu : t ≤ u)
    (hk : (run.state u).emitters[k]? = some e) :
    ∃ e', (run.state (u + 1)).emitters[k]? = some e' ∧ e'.enqueued = e.enqueued ∧
      e'.queue.length ≤ e.queue.length := by
  obtain ⟨c, hcall, -⟩ := hspins u htu
  rcases run.step u with hsame | hstep
  · exact ⟨e, by rw [hsame, hk], rfl, le_rfl⟩
  rcases hstep.mainStep_or_emit hcall with hmain | ⟨k', e₀, e₁, hk', hemit, hnext⟩
  · obtain ⟨hemitters, -⟩ := hspins.refused htu hcall hmain
    exact ⟨e, by rw [hemitters, hk], rfl, le_rfl⟩
  · rw [hnext]
    by_cases heq : k' = k
    · subst heq
      obtain rfl := Option.some.inj (hk'.symm.trans hk)
      exact ⟨e₁, List.getElem?_set_self (List.getElem?_eq_some_iff.mp hk).1, hemit.enqueued,
        hemit.length_queue_le⟩
    · exact ⟨e, (List.getElem?_set_ne heq).trans hk, rfl, le_rfl⟩

theorem Spins.later (hspins : run.Spins t signed txemitters) (htu : t ≤ u) (huv : u ≤ v)
    (hk : (run.state u).emitters[k]? = some e) :
    ∃ e', (run.state v).emitters[k]? = some e' ∧ e'.enqueued = e.enqueued ∧
      e'.queue.length ≤ e.queue.length := by
  induction v, huv using Nat.le_induction with
  | base => exact ⟨e, hk, rfl, le_rfl⟩
  | succ v huv ih =>
    obtain ⟨e₁, hk₁, henqueued₁, hle₁⟩ := ih
    obtain ⟨e₂, hk₂, henqueued₂, hle₂⟩ := hspins.step (htu.trans huv) hk₁
    exact ⟨e₂, hk₂, henqueued₂.trans henqueued₁, hle₂.trans hle₁⟩

/-- Each of the emitters makes room, and the room stays. -/
theorem Fair.eventually_room (hfair : run.Fair) (hspins : run.Spins t signed txemitters)
    (hmem : k ∈ txemitters) :
    ∀ᶠ u in Filter.atTop, ∃ e, (run.state u).emitters[k]? = some e ∧
      e.accepts emitterCapacity = true := by
  have hserved : ∀ u, t ≤ u → ∃ e, (run.state u).emitters[k]? = some e ∧ e.ended = false := by
    intro u htu
    obtain ⟨c, hcall, -, rfl⟩ := hspins u htu
    exact System.served_of_reachable (run.reachable u) c hcall k hmem
  have hroom : ∃ u e, t ≤ u ∧ (run.state u).emitters[k]? = some e ∧
      e.queue.length < emitterCapacity := by
    obtain ⟨e, hk, -⟩ := hserved t le_rfl
    by_cases hfull : e.queue.length < emitterCapacity
    · exact ⟨t, e, le_rfl, hk, hfull⟩
    have hqueue : e.queue ≠ [] := by
      intro hnil
      rw [hnil] at hfull
      exact hfull (by decide)
    obtain ⟨u, e₁, htu, hk₁, htaken⟩ := hfair.takes_more hk hqueue
    obtain ⟨e₁', hk₁', henqueued, -⟩ := hspins.later le_rfl htu hk
    obtain rfl := Option.some.inj (hk₁.symm.trans hk₁')
    have hvalid := run.valid hk
    have hvalid₁ := run.valid hk₁
    have hlen := congrArg List.length henqueued
    rw [← hvalid.inOrder, ← hvalid₁.inOrder, Worker.length_messages, Worker.length_messages] at hlen
    have hbounded := hvalid.bounded
    exact ⟨u, e₁, htu, hk₁, by omega⟩
  obtain ⟨u, e, htu, hk, hroom⟩ := hroom
  filter_upwards [Filter.eventually_ge_atTop u] with v huv
  obtain ⟨e₁, hk₁, -, hle⟩ := hspins.later htu huv hk
  obtain ⟨e₁', hk₁', hlive⟩ := hserved v (htu.trans huv)
  obtain rfl := Option.some.inj (hk₁.symm.trans hk₁')
  refine ⟨e₁, hk₁, ?_⟩
  unfold Worker.accepts
  rw [hlive, decide_eq_true (hle.trans_lt hroom)]
  rfl

/-- So the main thread does not spin forever. -/
theorem Fair.not_spins (hfair : run.Fair) (hmoves : run.Moves) :
    ¬ run.Spins t signed txemitters := by
  intro hspins
  have hroom : ∀ᶠ u in Filter.atTop, ∀ k ∈ txemitters, ∃ e,
      (run.state u).emitters[k]? = some e ∧ e.accepts emitterCapacity = true :=
    (Filter.eventually_all_finite (List.finite_toSet txemitters)).mpr
      fun k hmem => hfair.eventually_room hspins hmem
  obtain ⟨w, hw⟩ := Filter.eventually_atTop.mp hroom
  obtain ⟨c, hcall, -⟩ := hspins (max t w) (le_max_left t w)
  obtain ⟨u, hu, hcall', hmain⟩ := hmoves (max t w) c hcall
  obtain ⟨htu, hwu⟩ := max_le_iff.mp hu
  obtain ⟨-, hfull⟩ := hspins.refused htu hcall' hmain
  obtain ⟨c', hc', -, rfl⟩ := hspins u htu
  obtain rfl := Option.some.inj (hcall'.symm.trans hc')
  obtain ⟨e, he, haccepts⟩ := hw u hwu c.target c.target_mem
  rw [hfull e he] at haccepts
  cases haccepts

/-- The transaction on offer is handed over. -/
theorem Fair.hands_over (hfair : run.Fair) (hmoves : run.Moves)
    (hcall : (run.state t).call = some c) (hphase : c.phase = .offering signed) :
    ∃ (u : ℕ) (c' : Call) (k : ℕ) (e : Emitter), t ≤ u ∧ (run.state u).call = some c' ∧
      c'.phase = .sent ∧ (run.state u).emitters[k]? = some e ∧ signed ∈ e.enqueued := by
  by_contra hnever
  have hspins : run.Spins t signed c.txemitters := by
    intro u htu
    induction u, htu using Nat.le_induction with
    | base => exact ⟨c, hcall, hphase, rfl⟩
    | succ u htu ih =>
      obtain ⟨c₁, hc₁, hphase₁, htxemitters⟩ := ih
      rcases run.step u with hsame | hstep
      · exact ⟨c₁, by rw [hsame, hc₁], hphase₁, htxemitters⟩
      rcases hstep.mainStep_or_emit hc₁ with hmain | ⟨k, e, e', -, -, hnext⟩
      · have hnext := hmain.offering hphase₁
        rcases (run.state u).trySend_cases c₁ signed with ⟨c', e, hc', hsent, he, hb⟩ | ⟨hagain, -⟩
        · rw [← hnext] at hc' he
          exact absurd ⟨u + 1, c', _, e, Nat.le_succ_of_le htu, hc', hsent, he, hb⟩ hnever
        · exact ⟨{ c₁ with cursor := c₁.nextCursor }, by rw [hnext, hagain], hphase₁, htxemitters⟩
      · exact ⟨c₁, by rw [hnext]; exact hc₁, hphase₁, htxemitters⟩
  exact hfair.not_spins hmoves hspins

end Run

/-- **Every transaction is answered.** In a run in which no emitter waits forever while its channel
    has a transaction, in which every transaction that an emitter sends again and again has a final
    answer at some time, and in which the main thread goes on, every transaction that was built is
    answered at some time: also after the call has returned. -/
theorem bench_answers_all (depGroupTxHash : Byte32) (sign : Transaction → List UInt8)
    (run : Run depGroupTxHash sign) (hfair : run.Fair) (hmoves : run.Moves) (t : ℕ) (b : Built)
    (hb : b ∈ (run.state t).built) :
    ∃ (u k : ℕ) (e : Emitter), t ≤ u ∧ (run.state u).emitters[k]? = some e ∧ b ∈ e.answers := by
  have hplaced := System.placed_of_reachable (run.reachable t)
  have henqueued : ∃ (u k : ℕ) (e : Emitter), t ≤ u ∧ (run.state u).emitters[k]? = some e ∧
      b ∈ e.enqueued := by
    rcases List.mem_append.mp (hplaced.places.mem_iff.mpr hb) with hoffered | hsent
    · obtain ⟨c, hcall, hphase⟩ := System.exists_of_mem_offered hoffered
      obtain ⟨u, -, k, e, htu, -, -, hk, hmem⟩ := hfair.hands_over hmoves hcall hphase
      exact ⟨u, k, e, htu, hk, hmem⟩
    · obtain ⟨e, he, hmem⟩ := List.mem_flatMap.mp hsent
      obtain ⟨k, hk⟩ := List.mem_iff_getElem?.mp he
      rw [(hplaced.valid e he).inOrder] at hmem
      exact ⟨t, k, e, le_rfl, hk, hmem⟩
  obtain ⟨u, k, e, htu, hk, hmem⟩ := henqueued
  obtain ⟨n, hn⟩ := List.mem_iff_getElem?.mp hmem
  obtain ⟨v, e', huv, hk', hanswered⟩ := hfair.answers_all (n + 1) u e hk hn (by omega)
  exact ⟨v, k, e', htu.trans huv, hk', hanswered⟩

/-! ## The end of a call -/

namespace Run

variable {run : Run depGroupTxHash sign}

theorem received_prefix (run : Run depGroupTxHash sign) (htu : t ≤ u) :
    (run.state t).received <+: (run.state u).received := by
  induction u, htu using Nat.le_induction with
  | base => exact List.prefix_rfl
  | succ u _ ih =>
    rcases run.step u with hsame | hstep
    · rw [hsame]
      exact ih
    · exact ih.trans (System.received_step hstep)

/-- A running call that is gone later, without a panic, has returned. -/
theorem exists_returned (hrunning : ∀ u, (run.state u).crashed = none) (n : ℕ)
    (hcall : (run.state t).call = some c) (hgone : (run.state (t + n)).call = none) :
    ∃ u r, t ≤ u ∧ (run.state u).call = none ∧
      (run.state u).returned = (run.state t).returned ++ [r] := by
  induction n generalizing t c with
  | zero =>
    rw [Nat.add_zero, hcall] at hgone
    cases hgone
  | succ n ih =>
    rw [Nat.add_comm n 1, ← Nat.add_assoc] at hgone
    have hnext : (∃ c', (run.state (t + 1)).call = some c' ∧
        (run.state (t + 1)).returned = (run.state t).returned) ∨
        ((run.state (t + 1)).call = none ∧
          ∃ r, (run.state (t + 1)).returned = (run.state t).returned ++ [r]) := by
      rcases run.step t with hsame | hstep
      · exact .inl ⟨c, by rw [hsame, hcall], by rw [hsame]⟩
      · rcases hstep.call_cases hcall with ⟨c', hcall', -, hreturned⟩ | ⟨hnone, hcrashed | hr⟩
        · exact .inl ⟨c', hcall', hreturned⟩
        · exact absurd (hrunning (t + 1)) hcrashed
        · exact .inr ⟨hnone, hr⟩
    rcases hnext with ⟨c', hcall', hreturned⟩ | ⟨hnone, r, hreturned⟩
    · obtain ⟨u, r, htu, hnone, hr⟩ := ih hcall' hgone
      rw [hreturned] at hr
      exact ⟨u, r, Nat.le_of_succ_le htu, hnone, hr⟩
    · exact ⟨t + 1, r, Nat.le_succ t, hnone, hreturned⟩

/-- From `T` on the metrics are there when the main thread asks for them. -/
def Notifies (run : Run depGroupTxHash sign) (T : ℕ) : Prop :=
  ∀ u, T ≤ u → ∀ c, (run.state u).call = some c → c.phase = .sent →
    (run.state (u + 1)).call = some c ∨ (run.state (u + 1)).call = none

theorem Notifies.gone_of_sent (hnotifies : run.Notifies T) (hmoves : run.Moves) (hTt : T ≤ t)
    (hcall : (run.state t).call = some c) (hphase : c.phase = .sent) :
    ∃ u, t ≤ u ∧ (run.state u).call = none := by
  obtain ⟨u, htu, hcall', hmain⟩ := hmoves t c hcall
  have hnext := hnotifies u (hTt.trans htu) c hcall' hphase
  rcases hmain.sent hphase with hagain | ⟨metrics, hret⟩
  · rw [hagain] at hnext
    rcases hnext with hsame | hnone
    · rw [← Option.some.inj hsame] at hphase
      cases hphase
    · cases hnone
  · exact ⟨u + 1, Nat.le_succ_of_le htu, by rw [hret]; rfl⟩

theorem Notifies.gone_of_constructing (hnotifies : run.Notifies T) (hfair : run.Fair)
    (hmoves : run.Moves) (hTt : T ≤ t) (hcall : (run.state t).call = some c)
    (hphase : c.phase = .constructing) : ∃ u, t ≤ u ∧ (run.state u).call = none := by
  obtain ⟨u, htu, -, hmain⟩ := hmoves t c hcall
  have hnext := hmain.constructing hphase
  unfold System.construct at hnext
  cases hbuild : c.construct depGroupTxHash sign (run.state u).built.length with
  | error e =>
    rw [hbuild] at hnext
    exact ⟨u + 1, Nat.le_succ_of_le htu, by rw [hnext]; rfl⟩
  | ok signed =>
    rw [hbuild] at hnext
    have hcall₁ : (run.state (u + 1)).call = some (c.offer signed) := by rw [hnext]; rfl
    obtain ⟨v, c', -, -, huv, hcall', hsent, -, -⟩ := hfair.hands_over hmoves hcall₁ rfl
    have htv : t ≤ v := (Nat.le_succ_of_le htu).trans huv
    obtain ⟨w, hvw, hnone⟩ := hnotifies.gone_of_sent hmoves (hTt.trans htv) hcall' hsent
    exact ⟨w, htv.trans hvw, hnone⟩

/-- By induction on the capacity that the inputs lack. -/
theorem Notifies.gone_of_receiving (hnotifies : run.Notifies T) (hfair : run.Fair)
    (hmoves : run.Moves) (hpos : ∀ t, ∀ utxo ∈ (run.state t).received, 0 < utxo.capacity)
    (hTt : T ≤ t) (hcall : (run.state t).call = some c) (hphase : c.phase = .receiving) :
    ∃ u, t ≤ u ∧ (run.state u).call = none := by
  induction hlacks : c.minInputTotalCapacity - c.inputTotalCapacity using
    Nat.strong_induction_on generalizing t c with
  | _ lacks ih =>
    obtain ⟨u, htu, -, hmain⟩ := hmoves t c hcall
    rcases hmain.receiving hphase with ⟨utxo, hnext⟩ | hclose
    · have hreceived : utxo ∈ (run.state (u + 1)).received := by
        rw [hnext, System.received_receive]
        exact List.mem_append_right _ (List.mem_singleton_self utxo)
      have hutxo := hpos (u + 1) utxo hreceived
      unfold System.receive at hnext
      cases hreceive : c.receive utxo with
      | error e =>
        rw [hreceive] at hnext
        exact ⟨u + 1, Nat.le_succ_of_le htu, by rw [hnext]; rfl⟩
      | ok c' =>
        rw [hreceive] at hnext
        have hcall' : (run.state (u + 1)).call = some c' := by rw [hnext]; rfl
        have hTu : T ≤ u + 1 := hTt.trans (Nat.le_succ_of_le htu)
        obtain ⟨-, rfl⟩ := Call.receive_eq_ok.mp hreceive
        by_cases henough : c.inputTotalCapacity + utxo.capacity < c.minInputTotalCapacity
        · obtain ⟨v, huv, hnone⟩ := ih _ (by dsimp only; omega) hTu hcall' (if_pos henough) rfl
          exact ⟨v, (Nat.le_succ_of_le htu).trans huv, hnone⟩
        · obtain ⟨v, huv, hnone⟩ :=
            hnotifies.gone_of_constructing hfair hmoves hTu hcall' (if_neg henough)
          exact ⟨v, (Nat.le_succ_of_le htu).trans huv, hnone⟩
    · exact ⟨u + 1, Nat.le_succ_of_le htu, by rw [hclose]; rfl⟩

end Run

/-- **A call returns.** Take a run as above in which each cell received has a shannon or more, but
    less than 2^63, and in which from some time on the metrics are there when the main thread asks
    for them. A call that runs then, or later, returns, whatever it waits for, and does not panic:
    also when all channels are full. -/
theorem bench_returns (depGroupTxHash : Byte32) (sign : Transaction → List UInt8)
    (run : Run depGroupTxHash sign) (hfair : run.Fair) (hmoves : run.Moves)
    (hcells : ∀ t, ∀ utxo ∈ (run.state t).received, 0 < utxo.capacity ∧ utxo.capacity < 2 ^ 63)
    (T : ℕ) (hnotifies : run.Notifies T) (t : ℕ) (hTt : T ≤ t) (c : Call)
    (hcall : (run.state t).call = some c) :
    ∃ u r, t ≤ u ∧ (run.state u).call = none ∧ (run.state u).crashed = none ∧
      (run.state u).returned = (run.state t).returned ++ [r] := by
  have hpos := fun t utxo hutxo => (hcells t utxo hutxo).1
  have hrunning : ∀ u, (run.state u).crashed = none := fun u =>
    (System.accounted_of_small (run.reachable u) fun utxo hutxo => (hcells u utxo hutxo).2).running
  have hgone : ∃ u, t ≤ u ∧ (run.state u).call = none := by
    cases hphase : c.phase with
    | receiving => exact hnotifies.gone_of_receiving hfair hmoves hpos hTt hcall hphase
    | constructing => exact hnotifies.gone_of_constructing hfair hmoves hTt hcall hphase
    | offering signed =>
      obtain ⟨u, c', -, -, htu, hcall', hsent, -, -⟩ := hfair.hands_over hmoves hcall hphase
      obtain ⟨v, huv, hnone⟩ := hnotifies.gone_of_sent hmoves (hTt.trans htu) hcall' hsent
      exact ⟨v, htu.trans huv, hnone⟩
    | sent => exact hnotifies.gone_of_sent hmoves hTt hcall hphase
  obtain ⟨u, htu, hnone⟩ := hgone
  obtain ⟨n, rfl⟩ := Nat.exists_eq_add_of_le htu
  obtain ⟨v, r, htv, hgone, hreturned⟩ := Run.exists_returned hrunning n hcall hnone
  exact ⟨v, r, htv, hgone, hrunning v, hreturned⟩

/-! ## A sample run -/

namespace Sample

set_option maxRecDepth 20000 in
/-- The only transaction is answered, and the main thread has not asked for the metrics. -/
theorem exists_before_return : ∃ s c, Reachable 0 (fun _ => []) s ∧ s.call = some c ∧
    c.phase = .sent ∧ s.built = [built] ∧ s.received = [ckbCell 0 100, ckbCell 1 30] ∧
    ∀ e ∈ s.emitters, e.hand = none ∧ e.queue = [] := by
  have h : Reachable 0 (fun _ => []) .init := .refl
  have h := h.tail (.start (.connectAll ["http://a"] (by decide)) account .in2Out2 rfl rfl)
  have h := h.tail (.receive (ckbCell 0 100) rfl rfl rfl)
  have h := h.tail (.receive (ckbCell 1 30) rfl rfl rfl)
  have h := h.tail (.construct rfl rfl)
  have h := h.tail (.trySend rfl rfl)
  have h := h.tail (.emit (k := 0) rfl (.take rfl rfl rfl))
  have h := h.tail (.emit (k := 0) rfl (.answer (r := Answer.ok 9) rfl rfl))
  refine ⟨_, _, h, rfl, rfl, rfl, rfl, fun e he => ?_⟩
  obtain rfl := List.mem_singleton.mp he
  exact ⟨rfl, rfl⟩

/-- At time `t` it asks, and the call returns. -/
theorem exists_returning_run : ∃ (run : Run 0 (fun _ => [])) (t : ℕ) (c : Call),
    run.Fair ∧ run.Moves ∧ (run.state t).call = some c ∧ (run.state t).built = [built] ∧
    (∀ u, t < u → (run.state u).call = none) ∧
    ∀ u, (run.state u).received <+: [ckbCell 0 100, ckbCell 1 30] := by
  obtain ⟨s, c, h, hcall, hphase, hbuilt, hreceived, hquiet⟩ := exists_before_return
  obtain ⟨run, t, hstill⟩ := Run.exists_of_reachable h
  obtain ⟨run, ht, hafter⟩ := run.exists_extend hstill (.notified metrics hcall hphase)
  have hstill : ∀ u, t + 1 ≤ u → run.state u = s.ret c (some metrics) :=
    fun u hu => hafter u (Nat.lt_of_succ_le hu)
  refine ⟨run, t, c, Run.fair_of_quiet hstill hquiet, Run.moves_of_ended hstill rfl, ht ▸ hcall,
    ht ▸ hbuilt, fun u hu => ?_, fun u => ?_⟩
  · rw [hafter u hu]
    rfl
  · have hlast : (run.state (max u (t + 1))).received = [ckbCell 0 100, ckbCell 1 30] := by
      rw [hstill _ (le_max_right _ _)]
      exact hreceived
    exact hlast ▸ run.received_prefix (le_max_left _ _)

theorem bench_answers_all_sample :
    ∃ (run : Run 0 (fun _ => [])) (u k : ℕ) (e : Emitter),
      (run.state u).emitters[k]? = some e ∧ built ∈ e.answers := by
  obtain ⟨run, t, -, hfair, hmoves, -, hbuilt, -, -⟩ := exists_returning_run
  have hmem : built ∈ (run.state t).built := by
    rw [hbuilt]
    exact List.mem_singleton_self built
  obtain ⟨u, k, e, -, hk, hanswered⟩ :=
    bench_answers_all 0 (fun _ => []) run hfair hmoves t built hmem
  exact ⟨run, u, k, e, hk, hanswered⟩

theorem bench_returns_sample :
    ∃ (run : Run 0 (fun _ => [])) (t u : ℕ) (r : Returned), (run.state t).call ≠ none ∧
      (run.state u).call = none ∧ (run.state u).returned = (run.state t).returned ++ [r] := by
  obtain ⟨run, t, c, hfair, hmoves, hcall, -, hafter, hreceived⟩ := exists_returning_run
  have hcells : ∀ u, ∀ utxo ∈ (run.state u).received,
      0 < utxo.capacity ∧ utxo.capacity < 2 ^ 63 := by
    intro u utxo hutxo
    have hall : ∀ utxo ∈ [ckbCell 0 100, ckbCell 1 30],
        0 < utxo.capacity ∧ utxo.capacity < 2 ^ 63 := by decide
    exact hall utxo ((hreceived u).subset hutxo)
  have hnotifies : run.Notifies t := fun u htu c _ _ => .inr (hafter (u + 1) (by omega))
  obtain ⟨u, r, -, hnone, -, hreturned⟩ := bench_returns 0 (fun _ => []) run hfair hmoves hcells t
    hnotifies t le_rfl c hcall
  exact ⟨run, t, u, r, by simp [hcall], hnone, hreturned⟩

end Sample

end TpsBench
