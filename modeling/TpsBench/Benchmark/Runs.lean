/-
  Runs of `bench` that go on forever.

  A run is any interleaving of the threads, and it may stand still. `Run.Fair` says that the
  emitters go on and that the nodes answer, `Run.Moves` that the main thread goes on. Neither says
  how the threads take turns.

  * `Fair.answers_all`, `Fair.takes_more`: an emitter answers everything, and empties its channel.
  * `exists_of_reachable`, `fair_of_quiet`, `moves_of_ended`: runs that come to a stand.
-/
import TpsBench.Benchmark.Steps

namespace TpsBench

open Lib

variable {depGroupTxHash : Byte32} {sign : Transaction → List UInt8} {s s' : System} {c : Call}
  {signed b : Built} {e e' : Emitter} {k t u T : ℕ}

/-! ## Runs -/

/-- A run that goes on forever, with all interleavings; it may stand still. -/
structure Run (depGroupTxHash : Byte32) (sign : Transaction → List UInt8) where
  state : ℕ → System
  start : state 0 = .init
  step : ∀ t, state (t + 1) = state t ∨ Step depGroupTxHash sign (state t) (state (t + 1))

namespace Run

variable {run : Run depGroupTxHash sign}

/-- An emitter that waits while its channel has a transaction takes one at some time, and the node
    gives a final answer to each at some time. -/
structure Fair (run : Run depGroupTxHash sign) : Prop where
  takes : ∀ (t k : ℕ) (e : Emitter), (run.state t).emitters[k]? = some e → e.ended = false →
    e.hand = none → e.queue ≠ [] → ∃ (u : ℕ) (e' : Emitter), t ≤ u ∧
      (run.state u).emitters[k]? = some e' ∧ e.taken.length < e'.taken.length
  answers : ∀ (t k : ℕ) (e : Emitter), (run.state t).emitters[k]? = some e → e.hand ≠ none →
    ∃ (u : ℕ) (e' : Emitter), t ≤ u ∧ (run.state u).emitters[k]? = some e' ∧
      e.answered.length < e'.answered.length

/-- While a call runs, the main thread takes a step at some time: also `recv` comes to an end. -/
def Moves (run : Run depGroupTxHash sign) : Prop :=
  ∀ t c, (run.state t).call = some c → ∃ u, t ≤ u ∧ (run.state u).call = some c ∧
    MainStep depGroupTxHash sign c (run.state u) (run.state (u + 1))

theorem reachable (run : Run depGroupTxHash sign) (t : ℕ) :
    Reachable depGroupTxHash sign (run.state t) := by
  induction t with
  | zero =>
    rw [run.start]
    exact .refl
  | succ t ih =>
    rcases run.step t with hsame | hstep
    · rw [hsame]
      exact ih
    · exact ih.tail hstep

theorem later (htu : t ≤ u) (hk : (run.state t).emitters[k]? = some e) :
    ∃ e', (run.state u).emitters[k]? = some e' ∧ e.Later e' := by
  induction u, htu using Nat.le_induction with
  | base => exact ⟨e, hk, .refl e⟩
  | succ u _ ih =>
    obtain ⟨e', hk', hlater⟩ := ih
    rcases run.step u with hsame | hstep
    · rw [hsame]
      exact ⟨e', hk', hlater⟩
    · obtain ⟨e'', hk'', hlater'⟩ := System.later_step hstep hk'
      exact ⟨e'', hk'', hlater.trans hlater'⟩

theorem later_of (run : Run depGroupTxHash sign) (htu : t ≤ u)
    (hk : (run.state t).emitters[k]? = some e) (hk' : (run.state u).emitters[k]? = some e') :
    e.Later e' := by
  obtain ⟨e₁, hk₁, hlater⟩ := later htu hk
  obtain rfl := Option.some.inj (hk₁.symm.trans hk')
  exact hlater

theorem valid (run : Run depGroupTxHash sign) (hk : (run.state t).emitters[k]? = some e) :
    e.Valid emitterCapacity :=
  (System.placed_of_reachable (run.reachable t)).valid e (List.mem_of_getElem? hk)

/-! ## The emitters go on -/

/-- While a transaction has no answer, its emitter gives another answer at some time. -/
theorem Fair.answers_more (hfair : run.Fair) {n : ℕ}
    (hk : (run.state t).emitters[k]? = some e) (hb : e.enqueued[n]? = some b)
    (hn : e.answered.length ≤ n) :
    ∃ (u : ℕ) (e' : Emitter), t ≤ u ∧ (run.state u).emitters[k]? = some e' ∧
      e.answered.length < e'.answered.length := by
  have hvalid := run.valid hk
  by_cases hhand : e.hand = none
  · obtain ⟨hqueue, hlive⟩ := (hvalid.busy hb hn).resolve_left (not_not_intro hhand)
    obtain ⟨u, e₁, htu, hk₁, htaken⟩ := hfair.takes t k e hk hlive hhand hqueue
    rw [Worker.length_taken_of_none hhand] at htaken
    by_cases hhand₁ : e₁.hand = none
    · rw [Worker.length_taken_of_none hhand₁] at htaken
      exact ⟨u, e₁, htu, hk₁, htaken⟩
    · obtain ⟨v, e₂, huv, hk₂, hmore⟩ := hfair.answers u k e₁ hk₁ hhand₁
      have hlater := run.later_of htu hk hk₁
      exact ⟨v, e₂, htu.trans huv, hk₂, hlater.answered.length_le.trans_lt hmore⟩
  · exact hfair.answers t k e hk hhand

/-- By induction on the number of transactions before it that have no answer. -/
theorem Fair.answers_all (hfair : run.Fair) {n : ℕ} :
    ∀ (d t : ℕ) (e : Emitter), (run.state t).emitters[k]? = some e →
      e.enqueued[n]? = some b → n < e.answered.length + d →
      ∃ (u : ℕ) (e' : Emitter), t ≤ u ∧ (run.state u).emitters[k]? = some e' ∧ b ∈ e'.answers := by
  intro d
  induction d with
  | zero =>
    intro t e hk hb hn
    have hvalid := run.valid hk
    exact ⟨t, e, le_rfl, hk, hvalid.mem_answers hb hn⟩
  | succ d ih =>
    intro t e hk hb hn
    by_cases hdone : n < e.answered.length
    · exact ih t e hk hb (by omega)
    · obtain ⟨u, e₁, htu, hk₁, hmore⟩ := hfair.answers_more hk hb (Nat.not_lt.mp hdone)
      have hlater := run.later_of htu hk hk₁
      have hb₁ : e₁.enqueued[n]? = some b := by
        obtain ⟨l, hl⟩ := hlater.enqueued
        rw [← hl, List.getElem?_append_left (List.getElem?_eq_some_iff.mp hb).1, hb]
      obtain ⟨v, e₂, huv, hk₂, hmem⟩ := ih u e₁ hk₁ hb₁ (by omega)
      exact ⟨v, e₂, htu.trans huv, hk₂, hmem⟩

theorem Fair.takes_more (hfair : run.Fair) (hk : (run.state t).emitters[k]? = some e)
    (hqueue : e.queue ≠ []) :
    ∃ (u : ℕ) (e' : Emitter), t ≤ u ∧ (run.state u).emitters[k]? = some e' ∧
      e.taken.length < e'.taken.length := by
  have hvalid := run.valid hk
  by_cases hhand : e.hand = none
  · exact hfair.takes t k e hk (hvalid.live hqueue) hhand hqueue
  -- first it has to be rid of the one in hand
  obtain ⟨u, e₁, htu, hk₁, hmore⟩ := hfair.answers t k e hk hhand
  have htaken : e.taken.length ≤ e.answered.length + 1 := by
    rw [Worker.length_taken]
    exact Nat.add_le_add_left Option.length_toList_le _
  by_cases henough : e.taken.length < e₁.taken.length
  · exact ⟨u, e₁, htu, hk₁, henough⟩
  have hvalid₁ := run.valid hk₁
  have hhand₁ : e₁.hand = none := by
    by_contra hsome
    obtain ⟨b, hb⟩ := Option.ne_none_iff_exists'.mp hsome
    have htaken₁ : e₁.taken.length = e₁.answered.length + 1 := by
      rw [Worker.length_taken, hb]
      rfl
    omega
  have hqueue₁ : e₁.queue ≠ [] := by
    have hlater := run.later_of htu hk hk₁
    have hle := hlater.enqueued.length_le
    rw [← hvalid.inOrder, ← hvalid₁.inOrder, Worker.length_messages, Worker.length_messages] at hle
    have hpos := List.length_pos_iff.mpr hqueue
    exact List.length_pos_iff.mp (by omega)
  obtain ⟨v, e₂, huv, hk₂, htaken₂⟩ :=
    hfair.takes u k e₁ hk₁ (hvalid₁.live hqueue₁) hhand₁ hqueue₁
  rw [Worker.length_taken_of_none hhand₁] at htaken₂
  exact ⟨v, e₂, htu.trans huv, hk₂, by omega⟩

/-! ## Runs that come to a stand -/

/-- A run that stands still can take one more step. -/
theorem exists_extend (run : Run depGroupTxHash sign) (hstill : ∀ u, T ≤ u → run.state u = s)
    (hstep : Step depGroupTxHash sign s s') :
    ∃ run' : Run depGroupTxHash sign, run'.state T = s ∧ ∀ u, T < u → run'.state u = s' := by
  refine ⟨⟨fun u => if u ≤ T then run.state u else s', ?_, fun u => ?_⟩, ?_, fun u hu => ?_⟩
  · rw [if_pos (Nat.zero_le T), run.start]
  · rcases Nat.lt_trichotomy u T with hlt | rfl | hlt
    · rw [if_pos hlt.le, if_pos (Nat.succ_le_of_lt hlt)]
      exact run.step u
    · rw [if_pos le_rfl, if_neg (Nat.not_succ_le_self u), hstill u le_rfl]
      exact .inr hstep
    · rw [if_neg hlt.not_ge, if_neg (by omega)]
      exact .inl rfl
  · show (if T ≤ T then run.state T else s') = s
    rw [if_pos le_rfl, hstill T le_rfl]
  · exact if_neg hu.not_ge

/-- Each reachable state is reached by a run, which then stands still. -/
theorem exists_of_reachable (h : Reachable depGroupTxHash sign s) :
    ∃ (run : Run depGroupTxHash sign) (t : ℕ), ∀ u, t ≤ u → run.state u = s := by
  induction h with
  | refl => exact ⟨⟨fun _ => .init, rfl, fun _ => .inl rfl⟩, 0, fun _ _ => rfl⟩
  | tail _ hstep ih =>
    obtain ⟨run, t, hstill⟩ := ih
    obtain ⟨run', -, hafter⟩ := run.exists_extend hstill hstep
    exact ⟨run', t + 1, fun u hu => hafter u (Nat.lt_of_succ_le hu)⟩

/-- A run that comes to a stand when no emitter has anything to do is fair. -/
theorem fair_of_quiet (hstill : ∀ u, T ≤ u → run.state u = s)
    (hquiet : ∀ e ∈ s.emitters, e.hand = none ∧ e.queue = []) : run.Fair := by
  -- what was sent at any time is answered in the end
  have hlast : ∀ (t k : ℕ) (e : Emitter), (run.state t).emitters[k]? = some e →
      ∃ (u : ℕ) (e' : Emitter), t ≤ u ∧ (run.state u).emitters[k]? = some e' ∧
        e'.hand = none ∧ e.messages.length ≤ e'.answered.length := by
    intro t k e hk
    obtain ⟨e', hk', hlater⟩ := later (le_max_left t T) hk
    have hmem := List.mem_of_getElem? hk'
    have hvalid := run.valid hk
    have hvalid' := run.valid hk'
    rw [hstill _ (le_max_right t T)] at hmem
    obtain ⟨hhand, hqueue⟩ := hquiet e' hmem
    refine ⟨max t T, e', le_max_left t T, hk', hhand, ?_⟩
    rw [hvalid.inOrder, ← hvalid'.length_answered hhand hqueue]
    exact hlater.enqueued.length_le
  refine ⟨fun t k e hk _ hhand hqueue => ?_, fun t k e hk hhand => ?_⟩
  · obtain ⟨u, e', htu, hk', hhand', hle⟩ := hlast t k e hk
    have hqueue := List.length_pos_iff.mpr hqueue
    rw [Worker.length_messages] at hle
    refine ⟨u, e', htu, hk', ?_⟩
    rw [Worker.length_taken_of_none hhand']
    omega
  · obtain ⟨u, e', htu, hk', -, hle⟩ := hlast t k e hk
    obtain ⟨b, hhand⟩ := Option.ne_none_iff_exists'.mp hhand
    rw [Worker.length_messages, Worker.length_taken, hhand] at hle
    exact ⟨u, e', htu, hk', by simp at hle; omega⟩

/-- A run that comes to a stand between two calls. -/
theorem moves_of_ended (hstill : ∀ u, T ≤ u → run.state u = s) (hcall : s.call = none) :
    run.Moves := by
  intro t c hc
  induction hd : T - t using Nat.strong_induction_on generalizing t with
  | _ d ih =>
    have hbefore : t < T := by
      by_contra hafter
      rw [hstill t (Nat.not_lt.mp hafter), hcall] at hc
      cases hc
    by_cases hsame : (run.state (t + 1)).call = some c
    · obtain ⟨u, htu, hu⟩ := ih (T - (t + 1)) (by omega) (t + 1) hsame rfl
      exact ⟨u, Nat.le_of_succ_le htu, hu⟩
    · rcases run.step t with hstays | hstep
      · rw [hstays] at hsame
        exact absurd hc hsame
      · rcases hstep.mainStep_or_emit hc with hmain | ⟨k, e, e', -, -, hemit⟩
        · exact ⟨t, le_rfl, hc, hmain⟩
        · rw [hemit] at hsame
          exact absurd hc hsame

end Run

end TpsBench
