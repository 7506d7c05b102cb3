/-
  Asking one place after the other. General library: any type `α` of places.

  `sweep` asks each place once, and stops at the first that says no. `poll` sweeps until all say
  yes. Each question has a time of its own, so a sweep that all places have passed says something
  about different times. If a yes is never taken back, it says something about one.

  * `sweep_eq_true`: what a sweep has seen.
  * `poll_ends_iff`, `ask_of_poll`: where a yes is never taken back.
  * `sweep_misses`: where it is, every place can pass although at all times one would not.
-/
import Mathlib.Order.Filter.AtTopBot.Basic
import Mathlib.Order.Filter.Finite

namespace TpsBench.Lib

variable {α : Type} {ask : ℕ → α → Bool} {as : List α} {a b : α} {s t u v fuel : ℕ}

/-! ## One sweep -/

/-- Do all places say yes, if the first is asked at `t`? And the time after the last question. -/
def sweep (ask : ℕ → α → Bool) : List α → ℕ → Bool × ℕ
  | [], t => (true, t)
  | a :: as, t => if ask t a then sweep ask as (t + 1) else (false, t + 1)

theorem sweep_eq_true :
    sweep ask as t = (true, u) ↔
      u = t + as.length ∧ ∀ k a, as[k]? = some a → ask (t + k) a = true := by
  induction as generalizing t with
  | nil =>
    constructor
    · intro h
      obtain rfl : t = u := congrArg Prod.snd h
      exact ⟨rfl, fun k a ha => nomatch ha⟩
    · rintro ⟨rfl, -⟩
      rfl
  | cons a as ih =>
    unfold sweep
    cases ha : ask t a with
    | false =>
      constructor
      · intro h
        cases h
      · rintro ⟨-, hall⟩
        have htrue : ask t a = true := hall 0 a rfl
        rw [ha] at htrue
        cases htrue
    | true =>
      rw [if_pos rfl, ih, List.length_cons]
      constructor
      · rintro ⟨rfl, hall⟩
        refine ⟨by omega, fun k b hb => ?_⟩
        cases k with
        | zero =>
          obtain rfl := Option.some.inj hb
          exact ha
        | succ k =>
          rw [← Nat.add_assoc, Nat.add_right_comm]
          exact hall k b hb
      · rintro ⟨rfl, hall⟩
        refine ⟨by omega, fun k b hb => ?_⟩
        rw [Nat.add_right_comm]
        exact hall (k + 1) b hb

theorem lt_of_sweep_eq_false (h : sweep ask as t = (false, u)) : t < u := by
  induction as generalizing t with
  | nil => cases h
  | cons a as ih =>
    unfold sweep at h
    split at h
    · exact Nat.lt_of_succ_lt (ih h)
    · obtain rfl : t + 1 = u := congrArg Prod.snd h
      exact Nat.lt_succ_self t

/-- What a place said when it was asked. -/
theorem ask_of_sweep (h : sweep ask as t = (true, u)) (ha : a ∈ as) :
    ∃ v, v < u ∧ ask v a = true := by
  obtain ⟨rfl, hall⟩ := sweep_eq_true.mp h
  obtain ⟨k, hk⟩ := List.mem_iff_getElem?.mp ha
  exact ⟨t + k, Nat.add_lt_add_left (List.getElem?_eq_some_iff.mp hk).1 t, hall k a hk⟩

/-! ## Sweeps until all say yes -/

/-- The time after the last question, if one of the first `fuel` sweeps is the last. -/
def poll (ask : ℕ → α → Bool) (as : List α) : ℕ → ℕ → Option ℕ
  | 0, _ => none
  | fuel + 1, t =>
    match sweep ask as t with
    | (true, u) => some u
    | (false, u) => poll ask as fuel u

theorem sweep_of_poll (h : poll ask as fuel t = some u) :
    ∃ s, t ≤ s ∧ sweep ask as s = (true, u) := by
  induction fuel generalizing t with
  | zero => cases h
  | succ fuel ih =>
    unfold poll at h
    split at h
    next v hsweep =>
      obtain rfl := Option.some.inj h
      exact ⟨t, le_rfl, hsweep⟩
    next v hsweep =>
      obtain ⟨s, hvs, hlast⟩ := ih h
      exact ⟨s, (lt_of_sweep_eq_false hsweep).le.trans hvs, hlast⟩

/-- By induction on the time until all say yes and go on to. -/
theorem exists_poll (h : ∀ v, u ≤ v → ∀ a ∈ as, ask v a = true) (t : ℕ) :
    ∃ fuel v, poll ask as fuel t = some v := by
  induction hd : u - t using Nat.strong_induction_on generalizing t with
  | _ d ih =>
    cases hsweep : sweep ask as t with
    | mk passed w =>
      cases passed with
      | true =>
        refine ⟨1, w, ?_⟩
        unfold poll
        rw [hsweep]
      | false =>
        have htw := lt_of_sweep_eq_false hsweep
        have htu : t < u := by
          by_contra hlate
          have hall : sweep ask as t = (true, t + as.length) := sweep_eq_true.mpr
            ⟨rfl, fun k a hk => h (t + k) (by omega) a (List.mem_of_getElem? hk)⟩
          rw [hsweep] at hall
          cases hall
        obtain ⟨fuel, v, hpoll⟩ := ih (u - w) (by omega) w rfl
        refine ⟨fuel + 1, v, ?_⟩
        unfold poll
        rw [hsweep]
        exact hpoll

section Stable

variable (hstable : ∀ a ∈ as, Monotone fun t => ask t a)

include hstable

theorem ask_of_poll (h : poll ask as fuel t = some u) (huv : u ≤ v + 1) (ha : a ∈ as) :
    ask v a = true := by
  obtain ⟨s, -, hsweep⟩ := sweep_of_poll h
  obtain ⟨w, hwu, hyes⟩ := ask_of_sweep hsweep ha
  exact Bool.eq_true_of_true_le (hyes ▸ hstable a ha (Nat.le_of_lt_succ (hwu.trans_le huv)))

theorem poll_ends_iff :
    (∃ fuel u, poll ask as fuel t = some u) ↔ ∀ a ∈ as, ∃ v, ask v a = true := by
  constructor
  · rintro ⟨fuel, u, hpoll⟩ a ha
    exact ⟨u, ask_of_poll hstable hpoll (Nat.le_succ u) ha⟩
  · intro h
    have hlate : ∀ᶠ v in Filter.atTop, ∀ a ∈ as, ask v a = true := by
      refine (Filter.eventually_all_finite (List.finite_toSet as)).mpr fun a ha => ?_
      obtain ⟨v, hyes⟩ := h a ha
      filter_upwards [Filter.eventually_ge_atTop v] with w hvw
      exact Bool.eq_true_of_true_le (hyes ▸ hstable a ha hvw)
    obtain ⟨v, hall⟩ := Filter.eventually_atTop.mp hlate
    exact exists_poll hall t

end Stable

/-! ## What a sweep does not see -/

variable [DecidableEq α]

/-- One place says no, until `t` it is `b`, and then `a`, which has been asked by then. -/
theorem sweep_misses (hnodup : (a :: as).Nodup) (hb : b ∈ as) (t : ℕ) :
    sweep (fun u x => decide (x ≠ if u ≤ t then b else a)) (a :: as) t =
      (true, t + (a :: as).length) := by
  have hne : a ≠ b := by
    rintro rfl
    exact (List.nodup_cons.mp hnodup).1 hb
  refine sweep_eq_true.mpr ⟨rfl, fun k x hx => decide_eq_true ?_⟩
  cases k with
  | zero =>
    obtain rfl := Option.some.inj hx
    rw [if_pos (Nat.add_zero t).le]
    exact hne
  | succ k =>
    rw [if_neg (by omega)]
    rintro rfl
    exact (List.nodup_cons.mp hnodup).1 (List.mem_of_getElem? hx)

end TpsBench.Lib
