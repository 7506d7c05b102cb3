/-
  Halving brackets of natural numbers. General library.

  A bracket `[l, r]` with more than two numbers is cut at its middle, and a choice, which may look
  at the bracket only, takes one of the halves. `Visits` are the brackets of such a run, and
  `Towards p` those of the run that always takes the half with `p`, until `p` is the middle.

  * `half_nested`: a half is strictly smaller, and at least about half as wide.
  * `Halvings.le_of_width`, `Halvings.le_of_narrow`: how often a bracket can be halved, and how
    often it has to be until it is narrow.
  * `visits_contain_iff`: every visited bracket contains `p` if and only if the choice is right on
    the way towards `p`.
  * `SinglePeaked.isMaxOn_iff`: a function that strictly increases up to `p` and strictly decreases
    after it has its maximum at `p` and nowhere else.
-/
import Mathlib.Order.Monotone.Basic
import Mathlib.Order.Filter.Extr
import Mathlib.Order.Interval.Set.Defs
import Mathlib.Tactic.Ring

namespace TpsBench.Lib

/-! ## Brackets -/

def middle (b : ℕ × ℕ) : ℕ := (b.1 + b.2) / 2

variable {b b' start : ℕ × ℕ} {p : ℕ} {choose : ℕ × ℕ → Bool}

/-- The half that is taken: the upper one if `upper`. -/
def half (upper : Bool) (b : ℕ × ℕ) : ℕ × ℕ := if upper then (middle b, b.2) else (b.1, middle b)

theorem middle_mem (h : b.1 + 1 < b.2) : b.1 < middle b ∧ middle b < b.2 := by
  unfold middle
  omega

/-- Both ends stay or move inwards, one of them moves, and no half is less than half as wide. -/
theorem half_nested (upper : Bool) (h : b.1 + 1 < b.2) :
    b.1 ≤ (half upper b).1 ∧ (half upper b).2 ≤ b.2 ∧ (half upper b).1 < (half upper b).2 ∧
      (half upper b).2 - (half upper b).1 < b.2 - b.1 ∧
      b.2 - b.1 ≤ 2 * ((half upper b).2 - (half upper b).1) + 1 := by
  unfold half middle
  split <;> dsimp only <;> omega

theorem half_width_le (upper : Bool) (h : b.1 + 1 < b.2) :
    2 * ((half upper b).2 - (half upper b).1) ≤ b.2 - b.1 + 1 := by
  unfold half middle
  split <;> dsimp only <;> omega

/-! ## The number of halvings -/

/-- `b'` is what is left of `b` after `n` halvings. -/
inductive Halvings (b : ℕ × ℕ) : ℕ → ℕ × ℕ → Prop
  | none : Halvings b 0 b
  | halve {n : ℕ} {b' : ℕ × ℕ} (upper : Bool) (h : Halvings b n b') (hwide : b'.1 + 1 < b'.2) :
      Halvings b (n + 1) (half upper b')

variable {n k : ℕ}

theorem Halvings.subset (h : Halvings b n b') : b.1 ≤ b'.1 ∧ b'.2 ≤ b.2 := by
  induction h with
  | none => exact ⟨le_rfl, le_rfl⟩
  | halve upper h hwide ih =>
    have hnested := half_nested upper hwide
    omega

/-- The width is divided by `2 ^ n`, up to rounding. -/
theorem Halvings.width (h : Halvings b n b') (hb : b.1 < b.2) :
    b'.1 < b'.2 ∧ (b'.2 - b'.1 - 1) * 2 ^ n < b.2 - b.1 ∧
      b.2 - b.1 < (b'.2 - b'.1 + 1) * 2 ^ n := by
  induction h with
  | none => omega
  | @halve n b' upper h hwide ih =>
    obtain ⟨-, hupper, hlower⟩ := ih
    obtain ⟨-, -, hlt, -, hge⟩ := half_nested upper hwide
    have hle := half_width_le upper hwide
    generalize (half upper b').2 - (half upper b').1 = w at hge hle
    refine ⟨hlt, ?_, ?_⟩
    · calc (w - 1) * 2 ^ (n + 1) = 2 * (w - 1) * 2 ^ n := by rw [Nat.pow_succ]; ring
        _ ≤ (b'.2 - b'.1 - 1) * 2 ^ n := Nat.mul_le_mul_right _ (by omega)
        _ < b.2 - b.1 := hupper
    · calc b.2 - b.1 < (b'.2 - b'.1 + 1) * 2 ^ n := hlower
        _ ≤ 2 * (w + 1) * 2 ^ n := Nat.mul_le_mul_right _ (by omega)
        _ = (w + 1) * 2 ^ (n + 1) := by rw [Nat.pow_succ]; ring

theorem Halvings.le_of_width (h : Halvings b n b') (hb : b.2 - b.1 ≤ 2 ^ k) : n ≤ k := by
  cases h with
  | none => exact Nat.zero_le k
  | @halve n b'' upper h hwide =>
    have hsub := h.subset
    obtain ⟨-, hupper, -⟩ := h.width (by omega)
    have hlt : 2 ^ n < 2 ^ k :=
      calc 2 ^ n ≤ (b''.2 - b''.1 - 1) * 2 ^ n := Nat.le_mul_of_pos_left _ (by omega)
        _ < b.2 - b.1 := hupper
        _ ≤ 2 ^ k := hb
    exact (Nat.pow_lt_pow_iff_right Nat.one_lt_two).mp hlt

/-- Until it is narrow, it has to be halved `k` times at least. -/
theorem Halvings.le_of_narrow (h : Halvings b n b') (hb : 2 ^ k ≤ b.2 - b.1)
    (hnarrow : b'.2 ≤ b'.1 + 1) : k ≤ n := by
  have hpos : 0 < 2 ^ k := Nat.two_pow_pos k
  obtain ⟨-, -, hlower⟩ := h.width (by omega)
  have hlt : 2 ^ k < 2 ^ (n + 1) :=
    calc 2 ^ k ≤ b.2 - b.1 := hb
      _ < (b'.2 - b'.1 + 1) * 2 ^ n := hlower
      _ ≤ 2 * 2 ^ n := Nat.mul_le_mul_right _ (by omega)
      _ = 2 ^ (n + 1) := by rw [Nat.pow_succ, Nat.mul_comm]
  exact Nat.lt_succ_iff.mp ((Nat.pow_lt_pow_iff_right Nat.one_lt_two).mp hlt)

/-! ## Runs -/

/-- The brackets of the run from `start` that takes the half that `choose` says. -/
inductive Visits (choose : ℕ × ℕ → Bool) (start : ℕ × ℕ) : ℕ × ℕ → Prop
  | start : Visits choose start start
  | halve {b : ℕ × ℕ} (h : Visits choose start b) (hwide : b.1 + 1 < b.2) :
      Visits choose start (half (choose b) b)

/-- The brackets from `start` towards `p`, up to the first whose middle is `p`. -/
inductive Towards (p : ℕ) (start : ℕ × ℕ) : ℕ × ℕ → Prop
  | start : Towards p start start
  | upper {b : ℕ × ℕ} (h : Towards p start b) (hwide : b.1 + 1 < b.2) (hp : middle b < p) :
      Towards p start (half true b)
  | lower {b : ℕ × ℕ} (h : Towards p start b) (hwide : b.1 + 1 < b.2) (hp : p < middle b) :
      Towards p start (half false b)

theorem Towards.subset (h : Towards p start b) : start.1 ≤ b.1 ∧ b.2 ≤ start.2 := by
  induction h with
  | start => exact ⟨le_rfl, le_rfl⟩
  | @upper b h hwide hp ih =>
    have := half_nested true hwide
    omega
  | @lower b h hwide hp ih =>
    have := half_nested false hwide
    omega

/-- The choice at `b` keeps `p`. -/
def ChoosesRight (choose : ℕ × ℕ → Bool) (p : ℕ) (b : ℕ × ℕ) : Prop :=
  (p < middle b → choose b = false) ∧ (middle b < p → choose b = true)

theorem Visits.subset (h : Visits choose start b) : start.1 ≤ b.1 ∧ b.2 ≤ start.2 := by
  induction h with
  | start => exact ⟨le_rfl, le_rfl⟩
  | @halve b h hwide ih =>
    have := half_nested (choose b) hwide
    omega

/-- A choice that is right on the way towards `p`, and wherever `p` is an end, keeps `p`: it goes
    towards `p`, and when `p` is an end it stays one. -/
theorem Visits.contains (hstart : start.1 ≤ p ∧ p ≤ start.2)
    (hlower : ∀ r, p + 1 < r → r ≤ start.2 → choose (p, r) = false)
    (hupper : ∀ l, l + 1 < p → start.1 ≤ l → choose (l, p) = true)
    (hright : ∀ b, Towards p start b → b.1 + 1 < b.2 → ChoosesRight choose p b)
    (h : Visits choose start b) :
    (b.1 ≤ p ∧ p ≤ b.2) ∧ (Towards p start b ∨ p = b.1 ∨ p = b.2) := by
  induction h with
  | start => exact ⟨hstart, Or.inl .start⟩
  | @halve b h hwide ih =>
    obtain ⟨hmem, hto⟩ := ih
    have hsub := h.subset
    have hmid := middle_mem hwide
    obtain ⟨l, r⟩ := b
    simp only at hmem hwide hmid hsub hto
    rcases hto with hto | rfl | rfl
    · obtain ⟨hlow, hup⟩ := hright _ hto hwide
      rcases Nat.lt_trichotomy p (middle (l, r)) with hlt | heq | hlt
      · rw [hlow hlt]
        exact ⟨⟨hmem.1, hlt.le⟩, Or.inl (hto.lower hwide hlt)⟩
      · unfold half
        split
        · exact ⟨⟨heq.ge, hmem.2⟩, Or.inr (Or.inl heq)⟩
        · exact ⟨⟨hmem.1, heq.le⟩, Or.inr (Or.inr heq)⟩
      · rw [hup hlt]
        exact ⟨⟨hlt.le, hmem.2⟩, Or.inl (hto.upper hwide hlt)⟩
    · rw [hlower r hwide hsub.2]
      exact ⟨⟨le_rfl, hmid.1.le⟩, Or.inr (Or.inl rfl)⟩
    · rw [hupper l hwide hsub.1]
      exact ⟨⟨hmid.2.le, le_rfl⟩, Or.inr (Or.inr rfl)⟩

/-- A run that keeps `p` chooses right. -/
theorem Visits.choosesRight (hkeeps : ∀ b, Visits choose start b → b.1 ≤ p ∧ p ≤ b.2)
    (h : Visits choose start b) (hwide : b.1 + 1 < b.2) : ChoosesRight choose p b := by
  have hmem := hkeeps _ (h.halve hwide)
  constructor
  · intro hp
    cases hchoose : choose b with
    | false => rfl
    | true =>
      rw [hchoose] at hmem
      exact absurd hp (Nat.not_lt.mpr hmem.1)
  · intro hp
    cases hchoose : choose b with
    | true => rfl
    | false =>
      rw [hchoose] at hmem
      exact absurd hp (Nat.not_lt.mpr hmem.2)

/-- It visits the brackets towards `p`. -/
theorem Towards.visits (hkeeps : ∀ b, Visits choose start b → b.1 ≤ p ∧ p ≤ b.2)
    (h : Towards p start b) : Visits choose start b := by
  induction h with
  | start => exact .start
  | upper h hwide hp ih =>
    rw [← (ih.choosesRight hkeeps hwide).2 hp]
    exact ih.halve hwide
  | lower h hwide hp ih =>
    rw [← (ih.choosesRight hkeeps hwide).1 hp]
    exact ih.halve hwide

/-- **Bisection.** If the choice is right wherever `p` is an end of the bracket, then every visited
    bracket contains `p` if and only if the choice is right on the way towards `p`. -/
theorem visits_contain_iff (hlower : ∀ r, p + 1 < r → r ≤ start.2 → choose (p, r) = false)
    (hupper : ∀ l, l + 1 < p → start.1 ≤ l → choose (l, p) = true) :
    (∀ b, Visits choose start b → b.1 ≤ p ∧ p ≤ b.2) ↔
      (start.1 ≤ p ∧ p ≤ start.2) ∧
        ∀ b, Towards p start b → b.1 + 1 < b.2 → ChoosesRight choose p b := by
  constructor
  · intro hkeeps
    exact ⟨hkeeps start .start, fun b hto hwide =>
      (hto.visits hkeeps).choosesRight hkeeps hwide⟩
  · intro ⟨hstart, hright⟩ b h
    exact (h.contains hstart hlower hupper hright).1

/-! ## Single-peaked functions -/

section Peak

variable {α β : Type} [LinearOrder α] [LinearOrder β]

/-- `f` strictly increases on `[a, b]` up to `p` and strictly decreases after it. -/
structure SinglePeaked (f : α → β) (a b p : α) : Prop where
  mem : p ∈ Set.Icc a b
  increasing : StrictMonoOn f (Set.Icc a p)
  decreasing : StrictAntiOn f (Set.Icc p b)

variable {f : α → β} {a b p d : α}

theorem SinglePeaked.lt (h : SinglePeaked f a b p) (hd : d ∈ Set.Icc a b) (hne : d ≠ p) :
    f d < f p := by
  rcases lt_or_gt_of_ne hne with hlt | hgt
  · exact h.increasing ⟨hd.1, hlt.le⟩ ⟨h.mem.1, le_rfl⟩ hlt
  · exact h.decreasing ⟨le_rfl, h.mem.2⟩ ⟨hgt.le, hd.2⟩ hgt

/-- The peak is the one maximum. -/
theorem SinglePeaked.isMaxOn_iff (h : SinglePeaked f a b p) (hd : d ∈ Set.Icc a b) :
    IsMaxOn f (Set.Icc a b) d ↔ d = p := by
  constructor
  · intro hmax
    by_contra hne
    exact absurd (h.lt hd hne) (not_lt.mpr (hmax h.mem))
  · rintro rfl
    intro e he
    rcases eq_or_ne e d with rfl | hne
    · exact le_rfl
    · exact (h.lt he hne).le

end Peak

end TpsBench.Lib
