/-
  Checked u64 arithmetic.

  An operation whose exact result is no u64 ends the computation, with the panic of a build with
  overflow checks. A release build goes on with the wrapped value there. The theorems of the
  modules that use these operations say when none of them overflows, and then both builds agree.
  (`isMatured` and `getTotalCapacityFromUtxo` wrap, as in a release build.)
-/
import TpsBench.Rpc

namespace TpsBench

variable {a b c : ℕ}

def addU64 (a b : ℕ) : Except Panic ℕ :=
  if a + b < u64Size then .ok (a + b) else .error .addOverflow

def subU64 (a b : ℕ) : Except Panic ℕ := if b ≤ a then .ok (a - b) else .error .subOverflow

def mulU64 (a b : ℕ) : Except Panic ℕ :=
  if a * b < u64Size then .ok (a * b) else .error .mulOverflow

def divU64 (a b : ℕ) : Except Panic ℕ := if b = 0 then .error .divideByZero else .ok (a / b)

/-- `Iterator::sum`. -/
def sumU64 (l : List ℕ) : Except Panic ℕ := l.foldlM addU64 0

theorem bind_eq_ok {α β : Type} {x : Except Panic α} {f : α → Except Panic β} {r : β} :
    x >>= f = .ok r ↔ ∃ a, x = .ok a ∧ f a = .ok r := by
  cases x with
  | ok a =>
    constructor
    · intro h
      exact ⟨a, rfl, h⟩
    · intro ⟨a', ha, h⟩
      rwa [← Except.ok.inj ha] at h
  | error e => simp [bind, Except.bind]

@[simp] theorem addU64_eq_ok : addU64 a b = .ok c ↔ a + b < u64Size ∧ a + b = c := by
  unfold addU64
  split <;> simp [*]

@[simp] theorem subU64_eq_ok : subU64 a b = .ok c ↔ b ≤ a ∧ a - b = c := by
  unfold subU64
  split <;> simp [*]

@[simp] theorem mulU64_eq_ok : mulU64 a b = .ok c ↔ a * b < u64Size ∧ a * b = c := by
  unfold mulU64
  split <;> simp [*]

@[simp] theorem divU64_eq_ok : divU64 a b = .ok c ↔ b ≠ 0 ∧ a / b = c := by
  unfold divU64
  split <;> simp [*]

theorem addU64_eq_error (h : u64Size ≤ a + b) : addU64 a b = .error .addOverflow :=
  if_neg (Nat.not_lt.mpr h)

theorem subU64_eq_error (h : a < b) : subU64 a b = .error .subOverflow :=
  if_neg (Nat.not_le.mpr h)

theorem foldlM_addU64_eq_ok (l : List ℕ) (h : a < u64Size) :
    l.foldlM addU64 a = .ok c ↔ a + l.sum < u64Size ∧ a + l.sum = c := by
  induction l generalizing a with
  | nil =>
    show Except.ok a = Except.ok c ↔ _
    simp [h]
  | cons x l ih =>
    rw [List.foldlM_cons, List.sum_cons, ← Nat.add_assoc]
    rcases Nat.lt_or_ge (a + x) u64Size with hx | hx
    · rw [addU64_eq_ok.mpr ⟨hx, rfl⟩]
      exact ih hx
    · rw [addU64_eq_error hx]
      simp only [bind, Except.bind, reduceCtorEq, false_iff]
      omega

@[simp] theorem sumU64_eq_ok {l : List ℕ} : sumU64 l = .ok c ↔ l.sum < u64Size ∧ l.sum = c := by
  unfold sumU64
  rw [foldlM_addU64_eq_ok l (by decide), Nat.zero_add]

/-- A sum can only overflow. -/
theorem sumU64_error {l : List ℕ} {e : Panic} (h : sumU64 l = .error e) : e = .addOverflow := by
  unfold sumU64 at h
  generalize (0 : ℕ) = a at h
  induction l generalizing a with
  | nil => cases h
  | cons x l ih =>
    rw [List.foldlM_cons] at h
    cases hx : addU64 a x with
    | ok b =>
      rw [hx] at h
      exact ih b h
    | error e' =>
      rw [hx] at h
      obtain rfl : e' = e := Except.error.inj h
      unfold addU64 at hx
      split at hx
      · cases hx
      · exact (Except.error.inj hx).symm

end TpsBench
