/-
  Ledgers as lists, oldest block first: hash links and reorganizations of bounded depth.
  General library over an arbitrary block type.

  Hash links. `Linked` says each block names the hash of the block before it. Two linked lists
  that agree at one height agree at every lower height, given that a hash names one block
  (`take_eq_of_agree`).

  Reorganizations. `Reorg d l l'`: the ledger `l` becomes `l'`, is not shorter, and drops at
  most the last `d` blocks of `l`. Any number of such steps is again one of them
  (`reorg_of_evolves`): since the length never falls, a block `d` or more below the tip is
  never dropped (`Evolves.getElem?`).
-/
import Mathlib.Data.List.Basic
import Mathlib.Logic.Relation

namespace TpsBench.Lib

variable {B H : Type}

/-! ## Hash links -/

/-- Each block's parent link is the hash of the block before it. -/
def Linked (hash parent : B → H) (l : List B) : Prop := l.IsChain fun a b => parent b = hash a

/-- In a linked list consecutive blocks carry consecutive links. -/
theorem Linked.getElem? {hash parent : B → H} {l : List B} (h : Linked hash parent l) {n : ℕ}
    {a b : B} (ha : l[n]? = some a) (hb : l[n + 1]? = some b) : parent b = hash a := by
  obtain ⟨hn, rfl⟩ := List.getElem?_eq_some_iff.mp hb
  obtain ⟨hn', rfl⟩ := List.getElem?_eq_some_iff.mp ha
  exact List.isChain_iff_getElem.mp h n hn

/-- Two linked lists over blocks named by their hashes agree below a height where they agree. -/
theorem take_eq_of_agree {hash parent : B → H} {l l' : List B} (hl : Linked hash parent l)
    (hl' : Linked hash parent l') (hinj : ∀ a ∈ l, ∀ b ∈ l', hash a = hash b → a = b) {n : ℕ}
    {b : B} (h : l[n]? = some b) (h' : l'[n]? = some b) : l.take (n + 1) = l'.take (n + 1) := by
  induction n generalizing b with
  | zero =>
    rw [List.take_add_one, List.take_add_one, h, h', List.take_zero, List.take_zero]
  | succ n ih =>
    rw [List.take_add_one, List.take_add_one (l := l'), h, h']
    have hn : n < l.length := by
      have := (List.getElem?_eq_some_iff.mp h).1
      omega
    have hn' : n < l'.length := by
      have := (List.getElem?_eq_some_iff.mp h').1
      omega
    have ha : l[n]? = some l[n] := List.getElem?_eq_getElem hn
    have ha' : l'[n]? = some l'[n] := List.getElem?_eq_getElem hn'
    have heq : l[n] = l'[n] := by
      apply hinj _ (List.getElem_mem hn) _ (List.getElem_mem hn')
      rw [← hl.getElem? ha h, ← hl'.getElem? ha' h']
    rw [ih ha (heq ▸ ha')]

theorem getElem?_eq_of_agree {hash parent : B → H} {l l' : List B} (hl : Linked hash parent l)
    (hl' : Linked hash parent l') (hinj : ∀ a ∈ l, ∀ b ∈ l', hash a = hash b → a = b) {n m : ℕ}
    {b : B} (h : l[n]? = some b) (h' : l'[n]? = some b) (hm : m ≤ n) : l[m]? = l'[m]? := by
  have := congrArg (·[m]?) (take_eq_of_agree hl hl' hinj h h')
  simpa only [List.getElem?_take, Nat.lt_succ_iff, hm, if_true] using this

/-! ## Reorganizations -/

/-- `l` becomes `l'`: not shorter, and all but the last `d` blocks of `l` kept. -/
def Reorg (d : ℕ) (l l' : List B) : Prop :=
  l.length ≤ l'.length ∧ l.take (l.length - d) <+: l'

instance [DecidableEq B] (d : ℕ) (l l' : List B) : Decidable (Reorg d l l') :=
  inferInstanceAs (Decidable (_ ∧ _))

theorem Reorg.refl (d : ℕ) (l : List B) : Reorg d l l := ⟨Nat.le_refl _, List.take_prefix _ _⟩

/-- A bounded reorganization after a bounded reorganization is one of the same bound: the
    second keeps what the first kept, because the list did not get shorter. -/
theorem Reorg.trans {d : ℕ} {l₁ l₂ l₃ : List B} (h : Reorg d l₁ l₂) (h' : Reorg d l₂ l₃) :
    Reorg d l₁ l₃ := by
  refine ⟨Nat.le_trans h.1 h'.1, ?_⟩
  have hlen : (l₁.take (l₁.length - d)).length ≤ l₂.length - d := by
    have := h.1
    rw [List.length_take]
    omega
  exact (List.prefix_take_iff.mpr ⟨h.2, hlen⟩).trans h'.2

/-- Any number of reorganizations, each at most `d` deep. -/
def Evolves (d : ℕ) : List B → List B → Prop := Relation.ReflTransGen (Reorg d)

theorem reorg_of_evolves {d : ℕ} {l l' : List B} (h : Evolves d l l') : Reorg d l l' := by
  induction h with
  | refl => exact Reorg.refl d l
  | tail _ hstep ih => exact ih.trans hstep

theorem Evolves.length_le {d : ℕ} {l l' : List B} (h : Evolves d l l') : l.length ≤ l'.length :=
  (reorg_of_evolves h).1

theorem Evolves.prefix_of_zero {l l' : List B} (h : Evolves 0 l l') : l <+: l' := by
  simpa using (reorg_of_evolves h).2

/-- A block at least `d` below the tip stays where it is. -/
theorem Evolves.getElem? {d n : ℕ} {l l' : List B} (h : Evolves d l l') (hn : n + d < l.length) :
    l'[n]? = l[n]? := by
  obtain ⟨t, ht⟩ := (reorg_of_evolves h).2
  rw [← ht, List.getElem?_append_left (by rw [List.length_take]; omega),
    List.getElem?_take_of_lt (by omega)]

end TpsBench.Lib
