/-
  The reference for the scanners: which owned cells of a ledger are live, and how a tip splits
  them into matured and pending ones. Stated over blocks, with no map and no scan.

  `LiveCell a bs b k p o`: block `b` of `bs` creates `o` at `p` in its transaction `k`, the
  account owns it, and no block of `bs` consumes `p`.

  `Cells` is the pair of maps the scanners carry. `IsLiveSet a g tip bs cells` says `cells` is the
  live set of `bs`, split at `tip`: pending are the outputs of a transaction 0 that `tip` does
  not mature, tagged with their block's number; everything else live is in `utxoset`.
  A valid ledger has one live set (`IsLiveSet.same`), and the two maps share no key
  (`IsLiveSet.disjoint`).
-/
import TpsBench.Account.Owned
import TpsBench.Lib.HashMap

namespace TpsBench

open Lib

/-- The maps `utxoset` and `unmatureds` of the scanners. -/
structure Cells where
  utxoset : HashMap OutPoint CellOutput
  unmatureds : HashMap OutPoint (ℕ × CellOutput)

namespace Cells

/-- Two empty maps. -/
def empty : Cells := ⟨∅, ∅⟩

/-- Both maps hold the same entries. -/
def Same (cells cells' : Cells) : Prop :=
  HashMap.Same cells.utxoset cells'.utxoset ∧ HashMap.Same cells.unmatureds cells'.unmatureds

theorem Same.trans {c c' c'' : Cells} (h : c.Same c') (h' : c'.Same c'') : c.Same c'' :=
  ⟨fun p => (h.1 p).trans (h'.1 p), fun p => (h.2 p).trans (h'.2 p)⟩

theorem Same.mem_iff {c c' : Cells} (h : c.Same c') (p : OutPoint) :
    p ∈ c.utxoset ∨ p ∈ c.unmatureds ↔ p ∈ c'.utxoset ∨ p ∈ c'.unmatureds := by
  rw [← AList.lookup_isSome, ← AList.lookup_isSome, ← AList.lookup_isSome, ← AList.lookup_isSome,
    h.1 p, h.2 p]

end Cells

/-- No block of `bs` consumes `p`. -/
def Unspent (bs : List BlockView) (p : OutPoint) : Prop := ∀ b ∈ bs, p ∉ b.inputPts

instance (bs : List BlockView) (p : OutPoint) : Decidable (Unspent bs p) :=
  inferInstanceAs (Decidable (∀ b ∈ bs, p ∉ b.inputPts))

/-- An owned cell that `b`, one of `bs`, creates in transaction `k` and nothing consumes. -/
def LiveCell (a : Account) (bs : List BlockView) (b : BlockView) (k : ℕ) (p : OutPoint)
    (o : CellOutput) : Prop :=
  b ∈ bs ∧ Creates b k p o ∧ o.lock = a.lockScript ∧ Unspent bs p

theorem LiveCell.unique {a : Account} {bs : List BlockView} (hv : ValidBlocks bs)
    {b b' : BlockView} {k k' : ℕ} {p : OutPoint} {o o' : CellOutput} (h : LiveCell a bs b k p o)
    (h' : LiveCell a bs b' k' p o') : b = b' ∧ k = k' ∧ o = o' :=
  hv.creates_unique h.1 h'.1 h.2.1 h'.2.1

/-- A block after `bs` keeps a cell of `bs` live unless it consumes it. -/
theorem liveCell_append_of_mem {a : Account} {bs : List BlockView} {b b' : BlockView} {k : ℕ}
    {p : OutPoint} {o : CellOutput} (hb : b ∈ bs) :
    LiveCell a (bs ++ [b']) b k p o ↔ LiveCell a bs b k p o ∧ p ∉ b'.inputPts := by
  simp only [LiveCell, Unspent, List.mem_append, List.mem_singleton, or_imp, forall_and,
    forall_eq, hb, true_or, true_and, and_assoc]

/-- A block after `bs` adds the owned cells it creates and does not consume itself: no block of
    `bs` can have consumed them. -/
theorem liveCell_append_self {a : Account} {bs : List BlockView} {b : BlockView} {k : ℕ}
    {p : OutPoint} {o : CellOutput} (hv : ValidBlocks (bs ++ [b])) :
    LiveCell a (bs ++ [b]) b k p o ↔
      Creates b k p o ∧ o.lock = a.lockScript ∧ p ∉ b.inputPts := by
  have hb : b ∈ bs ++ [b] := List.mem_append_right _ (List.mem_singleton_self b)
  constructor
  · rintro ⟨-, hcreates, hlock, hun⟩
    exact ⟨hcreates, hlock, hun b hb⟩
  · rintro ⟨hcreates, hlock, hp⟩
    refine ⟨hb, hcreates, hlock, fun b' hb' => ?_⟩
    rcases List.mem_append.mp hb' with hold | hself
    · exact fun hin => (List.pairwise_append.mp hv.no_forward).2.2 b' hold b
        (List.mem_singleton_self b) p hin hcreates.mem_outPoints
    · rw [List.mem_singleton.mp hself]
      exact hp

/-- A block that stands behind `bs` in a valid ledger and creates anything is not in `bs`. -/
theorem ValidBlocks.notMem_of_creates {bs : List BlockView} {b : BlockView}
    (hv : ValidBlocks (bs ++ [b])) {k : ℕ} {p : OutPoint} {o : CellOutput}
    (h : Creates b k p o) : b ∉ bs := by
  intro hb
  have honce := hv.created_once
  rw [List.flatMap_append, List.flatMap_singleton] at honce
  exact (List.nodup_append'.mp honce).2.2 (List.mem_flatMap.mpr ⟨b, hb, h.mem_outPoints⟩)
    h.mem_outPoints

/-- `cells` is the live set of `bs`, split at `tip`. -/
structure IsLiveSet (a : Account) (g : Global) (tip : ℕ) (bs : List BlockView) (cells : Cells) :
    Prop where
  utxoset : ∀ p o, cells.utxoset.lookup p = some o ↔
    ∃ b k, LiveCell a bs b k p o ∧ (k = 0 → isMatured g tip b.number = true)
  unmatureds : ∀ p n o, cells.unmatureds.lookup p = some (n, o) ↔
    ∃ b, LiveCell a bs b 0 p o ∧ b.number = n ∧ isMatured g tip n = false

namespace IsLiveSet

variable {a : Account} {g : Global} {tip : ℕ} {bs : List BlockView} {cells cells' : Cells}

/-- There is one live set. -/
theorem same (h : IsLiveSet a g tip bs cells) (h' : IsLiveSet a g tip bs cells') :
    cells.Same cells' := by
  constructor
  · exact HashMap.same_of_lookup_iff fun p o => (h.utxoset p o).trans (h'.utxoset p o).symm
  · exact HashMap.same_of_lookup_iff fun p v =>
      (h.unmatureds p v.1 v.2).trans (h'.unmatureds p v.1 v.2).symm

theorem disjoint (h : IsLiveSet a g tip bs cells) (hv : ValidBlocks bs) (p : OutPoint)
    (hp : p ∈ cells.utxoset) : p ∉ cells.unmatureds := by
  intro hp'
  obtain ⟨o, ho⟩ := Option.isSome_iff_exists.mp (AList.lookup_isSome.mpr hp)
  obtain ⟨⟨n, o'⟩, ho'⟩ := Option.isSome_iff_exists.mp (AList.lookup_isSome.mpr hp')
  obtain ⟨b, k, hlive, hmat⟩ := (h.utxoset p o).mp ho
  obtain ⟨b', hlive', rfl, hpend⟩ := (h.unmatureds p n o').mp ho'
  obtain ⟨rfl, rfl, -⟩ := hlive.unique hv hlive'
  rw [hmat rfl] at hpend
  exact Bool.false_ne_true hpend.symm

/-- The keys of the two maps together are the out points of the live cells. -/
theorem mem_iff (h : IsLiveSet a g tip bs cells) (p : OutPoint) :
    p ∈ cells.utxoset ∨ p ∈ cells.unmatureds ↔ ∃ b k o, LiveCell a bs b k p o := by
  rw [← AList.lookup_isSome, ← AList.lookup_isSome, Option.isSome_iff_exists,
    Option.isSome_iff_exists]
  constructor
  · rintro (⟨o, ho⟩ | ⟨⟨n, o⟩, ho⟩)
    · obtain ⟨b, k, hlive, -⟩ := (h.utxoset p o).mp ho
      exact ⟨b, k, o, hlive⟩
    · obtain ⟨b, hlive, -⟩ := (h.unmatureds p n o).mp ho
      exact ⟨b, 0, o, hlive⟩
  · rintro ⟨b, k, o, hlive⟩
    by_cases hmat : k = 0 → isMatured g tip b.number = true
    · exact Or.inl ⟨o, (h.utxoset p o).mpr ⟨b, k, hlive, hmat⟩⟩
    · rw [Classical.not_imp, Bool.not_eq_true] at hmat
      obtain ⟨rfl, hpend⟩ := hmat
      exact Or.inr ⟨(b.number, o), (h.unmatureds p _ o).mpr ⟨b, hlive, rfl, hpend⟩⟩

/-- Live sets of two lists of blocks, split at one tip, are the same maps if and only if the same
    out points are live. The lists must agree on where a cell is from. -/
theorem same_iff {bs' : List BlockView} (h : IsLiveSet a g tip bs cells)
    (h' : IsLiveSet a g tip bs' cells')
    (hmatch : ∀ b b' k k' p o o', LiveCell a bs b k p o → LiveCell a bs' b' k' p o' →
      b.number = b'.number ∧ k = k' ∧ o = o') :
    cells.Same cells' ↔
      ∀ p, (∃ b k o, LiveCell a bs b k p o) ↔ ∃ b k o, LiveCell a bs' b k p o := by
  constructor
  · intro hsame p
    rw [← h.mem_iff, ← h'.mem_iff]
    exact hsame.mem_iff p
  · intro hlive
    constructor
    · refine HashMap.same_of_lookup_iff fun p o => ?_
      rw [h.utxoset, h'.utxoset]
      constructor
      · rintro ⟨b, k, hcell, hmat⟩
        obtain ⟨b', k', o', hcell'⟩ := (hlive p).mp ⟨b, k, o, hcell⟩
        obtain ⟨hnum, rfl, rfl⟩ := hmatch _ _ _ _ _ _ _ hcell hcell'
        exact ⟨b', k, hcell', hnum ▸ hmat⟩
      · rintro ⟨b', k', hcell', hmat⟩
        obtain ⟨b, k, o', hcell⟩ := (hlive p).mpr ⟨b', k', o, hcell'⟩
        obtain ⟨hnum, rfl, rfl⟩ := hmatch _ _ _ _ _ _ _ hcell hcell'
        exact ⟨b, k, hcell, hnum ▸ hmat⟩
    · refine HashMap.same_of_lookup_iff fun p v => ?_
      rw [h.unmatureds p v.1 v.2, h'.unmatureds p v.1 v.2]
      constructor
      · rintro ⟨b, hcell, hn, hmat⟩
        obtain ⟨b', k', o', hcell'⟩ := (hlive p).mp ⟨b, 0, _, hcell⟩
        obtain ⟨hnum, rfl, rfl⟩ := hmatch _ _ _ _ _ _ _ hcell hcell'
        exact ⟨b', hcell', hnum ▸ hn, hmat⟩
      · rintro ⟨b', hcell', hn, hmat⟩
        obtain ⟨b, k, o', hcell⟩ := (hlive p).mpr ⟨b', 0, _, hcell'⟩
        obtain ⟨hnum, rfl, rfl⟩ := hmatch _ _ _ _ _ _ _ hcell hcell'
        exact ⟨b, hcell, hnum ▸ hn, hmat⟩

end IsLiveSet

end TpsBench
