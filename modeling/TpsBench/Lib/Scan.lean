/-
  Scanning a list of blocks that create and consume keys. General library: a block is any
  type `B` with a list of entries it creates and a list of keys it consumes.

  Model. `scan` folds the blocks into a hash map, oldest first: insert what the block creates,
  then erase what it consumes. The reference is `Live`: some block creates the entry and no
  block consumes its key.

  `lookup_scan`: on a `Coherent` list of blocks the scan holds exactly the live entries.
  `Coherent` asks two things of the list, both of which a ledger has: one key is created with
  one value (`functional`), and a block never consumes a key that only a later block creates
  (`no_forward`). A key may be consumed twice, and a consumed key need not exist.

  `Coherent` passes to sublists (`Coherent.sublist`): a scanner that skips blocks still holds
  exactly the entries that are live among the blocks it did scan.
-/
import TpsBench.Lib.HashMap
import Mathlib.Data.List.Induction

namespace TpsBench.Lib

variable {B K V : Type}

/-- `(k, v)` is created by a block of `bs` and consumed by none. -/
def Live (created : B → List (K × V)) (consumed : B → List K) (bs : List B) (k : K) (v : V) :
    Prop :=
  (∃ b ∈ bs, (k, v) ∈ created b) ∧ ∀ b ∈ bs, k ∉ consumed b

/-- What a list of blocks must satisfy for a scan to be its live entries. -/
structure Coherent (created : B → List (K × V)) (consumed : B → List K) (bs : List B) : Prop where
  functional : ∀ b ∈ bs, ∀ b' ∈ bs, ∀ k v v', (k, v) ∈ created b → (k, v') ∈ created b' → v = v'
  no_forward : bs.Pairwise fun b b' => ∀ k v, k ∈ consumed b → (k, v) ∉ created b'

variable {created : B → List (K × V)} {consumed : B → List K}

theorem Coherent.sublist {bs bs' : List B} (h : Coherent created consumed bs)
    (hs : bs'.Sublist bs) : Coherent created consumed bs' :=
  ⟨fun b hb b' hb' => h.functional b (hs.subset hb) b' (hs.subset hb'), h.no_forward.sublist hs⟩

theorem live_append_singleton (bs : List B) (b : B) (k : K) (v : V) :
    Live created consumed (bs ++ [b]) k v ↔
      ((∃ b' ∈ bs, (k, v) ∈ created b') ∨ (k, v) ∈ created b) ∧
        (∀ b' ∈ bs, k ∉ consumed b') ∧ k ∉ consumed b := by
  simp only [Live, List.mem_append, List.mem_singleton, or_imp, forall_and, forall_eq,
    or_and_right, exists_or, exists_eq_left]

variable [DecidableEq K]

/-- One block: insert what it creates, then erase what it consumes. -/
def scanBlock (created : B → List (K × V)) (consumed : B → List K) (m : HashMap K V) (b : B) :
    HashMap K V :=
  HashMap.eraseAll (HashMap.insertAll m (created b)) (consumed b)

/-- The blocks in order, from the empty map. -/
def scan (created : B → List (K × V)) (consumed : B → List K) (bs : List B) : HashMap K V :=
  bs.foldl (scanBlock created consumed) ∅

theorem scan_append_singleton (bs : List B) (b : B) :
    scan created consumed (bs ++ [b]) =
      scanBlock created consumed (scan created consumed bs) b := by
  unfold scan
  rw [List.foldl_append]
  rfl

theorem lookup_scanBlock {m : HashMap K V} {b : B} {k : K}
    (hf : ∀ v v', (k, v) ∈ created b → (k, v') ∈ created b → v = v') (v : V) :
    (scanBlock created consumed m b).lookup k = some v ↔
      k ∉ consumed b ∧
        ((k, v) ∈ created b ∨ (k ∉ (created b).map Prod.fst ∧ m.lookup k = some v)) := by
  unfold scanBlock
  rw [HashMap.lookup_eraseAll_eq_some, HashMap.lookup_insertAll hf]

/-- The scan of a coherent list holds exactly its live entries. -/
theorem lookup_scan {bs : List B} (h : Coherent created consumed bs) (k : K) (v : V) :
    (scan created consumed bs).lookup k = some v ↔ Live created consumed bs k v := by
  induction bs using List.reverseRecOn with
  | nil => simp [scan, Live]
  | append_singleton bs b ih =>
    have hbs := h.sublist (List.sublist_append_left bs [b])
    have hb : b ∈ bs ++ [b] := List.mem_append_right _ (List.mem_singleton_self b)
    -- no block before `b` consumes what `b` creates
    have hnew : ∀ b' ∈ bs, ∀ v', (k, v') ∈ created b → k ∉ consumed b' := fun b' hb' v' hv' hk =>
      (List.pairwise_append.mp h.no_forward).2.2 b' hb' b (List.mem_singleton_self b) k v' hk hv'
    rw [scan_append_singleton, lookup_scanBlock (h.functional b hb b hb k), ih hbs,
      live_append_singleton, Live]
    constructor
    · rintro ⟨hcons, hv | ⟨-, hlive, hold⟩⟩
      · exact ⟨Or.inr hv, fun b' hb' => hnew b' hb' v hv, hcons⟩
      · exact ⟨Or.inl hlive, hold, hcons⟩
    · rintro ⟨hv, hold, hcons⟩
      refine ⟨hcons, ?_⟩
      by_cases hk : k ∈ (created b).map Prod.fst
      · obtain ⟨⟨k', v'⟩, hv', rfl⟩ := List.mem_map.mp hk
        rcases hv with ⟨b', hb', hv⟩ | hv
        · rw [h.functional b' (List.mem_append_left _ hb') b hb k' v v' hv hv']
          exact Or.inl hv'
        · exact Or.inl hv
      · rcases hv with hv | hv
        · exact Or.inr ⟨hk, hv, hold⟩
        · exact Or.inl hv

end TpsBench.Lib
