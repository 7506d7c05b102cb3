/-
  Hash maps as association lists, with the two bulk operations a scanner needs and an
  explicit iteration order. General library: nothing here is about a particular program.

  A map is Mathlib's `AList`: a list of entries with distinct keys. Two maps are the same map
  when they agree on every `lookup` (`Same`); the order of the entries is not part of that.
  What a program sees when it ITERATES over a map is `iter ord m`: the entries, rearranged by
  an arbitrary `IterOrder`. A theorem for every `ord` holds whatever the hash seed is.

  * `lookup_eraseAll`: lookup after erasing a list of keys.
  * `lookup_insertAll`: lookup after inserting a list of entries that is functional at the key.
  * `mem_iter`, `keys_iter_perm`: the iterated list has exactly the map's entries, each key once.
  * `length_mul_le_sum`, `sum_le_of_mem`: bounds on a sum over the values.
-/
import Mathlib.Algebra.GroupWithZero.Nat
import Mathlib.Algebra.Order.BigOperators.Group.List
import Mathlib.Algebra.Order.Group.Nat
import Mathlib.Data.List.AList

namespace TpsBench.Lib

/-- A hash map from `K` to `V`. -/
abbrev HashMap (K V : Type) := AList (fun _ : K => V)

/-- One way a hash map may iterate: any rearrangement of the entries. -/
structure IterOrder (α : Type) where
  /-- The rearrangement. -/
  run : List α → List α
  perm : ∀ l, (run l).Perm l

/-- The entries as they were last inserted. -/
def IterOrder.stored (α : Type) : IterOrder α := ⟨id, fun _ => .refl _⟩

namespace HashMap

variable {K V : Type}

/-- The entries of `m` in the order `ord` gives them. -/
def iter (ord : IterOrder (K × V)) (m : HashMap K V) : List (K × V) :=
  ord.run (m.entries.map fun e => (e.1, e.2))

variable [DecidableEq K]

/-- `m` and `m'` hold the same value, or none, at every key. -/
def Same (m m' : HashMap K V) : Prop := ∀ k, m.lookup k = m'.lookup k

/-- Two maps with the same `some` lookups are the same map. -/
theorem same_of_lookup_iff {m m' : HashMap K V}
    (h : ∀ k v, m.lookup k = some v ↔ m'.lookup k = some v) : Same m m' :=
  fun k => Option.ext fun v => h k v

/-- Insert every entry of `l`, first to last. -/
def insertAll (m : HashMap K V) (l : List (K × V)) : HashMap K V :=
  l.foldl (fun m e => m.insert e.1 e.2) m

/-- Erase every key of `ks`. -/
def eraseAll (m : HashMap K V) (ks : List K) : HashMap K V :=
  ks.foldl (fun m k => m.erase k) m

@[simp] theorem insertAll_nil (m : HashMap K V) : insertAll m [] = m := rfl

@[simp] theorem insertAll_cons (m : HashMap K V) (e : K × V) (l : List (K × V)) :
    insertAll m (e :: l) = insertAll (m.insert e.1 e.2) l := rfl

@[simp] theorem eraseAll_nil (m : HashMap K V) : eraseAll m [] = m := rfl

@[simp] theorem eraseAll_cons (m : HashMap K V) (k : K) (ks : List K) :
    eraseAll m (k :: ks) = eraseAll (m.erase k) ks := rfl

theorem insertAll_append (m : HashMap K V) (l l' : List (K × V)) :
    insertAll m (l ++ l') = insertAll (insertAll m l) l' := List.foldl_append

/-! ## Lookups -/

theorem lookup_eraseAll (m : HashMap K V) (ks : List K) (k : K) :
    (eraseAll m ks).lookup k = if k ∈ ks then none else m.lookup k := by
  induction ks generalizing m with
  | nil => simp
  | cons k' ks ih =>
    rw [eraseAll_cons, ih]
    by_cases hk : k = k'
    · subst hk
      simp [AList.lookup_erase]
    · simp [hk, AList.lookup_erase_ne hk]

theorem lookup_eraseAll_eq_some {m : HashMap K V} {ks : List K} {k : K} {v : V} :
    (eraseAll m ks).lookup k = some v ↔ k ∉ ks ∧ m.lookup k = some v := by
  rw [lookup_eraseAll]
  by_cases hk : k ∈ ks <;> simp [hk]

theorem lookup_insertAll_of_notMem {m : HashMap K V} {l : List (K × V)} {k : K}
    (hk : k ∉ l.map Prod.fst) : (insertAll m l).lookup k = m.lookup k := by
  induction l generalizing m with
  | nil => rfl
  | cons e l ih =>
    rw [List.map_cons, List.mem_cons, not_or] at hk
    rw [insertAll_cons, ih hk.2, AList.lookup_insert_ne hk.1]

theorem lookup_insertAll_mem {m : HashMap K V} {l : List (K × V)} {k : K}
    (hk : k ∈ l.map Prod.fst) : ∃ v, (k, v) ∈ l ∧ (insertAll m l).lookup k = some v := by
  induction l generalizing m with
  | nil => simp at hk
  | cons e l ih =>
    rw [insertAll_cons]
    by_cases hl : k ∈ l.map Prod.fst
    · obtain ⟨v, hv, hlook⟩ := ih (m := m.insert e.1 e.2) hl
      exact ⟨v, List.mem_cons_of_mem _ hv, hlook⟩
    · rw [List.map_cons, List.mem_cons] at hk
      have he : k = e.1 := hk.resolve_right hl
      subst he
      exact ⟨e.2, List.mem_cons_self, by rw [lookup_insertAll_of_notMem hl, AList.lookup_insert]⟩

/-- Lookup after a bulk insert whose entries at `k` all carry one value. -/
theorem lookup_insertAll {m : HashMap K V} {l : List (K × V)} {k : K}
    (hf : ∀ v v', (k, v) ∈ l → (k, v') ∈ l → v = v') (v : V) :
    (insertAll m l).lookup k = some v ↔
      (k, v) ∈ l ∨ (k ∉ l.map Prod.fst ∧ m.lookup k = some v) := by
  by_cases hk : k ∈ l.map Prod.fst
  · obtain ⟨v', hv', hlook⟩ := lookup_insertAll_mem (m := m) hk
    rw [hlook, Option.some.injEq]
    constructor
    · rintro rfl
      exact Or.inl hv'
    · rintro (hv | ⟨hn, -⟩)
      · exact hf v' v hv' hv
      · exact absurd hk hn
  · have hv : (k, v) ∉ l := fun h => hk (List.mem_map_of_mem (f := Prod.fst) h)
    rw [lookup_insertAll_of_notMem hk]
    simp only [hv, false_or, hk, not_false_eq_true, true_and]

/-! ## Keys -/

theorem mem_eraseAll {m : HashMap K V} {ks : List K} {k : K} :
    k ∈ eraseAll m ks ↔ k ∉ ks ∧ k ∈ m := by
  rw [← AList.lookup_isSome, ← AList.lookup_isSome, lookup_eraseAll]
  by_cases hk : k ∈ ks <;> simp [hk]

theorem mem_insertAll {m : HashMap K V} {l : List (K × V)} {k : K} :
    k ∈ insertAll m l ↔ k ∈ l.map Prod.fst ∨ k ∈ m := by
  induction l generalizing m with
  | nil => simp
  | cons e l ih =>
    rw [insertAll_cons, ih, AList.mem_insert, List.map_cons, List.mem_cons, ← or_assoc,
      @or_comm (k = e.1)]

/-! ## Iteration -/

theorem mem_iter {ord : IterOrder (K × V)} {m : HashMap K V} {k : K} {v : V} :
    (k, v) ∈ iter ord m ↔ m.lookup k = some v := by
  unfold iter
  rw [(ord.perm _).mem_iff, List.mem_map, ← Option.mem_def, AList.mem_lookup_iff]
  constructor
  · rintro ⟨⟨a, b⟩, he, hkv⟩
    cases hkv
    exact he
  · intro he
    exact ⟨⟨k, v⟩, he, rfl⟩

omit [DecidableEq K] in
theorem keys_iter_perm (ord : IterOrder (K × V)) (m : HashMap K V) :
    ((iter ord m).map Prod.fst).Perm m.keys := by
  have h := (ord.perm (m.entries.map fun e => (e.1, e.2))).map Prod.fst
  rw [List.map_map] at h
  exact h

/-! ## Sums -/

omit [DecidableEq K] in
theorem nodup_pairs (m : HashMap K V) :
    (m.entries.map fun e => (e.1, e.2)).Nodup := by
  have hkeys := m.nodupKeys
  rw [List.NodupKeys, List.keys] at hkeys
  refine List.Nodup.of_map Prod.fst ?_
  rw [List.map_map]
  exact hkeys

/-- Keys whose values are at least `c` each. -/
theorem length_mul_le_sum {m : HashMap K V} {f : V → ℕ} {c : ℕ} {ks : List K} (hnodup : ks.Nodup)
    (h : ∀ k ∈ ks, ∃ v, m.lookup k = some v ∧ c ≤ f v) :
    ks.length * c ≤ (m.entries.map fun e => f e.2).sum := by
  have hsub : ks ⊆ (m.entries.filter fun e => c ≤ f e.2).map Sigma.fst := by
    intro k hk
    obtain ⟨v, hlook, hle⟩ := h k hk
    exact List.mem_map.mpr ⟨⟨k, v⟩, List.mem_filter.mpr
      ⟨AList.mem_lookup_iff.mp hlook, decide_eq_true hle⟩, rfl⟩
  have hlen := (List.subperm_of_subset hnodup hsub).length_le
  rw [List.length_map] at hlen
  have hlarge : ∀ x ∈ (m.entries.filter fun e => c ≤ f e.2).map fun e => f e.2, c ≤ x := by
    intro x hx
    obtain ⟨e, he, rfl⟩ := List.mem_map.mp hx
    exact of_decide_eq_true (List.mem_filter.mp he).2
  calc ks.length * c ≤ (m.entries.filter fun e => c ≤ f e.2).length * c :=
        Nat.mul_le_mul_right c hlen
    _ ≤ ((m.entries.filter fun e => c ≤ f e.2).map fun e => f e.2).sum := by
        have hsum := List.card_nsmul_le_sum _ c hlarge
        rwa [List.length_map, Nat.nsmul_eq_mul] at hsum
    _ ≤ (m.entries.map fun e => f e.2).sum :=
        (List.filter_sublist.map _).sum_le_sum fun _ _ => Nat.zero_le _

/-- A map whose entries are all in a list. -/
theorem sum_le_of_mem {m : HashMap K V} {f : V → ℕ} {l : List (K × V)}
    (h : ∀ k v, m.lookup k = some v → (k, v) ∈ l) :
    (m.entries.map fun e => f e.2).sum ≤ (l.map fun e => f e.2).sum := by
  have hsub : (m.entries.map fun e => (e.1, e.2)) ⊆ l := by
    intro e he
    obtain ⟨⟨k, v⟩, hmem, rfl⟩ := List.mem_map.mp he
    exact h k v (AList.mem_lookup_iff.mpr hmem)
  obtain ⟨l', hperm, hl'⟩ := List.subperm_of_subset (nodup_pairs m) hsub
  have hsum := (hperm.map fun e => f e.2).sum_eq
  rw [List.map_map] at hsum
  exact hsum.ge.trans ((hl'.map _).sum_le_sum fun _ _ => Nat.zero_le _)

end HashMap

end TpsBench.Lib
