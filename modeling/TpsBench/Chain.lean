/-
  Main chains and the tree of blocks they are drawn from.

  `BlockTree` is every block that is ever mined on any fork, filed under its hash. That a hash
  names one block is a field of the tree, so it is never a hypothesis later. `Chain T` is a main
  chain over the tree: a list of blocks of `T`, genesis first, each following the one before it.
  A block of a chain sits at the index of its number (`Chain.number_eq`).

  `EndsAt c header`: `c` is the chain that ends at `header`. There is at most one
  (`EndsAt.unique`).

  `ValidBlocks` is what the scanners need from the ledger: an out point is created once, and no
  block consumes an out point that a later block creates.
-/
import TpsBench.Types
import TpsBench.Lib.Ledger
import Mathlib.Data.List.Chain
import Mathlib.Data.List.Flatten
import Mathlib.Data.List.Nodup

namespace TpsBench

open Lib

/-! ## The block tree -/

/-- All blocks ever mined, by hash. -/
structure BlockTree where
  block : Byte32 → Option BlockView
  hash_block : ∀ h b, block h = some b → b.hash = h

/-- The tree of a finite list of blocks. -/
def BlockTree.ofList (bs : List BlockView) : BlockTree where
  block h := bs.find? fun b => b.hash == h
  hash_block h b hb := by simpa using List.find?_some hb

theorem BlockTree.mem_of_ofList {bs : List BlockView} {h : Byte32} {b : BlockView}
    (hb : (BlockTree.ofList bs).block h = some b) : b ∈ bs := List.mem_of_find?_eq_some hb

/-- `b` can stand directly after `a`. -/
def Follows (a b : BlockView) : Prop := b.parentHash = a.hash ∧ b.number = a.number + 1

instance : DecidableRel Follows := fun _ _ => inferInstanceAs (Decidable (_ ∧ _))

/-- A main chain over `T`, genesis first. -/
structure Chain (T : BlockTree) where
  blocks : List BlockView
  genesis : blocks.head?.map BlockView.number = some 0
  follows : blocks.IsChain Follows
  mem_tree : ∀ b ∈ blocks, T.block b.hash = some b

variable {T : BlockTree}

namespace Chain

/-- The number of the last block. -/
def tipNumber (c : Chain T) : ℕ := c.blocks.length - 1

/-- The header at height `number`. -/
def header? (c : Chain T) (number : ℕ) : Option HeaderView :=
  c.blocks[number]?.map BlockView.header

theorem blocks_ne_nil (c : Chain T) : c.blocks ≠ [] := by
  intro h
  have := c.genesis
  rw [h] at this
  simp at this

theorem length_pos (c : Chain T) : 0 < c.blocks.length := List.length_pos_iff.mpr c.blocks_ne_nil

theorem length_eq (c : Chain T) : c.blocks.length = c.tipNumber + 1 := by
  have := c.length_pos
  unfold tipNumber
  omega

theorem linked (c : Chain T) : Linked BlockView.hash BlockView.parentHash c.blocks :=
  c.follows.imp fun _ _ h => h.1

/-- A block of the chain sits at the index of its number. -/
theorem number_eq (c : Chain T) {n : ℕ} {b : BlockView} (h : c.blocks[n]? = some b) :
    b.number = n := by
  induction n generalizing b with
  | zero =>
    have := c.genesis
    rw [List.head?_eq_getElem?, h] at this
    simpa using this
  | succ n ih =>
    obtain ⟨hn, rfl⟩ := List.getElem?_eq_some_iff.mp h
    have hstep := List.isChain_iff_getElem.mp c.follows n hn
    rw [hstep.2, ih (List.getElem?_eq_getElem (by omega))]

theorem getElem?_number (c : Chain T) {b : BlockView} (h : b ∈ c.blocks) :
    c.blocks[b.number]? = some b := by
  obtain ⟨n, hn⟩ := List.getElem?_of_mem h
  rw [c.number_eq hn, hn]

theorem eq_of_number (c : Chain T) {a b : BlockView} (ha : a ∈ c.blocks) (hb : b ∈ c.blocks)
    (h : a.number = b.number) : a = b := by
  have hget := c.getElem?_number ha
  rw [h, c.getElem?_number hb] at hget
  exact (Option.some.inj hget).symm

theorem number_lt (c : Chain T) {b : BlockView} (h : b ∈ c.blocks) : b.number < c.blocks.length :=
  (List.getElem?_eq_some_iff.mp (c.getElem?_number h)).1

theorem le_tipNumber {c : Chain T} {n : ℕ} {b : BlockView} (h : c.blocks[n]? = some b) :
    n ≤ c.tipNumber := by
  have := (List.getElem?_eq_some_iff.mp h).1
  rw [c.length_eq] at this
  exact Nat.le_of_lt_succ this

/-- Blocks of two chains with one hash are one block: the tree files a block by its hash. -/
theorem eq_of_hash (c c' : Chain T) : ∀ a ∈ c.blocks, ∀ b ∈ c'.blocks, a.hash = b.hash → a = b := by
  intro a ha b hb h
  have hab := c.mem_tree a ha
  rw [h, c'.mem_tree b hb] at hab
  exact (Option.some.inj hab).symm

/-- Chains that share a block at one height share every block below. -/
theorem getElem?_eq (c c' : Chain T) {n m : ℕ} {b : BlockView} (h : c.blocks[n]? = some b)
    (h' : c'.blocks[n]? = some b) (hm : m ≤ n) : c.blocks[m]? = c'.blocks[m]? :=
  getElem?_eq_of_agree c.linked c'.linked (c.eq_of_hash c') h h' hm

theorem header?_eq_some {c : Chain T} {n : ℕ} {h : HeaderView} :
    c.header? n = some h ↔ ∃ b, c.blocks[n]? = some b ∧ b.header = h := Option.map_eq_some_iff

theorem number_of_header? {c : Chain T} {n : ℕ} {h : HeaderView} (hh : c.header? n = some h) :
    h.number = n := by
  obtain ⟨b, hb, rfl⟩ := header?_eq_some.mp hh
  exact c.number_eq hb

theorem block_of_header? {c c' : Chain T} {n : ℕ} {h : HeaderView} (hh : c.header? n = some h)
    (hh' : c'.header? n = some h) : ∃ b, c.blocks[n]? = some b ∧ c'.blocks[n]? = some b := by
  obtain ⟨b, hb, rfl⟩ := header?_eq_some.mp hh
  obtain ⟨b', hb', hheader⟩ := header?_eq_some.mp hh'
  have heq : b = b' := c.eq_of_hash c' b (List.mem_of_getElem? hb) b' (List.mem_of_getElem? hb')
    (congrArg HeaderView.hash hheader).symm
  exact ⟨b, hb, heq ▸ hb'⟩

/-- The blocks up to height `n` are a chain. -/
def upTo (c : Chain T) (n : ℕ) : Chain T where
  blocks := c.blocks.take (n + 1)
  genesis := by
    rw [List.head?_take, if_neg (Nat.succ_ne_zero n)]
    exact c.genesis
  follows := c.follows.take (n + 1)
  mem_tree b hb := c.mem_tree b (List.mem_of_mem_take hb)

theorem upTo_blocks (c : Chain T) (n : ℕ) : (c.upTo n).blocks = c.blocks.take (n + 1) := rfl

theorem upTo_length {c : Chain T} {n : ℕ} (hn : n ≤ c.tipNumber) :
    (c.upTo n).blocks.length = n + 1 := by
  have := c.length_eq
  unfold upTo
  rw [List.length_take]
  omega

theorem upTo_tip {c : Chain T} {n : ℕ} (hn : c.tipNumber ≤ n) : (c.upTo n).blocks = c.blocks :=
  List.take_of_length_le (by rw [c.length_eq]; omega)

theorem upTo_getElem? (c : Chain T) {n m : ℕ} (hm : m ≤ n) :
    (c.upTo n).blocks[m]? = c.blocks[m]? := List.getElem?_take_of_lt (Nat.lt_succ_of_le hm)

theorem map_number (c : Chain T) : c.blocks.map BlockView.number = List.range c.blocks.length := by
  refine List.ext_getElem (by simp) fun n hn hn' => ?_
  rw [List.getElem_map, List.getElem_range]
  exact c.number_eq (List.getElem?_eq_getElem (by simpa using hn))

theorem pairwise_number (c : Chain T) : c.blocks.Pairwise fun a b => a.number < b.number := by
  have h : (c.blocks.map BlockView.number).Pairwise (· < ·) := by
    rw [c.map_number]
    exact List.pairwise_lt_range
  exact List.pairwise_map.mp h

theorem mem_upTo {c : Chain T} {n : ℕ} {b : BlockView} :
    b ∈ (c.upTo n).blocks ↔ b ∈ c.blocks ∧ b.number ≤ n := by
  constructor
  · intro hb
    have hmem := List.mem_of_mem_take hb
    have hlt := (c.upTo n).number_lt hb
    unfold upTo at hlt
    rw [List.length_take] at hlt
    exact ⟨hmem, by omega⟩
  · rintro ⟨hb, hn⟩
    refine List.mem_of_getElem? (i := b.number) ?_
    rw [upTo_getElem? c hn, c.getElem?_number hb]

/-- The blocks above height `n`, oldest first. -/
def after (c : Chain T) (n : ℕ) : List BlockView := c.blocks.drop (n + 1)

theorem mem_after {c : Chain T} {n : ℕ} {b : BlockView} :
    b ∈ c.after n ↔ b ∈ c.blocks ∧ n < b.number := by
  constructor
  · intro hb
    obtain ⟨k, hk⟩ := List.getElem?_of_mem hb
    unfold after at hk
    rw [List.getElem?_drop] at hk
    have hnum := c.number_eq hk
    exact ⟨List.mem_of_getElem? hk, by omega⟩
  · rintro ⟨hb, hn⟩
    refine List.mem_of_getElem? (i := b.number - (n + 1)) ?_
    unfold after
    rw [List.getElem?_drop, show n + 1 + (b.number - (n + 1)) = b.number by omega,
      c.getElem?_number hb]

/-- The numbers above height `n` increase. -/
theorem pairwise_after (c : Chain T) (n : ℕ) :
    (c.after n).Pairwise fun a b => a.number < b.number :=
  c.pairwise_number.sublist (List.drop_sublist _ _)

theorem after_succ {c c' : Chain T} {n : ℕ} {b : BlockView} (hb : c'.blocks = c.blocks ++ [b])
    (hn : n ≤ c.tipNumber) : c'.after n = c.after n ++ [b] := by
  rw [after, hb, List.drop_append_of_le_length (by rw [c.length_eq]; omega)]
  rfl

theorem upTo_append_after (c : Chain T) {n m : ℕ} (hn : n ≤ m) :
    (c.upTo n).blocks ++ (c.upTo m).after n = (c.upTo m).blocks := by
  have hold : (c.upTo n).blocks = (c.upTo m).blocks.take (n + 1) := by
    unfold upTo
    rw [List.take_take, Nat.min_eq_left (by omega)]
  rw [hold, after, List.take_append_drop]

theorem map_number_after (c : Chain T) (n : ℕ) :
    (c.after n).map BlockView.number = List.range' (n + 1) (c.tipNumber - n) := by
  unfold after
  rw [List.map_drop, map_number, c.length_eq, List.range_eq_range', List.drop_range']
  congr 1 <;> omega

end Chain

/-! ## The chain that ends at a header -/

/-- `c` is the chain that ends at `header`. -/
def EndsAt (c : Chain T) (header : HeaderView) : Prop :=
  c.blocks.length = header.number + 1 ∧ c.header? header.number = some header

theorem EndsAt.tipNumber {c : Chain T} {header : HeaderView} (h : EndsAt c header) :
    c.tipNumber = header.number := by
  unfold Chain.tipNumber
  rw [h.1, Nat.add_sub_cancel]

theorem EndsAt.unique {c c' : Chain T} {header : HeaderView} (h : EndsAt c header)
    (h' : EndsAt c' header) : c.blocks = c'.blocks := by
  obtain ⟨b, hb, hb'⟩ := Chain.block_of_header? h.2 h'.2
  have := take_eq_of_agree c.linked c'.linked (c.eq_of_hash c') hb hb'
  rwa [← h.1, List.take_length, h.1, ← h'.1, List.take_length] at this

theorem EndsAt.upTo {c : Chain T} {n : ℕ} {header : HeaderView} (h : c.header? n = some header) :
    EndsAt (c.upTo n) header := by
  have hnum := Chain.number_of_header? h
  obtain ⟨b, hb, rfl⟩ := Chain.header?_eq_some.mp h
  have hn := (List.getElem?_eq_some_iff.mp hb).1
  subst hnum
  refine ⟨?_, ?_⟩
  · unfold Chain.upTo
    rw [List.length_take]
    omega
  · unfold Chain.header? Chain.upTo
    rw [List.getElem?_take_of_lt (Nat.lt_succ_self _), hb, Option.map_some]

/-- A block of some chain that links to `header` extends the chain that ends at `header`. -/
theorem EndsAt.succ {c c₁ : Chain T} {header : HeaderView} {b : BlockView} (h : EndsAt c header)
    (hb : c₁.blocks[header.number + 1]? = some b) (hlink : b.parentHash = header.hash) :
    ∃ c' : Chain T, EndsAt c' b.header ∧ c'.blocks = c.blocks ++ [b] := by
  have hlen := (List.getElem?_eq_some_iff.mp hb).1
  have hprev : c₁.blocks[header.number]? = some (c₁.blocks[header.number]) :=
    List.getElem?_eq_getElem (by omega)
  -- the block below `b` on `c₁` has the hash of `header`, so it is the last block of `c`
  obtain ⟨a, ha, rfl⟩ := Chain.header?_eq_some.mp h.2
  have hhash : c₁.blocks[a.header.number].hash = a.hash := by
    rw [← c₁.linked.getElem? hprev hb]
    exact hlink
  have heq := c₁.eq_of_hash c _ (List.getElem_mem _) a (List.mem_of_getElem? ha) hhash
  rw [heq] at hprev
  have hends : EndsAt (c₁.upTo a.header.number) a.header :=
    EndsAt.upTo (Chain.header?_eq_some.mpr ⟨a, hprev, rfl⟩)
  refine ⟨c₁.upTo (a.header.number + 1), EndsAt.upTo (Chain.header?_eq_some.mpr ⟨b, hb, rfl⟩), ?_⟩
  rw [← hends.unique h, Chain.upTo_blocks, Chain.upTo_blocks, List.take_add_one, hb]
  rfl

/-! ## What a block creates -/

/-- Output `p` of the block's transaction `txIndex` is the cell `o`. -/
def Creates (b : BlockView) (txIndex : ℕ) (p : OutPoint) (o : CellOutput) : Prop :=
  ∃ tx, b.transactions[txIndex]? = some tx ∧ p.txHash = tx.hash ∧ tx.outputs[p.index]? = some o

theorem Creates.mem_outPoints_tx {b : BlockView} {k : ℕ} {p : OutPoint} {o : CellOutput}
    (h : Creates b k p o) : ∃ tx, b.transactions[k]? = some tx ∧ p ∈ tx.outPoints := by
  obtain ⟨tx, htx, hhash, hout⟩ := h
  refine ⟨tx, htx, List.mem_map.mpr ⟨p.index, ?_, by rw [← hhash]⟩⟩
  exact List.mem_range.mpr (List.getElem?_eq_some_iff.mp hout).1

theorem Creates.mem_outPoints {b : BlockView} {k : ℕ} {p : OutPoint} {o : CellOutput}
    (h : Creates b k p o) : p ∈ b.outPoints := by
  obtain ⟨tx, htx, hp⟩ := h.mem_outPoints_tx
  exact List.mem_flatMap.mpr ⟨tx, List.mem_of_getElem? htx, hp⟩

/-- A block that creates no out point twice creates each in one transaction, with one output. -/
theorem Creates.unique {b : BlockView} (hb : b.outPoints.Nodup) {k k' : ℕ} {p : OutPoint}
    {o o' : CellOutput} (h : Creates b k p o) (h' : Creates b k' p o') : k = k' ∧ o = o' := by
  obtain ⟨tx, htx, hmem⟩ := h.mem_outPoints_tx
  obtain ⟨tx', htx', hmem'⟩ := h'.mem_outPoints_tx
  obtain ⟨hk, rfl⟩ := List.getElem?_eq_some_iff.mp htx
  obtain ⟨hk', rfl⟩ := List.getElem?_eq_some_iff.mp htx'
  have hdisj := List.pairwise_iff_getElem.mp (List.nodup_flatMap.mp hb).2
  rcases Nat.lt_trichotomy k k' with hlt | rfl | hlt
  · exact absurd hmem' (hdisj k k' hk hk' hlt hmem)
  · obtain ⟨tx₁, htx₁, -, hout⟩ := h
    obtain ⟨tx₂, htx₂, -, hout'⟩ := h'
    obtain rfl := Option.some.inj (htx₁.symm.trans htx₂)
    exact ⟨rfl, Option.some.inj (hout.symm.trans hout')⟩
  · exact absurd hmem (hdisj k' k hk' hk hlt hmem')

/-! ## Valid ledgers -/

/-- An out point is created once, and no block consumes an out point a later block creates.
    A consumed out point need not exist (a cellbase consumes the null out point), and nothing
    is said about consuming twice. -/
structure ValidBlocks (bs : List BlockView) : Prop where
  created_once : (bs.flatMap BlockView.outPoints).Nodup
  no_forward : bs.Pairwise fun a b => ∀ p ∈ a.inputPts, p ∉ b.outPoints

theorem ValidBlocks.sublist {bs bs' : List BlockView} (h : ValidBlocks bs)
    (hs : bs'.Sublist bs) : ValidBlocks bs' :=
  ⟨h.created_once.sublist (hs.flatMap _), h.no_forward.sublist hs⟩

/-- Two blocks of a valid ledger that create one out point are one block. -/
theorem ValidBlocks.eq_of_mem_outPoints {bs : List BlockView} (h : ValidBlocks bs)
    {a b : BlockView} (ha : a ∈ bs) (hb : b ∈ bs) {p : OutPoint} (hpa : p ∈ a.outPoints)
    (hpb : p ∈ b.outPoints) : a = b := by
  by_contra hne
  have hdisj := (List.nodup_flatMap.mp h.created_once).2
  have : Std.Symm (Function.onFun List.Disjoint BlockView.outPoints) :=
    ⟨fun _ _ h _ hx hy => h hy hx⟩
  exact hdisj.forall ha hb hne hpa hpb

/-- In a valid ledger an out point has one creating block, transaction and output. -/
theorem ValidBlocks.creates_unique {bs : List BlockView} (h : ValidBlocks bs) {a b : BlockView}
    (ha : a ∈ bs) (hb : b ∈ bs) {k k' : ℕ} {p : OutPoint} {o o' : CellOutput}
    (hpa : Creates a k p o) (hpb : Creates b k' p o') : a = b ∧ k = k' ∧ o = o' := by
  obtain rfl := h.eq_of_mem_outPoints ha hb hpa.mem_outPoints hpb.mem_outPoints
  exact ⟨rfl, Creates.unique ((List.nodup_flatMap.mp h.created_once).1 a ha) hpa hpb⟩

/-- On a valid chain no block consumes what a higher one creates. -/
theorem Chain.notMem_outPoints {c : Chain T} (h : ValidBlocks c.blocks) {a b : BlockView}
    (ha : a ∈ c.blocks) (hb : b ∈ c.blocks) (hlt : a.number < b.number) {p : OutPoint}
    (hp : p ∈ a.inputPts) : p ∉ b.outPoints := by
  obtain ⟨hn, hget⟩ := List.getElem?_eq_some_iff.mp (c.getElem?_number ha)
  obtain ⟨hn', hget'⟩ := List.getElem?_eq_some_iff.mp (c.getElem?_number hb)
  have hpair := List.pairwise_iff_getElem.mp h.no_forward a.number b.number hn hn' hlt
  rw [hget, hget'] at hpair
  exact hpair p hp

/-! ## Sample blocks -/

namespace Sample

/-- The account of the sample runs, and somebody else's. -/
def account : Account := { pubkeyHash := [1] }

def stranger : Account := { pubkeyHash := [2] }

/-- The output of every sample transaction. -/
def output (a : Account) : CellOutput := { capacity := 100, lock := a.lockScript }

def cellbase (hash : Byte32) (a : Account) : TransactionView :=
  { hash, inputs := [{ previousOutput := ⟨0, 0xffffffff⟩ }], outputs := [output a] }

/-- Spends output 0 of the transaction `spent`. -/
def transfer (hash spent : Byte32) (a : Account) : TransactionView :=
  { hash, inputs := [{ previousOutput := ⟨spent, 0⟩ }], outputs := [output a] }

def block (hash parentHash : Byte32) (number : ℕ) (transactions : List TransactionView) :
    BlockView :=
  { header := { hash, parentHash, number, timestamp := number }, transactions }

end Sample

end TpsBench
