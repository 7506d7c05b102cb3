/-
  `account.rs`: which outputs of a block the account owns (`get_owned_utxos`), and when a
  cellbase output counts as mature (`is_matured`).

  `getOwnedUtxos` keeps the source's two accumulators. `getOwnedUtxos_eq` gives them in closed
  form: the owned outputs of transaction 0 (`ownedCellbase`) and those of the other transactions
  (`ownedTransfers`), each in block order. `mem_ownedCellbase` and `mem_ownedTransfers` say the
  same in terms of what the block creates.
-/
import TpsBench.Chain

namespace TpsBench

/-! ## Maturity -/

/-- `tip_number > number + 1800 * CELLBASE_MATURITY`, in u64. A release build wraps, so the sum
    is taken modulo `2^64`. -/
def isMatured (g : Global) (tipNumber number : ℕ) : Bool :=
  decide (tipNumber > (number + 1800 * g.cellbaseMaturity) % u64Size)

/-- `number + 1800 * CELLBASE_MATURITY` stays below `2^64` for every number up to `n`. -/
def NoOverflow (g : Global) (n : ℕ) : Prop := n + 1800 * g.cellbaseMaturity < u64Size

theorem NoOverflow.mono {g : Global} {m n : ℕ} (h : NoOverflow g n) (hm : m ≤ n) :
    NoOverflow g m := by
  unfold NoOverflow at *
  omega

theorem isMatured_iff {g : Global} {number : ℕ} (h : NoOverflow g number) (tipNumber : ℕ) :
    isMatured g tipNumber number = true ↔ tipNumber > number + 1800 * g.cellbaseMaturity := by
  unfold NoOverflow at h
  unfold isMatured
  rw [decide_eq_true_iff, Nat.mod_eq_of_lt h]

/-- A later tip matures what an earlier one did. -/
theorem isMatured_mono {g : Global} {tip tip' number : ℕ} (h : isMatured g tip number = true)
    (ht : tip ≤ tip') : isMatured g tip' number = true := by
  unfold isMatured at *
  have := of_decide_eq_true h
  exact decide_eq_true (by omega)

theorem isMatured_anti {g : Global} {tip m n : ℕ} (hn : NoOverflow g n) (hm : m ≤ n)
    (h : isMatured g tip n = true) : isMatured g tip m = true := by
  rw [isMatured_iff hn] at h
  rw [isMatured_iff (hn.mono hm)]
  omega

/-! ## Owned outputs -/

namespace Account

/-- The inner loop's body: output `index` of the transaction number `txIndex` with this hash,
    pushed onto `(matured, unmatured)` if the account owns it. -/
def pushOutput (a : Account) (hash : Byte32) (txIndex : ℕ) (vecs : List UTXO × List UTXO)
    (entry : CellOutput × ℕ) : List UTXO × List UTXO :=
  let (matured, unmatured) := vecs
  let (output, index) := entry
  if a.lockScript ≠ output.lock then (matured, unmatured)
  else
    let utxo : UTXO := { output, outPoint := { txHash := hash, index } }
    if txIndex = 0 then (matured, unmatured ++ [utxo]) else (matured ++ [utxo], unmatured)

/-- The outer loop's body. -/
def pushTransaction (a : Account) (vecs : List UTXO × List UTXO) (entry : TransactionView × ℕ) :
    List UTXO × List UTXO :=
  let (transaction, txIndex) := entry
  transaction.outputs.zipIdx.foldl (a.pushOutput transaction.hash txIndex) vecs

/-- `(matured, unmatured)`. -/
def getOwnedUtxos (a : Account) (block : BlockView) : List UTXO × List UTXO :=
  block.transactions.zipIdx.foldl a.pushTransaction ([], [])

/-- The outputs of one transaction that carry the account's lock. -/
def ownedIn (a : Account) (tx : TransactionView) : List UTXO :=
  tx.outputs.zipIdx.filterMap fun (output, index) =>
    if a.lockScript = output.lock then
      some { output, outPoint := { txHash := tx.hash, index } }
    else none

/-- The owned outputs of the block's first transaction. -/
def ownedCellbase (a : Account) (block : BlockView) : List UTXO :=
  (block.transactions.take 1).flatMap a.ownedIn

/-- The owned outputs of the block's other transactions. -/
def ownedTransfers (a : Account) (block : BlockView) : List UTXO :=
  (block.transactions.drop 1).flatMap a.ownedIn

/-- The inner loop pushes the transaction's owned outputs onto one of the two vectors. -/
theorem pushTransaction_eq (a : Account) (tx : TransactionView) (txIndex : ℕ) (m u : List UTXO) :
    a.pushTransaction (m, u) (tx, txIndex) =
      if txIndex = 0 then (m, u ++ a.ownedIn tx) else (m ++ a.ownedIn tx, u) := by
  unfold pushTransaction ownedIn
  dsimp only
  generalize tx.outputs.zipIdx = outputs
  induction outputs generalizing m u with
  | nil => simp
  | cons e outputs ih =>
    rw [List.foldl_cons, List.filterMap_cons, pushOutput]
    by_cases hlock : a.lockScript = e.1.lock
    · by_cases hidx : txIndex = 0
      · simp only [hlock, hidx, ne_eq, not_true_eq_false, if_true, if_false] at ih ⊢
        rw [ih, List.append_assoc, List.singleton_append]
      · simp only [hlock, hidx, ne_eq, not_true_eq_false, if_true, if_false] at ih ⊢
        rw [ih, List.append_assoc, List.singleton_append]
    · simp only [hlock, ne_eq, not_false_eq_true, if_true, if_false] at ih ⊢
      rw [ih]

/-- From the second transaction on everything owned is pushed onto `matured`. -/
theorem foldl_pushTransaction (a : Account) (txs : List TransactionView) (start : ℕ)
    (hstart : start ≠ 0) (m u : List UTXO) :
    (txs.zipIdx start).foldl a.pushTransaction (m, u) = (m ++ txs.flatMap a.ownedIn, u) := by
  induction txs generalizing start m with
  | nil => simp
  | cons tx txs ih =>
    rw [List.zipIdx_cons, List.foldl_cons, pushTransaction_eq, if_neg hstart,
      ih (start + 1) (Nat.succ_ne_zero start), List.flatMap_cons, List.append_assoc]

theorem getOwnedUtxos_eq (a : Account) (block : BlockView) :
    a.getOwnedUtxos block = (a.ownedTransfers block, a.ownedCellbase block) := by
  unfold getOwnedUtxos ownedTransfers ownedCellbase
  cases block.transactions with
  | nil => rfl
  | cons tx txs =>
    rw [List.zipIdx_cons, List.foldl_cons, pushTransaction_eq, if_pos rfl,
      foldl_pushTransaction a txs (0 + 1) (Nat.succ_ne_zero 0)]
    simp

/-! ## In terms of what the block creates -/

theorem mem_ownedIn {a : Account} {tx : TransactionView} {u : UTXO} :
    u ∈ a.ownedIn tx ↔
      u.outPoint.txHash = tx.hash ∧ tx.outputs[u.outPoint.index]? = some u.output ∧
        u.output.lock = a.lockScript := by
  unfold ownedIn
  simp only [List.mem_filterMap, Prod.exists, List.mem_zipIdx_iff_getElem?]
  constructor
  · rintro ⟨output, index, hout, h⟩
    split at h
    · next hlock =>
      cases h
      exact ⟨rfl, hout, hlock.symm⟩
    · exact absurd h (by simp)
  · rintro ⟨hhash, hout, hlock⟩
    refine ⟨u.output, u.outPoint.index, hout, ?_⟩
    rw [if_pos hlock.symm, ← hhash]

theorem mem_ownedCellbase {a : Account} {b : BlockView} {u : UTXO} :
    u ∈ a.ownedCellbase b ↔ Creates b 0 u.outPoint u.output ∧ u.output.lock = a.lockScript := by
  unfold ownedCellbase Creates
  simp only [List.mem_flatMap, mem_ownedIn, List.take_one, Option.mem_toList,
    List.head?_eq_getElem?]
  constructor
  · rintro ⟨tx, htx, hhash, hout, hlock⟩
    exact ⟨⟨tx, htx, hhash, hout⟩, hlock⟩
  · rintro ⟨⟨tx, htx, hhash, hout⟩, hlock⟩
    exact ⟨tx, htx, hhash, hout, hlock⟩

theorem mem_ownedTransfers {a : Account} {b : BlockView} {u : UTXO} :
    u ∈ a.ownedTransfers b ↔
      (∃ k, 0 < k ∧ Creates b k u.outPoint u.output) ∧ u.output.lock = a.lockScript := by
  unfold ownedTransfers Creates
  rw [List.mem_flatMap]
  simp only [mem_ownedIn]
  simp only [List.mem_iff_getElem?, List.getElem?_drop]
  constructor
  · rintro ⟨tx, ⟨n, htx⟩, hhash, hout, hlock⟩
    exact ⟨⟨1 + n, by omega, tx, htx, hhash, hout⟩, hlock⟩
  · rintro ⟨⟨k, hk, tx, htx, hhash, hout⟩, hlock⟩
    refine ⟨tx, ⟨k - 1, ?_⟩, hhash, hout, hlock⟩
    rw [show 1 + (k - 1) = k by omega]
    exact htx

/-- Every owned output of the block, cellbase outputs first. -/
def owned (a : Account) (b : BlockView) : List UTXO := a.ownedCellbase b ++ a.ownedTransfers b

theorem owned_eq (a : Account) (b : BlockView) : a.owned b = b.transactions.flatMap a.ownedIn := by
  unfold owned ownedCellbase ownedTransfers
  rw [← List.flatMap_append, List.take_append_drop]

theorem mem_owned {a : Account} {b : BlockView} {u : UTXO} :
    u ∈ a.owned b ↔ (∃ k, Creates b k u.outPoint u.output) ∧ u.output.lock = a.lockScript := by
  unfold owned
  rw [List.mem_append, mem_ownedCellbase, mem_ownedTransfers, ← or_and_right]
  refine and_congr_left fun _ => ?_
  constructor
  · rintro (h | ⟨k, -, h⟩)
    · exact ⟨0, h⟩
    · exact ⟨k, h⟩
  · rintro ⟨k, h⟩
    rcases Nat.eq_zero_or_pos k with rfl | hk
    · exact Or.inl h
    · exact Or.inr ⟨k, hk, h⟩

/-! ## Out points -/

theorem ownedIn_sublist (a : Account) (tx : TransactionView) :
    ((a.ownedIn tx).map UTXO.outPoint).Sublist tx.outPoints := by
  have hindex : tx.outPoints =
      tx.outputs.zipIdx.map fun entry => { txHash := tx.hash, index := entry.2 } := by
    unfold TransactionView.outPoints
    rw [List.range_eq_range', ← List.zipIdx_map_snd, List.map_map]
    rfl
  rw [hindex, ownedIn]
  generalize tx.outputs.zipIdx = outputs
  induction outputs with
  | nil => exact List.Sublist.refl []
  | cons entry outputs ih =>
    rw [List.filterMap_cons, List.map_cons]
    dsimp only
    by_cases hlock : a.lockScript = entry.1.lock
    · rw [if_pos hlock]
      exact ih.cons_cons _
    · rw [if_neg hlock]
      exact ih.cons _

theorem owned_sublist (a : Account) (b : BlockView) :
    ((a.owned b).map UTXO.outPoint).Sublist b.outPoints := by
  rw [owned_eq, List.map_flatMap]
  exact List.Sublist.flatMap_right _ fun tx _ => a.ownedIn_sublist tx

end Account

end TpsBench
