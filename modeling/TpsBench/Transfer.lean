/-
  `transfer.rs`, with `estimate_fee` of `util.rs` and the constants of `global.rs` that it uses.

  Model. `depGroupTxHash` is the hash of the genesis block's second transaction, from which
  `SIGHASH_ALL_CELL_DEP` is made. The signature comes from a library; `sign` stands for it. The
  hash of a transaction is a function of the fields here other than the witnesses, so it is left
  out.

  The division and the remainder are taken once an output, so not at all for `outputsCount = 0`. An
  output capacity is at most the total, so `+ 1` does not overflow.

  * `constructUnsignedTransaction_eq_ok`: when it returns, and what.
  * `le_outputCapacity`: a total that is enough for all outputs is enough for each.
  * `constructUnsignedTransaction_conserves`: but for the fee, the outputs have what the inputs
    have, in nearly equal parts, the larger ones first.
-/
import TpsBench.Lib.Shares
import TpsBench.U64

namespace TpsBench

/-! ## The program -/

/-- `MIN_SECP_CELL_CAPACITY`, in shannons. -/
def minSecpCellCapacity : ℕ := 6100000000

def estimateFee (outputsCount : ℕ) : Except Panic ℕ :=
  let minFeeRate := 1000
  mulU64 outputsCount minFeeRate

inductive DepType where
  | code
  | depGroup
  deriving DecidableEq, Repr

structure CellDep where
  outPoint : OutPoint
  depType : DepType
  deriving DecidableEq, Repr

/-- `SIGHASH_ALL_CELL_DEP`. -/
def sighashAllCellDep (depGroupTxHash : Byte32) : CellDep :=
  { outPoint := ⟨depGroupTxHash, 0⟩, depType := .depGroup }

/-- A transaction as it is built and sent. -/
structure Transaction where
  inputs : List CellInput
  outputs : List CellOutput
  outputsData : List (List UInt8)
  cellDeps : List CellDep
  witnesses : List (List UInt8)
  deriving DecidableEq, Repr

/-- The capacity of output `i`. -/
def outputCapacity (outputTotalCapacity outputsCount i : ℕ) : ℕ :=
  if i < outputTotalCapacity % outputsCount then outputTotalCapacity / outputsCount + 1
  else outputTotalCapacity / outputsCount

def constructUnsignedTransaction (depGroupTxHash : Byte32) (recipient : Account)
    (utxos : List UTXO) (outputsCount : ℕ) : Except Panic Transaction := do
  let fee ← estimateFee outputsCount
  let inputTotalCapacity ← sumU64 (utxos.map UTXO.capacity)
  let outputTotalCapacity ← subU64 inputTotalCapacity fee
  return {
    inputs := utxos.map UTXO.asPreviousInput
    outputs := (List.range outputsCount).map fun i =>
      { capacity := outputCapacity outputTotalCapacity outputsCount i
        lock := recipient.lockScript }
    outputsData := (List.range outputsCount).map fun _ => []
    cellDeps := [sighashAllCellDep depGroupTxHash]
    witnesses := [] }

/-- One witness, with the signature in it. -/
def signTransaction (sign : Transaction → List UInt8) (tx : Transaction) : Transaction :=
  { tx with witnesses := [sign tx] }

/-! ## What is built -/

variable {depGroupTxHash : Byte32} {recipient : Account} {utxos : List UTXO} {outputsCount : ℕ}
  {tx : Transaction}

/-- The capacity of a list of cells. -/
def totalCapacity (utxos : List UTXO) : ℕ := (utxos.map UTXO.capacity).sum

@[simp] theorem totalCapacity_nil : totalCapacity [] = 0 := rfl

@[simp] theorem totalCapacity_append (l l' : List UTXO) :
    totalCapacity (l ++ l') = totalCapacity l + totalCapacity l' := by
  simp [totalCapacity]

@[simp] theorem totalCapacity_singleton (u : UTXO) : totalCapacity [u] = u.capacity := by
  simp [totalCapacity]

@[simp] theorem estimateFee_eq_ok {fee : ℕ} :
    estimateFee outputsCount = .ok fee ↔
      outputsCount * 1000 < u64Size ∧ outputsCount * 1000 = fee :=
  mulU64_eq_ok

/-- It returns if the fee and the sum are u64 and the sum covers the fee. -/
theorem constructUnsignedTransaction_eq_ok :
    constructUnsignedTransaction depGroupTxHash recipient utxos outputsCount = .ok tx ↔
      outputsCount * 1000 < u64Size ∧ totalCapacity utxos < u64Size ∧
        outputsCount * 1000 ≤ totalCapacity utxos ∧
        tx = {
          inputs := utxos.map UTXO.asPreviousInput
          outputs := (List.range outputsCount).map fun i =>
            { capacity := outputCapacity (totalCapacity utxos - outputsCount * 1000) outputsCount i
              lock := recipient.lockScript }
          outputsData := (List.range outputsCount).map fun _ => []
          cellDeps := [sighashAllCellDep depGroupTxHash]
          witnesses := [] } := by
  unfold constructUnsignedTransaction
  simp only [bind_eq_ok, estimateFee_eq_ok, sumU64_eq_ok, subU64_eq_ok]
  constructor
  · rintro ⟨fee, ⟨hfee, hfee'⟩, total, ⟨htotal, htotal'⟩, rest, ⟨hle, hrest⟩, htx⟩
    subst hfee' htotal' hrest
    exact ⟨hfee, htotal, hle, (Except.ok.inj htx).symm⟩
  · rintro ⟨hfee, htotal, hle, htx⟩
    subst htx
    exact ⟨_, ⟨hfee, rfl⟩, _, ⟨htotal, rfl⟩, _, ⟨hle, rfl⟩, rfl⟩

theorem outputCapacity_eq_share (total outputsCount : ℕ) :
    outputCapacity total outputsCount = Lib.share total outputsCount := rfl

/-- A total that is enough for all outputs is enough for each. -/
theorem le_outputCapacity {total least i : ℕ} (hcount : 0 < outputsCount)
    (h : outputsCount * least ≤ total) : least ≤ outputCapacity total outputsCount i := by
  rw [outputCapacity_eq_share]
  exact Lib.le_share hcount h

theorem map_capacity_outputs (total outputsCount : ℕ) (recipient : Account) :
    ((List.range outputsCount).map fun i =>
      ({ capacity := outputCapacity total outputsCount i
         lock := recipient.lockScript } : CellOutput)).map CellOutput.capacity =
      Lib.shares total outputsCount := by
  rw [List.map_map, Lib.shares, ← outputCapacity_eq_share]
  rfl

/-- **Value is conserved.** Cells that pay for the fee become as many outputs as were asked for.
    These have what the fee leaves, no two differ by more than one, and none is larger than one
    before it. -/
theorem constructUnsignedTransaction_conserves (depGroupTxHash : Byte32) (recipient : Account)
    (utxos : List UTXO) (outputsCount : ℕ) {fee : ℕ} (hcount : 1 ≤ outputsCount)
    (htotal : totalCapacity utxos < u64Size) (hfee : estimateFee outputsCount = .ok fee)
    (hcover : fee ≤ totalCapacity utxos) :
    ∃ tx, constructUnsignedTransaction depGroupTxHash recipient utxos outputsCount = .ok tx ∧
      tx.inputs = utxos.map UTXO.asPreviousInput ∧
      tx.outputs.length = outputsCount ∧ tx.outputsData.length = outputsCount ∧
      (∀ o ∈ tx.outputs, o.lock = recipient.lockScript) ∧
      (tx.outputs.map CellOutput.capacity).sum = totalCapacity utxos - fee ∧
      (∀ o ∈ tx.outputs, ∀ o' ∈ tx.outputs, o.capacity ≤ o'.capacity + 1) ∧
      (tx.outputs.map CellOutput.capacity).Pairwise (· ≥ ·) := by
  obtain ⟨hsize, rfl⟩ := estimateFee_eq_ok.mp hfee
  refine ⟨_, constructUnsignedTransaction_eq_ok.mpr ⟨hsize, htotal, hcover, rfl⟩, rfl, ?_⟩
  simp only [map_capacity_outputs, List.length_map, List.length_range, List.mem_map,
    forall_exists_index, and_imp, true_and]
  refine ⟨?_, Lib.sum_shares hcount, ?_, Lib.shares_pairwise _ _⟩
  · rintro o i - rfl
    rfl
  · rintro o i - rfl o' i' - rfl
    exact Lib.share_le_share_succ _ _ i i'

/-- Cells of 61 CKB, and of 40 CKB and one shannon. -/
def Sample.twoCells : List UTXO :=
  [⟨{ capacity := 6100000000, lock := ⟨0, .type, []⟩ }, ⟨5, 0⟩⟩,
    ⟨{ capacity := 4000000001, lock := ⟨0, .type, []⟩ }, ⟨6, 0⟩⟩]

theorem constructUnsignedTransaction_conserves_three :
    ∃ tx, constructUnsignedTransaction 7 ⟨[1]⟩ Sample.twoCells 3 = .ok tx ∧
      tx.inputs = Sample.twoCells.map UTXO.asPreviousInput ∧
      tx.outputs.length = 3 ∧ tx.outputsData.length = 3 ∧
      (∀ o ∈ tx.outputs, o.lock = (⟨[1]⟩ : Account).lockScript) ∧
      (tx.outputs.map CellOutput.capacity).sum = totalCapacity Sample.twoCells - 3000 ∧
      (∀ o ∈ tx.outputs, ∀ o' ∈ tx.outputs, o.capacity ≤ o'.capacity + 1) ∧
      (tx.outputs.map CellOutput.capacity).Pairwise (· ≥ ·) :=
  constructUnsignedTransaction_conserves 7 ⟨[1]⟩ Sample.twoCells 3 (by decide) (by decide)
    (by decide) (by decide)

end TpsBench
