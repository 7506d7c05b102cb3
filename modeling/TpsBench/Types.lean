/-
  The chain data tps-bench reads, as far as the scanners, the miner loop, the endpoint queries and
  the benchmark use it.

  Hashes are opaque: `TransactionView` and `HeaderView` carry theirs as a field, as the views of
  `ckb-types` do, and a transaction carries its serialized size in the same way. A `Byte32` is the
  number its bytes spell; nothing here depends on its width.
  Block numbers and capacities are u64 in the source. They are `ℕ` here, and arithmetic that
  can pass `2^64` says so where it is done (`isMatured`, `getTotalCapacityFromUtxo`).
-/
import Mathlib.Algebra.GroupWithZero.Nat

namespace TpsBench

/-- A 32-byte hash. -/
abbrev Byte32 := ℕ

/-- How many values a u64 has. -/
abbrev u64Size : ℕ := 2 ^ 64

/-! ## Global settings -/

/-- `CELLBASE_MATURITY` and `CONFIRMATION_BLOCKS`, set once from the spec file. -/
structure Global where
  cellbaseMaturity : ℕ
  confirmationBlocks : ℕ

/-- `SIGHASH_ALL_TYPE_HASH`. -/
def sighashAllTypeHash : Byte32 :=
  0x9bd7e06f3ecf4be0f2fcd2188b23f1b9fcc88e5d4b65a8637b17723bbda3cce8

/-! ## Cells and transactions -/

/-- How a script's code hash is matched. -/
inductive ScriptHashType where
  | data
  | type
  deriving DecidableEq, Repr

/-- A lock or type script. -/
structure Script where
  codeHash : Byte32
  hashType : ScriptHashType
  args : List UInt8
  deriving DecidableEq, Repr

/-- A cell as a transaction output. `typeScript` is the field `type_`. -/
structure CellOutput where
  capacity : ℕ
  lock : Script
  typeScript : Option Script := none
  deriving DecidableEq, Repr

/-- Output `index` of the transaction with hash `txHash`. -/
structure OutPoint where
  txHash : Byte32
  index : ℕ
  deriving DecidableEq, Repr

structure CellInput where
  previousOutput : OutPoint
  since : ℕ := 0
  deriving DecidableEq, Repr

structure TransactionView where
  hash : Byte32
  inputs : List CellInput
  outputs : List CellOutput
  /-- How many bytes the transaction takes in a block. -/
  serializedSizeInBlock : ℕ := 0
  deriving DecidableEq, Repr

/-- `input_pts_iter`: the out points the transaction's inputs name. A cellbase's input names
    the null out point, which no transaction creates. -/
def TransactionView.inputPts (tx : TransactionView) : List OutPoint :=
  tx.inputs.map CellInput.previousOutput

/-- The out points the transaction creates. -/
def TransactionView.outPoints (tx : TransactionView) : List OutPoint :=
  (List.range tx.outputs.length).map fun index => ⟨tx.hash, index⟩

/-! ## Headers and blocks -/

structure HeaderView where
  hash : Byte32
  parentHash : Byte32
  number : ℕ
  timestamp : ℕ
  deriving DecidableEq, Repr

structure BlockView where
  header : HeaderView
  transactions : List TransactionView
  deriving DecidableEq, Repr

namespace BlockView

def hash (b : BlockView) : Byte32 := b.header.hash

def parentHash (b : BlockView) : Byte32 := b.header.parentHash

def number (b : BlockView) : ℕ := b.header.number

def timestamp (b : BlockView) : ℕ := b.header.timestamp

/-- Every out point some input of the block names. -/
def inputPts (b : BlockView) : List OutPoint := b.transactions.flatMap TransactionView.inputPts

/-- Every out point the block creates. -/
def outPoints (b : BlockView) : List OutPoint := b.transactions.flatMap TransactionView.outPoints

end BlockView

/-! ## UTXOs and accounts -/

/-- A cell with its out point. -/
structure UTXO where
  output : CellOutput
  outPoint : OutPoint
  deriving DecidableEq, Repr

def UTXO.capacity (u : UTXO) : ℕ := u.output.capacity

def UTXO.asPreviousInput (u : UTXO) : CellInput := { previousOutput := u.outPoint }

/-- The map entry of a cell: `out_point ↦ output`. -/
def UTXO.entry (u : UTXO) : OutPoint × CellOutput := (u.outPoint, u.output)

/-- The map entry of a pending cell: `out_point ↦ (number, output)`. -/
def UTXO.numberedEntry (number : ℕ) (u : UTXO) : OutPoint × (ℕ × CellOutput) :=
  (u.outPoint, (number, u.output))

theorem UTXO.mem_map_entry {l : List UTXO} {p : OutPoint} {o : CellOutput} :
    (p, o) ∈ l.map UTXO.entry ↔ (⟨o, p⟩ : UTXO) ∈ l := by
  rw [List.mem_map]
  constructor
  · rintro ⟨u, hu, h⟩
    cases h
    exact hu
  · intro h
    exact ⟨_, h, rfl⟩

theorem UTXO.mem_map_numberedEntry {l : List UTXO} {p : OutPoint} {o : CellOutput}
    {number n : ℕ} :
    (p, (n, o)) ∈ l.map (UTXO.numberedEntry number) ↔ number = n ∧ (⟨o, p⟩ : UTXO) ∈ l := by
  rw [List.mem_map]
  constructor
  · rintro ⟨u, hu, h⟩
    cases h
    exact ⟨rfl, hu⟩
  · rintro ⟨rfl, h⟩
    exact ⟨_, h, rfl⟩

theorem UTXO.notMem_keys {V : Type} {l : List UTXO} {entry : UTXO → OutPoint × V}
    (hentry : ∀ u, (entry u).1 = u.outPoint) {p : OutPoint} :
    p ∉ (l.map entry).map Prod.fst ↔ ∀ o, (⟨o, p⟩ : UTXO) ∉ l := by
  rw [List.map_map, List.mem_map]
  constructor
  · intro hkey o hu
    exact hkey ⟨_, hu, hentry _⟩
  · rintro hnone ⟨u, hu, rfl⟩
    rw [Function.comp_apply, hentry] at hnone
    exact hnone u.output hu

/-- An account by the hash of its public key, the only part of the key the scanners use. -/
structure Account where
  pubkeyHash : List UInt8
  deriving DecidableEq, Repr

/-- The account's secp256k1 lock. -/
def Account.lockScript (a : Account) : Script :=
  { codeHash := sighashAllTypeHash, hashType := .type, args := a.pubkeyHash }

end TpsBench
