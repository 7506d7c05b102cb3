/-
  `benchmark.rs`: `bench` and `spawn_transaction_emitter`, as one system of threads.

  Model (read this before the theorems). A `System` is the main thread, which makes any number of
  calls of `bench` one after the other, and all emitters that they have spawned. A `Step` is one
  channel operation of one thread, or one computation between two of them, so a run is any
  interleaving. What comes from outside is any: the next UTXO, whether the metrics are there, when
  the UTXO channel closes, what a node answers.

  `received`, `built` and `returned` are histories. `seq` numbers the transactions in the order in
  which they are built, whatever is in them. A `Sender` is the position of its emitter in
  `emitters`. A crossbeam channel is FIFO, and a receiver gets what is queued also when the senders
  are gone.

  Left out: the wait for an empty pool and the log before the loop, the sleep after a transaction,
  the metrics file. None of them changes a variable of the loop. A panic of the main thread ends the
  process; here it ends the call, and no other call starts. Whether a process that has ended left
  transactions with its emitters is not asked.
-/
import TpsBench.Transfer
import TpsBench.NetMonitor.Metrics
import TpsBench.Lib.Worker
import Mathlib.Data.List.Infix

namespace TpsBench

open Lib

/-! ## The emitters -/

inductive TransactionType where
  | in1Out1
  | in2Out2
  | in3Out3
  deriving DecidableEq, Repr

def TransactionType.outputsCount : TransactionType → ℕ
  | .in1Out1 => 1
  | .in2Out2 => 2
  | .in3Out3 => 3

/-- A transaction that `bench` has built, and from what. -/
structure Built where
  seq : ℕ
  utxos : List UTXO
  transactionType : TransactionType
  transaction : Transaction
  deriving DecidableEq

/-- What `send_transaction_result` returns. -/
inductive Answer where
  | ok (txHash : Byte32)
  | err (text : String)
  deriving DecidableEq, Repr

/-- `str::contains`. -/
def contains (text pattern : String) : Bool := decide (pattern.toList <:+: text.toList)

/-- The emitter waits and sends the transaction again. -/
def Answer.retries : Answer → Bool
  | .ok _ => false
  | .err errs => contains errs "PoolIsFull" || contains errs "TransactionPoolFull"

/-- The thread of `spawn_transaction_emitter`, with its channel. -/
abbrev Emitter := Worker Built Answer

/-- `bounded(1000)`. -/
def emitterCapacity : ℕ := 1000

/-! ## A call of `bench` -/

/-- Where the main thread is in the loop of `bench`. -/
inductive Phase where
  /-- At `recv`. -/
  | receiving
  /-- The threshold is reached. -/
  | constructing
  /-- In the loop around `try_send`. -/
  | offering (signed : Built)
  /-- Before the metrics are asked for. -/
  | sent

/-- The variables of a call. There is an emitter for each endpoint, so there is one. -/
structure Call where
  recipient : Account
  transactionType : TransactionType
  minInputTotalCapacity : ℕ
  inputs : List UTXO
  inputTotalCapacity : ℕ
  txemitters : List ℕ
  connected : txemitters ≠ []
  cursor : ℕ
  phase : Phase

/-- `outputs_count * MIN_SECP_CELL_CAPACITY + estimate_fee(outputs_count)`. -/
def TransactionType.minInputTotalCapacity (transactionType : TransactionType) :
    Except Panic ℕ := do
  let outputsCount := transactionType.outputsCount
  addU64 (← mulU64 outputsCount minSecpCellCapacity) (← estimateFee outputsCount)

/-- Up to the loop; `spawned` emitters are there before. -/
def Call.start (net : Net) (recipient : Account) (transactionType : TransactionType)
    (spawned : ℕ) : Except Panic Call := do
  let minInputTotalCapacity ← transactionType.minInputTotalCapacity
  return {
    recipient
    transactionType
    minInputTotalCapacity
    inputs := []
    inputTotalCapacity := 0
    txemitters := List.range' spawned net.endpoints.length
    connected := by
      rw [List.range'_ne_nil_iff]
      exact (List.length_pos_iff.mpr net.connected).ne'
    cursor := 0
    phase := .receiving }

/-- A UTXO has come. -/
def Call.receive (utxo : UTXO) (c : Call) : Except Panic Call := do
  let inputTotalCapacity ← addU64 c.inputTotalCapacity utxo.capacity
  return { c with
    inputs := c.inputs ++ [utxo]
    inputTotalCapacity
    phase := if inputTotalCapacity < c.minInputTotalCapacity then .receiving else .constructing }

/-- The next transaction, number `seq`. -/
def Call.construct (depGroupTxHash : Byte32) (sign : Transaction → List UInt8) (seq : ℕ)
    (c : Call) : Except Panic Built := do
  let rawTransaction ← constructUnsignedTransaction depGroupTxHash c.recipient c.inputs
    c.transactionType.outputsCount
  return {
    seq
    utxos := c.inputs
    transactionType := c.transactionType
    transaction := signTransaction sign rawTransaction }

/-- `inputs.split_off(0)`, and the sum starts anew. -/
def Call.offer (signed : Built) (c : Call) : Call :=
  { c with inputs := [], inputTotalCapacity := 0, phase := .offering signed }

def Call.nextCursor (c : Call) : ℕ := (c.cursor + 1) % c.txemitters.length

/-- `txemitters[cursor]`, with the next cursor. -/
def Call.target (c : Call) : ℕ :=
  c.txemitters.get ⟨c.nextCursor, Nat.mod_lt _ (List.length_pos_iff.mpr c.connected)⟩

/-- How a call ended. -/
structure Returned where
  /-- The inputs that it drops. -/
  inputs : List UTXO
  /-- What the notifier sent. -/
  metrics : Option Metrics

/-- The value of the call. -/
def Returned.value (r : Returned) : ℕ := (r.metrics.map Metrics.tps).getD 0

/-! ## The system -/

structure System where
  received : List UTXO
  built : List Built
  emitters : List Emitter
  call : Option Call
  returned : List Returned
  /-- The UTXO channel has been found closed. -/
  closed : Bool
  crashed : Option Panic

namespace System

def init : System where
  received := []
  built := []
  emitters := []
  call := none
  returned := []
  closed := false
  crashed := none

/-- A computation of the main thread. If it panics, the call is gone. -/
def run {α : Type} (result : Except Panic α) (next : α → System) (s : System) : System :=
  match result with
  | .ok a => next a
  | .error e => { s with call := none, crashed := some e }

def start (net : Net) (recipient : Account) (transactionType : TransactionType) (s : System) :
    System :=
  s.run (Call.start net recipient transactionType s.emitters.length) fun c =>
    { s with
      emitters := s.emitters ++ List.replicate net.endpoints.length Worker.idle
      call := some c }

def receive (c : Call) (utxo : UTXO) (s : System) : System :=
  let s := { s with received := s.received ++ [utxo] }
  s.run (c.receive utxo) fun c' => { s with call := some c' }

def construct (depGroupTxHash : Byte32) (sign : Transaction → List UInt8) (c : Call)
    (s : System) : System :=
  s.run (c.construct depGroupTxHash sign s.built.length) fun signed =>
    { s with built := s.built ++ [signed], call := some (c.offer signed) }

/-- One iteration of the loop around `try_send`. -/
def trySend (c : Call) (signed : Built) (s : System) : System :=
  match s.emitters[c.target]? with
  | some e =>
    if e.accepts emitterCapacity then
      { s with
        emitters := s.emitters.set c.target (e.put signed)
        call := some { c with cursor := c.nextCursor, phase := .sent } }
    else { s with call := some { c with cursor := c.nextCursor } }
  | none => { s with call := some { c with cursor := c.nextCursor } }

/-- The call returns, and its senders are dropped. -/
def ret (c : Call) (metrics : Option Metrics) (s : System) : System :=
  { s with call := none, returned := s.returned ++ [{ inputs := c.inputs, metrics }] }

/-- Is the sender of emitter `k` gone? -/
def hungUp (s : System) (k : ℕ) : Bool :=
  match s.call with
  | some c => decide (k ∉ c.txemitters)
  | none => true

end System

/-- One step of one thread. -/
inductive Step (depGroupTxHash : Byte32) (sign : Transaction → List UInt8) :
    System → System → Prop
  /-- The main thread calls `bench`. -/
  | start {s : System} (net : Net) (recipient : Account) (transactionType : TransactionType)
      (hcall : s.call = none) (hcrashed : s.crashed = none) :
      Step depGroupTxHash sign s (s.start net recipient transactionType)
  | receive {s : System} {c : Call} (utxo : UTXO) (hcall : s.call = some c)
      (hphase : c.phase = .receiving) (hopen : s.closed = false) :
      Step depGroupTxHash sign s (s.receive c utxo)
  /-- `recv` fails, as the channel is empty and closed: the call returns 0. -/
  | close {s : System} {c : Call} (hcall : s.call = some c) (hphase : c.phase = .receiving) :
      Step depGroupTxHash sign s { s.ret c none with closed := true }
  | construct {s : System} {c : Call} (hcall : s.call = some c)
      (hphase : c.phase = .constructing) :
      Step depGroupTxHash sign s (s.construct depGroupTxHash sign c)
  | trySend {s : System} {c : Call} {signed : Built} (hcall : s.call = some c)
      (hphase : c.phase = .offering signed) : Step depGroupTxHash sign s (s.trySend c signed)
  /-- The notifier has nothing. -/
  | goOn {s : System} {c : Call} (hcall : s.call = some c) (hphase : c.phase = .sent) :
      Step depGroupTxHash sign s { s with call := some { c with phase := .receiving } }
  /-- The metrics are there. -/
  | notified {s : System} {c : Call} (metrics : Metrics) (hcall : s.call = some c)
      (hphase : c.phase = .sent) : Step depGroupTxHash sign s (s.ret c (some metrics))
  /-- A step of an emitter. -/
  | emit {s : System} {k : ℕ} {e e' : Emitter} (hk : s.emitters[k]? = some e)
      (hstep : e.Step Answer.retries (s.hungUp k) e') :
      Step depGroupTxHash sign s { s with emitters := s.emitters.set k e' }

/-- `s` is reached by some run. -/
def Reachable (depGroupTxHash : Byte32) (sign : Transaction → List UInt8) (s : System) : Prop :=
  Relation.ReflTransGen (Step depGroupTxHash sign) .init s

/-! ## What the computations of a call do -/

section Call

variable {net : Net} {recipient : Account} {transactionType : TransactionType} {spawned seq : ℕ}
  {c c' : Call} {utxo : UTXO} {signed : Built} {depGroupTxHash : Byte32}
  {sign : Transaction → List UInt8}

/-- The capacity that a transaction needs. -/
def TransactionType.threshold (transactionType : TransactionType) : ℕ :=
  transactionType.outputsCount * minSecpCellCapacity + transactionType.outputsCount * 1000

theorem TransactionType.minInputTotalCapacity_eq (transactionType : TransactionType) :
    transactionType.minInputTotalCapacity = .ok transactionType.threshold := by
  cases transactionType <;> rfl

theorem Call.start_spec (net : Net) (recipient : Account) (transactionType : TransactionType)
    (spawned : ℕ) :
    ∃ c, Call.start net recipient transactionType spawned = .ok c ∧
      c.transactionType = transactionType ∧ c.minInputTotalCapacity = transactionType.threshold ∧
      c.inputs = [] ∧ c.inputTotalCapacity = 0 ∧ c.phase = .receiving := by
  unfold Call.start
  rw [transactionType.minInputTotalCapacity_eq]
  exact ⟨_, rfl, rfl, rfl, rfl, rfl, rfl⟩

theorem Call.txemitters_of_start
    (h : Call.start net recipient transactionType spawned = .ok c) :
    c.txemitters = List.range' spawned net.endpoints.length := by
  unfold Call.start at h
  rw [transactionType.minInputTotalCapacity_eq] at h
  obtain rfl := Except.ok.inj h
  rfl

theorem Call.target_mem (c : Call) : c.target ∈ c.txemitters := List.get_mem _ _

theorem Call.receive_eq_ok : c.receive utxo = .ok c' ↔
    c.inputTotalCapacity + utxo.capacity < u64Size ∧
      c' = { c with
        inputs := c.inputs ++ [utxo]
        inputTotalCapacity := c.inputTotalCapacity + utxo.capacity
        phase := if c.inputTotalCapacity + utxo.capacity < c.minInputTotalCapacity then .receiving
          else .constructing } := by
  unfold Call.receive
  simp only [bind_eq_ok, addU64_eq_ok]
  constructor
  · rintro ⟨total, ⟨hfits, htotal⟩, hc⟩
    subst htotal
    exact ⟨hfits, (Except.ok.inj hc).symm⟩
  · rintro ⟨hfits, hc⟩
    subst hc
    exact ⟨_, ⟨hfits, rfl⟩, rfl⟩

theorem Call.construct_eq_ok :
    c.construct depGroupTxHash sign seq = .ok signed ↔
      ∃ tx, constructUnsignedTransaction depGroupTxHash c.recipient c.inputs
          c.transactionType.outputsCount = .ok tx ∧
        signed = {
          seq
          utxos := c.inputs
          transactionType := c.transactionType
          transaction := signTransaction sign tx } := by
  unfold Call.construct
  simp only [bind_eq_ok]
  constructor
  · intro ⟨tx, htx, hsigned⟩
    exact ⟨tx, htx, (Except.ok.inj hsigned).symm⟩
  · intro ⟨tx, htx, hsigned⟩
    subst hsigned
    exact ⟨tx, htx, rfl⟩

end Call

/-- A value that neither the computation nor its panic changes. -/
theorem System.apply_run {α β : Type} (f : System → β) {result : Except Panic α}
    {next : α → System} {s : System} {b : β} (hnext : ∀ a, f (next a) = b)
    (hpanic : ∀ e, f { s with call := none, crashed := some e } = b) :
    f (s.run result next) = b := by
  cases result with
  | ok a => exact hnext a
  | error e => exact hpanic e

/-! ## A sample run -/

namespace Sample

/-- A cell of so many CKB. -/
def ckbCell (index ckb : ℕ) : UTXO where
  output := { capacity := ckb * 100000000, lock := account.lockScript }
  outPoint := ⟨7, index⟩

def metrics : Metrics where
  tps := 5
  averageBlockTimeMs := 8000
  averageBlockTransactions := 40
  startBlockNumber := 1
  endBlockNumber := 22
  networkNodes := 2
  benchNodes := 2
  totalTransactionsSize := 0

/-- Cells of 100 and 30 CKB, transferred in two outputs. -/
def built : Built where
  seq := 0
  utxos := [ckbCell 0 100, ckbCell 1 30]
  transactionType := .in2Out2
  transaction := {
    inputs := [(ckbCell 0 100).asPreviousInput, (ckbCell 1 30).asPreviousInput]
    outputs := [{ capacity := 6499999000, lock := account.lockScript },
      { capacity := 6499999000, lock := account.lockScript }]
    outputsData := [[], []]
    cellDeps := [sighashAllCellDep 0]
    witnesses := [[]] }

/-- The call has returned, and the second of two emitters still holds the transaction. -/
def system : System where
  received := [ckbCell 0 100, ckbCell 1 30]
  built := [built]
  emitters := [Worker.idle,
    { queue := [], hand := some built, answered := [], enqueued := [built], ended := false }]
  call := none
  returned := [{ inputs := [], metrics := some metrics }]
  closed := false
  crashed := none

set_option maxRecDepth 20000 in
/-- The pool is full when the transaction is first sent. -/
theorem reachable_system : Reachable 0 (fun _ => []) system := by
  have h : Reachable 0 (fun _ => []) .init := .refl
  have h := h.tail (.start (.connectAll ["http://a", "http://b"] (by decide)) account .in2Out2
    rfl rfl)
  have h := h.tail (.receive (ckbCell 0 100) rfl rfl rfl)
  have h := h.tail (.receive (ckbCell 1 30) rfl rfl rfl)
  have h := h.tail (.construct rfl rfl)
  have h := h.tail (.trySend rfl rfl)
  have h := h.tail (.emit (k := 1) rfl (.take rfl rfl rfl))
  have h := h.tail (.emit (k := 1) rfl (.again (r := .err "PoolIsFull") rfl (by decide +kernel)))
  have h := h.tail (.notified metrics rfl rfl)
  exact h

end Sample

end TpsBench
