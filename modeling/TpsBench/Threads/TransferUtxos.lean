/-
  `threads.rs`: `spawn_transfer_utxos`, which passes the cells of one account on to another one by
  one, with `Jsonrpc::send_transaction`.

  Model. The thread gets a list of cells, in the order in which the channel delivers them. `node k
  tx` is what the first endpoint answers when `tx` is the `k`-th transaction sent to it. A panic
  ends the thread, and what the channel still delivers is dropped.

  A transaction has one input and one output, which holds what the fee leaves. `bench` and
  `transfer_forever` wait for the fee on top of the smallest cells that they can make. This thread
  does not.

  * `transferUtxos_short`: the first cell that cannot pay for the fee is the last one sent.
  * `transferUtxos_fit_iff`: when does no output fall below the smallest cell?
-/
import TpsBench.Benchmark.Bench

namespace TpsBench

/-! ## The program -/

/-- What ends the thread. -/
inductive TransferPanic where
  /-- A panic of `construct_unsigned_transaction`. -/
  | construct (panic : Panic)
  /-- `panic!` in `Jsonrpc::send_transaction`, whose text shows the endpoint and the transaction. -/
  | sendTransaction (uri : String) (tx : Transaction)
  deriving DecidableEq, Repr

/-- `Jsonrpc::send_transaction`, given the answer of the endpoint. -/
def Jsonrpc.sendTransaction (rpc : Jsonrpc) (tx : Transaction) :
    Answer → Except TransferPanic Byte32
  | .ok txHash => .ok txHash
  | .err _ => .error (.sendTransaction rpc.uri tx)

/-- The transactions sent so far, and the panic that has ended the thread. -/
structure Transferred where
  sent : List Transaction
  panicked : Option TransferPanic
  deriving DecidableEq

section Program

variable (depGroupTxHash : Byte32) (sign : Transaction → List UInt8) (net : Net)
  (recipient : Account) (node : ℕ → Transaction → Answer)

/-- The body of the loop. -/
def transferUtxo (utxo : UTXO) (t : Transferred) : Transferred :=
  match constructUnsignedTransaction depGroupTxHash recipient [utxo] 1 with
  | .error panic => { t with panicked := some (.construct panic) }
  | .ok raw =>
    let signed := signTransaction sign raw
    let sent := t.sent ++ [signed]
    match net.first.sendTransaction signed (node t.sent.length signed) with
    | .error panic => { sent, panicked := some panic }
    | .ok _ => { t with sent }

/-- The loop, until the thread panics or the channel is closed. -/
def transferUtxos : List UTXO → Transferred → Transferred
  | [], t => t
  | utxo :: rest, t =>
    let t := transferUtxo depGroupTxHash sign net recipient node utxo t
    if t.panicked.isSome then t else transferUtxos rest t

end Program

/-- No output is smaller than a cell with this lock can be. -/
def Transaction.OutputsFit (tx : Transaction) : Prop :=
  ∀ o ∈ tx.outputs, minSecpCellCapacity ≤ o.capacity

instance (tx : Transaction) : Decidable tx.OutputsFit :=
  inferInstanceAs (Decidable (∀ o ∈ tx.outputs, minSecpCellCapacity ≤ o.capacity))

/-- The chain does not take cells that are too small. -/
def RejectsSmall (node : ℕ → Transaction → Answer) : Prop :=
  ∀ k tx, ¬ tx.OutputsFit → ∃ text, node k tx = .err text

/-- It takes everything else. -/
def AcceptsRest (node : ℕ → Transaction → Answer) : Prop :=
  ∀ k tx, tx.OutputsFit → ∃ txHash, node k tx = .ok txHash

/-! ## One cell -/

variable {depGroupTxHash : Byte32} {sign : Transaction → List UInt8} {net : Net}
  {recipient : Account} {node : ℕ → Transaction → Answer} {utxo : UTXO} {utxos : List UTXO}
  {t : Transferred}

/-- The transaction that is sent for a cell. -/
def transferTransaction (depGroupTxHash : Byte32) (sign : Transaction → List UInt8)
    (recipient : Account) (utxo : UTXO) : Transaction :=
  signTransaction sign {
    inputs := [utxo.asPreviousInput]
    outputs := [{ capacity := utxo.capacity - 1000, lock := recipient.lockScript }]
    outputsData := [[]]
    cellDeps := [sighashAllCellDep depGroupTxHash]
    witnesses := [] }

theorem construct_single (depGroupTxHash : Byte32) (sign : Transaction → List UInt8)
    (recipient : Account) (hfee : 1000 ≤ utxo.capacity) (hu64 : utxo.capacity < u64Size) :
    ∃ raw, constructUnsignedTransaction depGroupTxHash recipient [utxo] 1 = .ok raw ∧
      signTransaction sign raw = transferTransaction depGroupTxHash sign recipient utxo := by
  refine ⟨_, constructUnsignedTransaction_eq_ok.mpr ⟨by decide, ?_, ?_, rfl⟩, ?_⟩
  · rwa [totalCapacity_singleton]
  · rwa [totalCapacity_singleton]
  · unfold transferTransaction
    rw [totalCapacity_singleton, outputCapacity_eq_share]
    simp

theorem outputsFit_transferTransaction :
    (transferTransaction depGroupTxHash sign recipient utxo).OutputsFit ↔
      minSecpCellCapacity + 1000 ≤ utxo.capacity := by
  unfold Transaction.OutputsFit transferTransaction
  simp [signTransaction, minSecpCellCapacity]
  omega

theorem transferUtxo_of_ok (hfee : 1000 ≤ utxo.capacity) (hu64 : utxo.capacity < u64Size)
    {txHash : Byte32}
    (hnode : node t.sent.length (transferTransaction depGroupTxHash sign recipient utxo) =
      .ok txHash) :
    transferUtxo depGroupTxHash sign net recipient node utxo t =
      { t with sent := t.sent ++ [transferTransaction depGroupTxHash sign recipient utxo] } := by
  obtain ⟨raw, hraw, hsigned⟩ := construct_single depGroupTxHash sign recipient hfee hu64
  simp only [transferUtxo, hraw, hsigned, hnode, Jsonrpc.sendTransaction]

/-- A cell whose transaction is rejected: the thread panics. -/
theorem transferUtxo_of_err (hfee : 1000 ≤ utxo.capacity) (hu64 : utxo.capacity < u64Size)
    {text : String}
    (hnode : node t.sent.length (transferTransaction depGroupTxHash sign recipient utxo) =
      .err text) :
    transferUtxo depGroupTxHash sign net recipient node utxo t = {
      sent := t.sent ++ [transferTransaction depGroupTxHash sign recipient utxo]
      panicked := some (.sendTransaction net.first.uri
        (transferTransaction depGroupTxHash sign recipient utxo)) } := by
  obtain ⟨raw, hraw, hsigned⟩ := construct_single depGroupTxHash sign recipient hfee hu64
  simp only [transferUtxo, hraw, hsigned, hnode, Jsonrpc.sendTransaction]

theorem sent_transferUtxo (hfee : 1000 ≤ utxo.capacity) (hu64 : utxo.capacity < u64Size) :
    (transferUtxo depGroupTxHash sign net recipient node utxo t).sent =
      t.sent ++ [transferTransaction depGroupTxHash sign recipient utxo] := by
  cases hnode : node t.sent.length (transferTransaction depGroupTxHash sign recipient utxo) with
  | ok txHash => rw [transferUtxo_of_ok hfee hu64 hnode]
  | err text => rw [transferUtxo_of_err hfee hu64 hnode]

/-! ## The thread -/

/-- The cells that can be received: the chain has none that is smaller, and a capacity is a u64. -/
def OnChain (utxos : List UTXO) : Prop :=
  ∀ u ∈ utxos, minSecpCellCapacity ≤ u.capacity ∧ u.capacity < u64Size

theorem OnChain.fee (h : OnChain utxos) (hu : utxo ∈ utxos) : 1000 ≤ utxo.capacity :=
  le_trans (by decide) (h utxo hu).1

/-- Whatever the endpoint answers, only the transactions of received cells are sent. -/
theorem sent_transferUtxos (hcells : OnChain utxos) {tx : Transaction}
    (htx : tx ∈ (transferUtxos depGroupTxHash sign net recipient node utxos t).sent) :
    tx ∈ t.sent ∨ ∃ u ∈ utxos, tx = transferTransaction depGroupTxHash sign recipient u := by
  induction utxos generalizing t with
  | nil => exact Or.inl htx
  | cons utxo rest ih =>
    have hrest : OnChain rest := fun u hu => hcells u (List.mem_cons_of_mem _ hu)
    have hsent : (transferUtxo depGroupTxHash sign net recipient node utxo t).sent = _ :=
      sent_transferUtxo (hcells.fee List.mem_cons_self) (hcells utxo List.mem_cons_self).2
    have hhead : tx ∈ (transferUtxo depGroupTxHash sign net recipient node utxo t).sent →
        tx ∈ t.sent ∨
          ∃ u ∈ utxo :: rest, tx = transferTransaction depGroupTxHash sign recipient u := by
      rw [hsent, List.mem_append, List.mem_singleton]
      exact Or.imp_right fun htx => ⟨utxo, List.mem_cons_self, htx⟩
    unfold transferUtxos at htx
    dsimp only at htx
    split at htx
    · exact hhead htx
    · rcases ih hrest htx with hbefore | ⟨u, hu, heq⟩
      · exact hhead hbefore
      · exact Or.inr ⟨u, List.mem_cons_of_mem _ hu, heq⟩

/-- Cells that pay for the fee on top are sent one after the other. -/
theorem transferUtxos_append (haccepts : AcceptsRest node) {before rest : List UTXO}
    (hcells : OnChain before) (hfit : ∀ u ∈ before, minSecpCellCapacity + 1000 ≤ u.capacity)
    (ht : t.panicked = none) :
    transferUtxos depGroupTxHash sign net recipient node (before ++ rest) t =
      transferUtxos depGroupTxHash sign net recipient node rest {
        sent := t.sent ++ before.map (transferTransaction depGroupTxHash sign recipient)
        panicked := none } := by
  induction before generalizing t with
  | nil =>
    rw [List.nil_append, List.map_nil, List.append_nil, ← ht]
  | cons utxo before ih =>
    obtain ⟨txHash, hnode⟩ := haccepts t.sent.length _
      (outputsFit_transferTransaction.mpr (hfit utxo List.mem_cons_self))
    have hu64 := (hcells utxo List.mem_cons_self).2
    rw [List.cons_append, transferUtxos,
      transferUtxo_of_ok (hcells.fee List.mem_cons_self) hu64 hnode, ht, if_neg (by simp),
      ih (fun u hu => hcells u (List.mem_cons_of_mem _ hu))
        (fun u hu => hfit u (List.mem_cons_of_mem _ hu)) rfl,
      List.map_cons, List.append_assoc, List.singleton_append]

/-- **The later cells are lost.** The first cell that does not pay for the fee on top is the last
    one whose transaction is sent. -/
theorem transferUtxos_short (haccepts : AcceptsRest node) (hrejects : RejectsSmall node)
    {before after : List UTXO} (hcells : OnChain (before ++ utxo :: after))
    (hfit : ∀ u ∈ before, minSecpCellCapacity + 1000 ≤ u.capacity)
    (hshort : utxo.capacity < minSecpCellCapacity + 1000) :
    transferUtxos depGroupTxHash sign net recipient node (before ++ utxo :: after) ⟨[], none⟩ = {
      sent := (before ++ [utxo]).map (transferTransaction depGroupTxHash sign recipient)
      panicked := some (.sendTransaction net.first.uri
        (transferTransaction depGroupTxHash sign recipient utxo)) } := by
  have hutxo : utxo ∈ before ++ utxo :: after := List.mem_append_right _ List.mem_cons_self
  rw [transferUtxos_append haccepts (fun u hu => hcells u (List.mem_append_left _ hu)) hfit rfl,
    List.nil_append, transferUtxos]
  obtain ⟨text, hnode⟩ := hrejects
    (before.map (transferTransaction depGroupTxHash sign recipient)).length
    (transferTransaction depGroupTxHash sign recipient utxo)
    fun hfits => absurd (outputsFit_transferTransaction.mp hfits) (Nat.not_le.mpr hshort)
  rw [transferUtxo_of_err (hcells.fee hutxo) (hcells utxo hutxo).2 hnode,
    if_pos Option.isSome_some, List.map_append, List.map_singleton]

theorem exists_first_short (h : ¬ ∀ u ∈ utxos, minSecpCellCapacity + 1000 ≤ u.capacity) :
    ∃ before utxo after, utxos = before ++ utxo :: after ∧
      (∀ u ∈ before, minSecpCellCapacity + 1000 ≤ u.capacity) ∧
      utxo.capacity < minSecpCellCapacity + 1000 := by
  push Not at h
  obtain ⟨u, hu, hlt⟩ := h
  have hfind : (utxos.find? fun u =>
      decide (u.capacity < minSecpCellCapacity + 1000)).isSome := by
    rw [List.find?_isSome]
    exact ⟨u, hu, decide_eq_true hlt⟩
  obtain ⟨utxo, hutxo⟩ := Option.isSome_iff_exists.mp hfind
  obtain ⟨hshort, before, after, hsplit, hbefore⟩ := List.find?_eq_some_iff_append.mp hutxo
  refine ⟨before, utxo, after, hsplit, fun u hu => ?_, of_decide_eq_true hshort⟩
  simpa using hbefore u hu

/-- An endpoint that rejects what is too small, and nothing else. -/
def strictNode (_ : ℕ) (tx : Transaction) : Answer :=
  if tx.OutputsFit then .ok 0 else .err "InsufficientCellCapacity"

theorem rejectsSmall_strictNode : RejectsSmall strictNode :=
  fun _ _ hsmall => ⟨_, if_neg hsmall⟩

theorem acceptsRest_strictNode : AcceptsRest strictNode := fun _ _ hfits => ⟨_, if_pos hfits⟩

/-- **Cells just above the minimum.** Let the received cells be as the chain has them. No
    transaction with an output that is too small is sent, whatever else the endpoint rejects, if and
    only if every cell holds the fee of one output on top of the minimum. If the endpoint rejects
    nothing else, the thread does not panic under the same condition. -/
theorem transferUtxos_fit_iff (depGroupTxHash : Byte32) (sign : Transaction → List UInt8)
    (net : Net) (recipient : Account) (utxos : List UTXO) (hcells : OnChain utxos) :
    ((∀ node, RejectsSmall node →
        ∀ tx ∈ (transferUtxos depGroupTxHash sign net recipient node utxos ⟨[], none⟩).sent,
          tx.OutputsFit) ↔
      ∀ u ∈ utxos, minSecpCellCapacity + 1000 ≤ u.capacity) ∧
    ∀ node, RejectsSmall node → AcceptsRest node →
      ((transferUtxos depGroupTxHash sign net recipient node utxos ⟨[], none⟩).panicked = none ↔
        ∀ u ∈ utxos, minSecpCellCapacity + 1000 ≤ u.capacity) := by
  refine ⟨⟨?_, ?_⟩, fun node hrejects haccepts => ⟨?_, ?_⟩⟩
  · intro hsafe
    by_contra hsome
    obtain ⟨before, utxo, after, rfl, hbefore, hshort⟩ := exists_first_short hsome
    have hsent := hsafe strictNode rejectsSmall_strictNode
      (transferTransaction depGroupTxHash sign recipient utxo)
    rw [transferUtxos_short acceptsRest_strictNode rejectsSmall_strictNode hcells hbefore
      hshort] at hsent
    have hfits := hsent (List.mem_map_of_mem (List.mem_append_right _ (List.mem_singleton_self _)))
    exact absurd (outputsFit_transferTransaction.mp hfits) (Nat.not_le.mpr hshort)
  · intro hfit node hrejects tx htx
    rcases sent_transferUtxos hcells htx with hnone | ⟨u, hu, rfl⟩
    · exact absurd hnone List.not_mem_nil
    · exact outputsFit_transferTransaction.mpr (hfit u hu)
  · intro hquiet
    by_contra hsome
    obtain ⟨before, utxo, after, rfl, hbefore, hshort⟩ := exists_first_short hsome
    rw [transferUtxos_short haccepts hrejects hcells hbefore hshort] at hquiet
    cases hquiet
  · intro hfit
    rw [← List.append_nil utxos, transferUtxos_append haccepts hcells hfit rfl]
    rfl

/-- A cell of 61 CKB, the smallest there is, and one of 100. -/
def Sample.minerCells : List UTXO := [ckbCell 0 61, ckbCell 1 100]

/-- The first one makes an output of 1000 shannons less. The second one is not sent. -/
theorem transferUtxos_sends_small :
    OnChain Sample.minerCells ∧
      (∀ u ∈ Sample.minerCells, u.output.lock = Sample.account.lockScript) ∧
      RejectsSmall strictNode ∧
      ∃ tx, transferUtxos 0 (fun _ => []) Sample.net Sample.stranger strictNode Sample.minerCells
          ⟨[], none⟩ = ⟨[tx], some (.sendTransaction "http://127.0.0.1:8114" tx)⟩ ∧
        tx.outputs.map CellOutput.capacity = [6099999000] ∧ ¬ tx.OutputsFit := by
  have hcells : OnChain Sample.minerCells := by
    unfold OnChain
    decide
  refine ⟨hcells, by decide, rejectsSmall_strictNode,
    transferTransaction 0 (fun _ => []) Sample.stranger (Sample.ckbCell 0 61), ?_, by decide,
    by decide⟩
  show transferUtxos 0 (fun _ => []) Sample.net Sample.stranger strictNode
    ([] ++ Sample.ckbCell 0 61 :: [Sample.ckbCell 1 100]) ⟨[], none⟩ = _
  exact transferUtxos_short acceptsRest_strictNode rejectsSmall_strictNode hcells (by simp)
    (by decide)

/-- A cell of 100 CKB, one that holds the fee on top of 61 CKB and not a shannon more, and one of 62
    CKB. -/
def Sample.boundaryCells : List UTXO :=
  [ckbCell 1 100, { output := { capacity := 6100001000, lock := account.lockScript },
                    outPoint := ⟨7, 2⟩ }, ckbCell 3 62]

/-- All three are sent on. With a shannon less the second one is too small. -/
theorem transferUtxos_fit_iff_boundary :
    (transferUtxos 0 (fun _ => []) Sample.net Sample.stranger strictNode Sample.boundaryCells
      ⟨[], none⟩).panicked = none ∧
    minSecpCellCapacity + 1000 = 6100001000 := by
  refine ⟨((transferUtxos_fit_iff 0 (fun _ => []) Sample.net Sample.stranger Sample.boundaryCells
    (by unfold OnChain; decide)).2 strictNode rejectsSmall_strictNode acceptsRest_strictNode).mpr
    ?_, rfl⟩
  decide

end TpsBench
