/-
  What becomes of the UTXOs that `bench` receives?

  `Accounted` is the invariant. Its ledger equation says that the inputs of the transactions built
  so far, what calls have dropped and what the running call holds are, in this order, what was
  received. A call drops something only when the UTXO channel is closed, and nothing is received
  after that.

  * `Accumulates`: the inputs of a call, their sum and the threshold, by where the call is.
  * `accounted_step`, `accounted_of_reachable`: one step, and any run.
  * `bench_accounts`: no UTXO is lost or spent twice, and every transaction can pay for itself.
-/
import TpsBench.Benchmark.Bench

namespace TpsBench

open Lib

variable {depGroupTxHash : Byte32} {sign : Transaction → List UInt8} {s s' : System} {c c' : Call}
  {utxo : UTXO} {signed : Built}

/-! ## One transaction -/

/-- The transaction spends the UTXOs, they cover its outputs and its fee but would not without the
    last one, and every output is large enough for a cell. -/
structure Built.Sound (b : Built) : Prop where
  inputs : b.transaction.inputs = b.utxos.map UTXO.asPreviousInput
  covers : b.transactionType.outputsCount * minSecpCellCapacity +
    b.transactionType.outputsCount * 1000 ≤ totalCapacity b.utxos
  least : totalCapacity b.utxos.dropLast < b.transactionType.outputsCount * minSecpCellCapacity +
    b.transactionType.outputsCount * 1000
  outputs : ∀ output ∈ b.transaction.outputs, minSecpCellCapacity ≤ output.capacity

theorem TransactionType.outputsCount_pos (transactionType : TransactionType) :
    0 < transactionType.outputsCount := by
  cases transactionType <;> decide

theorem TransactionType.threshold_pos (transactionType : TransactionType) :
    0 < transactionType.threshold := by
  cases transactionType <;> decide

theorem Call.construct_sound (depGroupTxHash : Byte32) (sign : Transaction → List UInt8)
    (seq : ℕ) (htotal : totalCapacity c.inputs < u64Size)
    (hcovers : c.transactionType.threshold ≤ totalCapacity c.inputs)
    (hleast : totalCapacity c.inputs.dropLast < c.transactionType.threshold) :
    ∃ signed, c.construct depGroupTxHash sign seq = .ok signed ∧ signed.utxos = c.inputs ∧
      signed.Sound := by
  have hfee : c.transactionType.outputsCount * 1000 ≤ totalCapacity c.inputs := by
    unfold TransactionType.threshold at hcovers
    omega
  refine ⟨_, Call.construct_eq_ok.mpr ⟨_, constructUnsignedTransaction_eq_ok.mpr
    ⟨by omega, htotal, hfee, rfl⟩, rfl⟩, rfl, rfl, hcovers, hleast, fun output houtput => ?_⟩
  obtain ⟨i, -, rfl⟩ := List.mem_map.mp houtput
  apply le_outputCapacity c.transactionType.outputsCount_pos
  unfold TransactionType.threshold at hcovers
  omega

/-! ## One call -/

/-- The sum is that of the inputs. It is below the threshold while the call receives; with the last
    input it is reached; and once the transaction is built there are no inputs. -/
structure Call.Accumulates (c : Call) : Prop where
  threshold : c.minInputTotalCapacity = c.transactionType.threshold
  total : c.inputTotalCapacity = totalCapacity c.inputs
  below : c.phase = .receiving → totalCapacity c.inputs < c.transactionType.threshold
  reached : c.phase = .constructing → c.transactionType.threshold ≤ totalCapacity c.inputs ∧
    totalCapacity c.inputs.dropLast < c.transactionType.threshold
  spent : c.phase ≠ .receiving → c.phase ≠ .constructing → c.inputs = []

theorem Call.Accumulates.receive (utxo : UTXO) (h : c.Accumulates) (hphase : c.phase = .receiving)
    (hfits : totalCapacity c.inputs + utxo.capacity < u64Size) :
    ∃ c', c.receive utxo = .ok c' ∧ c'.inputs = c.inputs ++ [utxo] ∧ c'.Accumulates := by
  rw [← h.total] at hfits
  have hsum : totalCapacity (c.inputs ++ [utxo]) = c.inputTotalCapacity + utxo.capacity := by
    rw [totalCapacity_append, totalCapacity_singleton, h.total]
  refine ⟨_, Call.receive_eq_ok.mpr ⟨hfits, rfl⟩, rfl, h.threshold, hsum.symm, ?_, ?_, ?_⟩
  · intro hreceiving
    dsimp only at hreceiving ⊢
    split at hreceiving
    next hbelow => rwa [hsum, ← h.threshold]
    next => cases hreceiving
  · intro hconstructing
    dsimp only at hconstructing ⊢
    split at hconstructing
    next => cases hconstructing
    next hreached =>
      rw [hsum, ← h.threshold, List.dropLast_concat, h.threshold]
      exact ⟨h.threshold ▸ Nat.not_lt.mp hreached, h.below hphase⟩
  · intro hreceiving hconstructing
    dsimp only at hreceiving hconstructing
    split at hreceiving
    next => exact absurd rfl hreceiving
    next hreached => exact absurd (if_neg hreached) hconstructing

theorem Call.accumulates_of_nil (hmin : c.minInputTotalCapacity = c.transactionType.threshold)
    (hinputs : c.inputs = []) (htotal : c.inputTotalCapacity = 0)
    (hphase : c.phase ≠ .constructing) : c.Accumulates where
  threshold := hmin
  total := by rw [htotal, hinputs, totalCapacity_nil]
  below _ := by
    rw [hinputs]
    exact c.transactionType.threshold_pos
  reached hconstructing := absurd hconstructing hphase
  spent _ _ := hinputs

/-- Once the transaction is built the inputs stay empty until the call receives again. -/
theorem Call.Accumulates.moved (h : c.Accumulates)
    (hspent : c.phase ≠ .receiving ∧ c.phase ≠ .constructing) (cursor : ℕ) {phase : Phase}
    (hphase : phase ≠ .constructing) : ({ c with cursor, phase } : Call).Accumulates := by
  have hinputs := h.spent hspent.1 hspent.2
  have htotal : c.inputTotalCapacity = 0 := by rw [h.total, hinputs, totalCapacity_nil]
  exact Call.accumulates_of_nil h.threshold hinputs htotal hphase

/-! ## The system -/

namespace System

/-- The inputs that calls have dropped. -/
def lost (s : System) : List UTXO := s.returned.flatMap Returned.inputs

/-- The inputs of the running call. -/
def pending (s : System) : List UTXO := s.call.elim [] Call.inputs

structure Accounted (s : System) : Prop where
  running : s.crashed = none
  ledger : s.built.flatMap Built.utxos ++ s.lost ++ s.pending = s.received
  sound : ∀ b ∈ s.built, b.Sound
  call : ∀ c, s.call = some c → c.Accumulates
  lost : s.closed = false → s.lost = []
  pending : s.closed = true → s.pending = []
  notified : ∀ r ∈ s.returned, r.metrics ≠ none → r.inputs = []

theorem accounted_init : init.Accounted where
  running := rfl
  ledger := rfl
  sound _ hb := absurd hb List.not_mem_nil
  call _ hc := by cases hc
  lost _ := rfl
  pending _ := rfl
  notified _ hr := absurd hr List.not_mem_nil

theorem pending_eq (hcall : s.call = some c) : s.pending = c.inputs := by
  unfold System.pending
  rw [hcall]
  rfl

/-- A step that changes the call, but not its inputs, and perhaps the emitters. -/
theorem Accounted.setCall (h : s.Accounted) (hcall : s.call = some c) (hc' : c'.Accumulates)
    (hinputs : c'.inputs = c.inputs) (emitters : List Emitter) :
    ({ s with emitters, call := some c' } : System).Accounted := by
  have hpending : ({ s with emitters, call := some c' } : System).pending = s.pending := by
    rw [pending_eq hcall]
    exact hinputs
  refine ⟨h.running, ?_, h.sound, fun c'' hc'' => ?_, h.lost, fun hclosed => ?_, h.notified⟩
  · rw [hpending]
    exact h.ledger
  · obtain rfl := Option.some.inj hc''
    exact hc'
  · rw [hpending]
    exact h.pending hclosed

theorem Accounted.start (h : s.Accounted) (hcall : s.call = none) (net : Net) (recipient : Account)
    (transactionType : TransactionType) : (s.start net recipient transactionType).Accounted := by
  obtain ⟨c, hstart, htype, hmin, hinputs, htotal, hphase⟩ :=
    Call.start_spec net recipient transactionType s.emitters.length
  have hnone : s.pending = [] := by
    unfold System.pending
    rw [hcall]
    rfl
  unfold System.start
  rw [hstart]
  have hpending : ({ s with
      emitters := s.emitters ++ List.replicate net.endpoints.length Worker.idle
      call := some c } : System).pending = [] := hinputs
  refine ⟨h.running, ?_, h.sound, fun c' hc' => ?_, h.lost, fun _ => hpending, h.notified⟩
  · have hledger := h.ledger
    rw [hnone] at hledger
    show s.built.flatMap Built.utxos ++ s.lost ++ c.inputs = s.received
    rw [hinputs, hledger]
  · obtain rfl := Option.some.inj hc'
    exact Call.accumulates_of_nil (htype ▸ hmin) hinputs htotal (by simp [hphase])

theorem Accounted.pending_le (h : s.Accounted) (hcall : s.call = some c) :
    totalCapacity c.inputs ≤ totalCapacity s.received := by
  rw [← h.ledger, pending_eq hcall, totalCapacity_append]
  exact Nat.le_add_left _ _

theorem Accounted.receive (h : s.Accounted) (hcall : s.call = some c)
    (hphase : c.phase = .receiving) (hopen : s.closed = false)
    (hfits : totalCapacity c.inputs + utxo.capacity < u64Size) :
    (s.receive c utxo).Accounted := by
  obtain ⟨c', hreceive, hinputs, hc'⟩ := (h.call c hcall).receive utxo hphase hfits
  unfold System.receive
  rw [hreceive]
  refine ⟨h.running, ?_, h.sound, fun c'' hc'' => ?_, h.lost, fun hclosed => ?_, h.notified⟩
  · have hledger := h.ledger
    rw [pending_eq hcall] at hledger
    show s.built.flatMap Built.utxos ++ s.lost ++ c'.inputs = s.received ++ [utxo]
    rw [hinputs, ← List.append_assoc, hledger]
  · obtain rfl := Option.some.inj hc''
    exact hc'
  · exact absurd (hopen.symm.trans hclosed) Bool.false_ne_true

/-- The call returns: what it holds is dropped, and that is nothing if it was notified. -/
theorem Accounted.ret (h : s.Accounted) (hcall : s.call = some c) (metrics : Option Metrics)
    (closed : Bool) (hopen : closed = false → s.closed = false ∧ c.inputs = [])
    (hnotified : metrics ≠ none → c.inputs = []) :
    ({ s.ret c metrics with closed } : System).Accounted := by
  have hlost : ({ s.ret c metrics with closed } : System).lost = s.lost ++ c.inputs := by
    show (s.returned ++ [_]).flatMap Returned.inputs = _
    rw [List.flatMap_append]
    simp [System.lost]
  refine ⟨h.running, ?_, h.sound, fun c' hc' => ?_, fun hclosed => ?_, fun _ => rfl, ?_⟩
  · have hledger := h.ledger
    rw [pending_eq hcall] at hledger
    rw [hlost]
    show s.built.flatMap Built.utxos ++ (s.lost ++ c.inputs) ++ [] = s.received
    rw [List.append_nil, ← List.append_assoc, hledger]
  · cases hc'
  · rw [hlost, h.lost (hopen hclosed).1, (hopen hclosed).2]
    rfl
  · intro r hr
    rcases List.mem_append.mp hr with hold | hnew
    · exact h.notified r hold
    · obtain rfl := List.mem_singleton.mp hnew
      exact hnotified

theorem Accounted.construct (h : s.Accounted) (hcall : s.call = some c)
    (hphase : c.phase = .constructing) (hfits : totalCapacity c.inputs < u64Size) :
    (s.construct depGroupTxHash sign c).Accounted := by
  have hc := h.call c hcall
  obtain ⟨hcovers, hleast⟩ := hc.reached hphase
  obtain ⟨signed, hbuild, hutxos, hsound⟩ :=
    Call.construct_sound depGroupTxHash sign s.built.length hfits hcovers hleast
  unfold System.construct
  rw [hbuild]
  refine ⟨h.running, ?_, fun b hb => ?_, fun c' hc' => ?_, h.lost, fun _ => rfl, h.notified⟩
  · -- while there are inputs the channel is open, so nothing is lost yet
    have hopen : s.lost = [] := by
      cases hclosed : s.closed with
      | false => exact h.lost hclosed
      | true =>
        have hnone := h.pending hclosed
        rw [pending_eq hcall] at hnone
        rw [hnone] at hcovers
        exact absurd hcovers (Nat.not_le.mpr c.transactionType.threshold_pos)
    have hledger := h.ledger
    rw [pending_eq hcall, hopen, List.append_nil] at hledger
    show (s.built ++ [signed]).flatMap Built.utxos ++ s.lost ++ [] = s.received
    rw [hopen, List.flatMap_append, List.flatMap_singleton, hutxos, List.append_nil,
      List.append_nil, hledger]
  · rcases List.mem_append.mp hb with hold | hnew
    · exact h.sound b hold
    · obtain rfl := List.mem_singleton.mp hnew
      exact hsound
  · obtain rfl := Option.some.inj hc'
    exact Call.accumulates_of_nil hc.threshold rfl rfl Phase.noConfusion

theorem Accounted.setSpent (h : s.Accounted) (hcall : s.call = some c)
    (hspent : c.phase ≠ .receiving ∧ c.phase ≠ .constructing) (emitters : List Emitter)
    (cursor : ℕ) {phase : Phase} (hphase : phase ≠ .constructing) :
    ({ s with emitters, call := some { c with cursor, phase } } : System).Accounted :=
  h.setCall hcall ((h.call c hcall).moved hspent cursor hphase) rfl emitters

theorem Accounted.trySend (h : s.Accounted) (hcall : s.call = some c)
    (hphase : c.phase = .offering signed) : (s.trySend c signed).Accounted := by
  have hspent : c.phase ≠ .receiving ∧ c.phase ≠ .constructing := by simp [hphase]
  have hagain := h.setSpent hcall hspent s.emitters c.nextCursor hspent.2
  unfold System.trySend
  split
  next e he =>
    split
    next => exact h.setSpent hcall hspent _ c.nextCursor Phase.noConfusion
    next => exact hagain
  next => exact hagain

theorem received_receive : (s.receive c utxo).received = s.received ++ [utxo] :=
  apply_run received (fun _ => rfl) fun _ => rfl

theorem received_construct : (s.construct depGroupTxHash sign c).received = s.received :=
  apply_run received (fun _ => rfl) fun _ => rfl

/-- The sums that the running call takes next are u64. -/
structure Fits (s s' : System) : Prop where
  inputs : ∀ c, s.call = some c → totalCapacity c.inputs < u64Size
  next : ∀ c utxo, s.call = some c → c.phase = .receiving → s'.received = s.received ++ [utxo] →
    totalCapacity c.inputs + utxo.capacity < u64Size

/-- What one step of any thread does to the accounts. -/
theorem accounted_step (h : s.Accounted) (hstep : Step depGroupTxHash sign s s')
    (hfits : Fits s s') : s'.Accounted := by
  cases hstep with
  | start net recipient transactionType hcall hcrashed =>
    exact h.start hcall net recipient transactionType
  | receive utxo hcall hphase hopen =>
    exact h.receive hcall hphase hopen (hfits.next _ utxo hcall hphase received_receive)
  | close hcall hphase =>
    exact h.ret hcall none true (fun hfalse => absurd hfalse.symm Bool.false_ne_true)
      (fun hne => absurd rfl hne)
  | construct hcall hphase => exact h.construct hcall hphase (hfits.inputs _ hcall)
  | trySend hcall hphase => exact h.trySend hcall hphase
  | goOn hcall hphase =>
    exact h.setSpent hcall (by simp [hphase]) s.emitters _ Phase.noConfusion
  | @notified c metrics hcall hphase =>
    have hinputs : c.inputs = [] := (h.call c hcall).spent (by simp [hphase]) (by simp [hphase])
    exact h.ret hcall (some metrics) s.closed (fun hopen => ⟨hopen, hinputs⟩) fun _ => hinputs
  | emit hk hstep =>
    exact ⟨h.running, h.ledger, h.sound, h.call, h.lost, h.pending, h.notified⟩

theorem received_step (hstep : Step depGroupTxHash sign s s') : s.received <+: s'.received := by
  cases hstep with
  | start net recipient transactionType hcall hcrashed =>
    rw [show (s.start net recipient transactionType).received = s.received from
      apply_run received (fun _ => rfl) fun _ => rfl]
  | receive utxo hcall hphase hopen =>
    rw [received_receive]
    exact List.prefix_append _ _
  | construct hcall hphase => rw [received_construct]
  | trySend hcall hphase =>
    unfold System.trySend
    split
    · split <;> exact List.prefix_rfl
    · exact List.prefix_rfl
  | close => exact List.prefix_rfl
  | goOn => exact List.prefix_rfl
  | notified => exact List.prefix_rfl
  | emit => exact List.prefix_rfl

theorem totalCapacity_le_of_start {l l' : List UTXO} (h : l <+: l') :
    totalCapacity l ≤ totalCapacity l' := by
  obtain ⟨l'', rfl⟩ := h
  rw [totalCapacity_append]
  exact Nat.le_add_right _ _

/-- While what is received adds up to a u64, so do the inputs of a call. -/
theorem Accounted.fits (h : s.Accounted) (hstep : Step depGroupTxHash sign s s')
    (htotal : totalCapacity s'.received < u64Size) : Fits s s' where
  inputs c hcall := by
    have hreceived := totalCapacity_le_of_start (received_step hstep)
    have hpending := h.pending_le hcall
    omega
  next c utxo hcall _ hreceived := by
    rw [hreceived, totalCapacity_append, totalCapacity_singleton] at htotal
    have hpending := h.pending_le hcall
    omega

theorem accounted_of_reachable (h : Reachable depGroupTxHash sign s)
    (htotal : totalCapacity s.received < u64Size) : s.Accounted := by
  induction h with
  | refl => exact accounted_init
  | tail _ hstep ih =>
    have haccounted :=
      ih (Nat.lt_of_le_of_lt (totalCapacity_le_of_start (received_step hstep)) htotal)
    exact accounted_step haccounted hstep (haccounted.fits hstep htotal)

end System

/-- **The ledger of the inputs.** In every state of every run in which the capacities received add
    up to a u64: no operation has panicked; the inputs of the transactions built so far, what calls
    have dropped and what the running call holds are, in order, the UTXOs received; a call drops
    inputs only when the channel is closed, with nothing held after that, and none when it returns
    metrics; and every transaction spends its UTXOs, which cover its outputs and its fee, would not
    without the last one, and leave every output at least the minimal capacity. -/
theorem bench_accounts (depGroupTxHash : Byte32) (sign : Transaction → List UInt8) (s : System)
    (h : Reachable depGroupTxHash sign s) (htotal : totalCapacity s.received < u64Size) :
    s.crashed = none ∧
    s.built.flatMap Built.utxos ++ s.lost ++ s.pending = s.received ∧
    (s.closed = false → s.lost = []) ∧ (s.closed = true → s.pending = []) ∧
    (∀ r ∈ s.returned, r.metrics ≠ none → r.inputs = []) ∧
    ∀ b ∈ s.built, b.Sound := by
  have haccounted := System.accounted_of_reachable h htotal
  exact ⟨haccounted.running, haccounted.ledger, haccounted.lost, haccounted.pending,
    haccounted.notified, haccounted.sound⟩

/-- In the sample run both cells are inputs of the transaction. -/
theorem bench_accounts_sample :
    [Sample.built].flatMap Built.utxos ++ [] ++ [] = [Sample.ckbCell 0 100, Sample.ckbCell 1 30] ∧
      Sample.built.Sound := by
  obtain ⟨-, hledger, -, -, -, hsound⟩ :=
    bench_accounts 0 (fun _ => []) Sample.system Sample.reachable_system (by decide)
  exact ⟨hledger, hsound _ (List.mem_singleton.mpr rfl)⟩

end TpsBench
