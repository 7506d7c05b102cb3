/-
  How many inputs do the transactions of a call of `bench` have?

  A transaction of type `InkOutk` has `k` outputs. Nothing counts its inputs: the call collects
  UTXOs until their capacity reaches what `k` minimal cells and the fee take. So the UTXOs that it
  receives are cut into batches by capacity.

  * `DuringCall`: a run from the start of a call on, up to its return.
  * `Shaped`: the batches so far, and the transactions sent. `Shaped.step`, `Shaped.of_run`: one
    step, and any run.
  * `bench_shapes_iff`: when does every transaction have `k` inputs?
-/
import TpsBench.Benchmark.Inputs
import TpsBench.Benchmark.Emitters
import TpsBench.Lib.Batches

namespace TpsBench

open Lib

variable {depGroupTxHash : Byte32} {sign : Transaction → List UInt8} {s₀ s s' : System}
  {c c' : Call} {utxo : UTXO} {signed : Built} {transactionType : TransactionType}
  {bs : List Built} {cells rest : List UTXO} {spawned : ℕ}

/-- `s'` is reached from `s`, in which a call has just started, before another call starts. -/
def DuringCall (depGroupTxHash : Byte32) (sign : Transaction → List UInt8) (s s' : System) :
    Prop :=
  Relation.ReflTransGen (fun s s' => s.call ≠ none ∧ Step depGroupTxHash sign s s') s s'

namespace System

/-- What was sent to the emitters spawned after `s₀`. -/
def sentSince (s₀ s : System) : List Built :=
  (s.emitters.drop s₀.emitters.length).flatMap Worker.enqueued

/-- What was received after `s₀`. -/
def receivedSince (s₀ s : System) : List UTXO := s.received.drop s₀.received.length

/-- The call is between two transactions or has returned. -/
structure Quiet (s : System) : Prop where
  crashed : s.crashed = none
  phase : ∀ c, s.call = some c → c.phase = .receiving ∨ c.phase = .sent

end System

def Transaction.HasShape (k : ℕ) (tx : Transaction) : Prop :=
  tx.inputs.length = k ∧ tx.outputs.length = k

instance (k : ℕ) (tx : Transaction) : Decidable (tx.HasShape k) :=
  inferInstanceAs (Decidable (_ ∧ _))

/-- The transaction spends its UTXOs, which are a batch, and has the outputs of its type. -/
structure Built.Batched (transactionType : TransactionType) (b : Built) : Prop where
  inputs : b.transaction.inputs = b.utxos.map UTXO.asPreviousInput
  outputs : b.transaction.outputs.length = transactionType.outputsCount
  batch : Batch UTXO.capacity transactionType.threshold b.utxos

/-- The call holds the `rest`, and its emitters were spawned last. -/
structure Call.Holds (spawned : ℕ) (transactionType : TransactionType) (rest : List UTXO)
    (c : Call) : Prop where
  type : c.transactionType = transactionType
  accumulates : c.Accumulates
  rest : c.inputs = rest
  emitters : ∀ k ∈ c.txemitters, spawned ≤ k

/-- What a call has made of the `cells` it received: the transactions `bs`, and the `rest`. -/
structure Shaped (s₀ : System) (transactionType : TransactionType) (s : System) (bs : List Built)
    (cells rest : List UTXO) : Prop where
  received : s.received = s₀.received ++ cells
  cut : bs.flatMap Built.utxos ++ rest = cells
  batched : ∀ b ∈ bs, b.Batched transactionType
  sent : (s.offered ++ s₀.sentSince s).Perm bs
  running : ∀ c, s.call = some c → c.Holds s₀.emitters.length transactionType rest
  returned : s.call = none → s.crashed = none → totalCapacity rest < transactionType.threshold

/-! ## One call -/

namespace Call

/-- Unless a transaction is about to be built, the inputs stay below the threshold. -/
theorem Accumulates.lt_threshold (h : c.Accumulates) (hphase : c.phase ≠ .constructing) :
    totalCapacity c.inputs < c.transactionType.threshold := by
  by_cases hreceiving : c.phase = .receiving
  · exact h.below hreceiving
  · rw [h.spent hreceiving hphase, totalCapacity_nil]
    exact c.transactionType.threshold_pos

/-- The transaction that is built from the inputs. -/
theorem construct_batched {seq : ℕ} (h : c.Accumulates) (hphase : c.phase = .constructing)
    (hconstruct : c.construct depGroupTxHash sign seq = .ok signed) :
    signed.utxos = c.inputs ∧ signed.Batched c.transactionType := by
  obtain ⟨tx, htx, rfl⟩ := Call.construct_eq_ok.mp hconstruct
  obtain ⟨-, -, -, rfl⟩ := constructUnsignedTransaction_eq_ok.mp htx
  obtain ⟨hcovers, hleast⟩ := h.reached hphase
  refine ⟨rfl, rfl, ?_, hcovers, hleast⟩
  simp [signTransaction]

theorem Holds.lt_threshold (h : c.Holds spawned transactionType rest)
    (hphase : c.phase ≠ .constructing) : totalCapacity rest < transactionType.threshold := by
  rw [← h.rest, ← h.type]
  exact h.accumulates.lt_threshold hphase

end Call

/-! ## What is sent -/

theorem System.sentSince_emit {k : ℕ} {e e' : Emitter} (hk : s.emitters[k]? = some e)
    {hungUp : Bool} (hstep : e.Step Answer.retries hungUp e') :
    (s₀.sentSince { s with emitters := s.emitters.set k e' }).Perm (s₀.sentSince s) := by
  unfold sentSince
  rw [List.drop_set]
  split
  next => exact .refl _
  next hle =>
    refine Worker.perm_enqueued_step ?_ hstep
    rw [List.getElem?_drop, Nat.add_sub_cancel' (Nat.not_lt.mp hle)]
    exact hk

theorem System.sentSince_put {k : ℕ} {e : Emitter} (hk : s.emitters[k]? = some e)
    (hnew : s₀.emitters.length ≤ k) (call : Option Call) :
    (s₀.sentSince { s with emitters := s.emitters.set k (e.put signed), call }).Perm
      (signed :: s₀.sentSince s) := by
  unfold sentSince
  rw [List.drop_set, if_neg (Nat.not_lt.mpr hnew)]
  refine Worker.perm_enqueued_put ?_
  rw [List.getElem?_drop, Nat.add_sub_cancel' hnew]
  exact hk

/-! ## The system -/

namespace Shaped

theorem start (s₀ : System) (net : Net) (recipient : Account)
    (transactionType : TransactionType) :
    Shaped s₀ transactionType (s₀.start net recipient transactionType) [] [] [] := by
  obtain ⟨c, hstart, htype, hmin, hinputs, htotal, hphase⟩ :=
    Call.start_spec net recipient transactionType s₀.emitters.length
  have htxemitters := Call.txemitters_of_start hstart
  unfold System.start
  rw [hstart]
  refine ⟨(List.append_nil _).symm, rfl, fun b hb => absurd hb List.not_mem_nil, ?_,
    fun c' hc' => ?_, fun hnone => ?_⟩
  · rw [System.offered_eq_nil rfl (by simp [hphase])]
    unfold System.sentSince
    simp [System.run, List.flatMap_eq_nil_iff, Worker.idle]
  · obtain rfl := Option.some.inj hc'
    refine ⟨htype, Call.accumulates_of_nil (htype ▸ hmin) hinputs htotal (by simp [hphase]),
      hinputs, fun k hk => ?_⟩
    rw [htxemitters] at hk
    exact (List.mem_range'_1.mp hk).1
  · cases hnone

theorem setCall (h : Shaped s₀ transactionType s bs cells rest) (hcall : s.call = some c)
    {emitters : List Emitter} (hc' : c'.Accumulates)
    (hsame : c'.transactionType = c.transactionType ∧ c'.inputs = c.inputs ∧
      c'.txemitters = c.txemitters)
    (hsent : (System.offered { s with emitters, call := some c' } ++
      s₀.sentSince { s with emitters, call := some c' }).Perm (s.offered ++ s₀.sentSince s)) :
    Shaped s₀ transactionType { s with emitters, call := some c' } bs cells rest := by
  have hc := h.running c hcall
  obtain ⟨htype, hinputs, htxemitters⟩ := hsame
  refine ⟨h.received, h.cut, h.batched, hsent.trans h.sent, fun c'' hc'' => ?_, fun hnone => ?_⟩
  · obtain rfl := Option.some.inj hc''
    refine ⟨htype.trans hc.type, hc', hinputs.trans hc.rest, ?_⟩
    rw [htxemitters]
    exact hc.emitters
  · cases hnone

theorem ended (h : Shaped s₀ transactionType s bs cells rest) (hnone : s.offered = [])
    {cells' rest' : List UTXO} (hreceived : s'.received = s₀.received ++ cells')
    (hcut : bs.flatMap Built.utxos ++ rest' = cells') (hemitters : s'.emitters = s.emitters)
    (hcall : s'.call = none)
    (hrest : s'.crashed = none → totalCapacity rest' < transactionType.threshold) :
    Shaped s₀ transactionType s' bs cells' rest' where
  received := hreceived
  cut := hcut
  batched := h.batched
  sent := by
    have hsent := h.sent
    rw [hnone] at hsent
    unfold System.offered System.sentSince
    rw [hcall, hemitters]
    exact hsent
  running c hc := by
    rw [hcall] at hc
    cases hc
  returned _ := hrest

theorem receive (h : Shaped s₀ transactionType s bs cells rest) (hcall : s.call = some c)
    (hphase : c.phase = .receiving) (utxo : UTXO) :
    Shaped s₀ transactionType (s.receive c utxo) bs (cells ++ [utxo]) (rest ++ [utxo]) := by
  have hc := h.running c hcall
  have hnone : s.offered = [] := System.offered_eq_nil hcall (by simp [hphase])
  have hreceived : s.received ++ [utxo] = s₀.received ++ (cells ++ [utxo]) := by
    rw [h.received, List.append_assoc]
  have hcut : bs.flatMap Built.utxos ++ (rest ++ [utxo]) = cells ++ [utxo] := by
    rw [← List.append_assoc, h.cut]
  unfold System.receive
  cases hreceive : c.receive utxo with
  | error e =>
    exact h.ended hnone hreceived hcut rfl rfl fun hcrashed => by cases hcrashed
  | ok c' =>
    obtain ⟨hfits, hc'⟩ := Call.receive_eq_ok.mp hreceive
    rw [hc.accumulates.total] at hfits
    obtain ⟨c'', hreceive', hinputs, haccumulates⟩ := hc.accumulates.receive utxo hphase hfits
    obtain rfl := Except.ok.inj (hreceive.symm.trans hreceive')
    refine ⟨hreceived, hcut, h.batched, ?_, fun c'' hc'' => ?_, fun hcall' => ?_⟩
    · have hsent := h.sent
      rw [hnone] at hsent
      rw [System.offered_eq_nil rfl (by subst hc'; dsimp only; split <;> simp)]
      exact hsent
    · obtain rfl := Option.some.inj hc''
      refine ⟨?_, haccumulates, by rw [hinputs, hc.rest], ?_⟩
      · rw [hc']
        exact hc.type
      · rw [hc']
        exact hc.emitters
    · cases hcall'

theorem construct (h : Shaped s₀ transactionType s bs cells rest) (hcall : s.call = some c)
    (hphase : c.phase = .constructing) :
    ∃ bs' rest', Shaped s₀ transactionType (s.construct depGroupTxHash sign c) bs' cells rest' := by
  have hc := h.running c hcall
  have hnone : s.offered = [] := System.offered_eq_nil hcall (by simp [hphase])
  unfold System.construct
  cases hconstruct : c.construct depGroupTxHash sign s.built.length with
  | error e =>
    exact ⟨bs, rest, h.ended hnone h.received h.cut rfl rfl fun hcrashed => by cases hcrashed⟩
  | ok signed =>
    obtain ⟨hutxos, hbatched⟩ := Call.construct_batched hc.accumulates hphase hconstruct
    refine ⟨bs ++ [signed], [], h.received, ?_, fun b hb => ?_, ?_, fun c' hc' => ?_,
      fun hcall' => ?_⟩
    · rw [List.flatMap_append, List.flatMap_singleton, hutxos, hc.rest, List.append_nil, h.cut]
    · rcases List.mem_append.mp hb with hold | hnew
      · exact h.batched b hold
      · obtain rfl := List.mem_singleton.mp hnew
        exact hc.type ▸ hbatched
    · have hsent := h.sent
      rw [hnone] at hsent
      exact (hsent.cons signed).trans (List.perm_append_singleton signed bs).symm
    · obtain rfl := Option.some.inj hc'
      exact ⟨hc.type, Call.accumulates_of_nil hc.accumulates.threshold rfl rfl Phase.noConfusion,
        rfl, hc.emitters⟩
    · cases hcall'

theorem trySend (h : Shaped s₀ transactionType s bs cells rest) (hcall : s.call = some c)
    (hphase : c.phase = .offering signed) :
    Shaped s₀ transactionType (s.trySend c signed) bs cells rest := by
  have hc := h.running c hcall
  have hspent : c.phase ≠ .receiving ∧ c.phase ≠ .constructing := by simp [hphase]
  have hoffered := System.offered_eq_singleton hcall hphase
  have hagain : Shaped s₀ transactionType
      { s with call := some { c with cursor := c.nextCursor } } bs cells rest := by
    refine h.setCall hcall (hc.accumulates.moved hspent _ hspent.2) ⟨rfl, rfl, rfl⟩ ?_
    rw [hoffered,
      System.offered_eq_singleton (c := { c with cursor := c.nextCursor }) rfl hphase]
    exact .refl _
  unfold System.trySend
  split
  next e he =>
    split
    next =>
      refine h.setCall hcall (hc.accumulates.moved hspent _ Phase.noConfusion) ⟨rfl, rfl, rfl⟩ ?_
      rw [hoffered]
      exact System.sentSince_put he (hc.emitters _ c.target_mem) _
    next => exact hagain
  next => exact hagain

/-- What one step of any thread does, up to the return of the call. -/
theorem step (h : Shaped s₀ transactionType s bs cells rest) (hrunning : s.call ≠ none)
    (hstep : Step depGroupTxHash sign s s') :
    ∃ bs' cells' rest', Shaped s₀ transactionType s' bs' cells' rest' := by
  cases hstep with
  | start net recipient transactionType hcall hcrashed => exact absurd hcall hrunning
  | receive utxo hcall hphase hopen => exact ⟨_, _, _, h.receive hcall hphase utxo⟩
  | @close c hcall hphase =>
    refine ⟨bs, cells, rest, h.ended (System.offered_eq_nil hcall (by simp [hphase])) h.received
      h.cut rfl rfl fun _ => ?_⟩
    exact (h.running c hcall).lt_threshold (by simp [hphase])
  | construct hcall hphase =>
    obtain ⟨bs', rest', h'⟩ := h.construct hcall hphase
    exact ⟨bs', cells, rest', h'⟩
  | trySend hcall hphase => exact ⟨_, _, _, h.trySend hcall hphase⟩
  | @goOn c hcall hphase =>
    have hspent : c.phase ≠ .receiving ∧ c.phase ≠ .constructing := by simp [hphase]
    refine ⟨bs, cells, rest, h.setCall hcall
      ((h.running c hcall).accumulates.moved hspent c.cursor Phase.noConfusion) ⟨rfl, rfl, rfl⟩ ?_⟩
    rw [System.offered_eq_nil hcall (by simp [hphase]), System.offered_eq_nil rfl (by simp)]
    exact .refl _
  | @notified c metrics hcall hphase =>
    refine ⟨bs, cells, rest, h.ended (System.offered_eq_nil hcall (by simp [hphase])) h.received
      h.cut rfl rfl fun _ => ?_⟩
    exact (h.running c hcall).lt_threshold (by simp [hphase])
  | emit hk hstep =>
    exact ⟨bs, cells, rest, h.received, h.cut, h.batched,
      ((System.sentSince_emit hk hstep).append_left _).trans h.sent, h.running, h.returned⟩

theorem of_run {net : Net} {recipient : Account}
    (h : DuringCall depGroupTxHash sign (s₀.start net recipient transactionType) s) :
    ∃ bs cells rest, Shaped s₀ transactionType s bs cells rest := by
  induction h with
  | refl => exact ⟨[], [], [], start s₀ net recipient transactionType⟩
  | tail _ hstep ih =>
    obtain ⟨bs, cells, rest, h⟩ := ih
    exact h.step hstep.1 hstep.2

/-! ## The shapes -/

theorem receivedSince (h : Shaped s₀ transactionType s bs cells rest) :
    s₀.receivedSince s = cells := by
  unfold System.receivedSince
  rw [h.received, List.drop_left]

theorem batches (h : Shaped s₀ transactionType s bs cells rest) :
    Lib.Batched UTXO.capacity transactionType.threshold cells (bs.map Built.utxos) rest where
  cut := by
    rw [← List.flatMap_def]
    exact h.cut
  batches g hg := by
    obtain ⟨b, hb, rfl⟩ := List.mem_map.mp hg
    exact (h.batched b hb).batch

/-- Between two transactions what is built is sent, and the rest stays below the threshold. -/
theorem quiet (h : Shaped s₀ transactionType s bs cells rest) (hquiet : s.Quiet) :
    (s₀.sentSince s).Perm bs ∧ totalCapacity rest < transactionType.threshold := by
  have hsent := h.sent
  cases hcall : s.call with
  | none =>
    refine ⟨?_, h.returned hcall hquiet.crashed⟩
    unfold System.offered at hsent
    rwa [hcall] at hsent
  | some c =>
    have hphase := hquiet.phase c hcall
    refine ⟨?_, (h.running c hcall).lt_threshold ?_⟩
    · rwa [System.offered_eq_nil hcall (by rcases hphase with h | h <;> simp [h])] at hsent
    · rcases hphase with h | h <;> simp [h]

end Shaped

theorem Built.Batched.hasShape_iff {b : Built} (h : b.Batched transactionType) :
    b.transaction.HasShape transactionType.outputsCount ↔
      b.utxos.length = transactionType.outputsCount := by
  unfold Transaction.HasShape
  rw [h.inputs, List.length_map]
  exact and_iff_left h.outputs

/-- **The shape of the transactions.** Let a call of `bench` for a type with `k` outputs run, from
    any state on. If wherever what remains of the UTXOs that it received reaches the threshold, the
    next `k` of them reach it but the next `k - 1` do not, every transaction that it has sent has
    `k` inputs and `k` outputs. Between two transactions, and after the call, this is the only way
    for them all to have this shape. -/
theorem bench_shapes_iff (depGroupTxHash : Byte32) (sign : Transaction → List UInt8)
    (s₀ s : System) (net : Net) (recipient : Account) (transactionType : TransactionType)
    (hrun : DuringCall depGroupTxHash sign (s₀.start net recipient transactionType) s) :
    (CutsEvenly UTXO.capacity transactionType.threshold transactionType.outputsCount
        (s₀.receivedSince s) →
      ∀ b ∈ s₀.sentSince s, b.transaction.HasShape transactionType.outputsCount) ∧
    (s.Quiet →
      ((∀ b ∈ s₀.sentSince s, b.transaction.HasShape transactionType.outputsCount) ↔
        CutsEvenly UTXO.capacity transactionType.threshold transactionType.outputsCount
          (s₀.receivedSince s))) := by
  obtain ⟨bs, cells, rest, h⟩ := Shaped.of_run hrun
  have hpos := transactionType.outputsCount_pos
  have hshapes : CutsEvenly UTXO.capacity transactionType.threshold transactionType.outputsCount
      (s₀.receivedSince s) →
      ∀ b ∈ s₀.sentSince s, b.transaction.HasShape transactionType.outputsCount := by
    intro heven b hb
    rw [h.receivedSince] at heven
    have hmem : b ∈ bs := h.sent.mem_iff.mp (List.mem_append_right _ hb)
    exact (h.batched b hmem).hasShape_iff.mpr
      (h.batches.length_of_cutsEvenly hpos heven _ (List.mem_map_of_mem hmem))
  refine ⟨hshapes, fun hquiet => ⟨fun hall => ?_, hshapes⟩⟩
  -- every batch has been sent, and what is left is not one yet
  obtain ⟨hsent, hrest⟩ := h.quiet hquiet
  rw [h.receivedSince]
  refine h.batches.cutsEvenly_of_length hpos hrest fun g hg => ?_
  obtain ⟨b, hb, rfl⟩ := List.mem_map.mp hg
  exact (h.batched b hb).hasShape_iff.mp (hall b (hsent.mem_iff.mpr hb))

/-- A call with one emitter has just started. -/
def Sample.called : System :=
  System.init.start (.connectAll ["http://a"] (by decide)) account .in2Out2

set_option maxRecDepth 20000 in
/-- A cell of 100 CKB does not suffice for two outputs, with another of 30 CKB it does. -/
theorem bench_shapes_iff_sample :
    ∃ s, DuringCall 0 (fun _ => []) Sample.called s ∧
      s.Quiet ∧ (∀ b ∈ System.init.sentSince s, b.transaction.HasShape 2) ∧
      CutsEvenly UTXO.capacity 12200002000 2 (System.init.receivedSince s) := by
  have h : DuringCall 0 (fun _ => []) Sample.called _ := .refl
  have h := h.tail ⟨Option.some_ne_none _, .receive (Sample.ckbCell 0 100) rfl rfl rfl⟩
  have h := h.tail ⟨Option.some_ne_none _, .receive (Sample.ckbCell 1 30) rfl rfl rfl⟩
  have h := h.tail ⟨Option.some_ne_none _, .construct rfl rfl⟩
  have h := h.tail ⟨Option.some_ne_none _, .trySend rfl rfl⟩
  refine ⟨_, h, ?quiet, by decide,
    ((bench_shapes_iff 0 _ .init _ _ _ _ h).2 ?quiet).mp (by decide)⟩
  refine ⟨rfl, fun c hc => ?_⟩
  obtain rfl := Option.some.inj hc
  exact .inr rfl

set_option maxRecDepth 20000 in
/-- A cell of 130 CKB suffices for two outputs, while two of 61 CKB do not pay the fee. -/
theorem bench_sends_other_shapes :
    ∃ s, DuringCall 0 (fun _ => []) Sample.called s ∧
      System.init.receivedSince s = [Sample.ckbCell 0 130, Sample.ckbCell 1 61,
        Sample.ckbCell 2 61, Sample.ckbCell 3 61] ∧
      (∀ utxo ∈ System.init.receivedSince s, minSecpCellCapacity ≤ utxo.capacity) ∧
      (System.init.sentSince s).map (fun b => b.transaction.inputs.length) = [1, 3] ∧
      ¬ ∀ b ∈ System.init.sentSince s, b.transaction.HasShape 2 := by
  have h : DuringCall 0 (fun _ => []) Sample.called _ := .refl
  have h := h.tail ⟨Option.some_ne_none _, .receive (Sample.ckbCell 0 130) rfl rfl rfl⟩
  have h := h.tail ⟨Option.some_ne_none _, .construct rfl rfl⟩
  have h := h.tail ⟨Option.some_ne_none _, .trySend rfl rfl⟩
  have h := h.tail ⟨Option.some_ne_none _, .goOn rfl rfl⟩
  have h := h.tail ⟨Option.some_ne_none _, .receive (Sample.ckbCell 1 61) rfl rfl rfl⟩
  have h := h.tail ⟨Option.some_ne_none _, .receive (Sample.ckbCell 2 61) rfl rfl rfl⟩
  have h := h.tail ⟨Option.some_ne_none _, .receive (Sample.ckbCell 3 61) rfl rfl rfl⟩
  have h := h.tail ⟨Option.some_ne_none _, .construct rfl rfl⟩
  have h := h.tail ⟨Option.some_ne_none _, .trySend rfl rfl⟩
  exact ⟨_, h, rfl, by decide, by decide, by decide⟩

end TpsBench
