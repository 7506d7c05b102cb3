/-
  Where are the transactions that `bench` has built?

  `Placed` is the invariant: what `bench` offers and what the emitters have answered, hold and have
  queued is, up to order, what was built. It holds across calls: a call that returns has offered its
  last transaction to an emitter, and leaves its emitters as they are.

  * `placed_step`, `placed_of_reachable`: one step, and any run.
  * `bench_delivers`: no transaction is lost or answered twice, and none out of order.
-/
import TpsBench.Benchmark.Bench

namespace TpsBench

open Lib

variable {depGroupTxHash : Byte32} {sign : Transaction → List UInt8} {s s' : System} {c : Call}
  {signed : Built}

/-- The transaction that a call offers to its emitters. -/
def Call.offered (c : Call) : List Built :=
  match c.phase with
  | .offering signed => [signed]
  | _ => []

namespace System

def offered (s : System) : List Built := s.call.elim [] Call.offered

theorem offered_eq_nil (hcall : s.call = some c) (hphase : ∀ signed, c.phase ≠ .offering signed) :
    s.offered = [] := by
  unfold offered
  rw [hcall]
  show c.offered = []
  unfold Call.offered
  split
  next signed h => exact absurd h (hphase signed)
  next => rfl

theorem offered_eq_singleton (hcall : s.call = some c) (hphase : c.phase = .offering signed) :
    s.offered = [signed] := by
  unfold offered
  rw [hcall]
  simp [Call.offered, hphase]

/-- Every place where a transaction can be. -/
def places (s : System) : List Built := s.offered ++ s.emitters.flatMap Worker.messages

structure Placed (s : System) : Prop where
  places : s.places.Perm s.built
  numbered : s.built.map Built.seq = List.range s.built.length
  valid : ∀ e ∈ s.emitters, e.Valid emitterCapacity

theorem placed_init : init.Placed where
  places := .refl _
  numbered := rfl
  valid _ he := absurd he List.not_mem_nil

/-- A step of the main thread that neither builds nor sends. -/
theorem Placed.of_same (h : s.Placed) (hbuilt : s'.built = s.built)
    (hemitters : s'.emitters = s.emitters) (hoffered : s'.offered = s.offered) : s'.Placed where
  places := by
    unfold System.places
    rw [hoffered, hemitters, hbuilt]
    exact h.places
  numbered := by rw [hbuilt, h.numbered]
  valid := by rw [hemitters]; exact h.valid

theorem Placed.run {α : Type} {result : Except Panic α} {next : α → System} (h : s.Placed)
    (hoffered : s.offered = []) (hnext : ∀ a, result = .ok a → (next a).Placed) :
    (s.run result next).Placed := by
  cases result with
  | ok a => exact hnext a rfl
  | error e => exact h.of_same rfl rfl hoffered.symm

theorem Placed.start (h : s.Placed) (hcall : s.call = none) (net : Net) (recipient : Account)
    (transactionType : TransactionType) : (s.start net recipient transactionType).Placed := by
  have hnone : s.offered = [] := by
    unfold offered
    rw [hcall]
    rfl
  refine h.run hnone fun c hstart => ⟨?_, h.numbered, fun e he => ?_⟩
  · obtain ⟨c', hstart', -, -, -, -, hphase⟩ :=
      Call.start_spec net recipient transactionType s.emitters.length
    obtain rfl := Except.ok.inj (hstart.symm.trans hstart')
    have hplaces := h.places
    unfold System.places at hplaces ⊢
    rw [hnone] at hplaces
    have hidle : (List.replicate net.endpoints.length (Worker.idle : Emitter)).flatMap
        Worker.messages = [] := by
      simp [List.flatMap_eq_nil_iff]
    rw [List.flatMap_append, hidle, List.append_nil]
    simpa [offered, Call.offered, hphase] using hplaces
  · rcases List.mem_append.mp he with he | he
    · exact h.valid e he
    · rw [List.eq_of_mem_replicate he]
      exact Worker.valid_idle

theorem Placed.construct (h : s.Placed) (hcall : s.call = some c)
    (hphase : c.phase = .constructing) : (s.construct depGroupTxHash sign c).Placed := by
  have hnone : s.offered = [] := offered_eq_nil hcall (by simp [hphase])
  refine h.run hnone fun signed hbuild => ⟨?_, ?_, h.valid⟩
  · have hplaces := h.places
    unfold System.places at hplaces
    rw [hnone] at hplaces
    exact (hplaces.cons signed).trans (List.perm_append_singleton signed s.built).symm
  · obtain ⟨tx, -, rfl⟩ := Call.construct_eq_ok.mp hbuild
    show (s.built ++ [_]).map Built.seq = List.range (s.built ++ [_]).length
    rw [List.map_append, h.numbered, List.length_append, List.length_singleton, List.range_succ]
    rfl

theorem Placed.trySend (h : s.Placed) (hcall : s.call = some c)
    (hphase : c.phase = .offering signed) : (s.trySend c signed).Placed := by
  have hoffered := offered_eq_singleton hcall hphase
  have hsame : ∀ cursor, ({ s with call := some { c with cursor } } : System).Placed := by
    intro cursor
    refine h.of_same rfl rfl ?_
    rw [hoffered]
    exact offered_eq_singleton (c := { c with cursor }) rfl hphase
  unfold System.trySend
  split
  next e he =>
    split
    next hroom =>
      refine ⟨?_, h.numbered, fun e' he' => ?_⟩
      · have hput := Worker.perm_messages_put (m := signed) he
        have hplaces := h.places
        unfold System.places at hplaces
        rw [hoffered] at hplaces
        exact hput.trans hplaces
      · rcases List.mem_or_eq_of_mem_set he' with hold | rfl
        · exact h.valid e' hold
        · exact (h.valid e (List.mem_of_getElem? he)).put hroom
    next => exact hsame _
  next => exact hsame _

theorem Placed.emit {k : ℕ} {e e' : Emitter} (h : s.Placed) (hk : s.emitters[k]? = some e)
    {hungUp : Bool} (hstep : e.Step Answer.retries hungUp e') :
    ({ s with emitters := s.emitters.set k e' } : System).Placed where
  places := ((Worker.perm_messages_step hk hstep).append_left _).trans h.places
  numbered := h.numbered
  valid e'' he'' := by
    rcases List.mem_or_eq_of_mem_set he'' with hold | rfl
    · exact h.valid e'' hold
    · exact (h.valid e (List.mem_of_getElem? hk)).step hstep

theorem Placed.receive (h : s.Placed) (hcall : s.call = some c) (hphase : c.phase = .receiving)
    (utxo : UTXO) : (s.receive c utxo).Placed := by
  have hnone : s.offered = [] := offered_eq_nil hcall (by simp [hphase])
  have hreceived : ({ s with received := s.received ++ [utxo] } : System).Placed :=
    h.of_same rfl rfl rfl
  refine hreceived.run hnone fun c' hreceive => ?_
  obtain ⟨-, rfl⟩ := Call.receive_eq_ok.mp hreceive
  refine h.of_same rfl rfl ?_
  rw [hnone]
  refine offered_eq_nil rfl fun signed => ?_
  dsimp only
  split <;> simp

/-- What one step of any thread does to the places. -/
theorem placed_step (h : s.Placed) (hstep : Step depGroupTxHash sign s s') : s'.Placed := by
  cases hstep with
  | start net recipient transactionType hcall hcrashed =>
    exact h.start hcall net recipient transactionType
  | receive utxo hcall hphase hopen => exact h.receive hcall hphase utxo
  | close hcall hphase =>
    exact h.of_same rfl rfl (offered_eq_nil hcall (by simp [hphase])).symm
  | construct hcall hphase => exact h.construct hcall hphase
  | trySend hcall hphase => exact h.trySend hcall hphase
  | goOn hcall hphase =>
    exact h.of_same rfl rfl (offered_eq_nil hcall (by simp [hphase])).symm
  | notified metrics hcall hphase =>
    exact h.of_same rfl rfl (offered_eq_nil hcall (by simp [hphase])).symm
  | emit hk hstep => exact h.emit hk hstep

theorem placed_of_reachable (h : Reachable depGroupTxHash sign s) : s.Placed := by
  induction h with
  | refl => exact placed_init
  | tail _ hstep ih => exact placed_step ih hstep

theorem Placed.nodup_built (h : s.Placed) : s.built.Nodup := by
  apply List.Nodup.of_map Built.seq
  rw [h.numbered]
  exact List.nodup_range

end System

/-- **Delivery.** In every state of every run, whatever the nodes answer and however the threads
    interleave: each transaction that was built is in exactly one place, so none is answered twice;
    each emitter's transactions are answered in the order in which they were sent to it, and all of
    them before it ends; and while no call runs they are all with the emitters, which can go on
    until they have answered them. -/
theorem bench_delivers (depGroupTxHash : Byte32) (sign : Transaction → List UInt8) (s : System)
    (h : Reachable depGroupTxHash sign s) :
    s.places.Perm s.built ∧ s.places.Nodup ∧ (s.emitters.flatMap Worker.answers).Nodup ∧
    (∀ e ∈ s.emitters, e.answers ++ e.hand.toList ++ e.queue = e.enqueued) ∧
    (∀ e ∈ s.emitters, e.ended = true → e.answers = e.enqueued) ∧
    (s.call = none → (s.emitters.flatMap Worker.enqueued).Perm s.built ∧
      ∀ answer : Answer, answer.retries = false → ∀ e ∈ s.emitters,
        ∃ e', Relation.ReflTransGen (Worker.Step Answer.retries true) e e' ∧ e'.ended = true ∧
          e'.answers = e.enqueued) := by
  have hplaced := System.placed_of_reachable h
  have hnodup : s.places.Nodup := hplaced.places.nodup_iff.mpr hplaced.nodup_built
  refine ⟨hplaced.places, hnodup, ?_, fun e he => (hplaced.valid e he).inOrder,
    fun e he => (hplaced.valid e he).answers_of_ended, fun hcall => ⟨?_, ?_⟩⟩
  · have hanswers : (s.emitters.flatMap Worker.answers).Sublist
        (s.emitters.flatMap Worker.messages) := List.Sublist.flatMap_right _ fun e _ =>
      (List.sublist_append_left _ _).trans (List.sublist_append_left _ _)
    exact hnodup.sublist (hanswers.trans (List.sublist_append_right _ _))
  · have hplaces := hplaced.places
    unfold System.places System.offered at hplaces
    rw [hcall] at hplaces
    rw [← List.flatMap_congr fun e he => (hplaced.valid e he).inOrder]
    exact hplaces
  · intro answer hfinal e he
    exact (hplaced.valid e he).drains hfinal

/-- The transaction of the sample run is with one emitter, which can still answer it. -/
theorem bench_delivers_sample :
    Sample.system.places = [Sample.built] ∧ Sample.system.places.Nodup ∧
      ∃ e', Relation.ReflTransGen (Worker.Step Answer.retries true)
        { queue := [], hand := some Sample.built, answered := [], enqueued := [Sample.built],
          ended := false } e' ∧ e'.ended = true ∧ e'.answers = [Sample.built] := by
  obtain ⟨-, hnodup, -, -, -, hreturned⟩ :=
    bench_delivers 0 (fun _ => []) Sample.system Sample.reachable_system
  exact ⟨rfl, hnodup, (hreturned rfl).2 (.ok 9) rfl _ (by simp [Sample.system])⟩

end TpsBench
