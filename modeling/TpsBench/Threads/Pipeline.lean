/-
  From the scanner to the transactions: the channel that `spawn_pull_utxos` makes, with `bench` at
  its other end.

  Model. A `Pipeline` is that channel, `bounded(2000)`, and the system of `bench` and its emitters.
  The scanning thread sends what it likes, waits while the channel is full, and may end at any time.
  `recv` in `bench` gets what is queued, and fails once the queue is empty and the thread is gone.
  All else is a step of the system (`other`): one that receives nothing and finds nothing closed.

  * `Piped`, `piped_step`: how channel and system hang together.
  * `reachable_bench`: what the system does in the pipeline it also does on its own, so whatever
    holds in its runs holds here.
  * `pipeline_accounts`: where everything is that was sent.
-/
import TpsBench.Benchmark.Value
import TpsBench.Lib.Channel

namespace TpsBench

open Lib

/-- `bounded(2000)`. -/
def utxoCapacity : ℕ := 2000

structure Pipeline where
  channel : Channel UTXO
  bench : System

namespace Pipeline

def init : Pipeline where
  channel := .empty
  bench := .init

/-- One step of one thread. -/
inductive Step (depGroupTxHash : Byte32) (sign : Transaction → List UInt8) :
    Pipeline → Pipeline → Prop
  /-- The scanner sends a UTXO. -/
  | send {p : Pipeline} (utxo : UTXO) (hroom : p.channel.accepts utxoCapacity = true) :
      Step depGroupTxHash sign p { p with channel := p.channel.send utxo }
  /-- The scanner ends. -/
  | hangUp {p : Pipeline} : Step depGroupTxHash sign p { p with channel := p.channel.hangUp }
  | recv {p : Pipeline} {utxo : UTXO} {rest : List UTXO} {c : Call}
      (hqueue : p.channel.queue = utxo :: rest) (hcall : p.bench.call = some c)
      (hphase : c.phase = .receiving) : Step depGroupTxHash sign p
        { channel := p.channel.recv utxo rest, bench := p.bench.receive c utxo }
  /-- `recv` fails. -/
  | close {p : Pipeline} {c : Call} (hfinished : p.channel.Finished)
      (hcall : p.bench.call = some c) (hphase : c.phase = .receiving) :
      Step depGroupTxHash sign p { p with bench := { p.bench.ret c none with closed := true } }
  /-- A step that leaves the channel alone. -/
  | other {p : Pipeline} {s : System} (hstep : TpsBench.Step depGroupTxHash sign p.bench s)
      (hreceived : s.received = p.bench.received) (hclosed : s.closed = p.bench.closed) :
      Step depGroupTxHash sign p { p with bench := s }

/-- `p` is reached by some run. -/
def Reachable (depGroupTxHash : Byte32) (sign : Transaction → List UInt8) (p : Pipeline) : Prop :=
  Relation.ReflTransGen (Step depGroupTxHash sign) init p

variable {depGroupTxHash : Byte32} {sign : Transaction → List UInt8} {p p' : Pipeline}

/-! ## Channel and system -/

/-- The system has received what the channel has delivered, and finds the channel closed only when
    it is. -/
structure Piped (p : Pipeline) : Prop where
  valid : p.channel.Valid utxoCapacity
  received : p.channel.received = p.bench.received
  closed : p.bench.closed = true → p.channel.Finished

theorem piped_init : init.Piped := ⟨Channel.valid_empty, rfl, fun h => by cases h⟩

theorem piped_step (h : p.Piped) (hstep : Step depGroupTxHash sign p p') : p'.Piped := by
  cases hstep with
  | send utxo hroom =>
    exact ⟨h.valid.send hroom, h.received,
      fun hclosed => absurd hroom (h.closed hclosed).not_accepts⟩
  | hangUp => exact ⟨h.valid.hangUp, h.received, fun hclosed => ⟨rfl, (h.closed hclosed).2⟩⟩
  | @recv utxo rest c hqueue hcall hphase =>
    refine ⟨h.valid.recv hqueue, ?_, fun hclosed => ?_⟩
    · show p.channel.received ++ [utxo] = (p.bench.receive c utxo).received
      rw [System.received_receive, h.received]
    · have hsame : (p.bench.receive c utxo).closed = p.bench.closed :=
        System.apply_run System.closed (fun _ => rfl) fun _ => rfl
      have hnone := (h.closed (hsame ▸ hclosed)).2
      rw [hqueue] at hnone
      cases hnone
  | close hfinished => exact ⟨h.valid, h.received, fun _ => hfinished⟩
  | other hstep hreceived hclosed =>
    exact ⟨h.valid, h.received.trans hreceived.symm, fun hc => h.closed (hclosed.symm.trans hc)⟩

theorem piped_of_reachable (h : Reachable depGroupTxHash sign p) : p.Piped := by
  induction h with
  | refl => exact piped_init
  | tail _ hstep ih => exact piped_step ih hstep

/-- A step of the pipeline is one of the system, or the system stands still. -/
theorem bench_step (h : p.Piped) (hstep : Step depGroupTxHash sign p p') :
    p'.bench = p.bench ∨ TpsBench.Step depGroupTxHash sign p.bench p'.bench := by
  cases hstep with
  | send => exact .inl rfl
  | hangUp => exact .inl rfl
  | @recv utxo rest c hqueue hcall hphase =>
    -- what is queued shows that the channel is not finished
    have hopen : p.bench.closed = false := by
      by_contra hclosed
      have hnone := (h.closed ((Bool.not_eq_false _).mp hclosed)).2
      rw [hqueue] at hnone
      cases hnone
    exact .inr (.receive utxo hcall hphase hopen)
  | close hfinished hcall hphase => exact .inr (.close hcall hphase)
  | other hstep => exact .inr hstep

/-- The system of a pipeline is one that runs on its own. -/
theorem reachable_bench (h : Reachable depGroupTxHash sign p) :
    TpsBench.Reachable depGroupTxHash sign p.bench := by
  induction h with
  | refl => exact .refl
  | tail hrun hstep ih =>
    rcases bench_step (piped_of_reachable hrun) hstep with hsame | hstep
    · rw [hsame]
      exact ih
    · exact ih.tail hstep

/-! ## What was sent -/

/-- The inputs of all transactions, in the order in which they are built. -/
def inputPts (p : Pipeline) : List OutPoint :=
  p.bench.built.flatMap fun b => b.transaction.inputs.map CellInput.previousOutput

theorem inputPts_eq (hsound : ∀ b ∈ p.bench.built, b.Sound) :
    p.inputPts = (p.bench.built.flatMap Built.utxos).map UTXO.outPoint := by
  unfold inputPts
  rw [List.map_flatMap]
  refine List.flatMap_congr fun b hb => ?_
  rw [(hsound b hb).inputs, List.map_map]
  rfl

theorem accounted (h : Reachable depGroupTxHash sign p)
    (hsmall : ∀ u ∈ p.channel.sent, u.capacity < 2 ^ 63) : p.bench.Accounted := by
  have hpiped := piped_of_reachable h
  refine System.accounted_of_small (reachable_bench h) fun u hu => hsmall u ?_
  rw [← hpiped.received] at hu
  exact hpiped.valid.received_isPrefix.subset hu

theorem ledger (h : Reachable depGroupTxHash sign p)
    (hsmall : ∀ u ∈ p.channel.sent, u.capacity < 2 ^ 63) :
    p.bench.built.flatMap Built.utxos ++ p.bench.lost ++ p.bench.pending ++ p.channel.queue =
      p.channel.sent := by
  have hpiped := piped_of_reachable h
  rw [(accounted h hsmall).ledger, ← hpiped.received, hpiped.valid.inOrder]

/-- What is spent is the beginning of what was sent: nothing is dropped while the channel is open,
    and nothing is built after that. -/
theorem inputPts_isPrefix (h : Reachable depGroupTxHash sign p)
    (hsmall : ∀ u ∈ p.channel.sent, u.capacity < 2 ^ 63) :
    p.inputPts <+: p.channel.sent.map UTXO.outPoint := by
  rw [inputPts_eq (accounted h hsmall).sound, ← ledger h hsmall, List.append_assoc,
    List.append_assoc]
  exact (List.prefix_append _ _).map _

end Pipeline

/-- **From the scanner to the transactions.** In every state of every run of the scanner's channel,
    `bench` and its emitters, for any number of calls, as long as no cell has 2^63 shannons: the
    inputs of the transactions built, what calls have dropped, what the running call holds and what
    is queued are, in this order, what the scanner sent; at most 2000 are queued; a call drops
    something only when the scanner has ended and all is received, and then less than a
    transaction needs. If the scanner sends no cell twice, no cell is spent twice, by one
    transaction or by two. -/
theorem pipeline_accounts (depGroupTxHash : Byte32) (sign : Transaction → List UInt8)
    (p : Pipeline) (h : p.Reachable depGroupTxHash sign)
    (hsmall : ∀ u ∈ p.channel.sent, u.capacity < 2 ^ 63) :
    p.bench.built.flatMap Built.utxos ++ p.bench.lost ++ p.bench.pending ++ p.channel.queue =
      p.channel.sent ∧
    p.channel.queue.length ≤ 2000 ∧
    (p.bench.lost ≠ [] → p.channel.hungUp = true ∧ p.bench.pending = [] ∧ p.channel.queue = []) ∧
    totalCapacity p.bench.lost < TransactionType.in3Out3.threshold ∧
    ((p.channel.sent.map UTXO.outPoint).Nodup → p.inputPts.Nodup) := by
  have hpiped := Pipeline.piped_of_reachable h
  have haccounted := Pipeline.accounted h hsmall
  refine ⟨Pipeline.ledger h hsmall, hpiped.valid.bounded, fun hlost => ?_, ?_, fun hnodup => ?_⟩
  · have hclosed : p.bench.closed = true := by
      by_contra hopen
      exact hlost (haccounted.lost ((Bool.not_eq_true _).mp hopen))
    exact ⟨(hpiped.closed hclosed).1, haccounted.pending hclosed, (hpiped.closed hclosed).2⟩
  · refine System.lost_of_reachable (Pipeline.reachable_bench h) fun u hu => hsmall u ?_
    rw [← hpiped.received] at hu
    exact hpiped.valid.received_isPrefix.subset hu
  · exact hnodup.sublist (Pipeline.inputPts_isPrefix h hsmall).sublist

namespace Sample

/-- Both cells have gone through the channel. -/
def drained : Pipeline where
  channel := {
    queue := []
    sent := [ckbCell 0 100, ckbCell 1 30]
    received := [ckbCell 0 100, ckbCell 1 30]
    hungUp := false }
  bench := system

set_option maxRecDepth 20000 in
theorem reachable_drained : drained.Reachable 0 (fun _ => []) := by
  have h : Pipeline.init.Reachable 0 (fun _ => []) := .refl
  have h := h.tail (.send (ckbCell 0 100) rfl)
  have h := h.tail (.send (ckbCell 1 30) rfl)
  have h := h.tail (.other (.start (.connectAll ["http://a", "http://b"] (by decide)) account
    .in2Out2 rfl rfl) rfl rfl)
  have h := h.tail (.recv rfl rfl rfl)
  have h := h.tail (.recv rfl rfl rfl)
  have h := h.tail (.other (.construct rfl rfl) rfl rfl)
  have h := h.tail (.other (.trySend rfl rfl) rfl rfl)
  have h := h.tail (.other (.emit (k := 1) rfl (.take rfl rfl rfl)) rfl rfl)
  have h := h.tail (.other (.notified metrics rfl rfl) rfl rfl)
  exact h

/-- Then a third one is sent. -/
def pipeline : Pipeline :=
  { drained with channel := drained.channel.send (ckbCell 2 61) }

theorem reachable_pipeline : pipeline.Reachable 0 (fun _ => []) :=
  reachable_drained.tail (.send (ckbCell 2 61) rfl)

end Sample

theorem pipeline_accounts_sample :
    [Sample.ckbCell 0 100, Sample.ckbCell 1 30] ++ [] ++ [] ++ [Sample.ckbCell 2 61] =
      Sample.pipeline.channel.sent ∧ Sample.pipeline.inputPts.Nodup := by
  obtain ⟨hledger, -, -, -, hnodup⟩ := pipeline_accounts 0 (fun _ => []) Sample.pipeline
    Sample.reachable_pipeline (by decide)
  exact ⟨hledger, hnodup (by decide)⟩

end TpsBench
