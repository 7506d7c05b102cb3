/-
  What does `bench` do with the value that it receives?

  The cells that `bench` makes come back to it, so over a long run the capacities received add up to
  more than a u64. No cell is as large as 2^63 shannons, and a call adds up only until it has enough
  for one transaction, so its sums stay u64 all the same (`accounted_of_small`).

  * `built_step`: what a step does to the transactions built.
  * `Conserved`: every transaction gives its outputs what its inputs have, but for the fee.
  * `bench_conserves`: the balance of the whole, and a bound on what is dropped.
-/
import TpsBench.Benchmark.Shapes

namespace TpsBench

open Lib

variable {depGroupTxHash : Byte32} {sign : Transaction → List UInt8} {s s' : System} {c : Call}

/-! ## Sums of a call -/

theorem TransactionType.threshold_le (transactionType : TransactionType) :
    transactionType.threshold ≤ in3Out3.threshold := by
  cases transactionType <;> decide

theorem TransactionType.threshold_lt (transactionType : TransactionType) :
    transactionType.threshold < 2 ^ 63 := by
  cases transactionType <;> decide

theorem totalCapacity_dropLast {cells : List UTXO} (hne : cells ≠ []) :
    totalCapacity cells = totalCapacity cells.dropLast + (cells.getLast hne).capacity := by
  conv_lhs => rw [← List.dropLast_append_getLast hne]
  rw [totalCapacity_append, totalCapacity_singleton]

/-- Without the last cell the inputs are below the threshold. -/
theorem Call.Accumulates.lt_u64Size (h : c.Accumulates)
    (hsmall : ∀ u ∈ c.inputs, u.capacity < 2 ^ 63) : totalCapacity c.inputs < u64Size := by
  have hthreshold := c.transactionType.threshold_lt
  show _ < 2 ^ 64
  by_cases hphase : c.phase = .constructing
  · obtain ⟨hcovers, hleast⟩ := h.reached hphase
    have hne : c.inputs ≠ [] := by
      intro hnil
      rw [hnil, totalCapacity_nil] at hcovers
      exact absurd c.transactionType.threshold_pos (Nat.not_lt.mpr hcovers)
    have hlast := hsmall _ (List.getLast_mem hne)
    rw [totalCapacity_dropLast hne]
    omega
  · have hbelow := h.lt_threshold hphase
    omega

namespace System

theorem Accounted.mem_received (h : s.Accounted) (hcall : s.call = some c) {u : UTXO}
    (hu : u ∈ c.inputs) : u ∈ s.received := by
  rw [← h.ledger, pending_eq hcall]
  exact List.mem_append_right _ hu

theorem Accounted.fits_of_small (h : s.Accounted) (hreceived : s.received <+: s'.received)
    (hsmall : ∀ u ∈ s'.received, u.capacity < 2 ^ 63) : Fits s s' where
  inputs c hcall := (h.call c hcall).lt_u64Size fun _ hu =>
    hsmall _ (hreceived.subset (h.mem_received hcall hu))
  next c utxo hcall hphase hreceived := by
    have hbelow := (h.call c hcall).below hphase
    have hthreshold := c.transactionType.threshold_lt
    have hutxo := hsmall utxo (hreceived ▸ List.mem_append_right _ (List.mem_singleton_self utxo))
    show _ < 2 ^ 64
    omega

theorem accounted_of_small (h : Reachable depGroupTxHash sign s)
    (hsmall : ∀ u ∈ s.received, u.capacity < 2 ^ 63) : s.Accounted := by
  induction h with
  | refl => exact accounted_init
  | tail _ hstep ih =>
    have haccounted := ih fun u hu => hsmall u ((received_step hstep).subset hu)
    exact accounted_step haccounted hstep (haccounted.fits_of_small (received_step hstep) hsmall)

/-! ## The transactions built -/

theorem built_step (hstep : Step depGroupTxHash sign s s') :
    s'.built = s.built ∨ ∃ c signed, s.call = some c ∧
      c.construct depGroupTxHash sign s.built.length = .ok signed ∧
      s'.built = s.built ++ [signed] := by
  cases hstep with
  | start => exact .inl (apply_run built (fun _ => rfl) fun _ => rfl)
  | receive => exact .inl (apply_run built (fun _ => rfl) fun _ => rfl)
  | @construct c hcall =>
    unfold System.construct
    cases hbuild : c.construct depGroupTxHash sign s.built.length with
    | error e => exact .inl rfl
    | ok signed => exact .inr ⟨c, signed, hcall, hbuild, rfl⟩
  | trySend =>
    left
    unfold System.trySend
    split
    · split <;> rfl
    · rfl
  | close => exact .inl rfl
  | goOn => exact .inl rfl
  | notified => exact .inl rfl
  | emit => exact .inl rfl

end System

/-- The capacity of the outputs. -/
def Built.outputsCapacity (b : Built) : ℕ := (b.transaction.outputs.map CellOutput.capacity).sum

/-- What the miner gets. -/
def Built.fee (b : Built) : ℕ := b.transactionType.outputsCount * 1000

/-- But for the fee, the outputs have what the inputs have. -/
def Built.Conserved (b : Built) : Prop := b.outputsCapacity + b.fee = totalCapacity b.utxos

theorem Call.construct_conserved {seq : ℕ} {signed : Built}
    (h : c.construct depGroupTxHash sign seq = .ok signed) : signed.Conserved := by
  obtain ⟨tx, htx, rfl⟩ := Call.construct_eq_ok.mp h
  obtain ⟨-, -, hfee, rfl⟩ := constructUnsignedTransaction_eq_ok.mp htx
  unfold Built.Conserved Built.outputsCapacity Built.fee signTransaction
  dsimp only
  rw [map_capacity_outputs, sum_shares c.transactionType.outputsCount_pos,
    Nat.sub_add_cancel hfee]

theorem System.conserved_of_reachable (h : Reachable depGroupTxHash sign s) :
    ∀ b ∈ s.built, b.Conserved := by
  induction h with
  | refl => exact fun b hb => absurd hb List.not_mem_nil
  | tail _ hstep ih =>
    rcases built_step hstep with hsame | ⟨c, signed, -, hbuild, hbuilt⟩
    · rw [hsame]
      exact ih
    · intro b hb
      rw [hbuilt] at hb
      rcases List.mem_append.mp hb with hold | hnew
      · exact ih b hold
      · obtain rfl := List.mem_singleton.mp hnew
        exact Call.construct_conserved hbuild

theorem totalCapacity_utxos {bs : List Built} (h : ∀ b ∈ bs, b.Conserved) :
    totalCapacity (bs.flatMap Built.utxos) =
      (bs.map Built.outputsCapacity).sum + (bs.map Built.fee).sum := by
  induction bs with
  | nil => rfl
  | cons b bs ih =>
    have hb : b.outputsCapacity + b.fee = totalCapacity b.utxos := h b List.mem_cons_self
    have hbs := ih fun b' hb' => h b' (List.mem_cons_of_mem b hb')
    rw [List.flatMap_cons, totalCapacity_append, List.map_cons, List.map_cons, List.sum_cons,
      List.sum_cons, hbs, ← hb]
    omega

/-! ## What is dropped -/

namespace System

theorem lost_ret (c : Call) (metrics : Option Metrics) (closed : Bool) :
    ({ s.ret c metrics with closed } : System).lost = s.lost ++ c.inputs := by
  show (s.returned ++ [_]).flatMap Returned.inputs = _
  rw [List.flatMap_append, List.flatMap_singleton]
  rfl

/-- A call drops less than a transaction needs, and only the first that finds the channel closed
    has anything to drop. -/
theorem lost_step (h : s.Accounted) (hstep : Step depGroupTxHash sign s s')
    (hlost : totalCapacity s.lost < TransactionType.in3Out3.threshold) :
    totalCapacity s'.lost < TransactionType.in3Out3.threshold := by
  have hsame : s'.returned = s.returned →
      totalCapacity s'.lost < TransactionType.in3Out3.threshold := by
    intro hreturned
    unfold lost at hlost ⊢
    rwa [hreturned]
  cases hstep with
  | start => exact hsame (apply_run returned (fun _ => rfl) fun _ => rfl)
  | receive =>
    exact hsame (apply_run returned (fun _ => rfl) fun _ => rfl)
  | @close c hcall hphase =>
    rw [lost_ret c none true]
    cases hclosed : s.closed with
    | false =>
      have hbelow := (h.call c hcall).below hphase
      have hthreshold := c.transactionType.threshold_le
      rw [h.lost hclosed, List.nil_append]
      omega
    | true =>
      have hnone := h.pending hclosed
      rw [pending_eq hcall] at hnone
      rwa [hnone, List.append_nil]
  | construct => exact hsame (apply_run returned (fun _ => rfl) fun _ => rfl)
  | trySend =>
    apply hsame
    unfold System.trySend
    split
    · split <;> rfl
    · rfl
  | goOn => exact hsame rfl
  | @notified c metrics hcall hphase =>
    have hinputs : c.inputs = [] := (h.call c hcall).spent (by simp [hphase]) (by simp [hphase])
    have hret := lost_ret (s := s) c (some metrics) s.closed
    rw [hinputs, List.append_nil] at hret
    exact hret ▸ hlost
  | emit => exact hsame rfl

theorem lost_of_reachable (h : Reachable depGroupTxHash sign s)
    (hsmall : ∀ u ∈ s.received, u.capacity < 2 ^ 63) :
    totalCapacity s.lost < TransactionType.in3Out3.threshold := by
  induction h with
  | refl => exact TransactionType.in3Out3.threshold_pos
  | tail hrun hstep ih =>
    have hsmall' := fun u hu => hsmall u ((received_step hstep).subset hu)
    exact lost_step (accounted_of_small hrun hsmall') hstep (ih hsmall')

end System

/-- **The balance of `bench`.** In every state of every run in which no cell received has 2^63
    shannons or more, however many cells there are: no operation has panicked; what was received is
    what the outputs built have, the fees, what calls have dropped and what the running call holds;
    and over all calls less is dropped than the largest transaction needs. -/
theorem bench_conserves (depGroupTxHash : Byte32) (sign : Transaction → List UInt8) (s : System)
    (h : Reachable depGroupTxHash sign s) (hsmall : ∀ u ∈ s.received, u.capacity < 2 ^ 63) :
    s.crashed = none ∧
    (s.built.map Built.outputsCapacity).sum + (s.built.map Built.fee).sum +
      totalCapacity s.lost + totalCapacity s.pending = totalCapacity s.received ∧
    totalCapacity s.lost < TransactionType.in3Out3.threshold := by
  have haccounted := System.accounted_of_small h hsmall
  refine ⟨haccounted.running, ?_, System.lost_of_reachable h hsmall⟩
  rw [← haccounted.ledger, totalCapacity_append, totalCapacity_append,
    totalCapacity_utxos (System.conserved_of_reachable h)]

/-- 130 CKB become two outputs, and 2000 shannons for the miner. -/
theorem bench_conserves_sample :
    Sample.built.outputsCapacity + Sample.built.fee =
      totalCapacity [Sample.ckbCell 0 100, Sample.ckbCell 1 30] := by
  obtain ⟨-, hbalance, -⟩ := bench_conserves 0 (fun _ => []) Sample.system Sample.reachable_system
    (by decide)
  exact hbalance

end TpsBench
