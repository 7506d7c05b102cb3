/-
  `net_monitor.rs`: `wait_network_txpool_empty`, with which a call of `bench` begins.

  Model. `PoolHistory` is what each endpoint answers to the `t`-th call, as a `History` is for the
  chains: a transaction can come and go between any two calls, also between two calls of one round.

  * `waitNetworkTxpoolEmpty_spec`: what is known when the wait is over; and if no transaction comes
    into an empty pool, the wait ends exactly if every pool gets empty, and they all are then.
  * `waitNetworkTxpoolEmpty_misses`: if a transaction moves from pool to pool, the wait can end
    although there never is a time at which all pools are empty.
-/
import TpsBench.Net
import TpsBench.Lib.Sweep

namespace TpsBench

open Lib

/-- What `tx_pool_info` answers, as far as it is read. -/
structure TxPoolInfo where
  pending : ℕ
  proposed : ℕ
  deriving DecidableEq, Repr

def TxPoolInfo.isEmpty (info : TxPoolInfo) : Bool :=
  !(decide (info.pending ≠ 0) || decide (info.proposed ≠ 0))

/-- What each endpoint answers, by call number. -/
abbrev PoolHistory := ℕ → Jsonrpc → TxPoolInfo

variable {net : Net} {pools : PoolHistory} {fuel i j : ℕ}

/-- One round over the endpoints, and the number of the next call. -/
def isNetworkTxpoolEmpty (net : Net) (pools : PoolHistory) (i : ℕ) : Bool × ℕ :=
  sweep (fun t rpc => (pools t rpc).isEmpty) net.endpoints i

/-- The number of the next call, if the wait is over within `fuel` rounds. -/
def waitNetworkTxpoolEmpty (net : Net) (pools : PoolHistory) : ℕ → ℕ → Option ℕ
  | 0, _ => none
  | fuel + 1, i =>
    match isNetworkTxpoolEmpty net pools i with
    | (true, j) => some j
    | (false, j) => waitNetworkTxpoolEmpty net pools fuel j

theorem waitNetworkTxpoolEmpty_eq_poll (fuel i : ℕ) :
    waitNetworkTxpoolEmpty net pools fuel i =
      poll (fun t rpc => (pools t rpc).isEmpty) net.endpoints fuel i := by
  induction fuel generalizing i with
  | zero => rfl
  | succ fuel ih =>
    unfold waitNetworkTxpoolEmpty poll isNetworkTxpoolEmpty
    cases sweep (fun t rpc => (pools t rpc).isEmpty) net.endpoints i with
    | mk passed j =>
      cases passed with
      | true => rfl
      | false => exact ih j

/-- In a last round each pool was empty at the call that asked for it. -/
theorem isEmpty_of_waitNetworkTxpoolEmpty
    (h : waitNetworkTxpoolEmpty net pools fuel i = some j) :
    i + net.endpoints.length ≤ j ∧ ∀ k rpc, net.endpoints[k]? = some rpc →
      (pools (j - net.endpoints.length + k) rpc).isEmpty = true := by
  rw [waitNetworkTxpoolEmpty_eq_poll] at h
  obtain ⟨s, his, hround⟩ := sweep_of_poll h
  obtain ⟨rfl, hall⟩ := sweep_eq_true.mp hround
  refine ⟨Nat.add_le_add_right his _, fun k rpc hk => ?_⟩
  rw [Nat.add_sub_cancel]
  exact hall k rpc hk

/-- **The wait for empty pools.** Whatever comes and goes: when it is over, each endpoint's pool was
    empty once, at the call of the last round that asked for it. If no transaction comes into an
    empty pool, it is over at some time exactly if every pool is empty at some time, and from the
    last call on all pools are empty together. -/
theorem waitNetworkTxpoolEmpty_spec (net : Net) (pools : PoolHistory) (i : ℕ) :
    (∀ fuel j, waitNetworkTxpoolEmpty net pools fuel i = some j →
      i + net.endpoints.length ≤ j ∧ ∀ k rpc, net.endpoints[k]? = some rpc →
        (pools (j - net.endpoints.length + k) rpc).isEmpty = true) ∧
    ((∀ rpc ∈ net.endpoints, Monotone fun t => (pools t rpc).isEmpty) →
      ((∃ fuel j, waitNetworkTxpoolEmpty net pools fuel i = some j) ↔
        ∀ rpc ∈ net.endpoints, ∃ t, (pools t rpc).isEmpty = true) ∧
      ∀ fuel j, waitNetworkTxpoolEmpty net pools fuel i = some j →
        ∀ t, j ≤ t + 1 → ∀ rpc ∈ net.endpoints, (pools t rpc).isEmpty = true) := by
  refine ⟨fun fuel j h => isEmpty_of_waitNetworkTxpoolEmpty h, fun hstable => ⟨?_, ?_⟩⟩
  · simp only [waitNetworkTxpoolEmpty_eq_poll]
    exact poll_ends_iff hstable
  · intro fuel j h t hjt rpc hrpc
    rw [waitNetworkTxpoolEmpty_eq_poll] at h
    exact ask_of_poll hstable h hjt hrpc

/-- **Not at one time.** With two endpoints or more, all different, a transaction can be in one of
    the pools at all times, and the wait is over after a single round. -/
theorem waitNetworkTxpoolEmpty_misses (net : Net) (hnodup : net.endpoints.Nodup)
    (hmany : 2 ≤ net.endpoints.length) (i : ℕ) :
    ∃ pools : PoolHistory,
      (∀ t, ∃ rpc ∈ net.endpoints, ∀ e, pools t e = if e = rpc then ⟨1, 0⟩ else ⟨0, 0⟩) ∧
      waitNetworkTxpoolEmpty net pools 1 i = some (i + net.endpoints.length) := by
  obtain ⟨a, b, rest, hendpoints⟩ : ∃ a b rest, net.endpoints = a :: b :: rest := by
    match hlist : net.endpoints, hmany with
    | a :: b :: rest, _ => exact ⟨a, b, rest, rfl⟩
  rw [hendpoints] at hnodup
  refine ⟨fun t e => if e = (if t ≤ i then b else a) then ⟨1, 0⟩ else ⟨0, 0⟩, fun t => ?_, ?_⟩
  · refine ⟨if t ≤ i then b else a, ?_, fun e => rfl⟩
    rw [hendpoints]
    split
    · exact List.mem_cons_of_mem a List.mem_cons_self
    · exact List.mem_cons_self
  · have hask : (fun t e => TxPoolInfo.isEmpty
        (if e = (if t ≤ i then b else a) then ⟨1, 0⟩ else ⟨0, 0⟩)) =
        fun t e => decide (e ≠ if t ≤ i then b else a) := by
      funext t e
      by_cases heq : e = if t ≤ i then b else a
      · rw [if_pos heq, decide_eq_false (not_not_intro heq)]
        rfl
      · rw [if_neg heq, decide_eq_true heq]
        rfl
    rw [waitNetworkTxpoolEmpty_eq_poll]
    unfold poll
    rw [hask, hendpoints, sweep_misses hnodup List.mem_cons_self]

/-! ## Samples -/

namespace Sample

/-- The pools of two endpoints, which get empty at calls 3 and 1. -/
def drainingPools : PoolHistory := fun t rpc =>
  if t < (if rpc.uri = "http://a" then 3 else 1) then ⟨2, 1⟩ else ⟨0, 0⟩

/-- Three rounds fail, and the fourth takes two calls. -/
example : waitNetworkTxpoolEmpty (.connectAll ["http://a", "http://b"] (by decide)) drainingPools
    4 0 = some 5 := by decide

theorem monotone_drainingPools (rpc : Jsonrpc) :
    Monotone fun t => (drainingPools t rpc).isEmpty := by
  intro t u htu
  by_cases hlate : t < (if rpc.uri = "http://a" then 3 else 1)
  · have hfalse : (drainingPools t rpc).isEmpty = false := by
      unfold drainingPools
      rw [if_pos hlate]
      rfl
    exact hfalse.le.trans (Bool.false_le _)
  · have htrue : (drainingPools u rpc).isEmpty = true := by
      unfold drainingPools
      rw [if_neg (fun h => hlate (htu.trans_lt h))]
      rfl
    exact (Bool.le_true _).trans htrue.ge

end Sample

theorem waitNetworkTxpoolEmpty_spec_sample :
    ∃ fuel j, waitNetworkTxpoolEmpty (.connectAll ["http://a", "http://b"] (by decide))
        Sample.drainingPools fuel 0 = some j ∧
      ∀ t, j ≤ t + 1 → (Sample.drainingPools t ⟨"http://a"⟩).isEmpty = true := by
  obtain ⟨-, hstable⟩ := waitNetworkTxpoolEmpty_spec
    (.connectAll ["http://a", "http://b"] (by decide)) Sample.drainingPools 0
  obtain ⟨hends, hempty⟩ := hstable fun rpc _ => Sample.monotone_drainingPools rpc
  obtain ⟨fuel, j, hj⟩ := hends.mpr fun rpc _ => ⟨3, by
    unfold Sample.drainingPools
    rw [if_neg (by split <;> omega)]
    rfl⟩
  exact ⟨fuel, j, hj, fun t hjt => hempty fuel j hj t hjt _ List.mem_cons_self⟩

theorem waitNetworkTxpoolEmpty_misses_sample :
    ∃ pools : PoolHistory, waitNetworkTxpoolEmpty
      (.connectAll ["http://a", "http://b"] (by decide)) pools 1 7 = some 9 := by
  obtain ⟨pools, -, hwait⟩ := waitNetworkTxpoolEmpty_misses
    (.connectAll ["http://a", "http://b"] (by decide)) (by decide) (by decide) 7
  exact ⟨pools, hwait⟩

end TpsBench
