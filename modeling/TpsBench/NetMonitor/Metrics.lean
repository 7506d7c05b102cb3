/-
  `net_monitor.rs`: `Metrics::eval_blocks`.

  Model (read this before the theorems). `readBlocks` is the part that asks the endpoint: the
  peers, every block of the range once, and the first and the last block of the range again, each
  in a call of its own. `Reads.metrics` is the arithmetic on what was read. `end_number -
  from_number + 1` stands between the loop and the two last calls in the source, and here.

  The two totals are `ℕ`: they count transactions and bytes of blocks, and no range of blocks comes
  near `2 ^ 64` of either. The TPS is an f64 quotient cut to u64, `Float` here; it is `u64::MAX` for
  an elapsed time of zero, or 0 if there are no transactions either.

  * `returns_evalBlocks`: a run that returns read an ordered range, and what it reports.
  * `evalBlocks_total`: an ordered range of blocks that stay is evaluated.
  * `averageBlockTimeMs_eq_mean_iff`: `average_block_time_ms` divides by the number of blocks and
    not of the intervals between them; when this makes no difference.
-/
import TpsBench.Net
import TpsBench.U64
import TpsBench.Lib.Differences

namespace TpsBench

open Lib

variable {T : BlockTree}

/-! ## The program -/

structure Metrics where
  tps : ℕ
  averageBlockTimeMs : ℕ
  averageBlockTransactions : ℕ
  startBlockNumber : ℕ
  endBlockNumber : ℕ
  networkNodes : ℕ
  benchNodes : ℕ
  totalTransactionsSize : ℕ
  deriving DecidableEq, Repr

def evalTotalTxSizeInBlock (block : BlockView) : ℕ :=
  (block.transactions.map TransactionView.serializedSizeInBlock).sum

/-- `(totaltxns as f64 * 1000.0 / elapsed_ms as f64) as u64`. -/
def tpsOf (totaltxns elapsedMs : ℕ) : ℕ :=
  (Float.ofNat totaltxns * 1000.0 / Float.ofNat elapsedMs).toUInt64.toNat

/-- What `eval_blocks` has read, and the count of blocks. -/
structure Reads where
  networkNodes : ℕ
  totaltxns : ℕ
  totalTransactionsSize : ℕ
  blocksCount : ℕ
  front : BlockView
  back : BlockView

/-- `back.timestamp().saturating_sub(front.timestamp())`. -/
def Reads.elapsedMs (reads : Reads) : ℕ := reads.back.timestamp - reads.front.timestamp

/-- `end_number - from_number + 1`. -/
def blocksCount (fromNumber endNumber : ℕ) : Except Panic ℕ := do
  addU64 (← subU64 endNumber fromNumber) 1

/-- `net.get_block_by_number(number).unwrap()`. -/
def Net.blockByNumber (net : Net) (number : ℕ) : Rpc T BlockView := do
  Rpc.unwrapOr .unwrapNone (← net.first.getBlockByNumber number)

/-- The loop over the numbers left, with the two totals so far. -/
def countBlocks (net : Net) : List ℕ → ℕ × ℕ → Rpc T (ℕ × ℕ)
  | [], totals => return totals
  | number :: rest, totals => do
    let block ← net.blockByNumber number
    countBlocks net rest
      (totals.1 + block.transactions.length, totals.2 + evalTotalTxSizeInBlock block)

/-- `eval_blocks` up to its last call. -/
def readBlocks (net : Net) (fromNumber endNumber : ℕ) : Rpc T Reads := do
  let networkNodes ← net.getNetworkNodes
  let totals ← countBlocks net (List.range' fromNumber (endNumber + 1 - fromNumber)) (0, 0)
  let blocksCount ← Rpc.lift (blocksCount fromNumber endNumber)
  let front ← net.blockByNumber fromNumber
  let back ← net.blockByNumber endNumber
  return { networkNodes, totaltxns := totals.1, totalTransactionsSize := totals.2, blocksCount,
           front, back }

/-- The arithmetic after it. -/
def Reads.metrics (reads : Reads) (net : Net) (fromNumber endNumber : ℕ) :
    Except Panic Metrics := do
  let averageBlockTransactions ← divU64 reads.totaltxns reads.blocksCount
  let averageBlockTimeMs ← divU64 reads.elapsedMs reads.blocksCount
  return {
    tps := tpsOf reads.totaltxns reads.elapsedMs
    averageBlockTimeMs := max 1 averageBlockTimeMs
    averageBlockTransactions
    startBlockNumber := fromNumber
    endBlockNumber := endNumber
    networkNodes := reads.networkNodes
    benchNodes := net.getBenchNodes
    totalTransactionsSize := reads.totalTransactionsSize }

def evalBlocks (net : Net) (fromNumber endNumber : ℕ) : Rpc T Metrics := do
  let reads ← readBlocks net fromNumber endNumber
  Rpc.lift (reads.metrics net fromNumber endNumber)

/-! ## What is read -/

variable {net : Net} {w : History T} {i j number fromNumber endNumber : ℕ}

@[simp] theorem returns_blockByNumber {b : BlockView} :
    (net.blockByNumber number).Returns w i b j ↔
      (w i net.first).chain.blocks[number]? = some b ∧ j = i + 1 := by
  unfold Net.blockByNumber
  simp only [Rpc.returns_bind, Jsonrpc.returns_getBlockByNumber, Rpc.returns_unwrapOr]
  constructor
  · rintro ⟨_, _, ⟨rfl, rfl⟩, hb, hj⟩
    exact ⟨hb, hj⟩
  · rintro ⟨hb, hj⟩
    exact ⟨_, _, ⟨rfl, rfl⟩, hb, hj⟩

@[simp] theorem blocksCount_eq_ok {n : ℕ} :
    blocksCount fromNumber endNumber = .ok n ↔
      fromNumber ≤ endNumber ∧ endNumber - fromNumber + 1 < u64Size ∧
        n = endNumber - fromNumber + 1 := by
  unfold blocksCount
  simp only [bind_eq_ok, subU64_eq_ok, addU64_eq_ok]
  constructor
  · rintro ⟨difference, ⟨hle, rfl⟩, hfits, rfl⟩
    exact ⟨hle, hfits, rfl⟩
  · rintro ⟨hle, hfits, rfl⟩
    exact ⟨_, ⟨hle, rfl⟩, hfits, rfl⟩

/-- The loop asks for one block a call, and returns if the endpoint has each when it is asked. -/
theorem exists_countBlocks {numbers : List ℕ} (totals : ℕ × ℕ) :
    (∃ totals', (countBlocks net numbers totals).Returns w i totals' j) ↔
      j = i + numbers.length ∧ ∀ n number, numbers[n]? = some number →
        ∃ b, (w (i + n) net.first).chain.blocks[number]? = some b := by
  induction numbers generalizing i totals with
  | nil =>
    simp only [countBlocks, Rpc.returns_pure, List.getElem?_nil, List.length_nil]
    simp
  | cons number rest ih =>
    constructor
    · rintro ⟨totals', h⟩
      obtain ⟨b, k, hblock, h₁⟩ := Rpc.returns_bind.mp h
      obtain ⟨hb, rfl⟩ := returns_blockByNumber.mp hblock
      obtain ⟨hj, hrest⟩ := (ih _).mp ⟨totals', h₁⟩
      refine ⟨by rw [hj, List.length_cons]; omega, fun n m hm => ?_⟩
      cases n with
      | zero =>
        obtain rfl : number = m := by simpa using hm
        exact ⟨b, hb⟩
      | succ n =>
        rw [← Nat.add_assoc, Nat.add_right_comm]
        exact hrest n m (by simpa using hm)
    · rintro ⟨hj, hblocks⟩
      obtain ⟨b, hb⟩ := hblocks 0 number rfl
      have hrest : ∀ n m, rest[n]? = some m →
          ∃ b, (w (i + 1 + n) net.first).chain.blocks[m]? = some b := by
        intro n m hm
        rw [Nat.add_right_comm, Nat.add_assoc]
        exact hblocks (n + 1) m (by simpa using hm)
      have htime : j = i + 1 + rest.length := by
        rw [hj, List.length_cons]
        omega
      obtain ⟨totals', hrest⟩ := (ih (totals.1 + b.transactions.length,
        totals.2 + evalTotalTxSizeInBlock b)).mpr ⟨htime, hrest⟩
      exact ⟨totals', Rpc.returns_bind.mpr ⟨b, i + 1, returns_blockByNumber.mpr ⟨hb, rfl⟩, hrest⟩⟩

/-- What the endpoint has at the calls of `readBlocks` from call `i` on: every block of the range
    when the loop asks for it, and the first and the last when they are asked for again. -/
structure ReadsEnds (net : Net) (w : History T) (i fromNumber endNumber : ℕ)
    (front back : BlockView) : Prop where
  blocks : ∀ number, fromNumber ≤ number → number ≤ endNumber →
    ∃ b, (w (i + 1 + (number - fromNumber)) net.first).chain.blocks[number]? = some b
  front : (w (i + (endNumber - fromNumber) + 2) net.first).chain.blocks[fromNumber]? = some front
  back : (w (i + (endNumber - fromNumber) + 3) net.first).chain.blocks[endNumber]? = some back

/-- What has been read when the arithmetic starts: the count of an ordered range, and its first
    and last block as the endpoint had them at the last two calls. -/
theorem returns_readBlocks {reads : Reads}
    (h : (readBlocks net fromNumber endNumber).Returns w i reads j) :
    fromNumber ≤ endNumber ∧ reads.blocksCount = endNumber - fromNumber + 1 ∧
      ReadsEnds net w i fromNumber endNumber reads.front reads.back := by
  obtain ⟨nodes, k₁, hnodes, h₁⟩ := Rpc.returns_bind.mp h
  obtain ⟨peers, k₂, hpeers, hnodes'⟩ := Rpc.returns_bind.mp hnodes
  obtain ⟨rfl, rfl⟩ := Jsonrpc.returns_getPeers.mp hpeers
  obtain ⟨rfl, rfl⟩ := Rpc.returns_pure.mp hnodes'
  obtain ⟨totals, k₃, hcount, h₂⟩ := Rpc.returns_bind.mp h₁
  obtain ⟨rfl, hblocks⟩ := (exists_countBlocks (0, 0)).mp ⟨totals, hcount⟩
  obtain ⟨n, k₄, hlift, h₃⟩ := Rpc.returns_bind.mp h₂
  obtain ⟨hn, rfl⟩ := Rpc.returns_lift.mp hlift
  obtain ⟨hle, -, rfl⟩ := blocksCount_eq_ok.mp hn
  obtain ⟨front, k₅, hcall, h₄⟩ := Rpc.returns_bind.mp h₃
  obtain ⟨hfront, rfl⟩ := returns_blockByNumber.mp hcall
  obtain ⟨back, k₆, hcall', h₅⟩ := Rpc.returns_bind.mp h₄
  obtain ⟨hback, rfl⟩ := returns_blockByNumber.mp hcall'
  obtain ⟨rfl, rfl⟩ := Rpc.returns_pure.mp h₅
  have htime : i + 1 + (List.range' fromNumber (endNumber + 1 - fromNumber)).length =
      i + (endNumber - fromNumber) + 2 := by
    rw [List.length_range']
    omega
  rw [htime] at hfront hback
  refine ⟨hle, rfl, fun number hfrom hend => ?_, hfront, hback⟩
  apply hblocks
  rw [List.getElem?_range' (by omega)]
  congr 1
  omega

theorem exists_readBlocks {front back : BlockView} (hle : fromNumber ≤ endNumber)
    (hcount : endNumber - fromNumber + 1 < u64Size)
    (h : ReadsEnds net w i fromNumber endNumber front back) :
    ∃ reads j, (readBlocks net fromNumber endNumber).Returns w i reads j ∧
      reads.front = front ∧ reads.back = back := by
  have hblocks : ∀ n number,
      (List.range' fromNumber (endNumber + 1 - fromNumber))[n]? = some number →
      ∃ b, (w (i + 1 + n) net.first).chain.blocks[number]? = some b := by
    intro n number hn
    obtain ⟨hlt, rfl⟩ := List.getElem?_eq_some_iff.mp hn
    rw [List.length_range'] at hlt
    rw [List.getElem_range', Nat.one_mul]
    have hblock := h.blocks (fromNumber + n) (Nat.le_add_right _ _) (by omega)
    rwa [Nat.add_sub_cancel_left] at hblock
  have htime : i + (endNumber - fromNumber) + 2 =
      i + 1 + (List.range' fromNumber (endNumber + 1 - fromNumber)).length := by
    rw [List.length_range']
    omega
  obtain ⟨totals, hcounted⟩ := (exists_countBlocks (0, 0)).mpr ⟨htime, hblocks⟩
  have hnodes : (net.getNetworkNodes).Returns w i ((w i net.first).peers.length + 1) (i + 1) :=
    Rpc.returns_bind.mpr
      ⟨_, _, Jsonrpc.returns_getPeers.mpr ⟨rfl, rfl⟩, Rpc.returns_pure.mpr ⟨rfl, rfl⟩⟩
  have hspan := blocksCount_eq_ok.mpr ⟨hle, hcount, rfl⟩
  refine ⟨_, _, Rpc.returns_bind.mpr ⟨_, _, hnodes, Rpc.returns_bind.mpr ⟨_, _, hcounted,
    Rpc.returns_bind.mpr ⟨_, _, Rpc.returns_lift.mpr ⟨hspan, rfl⟩,
    Rpc.returns_bind.mpr ⟨front, _, returns_blockByNumber.mpr ⟨h.front, rfl⟩,
    Rpc.returns_bind.mpr ⟨back, _, returns_blockByNumber.mpr ⟨h.back, rfl⟩,
    Rpc.returns_pure.mpr ⟨rfl, rfl⟩⟩⟩⟩⟩⟩, rfl, rfl⟩

/-- Both divisions are defined. The parts of the metrics are those that later theorems are about. -/
theorem exists_metrics {reads : Reads}
    (h : (readBlocks net fromNumber endNumber).Returns w i reads j) :
    ∃ metrics, reads.metrics net fromNumber endNumber = .ok metrics ∧
      metrics.startBlockNumber = fromNumber ∧ metrics.endBlockNumber = endNumber ∧
      metrics.averageBlockTimeMs = max 1 (reads.elapsedMs / reads.blocksCount) := by
  have hpos : reads.blocksCount ≠ 0 := by
    obtain ⟨-, hcount, -⟩ := returns_readBlocks h
    omega
  unfold Reads.metrics
  rw [divU64_eq_ok.mpr ⟨hpos, rfl⟩, divU64_eq_ok.mpr ⟨hpos, rfl⟩]
  exact ⟨_, rfl, rfl, rfl, rfl⟩

theorem returns_evalBlocks {metrics : Metrics}
    (h : (evalBlocks net fromNumber endNumber).Returns w i metrics j) :
    ∃ reads, (readBlocks net fromNumber endNumber).Returns w i reads j ∧
      metrics.startBlockNumber = fromNumber ∧ metrics.endBlockNumber = endNumber ∧
      metrics.averageBlockTimeMs = max 1 (reads.elapsedMs / reads.blocksCount) := by
  obtain ⟨reads, k, hreads, hlift⟩ := Rpc.returns_bind.mp h
  obtain ⟨hmetrics, rfl⟩ := Rpc.returns_lift.mp hlift
  obtain ⟨metrics', hmetrics', hparts⟩ := exists_metrics hreads
  obtain rfl := Except.ok.inj (hmetrics.symm.trans hmetrics')
  exact ⟨reads, hreads, hparts⟩

theorem evalBlocks_total (hle : fromNumber ≤ endNumber)
    (hcount : endNumber - fromNumber + 1 < u64Size)
    (hblocks : ∀ t, i ≤ t → ∀ number, number ≤ endNumber →
      ∃ b, (w t net.first).chain.blocks[number]? = some b) :
    ∃ metrics j, (evalBlocks net fromNumber endNumber).Returns w i metrics j := by
  obtain ⟨front, hfront⟩ := hblocks (i + (endNumber - fromNumber) + 2) (by omega) fromNumber hle
  obtain ⟨back, hback⟩ := hblocks (i + (endNumber - fromNumber) + 3) (by omega) endNumber le_rfl
  obtain ⟨reads, j, hreads, -⟩ := exists_readBlocks hle hcount
    ⟨fun number _ hend => hblocks _ (by omega) number hend, hfront, hback⟩
  obtain ⟨metrics, hmetrics, -⟩ := exists_metrics hreads
  apply hreads.exists_bind
  exact ⟨metrics, j, Rpc.returns_lift.mpr ⟨hmetrics, rfl⟩⟩

/-! ## The average block time -/

/-- The blocks at heights `fromNumber` to `endNumber`. -/
def Chain.range (c : Chain T) (fromNumber endNumber : ℕ) : List BlockView :=
  (c.blocks.drop fromNumber).take (endNumber + 1 - fromNumber)

/-- The time differences between consecutive blocks. -/
def intervals (blocks : List BlockView) : List ℕ := differences (blocks.map BlockView.timestamp)

/-- The mean of the intervals, rounded down and at least 1. -/
def meanBlockTimeMs (blocks : List BlockView) : ℕ :=
  max 1 ((intervals blocks).sum / (intervals blocks).length)

theorem length_intervals_range {c : Chain T} (hend : endNumber ≤ c.tipNumber) :
    (intervals (c.range fromNumber endNumber)).length = endNumber - fromNumber := by
  have := c.length_eq
  simp only [intervals, Chain.range, length_differences, List.length_map, List.length_take,
    List.length_drop]
  omega

/-- The intervals add up to the time from the first block of the range to the last. -/
theorem sum_intervals_range {c : Chain T} {front back : BlockView}
    (hle : fromNumber ≤ endNumber) (hfront : c.blocks[fromNumber]? = some front)
    (hback : c.blocks[endNumber]? = some back)
    (hmono : ((c.range fromNumber endNumber).map BlockView.timestamp).IsChain (· ≤ ·)) :
    (intervals (c.range fromNumber endNumber)).sum = back.timestamp - front.timestamp := by
  obtain ⟨k, rfl⟩ := Nat.exists_eq_add_of_le hle
  have hcount : fromNumber + k + 1 - fromNumber = k + 1 := by omega
  have hdrop : c.blocks.drop fromNumber = front :: c.blocks.drop (fromNumber + 1) := by
    obtain ⟨hn, rfl⟩ := List.getElem?_eq_some_iff.mp hfront
    exact List.drop_eq_getElem_cons hn
  have hlast : (c.range fromNumber (fromNumber + k)).getLast? = some back := by
    have hn := (List.getElem?_eq_some_iff.mp hback).1
    have hlen : (c.range fromNumber (fromNumber + k)).length = k + 1 := by
      simp only [Chain.range, List.length_take, List.length_drop]
      omega
    rw [List.getLast?_eq_getElem?, hlen, Nat.add_sub_cancel]
    unfold Chain.range
    rw [hcount, List.getElem?_take_of_lt (Nat.lt_succ_self k), List.getElem?_drop, hback]
  have hcons : c.range fromNumber (fromNumber + k) =
      front :: (c.blocks.drop (fromNumber + 1)).take k := by
    unfold Chain.range
    rw [hdrop, hcount, List.take_succ_cons]
  unfold intervals
  rw [hcons, List.map_cons] at hmono ⊢
  rw [hcons] at hlast
  refine (sum_differences hmono ?_).2
  rw [← List.map_cons, List.getLast?_map, hlast]
  rfl

/-- Dividing by one more than the number of intervals gives the same mean exactly if the remainder
    makes up for it, or both means are rounded up to 1. -/
theorem max_div_succ_eq_iff (elapsed : ℕ) {n : ℕ} (hn : 0 < n) :
    max 1 (elapsed / (n + 1)) = max 1 (elapsed / n) ↔ elapsed / n ≤ max 1 (elapsed % n) := by
  have hle : elapsed / (n + 1) ≤ elapsed / n := Nat.div_le_div_left (Nat.le_succ n) hn
  have heuclid := Nat.div_add_mod elapsed n
  have hgoal : elapsed / n ≤ elapsed / (n + 1) ↔ elapsed / n ≤ elapsed % n := by
    rw [Nat.le_div_iff_mul_le (Nat.succ_pos n), Nat.mul_succ, Nat.mul_comm]
    omega
  omega

/-- **The fencepost.** On a chain whose blocks stay while they are read, with timestamps that do
    not decrease over the range, `average_block_time_ms` is the mean of the block intervals if and
    only if the mean is at most 1, or at most the remainder of dividing the elapsed time by the
    number of intervals. -/
theorem averageBlockTimeMs_eq_mean_iff (net : Net) (w : History T) (c : Chain T)
    (i fromNumber endNumber : ℕ) (metrics : Metrics) (j : ℕ)
    (hstays : ∀ t, i ≤ t → c.blocks <+: (w t net.first).chain.blocks)
    (hlt : fromNumber < endNumber) (hend : endNumber ≤ c.tipNumber)
    (hmono : ((c.range fromNumber endNumber).map BlockView.timestamp).IsChain (· ≤ ·))
    (h : (evalBlocks net fromNumber endNumber).Returns w i metrics j) :
    metrics.averageBlockTimeMs = meanBlockTimeMs (c.range fromNumber endNumber) ↔
      (intervals (c.range fromNumber endNumber)).sum / (endNumber - fromNumber) ≤
        max 1 ((intervals (c.range fromNumber endNumber)).sum % (endNumber - fromNumber)) := by
  obtain ⟨reads, hreads, -, -, haverage⟩ := returns_evalBlocks h
  obtain ⟨hle, hcount, hends⟩ := returns_readBlocks hreads
  have hread : ∀ t, i ≤ t → ∀ n, n ≤ endNumber →
      (w t net.first).chain.blocks[n]? = c.blocks[n]? := by
    intro t ht n hn
    obtain ⟨l, hl⟩ := hstays t ht
    rw [← hl, List.getElem?_append_left (by rw [c.length_eq]; omega)]
  have hfront := hends.front
  have hback := hends.back
  rw [hread _ (by omega) fromNumber hle] at hfront
  rw [hread _ (by omega) endNumber (Nat.le_refl _)] at hback
  have hsum := sum_intervals_range hle hfront hback hmono
  rw [haverage, hcount, Reads.elapsedMs, ← hsum]
  unfold meanBlockTimeMs
  rw [length_intervals_range hend]
  exact max_div_succ_eq_iff _ (by omega)

/-! ## A sample chain -/

/-- Block `number` of the sample chain. -/
def timedBlock (number timestamp : ℕ) : BlockView :=
  { header := { hash := number + 1, parentHash := number, number, timestamp }
    transactions := [Sample.cellbase (100 + number) Sample.account] }

/-- The intervals are 4, 4, 1 and 2 ms. -/
def timedBlocks : List BlockView :=
  [timedBlock 0 0, timedBlock 1 4, timedBlock 2 8, timedBlock 3 9, timedBlock 4 11]

def timedChain : Chain (BlockTree.ofList timedBlocks) where
  blocks := timedBlocks
  genesis := by decide
  follows := by decide
  mem_tree := by decide

/-- Two blocks 4 ms apart are reported to have a block time of 2 ms. -/
theorem averageBlockTimeMs_halved :
    ∃ metrics j, (evalBlocks Sample.net 0 1).Returns (.still timedChain) 0 metrics j ∧
      intervals (timedChain.range 0 1) = [4] ∧ meanBlockTimeMs (timedChain.range 0 1) = 4 ∧
      metrics.averageBlockTimeMs = 2 :=
  ⟨_, _, rfl, by decide, by decide, rfl⟩

/-- Over all four intervals, 11 ms in total, the remainder 3 makes up for the mean 2. -/
theorem averageBlockTimeMs_eq_mean_iff_sample :
    ∃ metrics j, (evalBlocks Sample.net 0 4).Returns (.still timedChain) 0 metrics j ∧
      metrics.averageBlockTimeMs = meanBlockTimeMs (timedChain.range 0 4) := by
  refine ⟨_, _, rfl, ?_⟩
  exact (averageBlockTimeMs_eq_mean_iff Sample.net (.still timedChain) timedChain 0 0 4 _ _
    (fun _ _ => List.prefix_rfl) (by decide) (by decide) (by decide) rfl).mpr (by decide)

end TpsBench
