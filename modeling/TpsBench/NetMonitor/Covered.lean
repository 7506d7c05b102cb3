/-
  Which blocks does the test of `wait_recent_blocktxns_nearly` look at?

  The metrics cover the whole window. The test runs over the queue after both ends were popped, so
  the first and the last block of the window may be of any size.

  `waitRecentBlocktxnsNearly_covers_iff`: all covered blocks are within the margin of each other
  exactly if, in the first window whose inner blocks pass the test, the two ends fit as well.
-/
import TpsBench.NetMonitor.Nearly

namespace TpsBench

open Lib Net

variable {T : BlockTree} {g : Global} {net : Net} {window margin s a : ℕ} {w : History T}
  {l : List BlockView} {metrics : Metrics}

/-- The transaction counts of the covered blocks differ pairwise by at most `margin`. -/
def CoversNearly (net : Net) (margin : ℕ) (w : History T) (metrics : Metrics) : Prop :=
  ∀ n n' x y, metrics.startBlockNumber ≤ n → n ≤ metrics.endBlockNumber →
    metrics.startBlockNumber ≤ n' → n' ≤ metrics.endBlockNumber →
    net.Settled w n x → net.Settled w n' y → x.txns ≤ y.txns + margin

/-- The first and the last block of `l` are within the margin of all blocks of `l`. -/
def EndsFit (margin : ℕ) (l : List BlockView) : Prop :=
  ∀ x, x ∈ l.head? ∨ x ∈ l.getLast? → ∀ y ∈ l,
    x.txns ≤ y.txns + margin ∧ y.txns ≤ x.txns + margin

/-- From height `s` on, the first window whose inner blocks pass the test has fitting ends. -/
def FirstPassFits (net : Net) (window margin : ℕ) (w : History T) (s : ℕ) : Prop :=
  ∀ k l, l.length = window → net.SettledAt w (s + k) l →
    blocktxnsNearly margin (innerBlocks l) = .ok true →
    (∀ k' < k, WindowFails net window margin w (s + k')) → EndsFit margin l

theorem not_windowFails (hlen : l.length = window) (hset : net.SettledAt w a l)
    (hpass : blocktxnsNearly margin (innerBlocks l) = .ok true) :
    ¬ WindowFails net window margin w a := by
  intro ⟨l', hlen', hset', hfail⟩
  obtain rfl := hset.unique hset' (by omega)
  rw [hpass] at hfail
  cases hfail

theorem firstPassFits_iff {k : ℕ} (hlen : l.length = window) (hset : net.SettledAt w (s + k) l)
    (hpass : blocktxnsNearly margin (innerBlocks l) = .ok true)
    (hfailed : ∀ k' < k, WindowFails net window margin w (s + k')) :
    FirstPassFits net window margin w s ↔ EndsFit margin l := by
  constructor
  · intro h
    exact h k l hlen hset hpass hfailed
  · intro h k' l' hlen' hset' hpass' hfailed'
    rcases Nat.lt_trichotomy k' k with hlt | rfl | hlt
    · exact absurd (hfailed k' hlt) (not_windowFails hlen' hset' hpass')
    · obtain rfl := hset.unique hset' (by omega)
      exact h
    · exact absurd (hfailed' k hlt) (not_windowFails hlen hset hpass)

/-- The blocks of a window are its ends and its inner blocks. -/
theorem mem_window {x : BlockView} (hx : x ∈ l) :
    x ∈ innerBlocks l ∨ x ∈ l.head? ∨ x ∈ l.getLast? := by
  cases l with
  | nil => cases hx
  | cons front rest =>
    rcases List.mem_cons.mp hx with rfl | hx
    · exact Or.inr (Or.inl rfl)
    · rcases List.eq_nil_or_concat' rest with rfl | ⟨inner, back, rfl⟩
      · cases hx
      · have hlast : (front :: (inner ++ [back])).getLast? = some back := by
          rw [← List.cons_append, List.getLast?_concat]
        rcases List.mem_append.mp hx with hx | hx
        · refine Or.inl ?_
          unfold innerBlocks
          rwa [List.tail_cons, List.dropLast_concat]
        · rw [hlast, List.mem_singleton.mp hx]
          exact Or.inr (Or.inr rfl)

/-- If the inner blocks pass the test, all blocks are within the margin exactly if the ends fit. -/
theorem forall_window_iff (hpass : blocktxnsNearly margin (innerBlocks l) = .ok true) :
    (∀ x ∈ l, ∀ y ∈ l, x.txns ≤ y.txns + margin) ↔ EndsFit margin l := by
  constructor
  · intro h x hx y hy
    have hmem : x ∈ l := by
      rcases hx with hx | hx
      · exact List.mem_of_mem_head? hx
      · exact List.mem_of_mem_getLast? hx
    exact ⟨h x hmem y hy, h y hy x hmem⟩
  · intro h x hx y hy
    rcases mem_window hx with hinner | hend
    · rcases mem_window hy with hinner' | hend'
      · exact le_of_blocktxnsNearly hpass hinner hinner'
      · exact (h y hend' x hx).2
    · exact (h x hend y hy).1

theorem coversNearly_iff {k : ℕ} (hlen : l.length = window) (hset : net.SettledAt w (s + k) l)
    (hstart : metrics.startBlockNumber = s + k)
    (hend : metrics.endBlockNumber + 1 = s + k + window) :
    CoversNearly net margin w metrics ↔ ∀ x ∈ l, ∀ y ∈ l, x.txns ≤ y.txns + margin := by
  -- the settled blocks of the covered heights are the blocks of `l`
  have hmem : ∀ n x, metrics.startBlockNumber ≤ n → n ≤ metrics.endBlockNumber →
      net.Settled w n x → x ∈ l := by
    intro n x hn hn' hx
    have hidx : n - (s + k) < l.length := by omega
    have hget := hset _ _ (List.getElem?_eq_getElem hidx)
    rw [show s + k + (n - (s + k)) = n by omega] at hget
    rw [hx.unique hget]
    exact List.getElem_mem hidx
  constructor
  · intro h x hx y hy
    obtain ⟨n, hn⟩ := List.getElem?_of_mem hx
    obtain ⟨n', hn'⟩ := List.getElem?_of_mem hy
    have hlt := (List.getElem?_eq_some_iff.mp hn).1
    have hlt' := (List.getElem?_eq_some_iff.mp hn').1
    exact h (s + k + n) (s + k + n') x y (by omega) (by omega) (by omega) (by omega)
      (hset n x hn) (hset n' y hn')
  · intro h n n' x y hn hn' hm hm' hx hy
    exact h x (hmem n x hn hn' hx) y (hmem n' y hm hm' hy)

/-- **The ends are not tested.** When `wait_recent_blocktxns_nearly` returns, the transaction counts
    of all blocks its metrics cover differ pairwise by at most the margin if and only if, in the
    first window from the confirmed tip at the start on whose inner blocks pass the test, the first
    and the last block are within the margin of the others. -/
theorem waitRecentBlocktxnsNearly_covers_iff (g : Global) (net : Net)
    (maxCapacity window margin fuel : ℕ) (w : History T) (i : ℕ) (metrics : Metrics) (j : ℕ)
    (b : BlockView) (t : ℕ) (hstay : net.ConfirmedStays g w)
    (hstart : (net.getConfirmedTipBlock g).Returns w i b t)
    (h : (waitRecentBlocktxnsNearly g net maxCapacity window margin fuel).Returns w i
      (.metrics metrics) j) :
    CoversNearly net margin w metrics ↔ FirstPassFits net window margin w b.number := by
  obtain ⟨-, b', t', hstart', hfirst⟩ := waitRecentBlocktxnsNearly_cases hstay h
  obtain ⟨rfl, -⟩ := hstart.unique hstart'
  obtain ⟨k, l, hlen, hset, hpass, hfailed, hfrom, hend⟩ := hfirst
  calc CoversNearly net margin w metrics
      ↔ ∀ x ∈ l, ∀ y ∈ l, x.txns ≤ y.txns + margin := coversNearly_iff hlen hset hfrom hend
    _ ↔ EndsFit margin l := forall_window_iff hpass
    _ ↔ FirstPassFits net window margin w b.number :=
        (firstPassFits_iff hlen hset hpass hfailed).symm

/-! ## A sample chain -/

/-- Block `number` of the sample chain, with `txns` transactions. -/
def nearlyBlock (number txns : ℕ) : BlockView :=
  { header := { hash := number + 1, parentHash := number, number, timestamp := number }
    transactions := (List.range txns).map fun k =>
      Sample.cellbase (100 * number + k) Sample.account }

/-- Blocks of 2, 1, 3, 3 and 3 transactions. -/
def nearlyBlocks : List BlockView :=
  [nearlyBlock 0 2, nearlyBlock 1 1, nearlyBlock 2 3, nearlyBlock 3 3, nearlyBlock 4 3]

def nearlyChain : Chain (BlockTree.ofList nearlyBlocks) where
  blocks := nearlyBlocks
  genesis := by decide
  follows := by decide
  mem_tree := by decide

/-- The confirmed tip is `start` when the run starts, and the last block from the first poll on. -/
def nearlyHistory (start : ℕ) : History (BlockTree.ofList nearlyBlocks) :=
  .growing nearlyChain fun t => if t < 4 then start else 4

def nearlyGlobal : Global := { cellbaseMaturity := 0, confirmationBlocks := 0 }

theorem confirmedStays_nearlyHistory {start : ℕ} (hstart : start ≤ 4) :
    Sample.net.ConfirmedStays nearlyGlobal (nearlyHistory start) := by
  apply confirmedStays_of_grows
  apply grows_growing
  intro t
  split_ifs <;> omega

/-- With a margin of 0 a window of blocks of 2, 1 and 3 transactions is returned. -/
theorem waitRecentBlocktxnsNearly_covers_more :
    ∃ metrics j, (waitRecentBlocktxnsNearly nearlyGlobal Sample.net 100 3 0 2).Returns
        (nearlyHistory 0) 0 (.metrics metrics) j ∧
      metrics.startBlockNumber = 0 ∧ metrics.endBlockNumber = 2 ∧
      Sample.net.Settled (nearlyHistory 0) 0 (nearlyBlock 0 2) ∧
      Sample.net.Settled (nearlyHistory 0) 2 (nearlyBlock 2 3) ∧
      ¬ CoversNearly Sample.net 0 (nearlyHistory 0) metrics := by
  have hsettled : ∀ n b, (nearlyHistory 0 4 Sample.net.first).chain.blocks[n]? = some b →
      Sample.net.Settled (nearlyHistory 0) n b := by
    intro n b hb
    refine ⟨4, fun t ht => ?_⟩
    simp only [nearlyHistory, History.growing, if_neg (Nat.not_lt.mpr ht)]
    exact hb
  refine ⟨_, _, rfl, rfl, rfl, hsettled 0 _ rfl, hsettled 2 _ rfl, ?_⟩
  intro h
  have : (nearlyBlock 2 3).txns ≤ (nearlyBlock 0 2).txns + 0 :=
    h 2 0 _ _ (by decide) (by decide) (by decide) (by decide) (hsettled 2 _ rfl) (hsettled 0 _ rfl)
  revert this
  decide

/-- From height 2 on the blocks have 3 transactions each, so a window of three is covered as the
    margin of 0 asks. -/
theorem waitRecentBlocktxnsNearly_covers_iff_even :
    ∃ metrics j, (waitRecentBlocktxnsNearly nearlyGlobal Sample.net 100 3 0 2).Returns
        (nearlyHistory 2) 0 (.metrics metrics) j ∧
      metrics.startBlockNumber = 2 ∧ metrics.endBlockNumber = 4 ∧
      CoversNearly Sample.net 0 (nearlyHistory 2) metrics := by
  refine ⟨_, _, rfl, rfl, rfl, ?_⟩
  refine (waitRecentBlocktxnsNearly_covers_iff nearlyGlobal Sample.net 100 3 0 2 (nearlyHistory 2) 0
    _ _ (nearlyBlock 2 3) _ (confirmedStays_nearlyHistory (by omega)) rfl rfl).mpr ?_
  intro k l _ hset _ _
  have heven : ∀ x ∈ l, x.txns = 3 := by
    intro x hx
    obtain ⟨n, hn⟩ := List.getElem?_of_mem hx
    obtain ⟨t, ht⟩ := hset n x hn
    have hx := ht t le_rfl
    have hlarge : ∀ b ∈ nearlyBlocks, 2 ≤ b.number → b.txns = 3 := by decide
    refine hlarge x (List.mem_of_mem_take (List.mem_of_getElem? hx)) ?_
    have hnumber := Chain.number_eq _ hx
    have hstart : (nearlyBlock 2 3).number = 2 := rfl
    omega
  intro x hend y hy
  have hx : x ∈ l := hend.elim List.mem_of_mem_head? List.mem_of_mem_getLast?
  rw [heven x hx, heven y hy]
  exact ⟨le_rfl, le_rfl⟩

end TpsBench
