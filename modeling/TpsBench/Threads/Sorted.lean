/-
  The order of the pending list.

  The drain looks at the first entry only. While the list is sorted by number, nothing mature stays
  behind it. `construct_utxo_vec` sorts the list it hands to the thread, and `pull_forever` pushes
  at the back, so the order holds for as long as the heights it processes do not fall below those
  that are pending. Two things make them fall: the top-up leaves entries above the header the
  thread starts from, and a rollback leaves those above the header it goes back to.

  Nothing is assumed of the chain here: any top-up, any reorganizations, any maturity setting.

  * `sortedBy_afterBlock_iff`: one block.
  * `pullForever_sorted_iff`: a run keeps the list sorted, and holds nothing mature back, if and
    only if every push is in order (`PushedInOrder`).
  * `pullForever_holds_back`: a run, without reorganization, in which one is not.
-/
import TpsBench.Threads.Spawn

namespace TpsBench

open Lib Account

variable {T : BlockTree}

namespace Account

variable {a : Account} {g : Global} {block : BlockView} {st : PullState}

/-- If `block` has a cellbase cell to push, then the drain leaves no entry with a larger number. -/
def PushedInOrder (a : Account) (g : Global) (block : BlockView) (st : PullState) : Prop :=
  a.ownedCellbase block ≠ [] →
    ∀ e ∈ st.unmatureds.dropWhile (fun e => isMatured g block.number e.1), e.1 ≤ block.number

theorem sortedBy_afterBlock_iff (hs : SortedBy Prod.fst st.unmatureds) :
    SortedBy Prod.fst (a.afterBlock g block st).unmatureds ↔ PushedInOrder a g block st := by
  show SortedBy Prod.fst (_ ++ a.pendingOf block) ↔ _
  rw [sortedBy_append, and_iff_right (hs.sublist (List.dropWhile_sublist _)),
    and_iff_right (sortedBy_of_const fun _ => number_of_mem_pendingOf)]
  constructor
  · intro hall hne e he
    obtain ⟨u, hu⟩ := List.exists_mem_of_ne_nil _ hne
    exact hall e he (block.number, u) (List.mem_map_of_mem hu)
  · intro hpush e he e' he'
    rw [number_of_mem_pendingOf he']
    obtain ⟨u, hu, -⟩ := List.mem_map.mp he'
    exact hpush (List.ne_nil_of_mem hu) e he

/-- On a sorted list the drain takes all that the block matures. -/
theorem not_held_back (hs : SortedBy Prod.fst st.unmatureds) :
    ∀ e ∈ (a.afterBlock g block st).unmatureds,
      ¬ block.number > e.1 + 1800 * g.cellbaseMaturity := by
  intro e he
  rcases List.mem_append.mp he with he | he
  · refine forall_dropWhile (P := fun n => ¬ block.number > n + 1800 * g.cellbaseMaturity) hs
      (fun k k' hle hk => by omega) (fun e' _ hfail => ?_) e he
    -- the sum of an entry that fails does not wrap below the block's number
    have hle := of_decide_eq_false hfail
    have := Nat.mod_le (e'.1 + 1800 * g.cellbaseMaturity) u64Size
    omega
  · rw [number_of_mem_pendingOf he]
    omega

/-- Iteration `m` of the run from `st₀` starts in `st` and processes `block`. -/
def Processes (a : Account) (g : Global) (recv : Receiver) (net : Net) (w : History T) (i : ℕ)
    (st₀ : PullState) (m : ℕ) (st : PullState) (block : BlockView) : Prop :=
  ∃ i' j', Reached a g recv net w i st₀ m i' st ∧
    (w i' net.first).chain.blocks[st.currentHeader.number + 1]? = some block ∧
    block.parentHash = st.currentHeader.hash ∧
    Reached a g recv net w i st₀ (m + 1) j' (a.afterBlock g block st)

/-- A run that starts with a sorted list keeps it sorted while every push is in order. -/
theorem sortedBy_of_reached {recv : Receiver} {net : Net} {w : History T} {i : ℕ}
    {st₀ : PullState} (hstart : SortedBy Prod.fst st₀.unmatureds) {n : ℕ}
    (hpush : ∀ m st block, m < n → Processes a g recv net w i st₀ m st block →
      PushedInOrder a g block st) :
    ∀ m j st, m ≤ n → Reached a g recv net w i st₀ m j st → SortedBy Prod.fst st.unmatureds := by
  intro m
  induction m with
  | zero =>
    rintro j st - h
    obtain ⟨heq, rfl⟩ := Rpc.returns_pure.mp h
    obtain rfl := Except.ok.inj heq
    exact hstart
  | succ m ih =>
    intro j st hm h
    obtain ⟨i', st', hprev, hle, hiter⟩ := Reached.prev h
    have hsorted := ih i' st' (by omega) hprev
    cases hiter with
    | idle => exact hsorted
    | rollback => exact hsorted
    | @forward block hfetch =>
      exact (sortedBy_afterBlock_iff hsorted).mpr
        (hpush m st' block hm ⟨i', j, hprev, hfetch.next, hfetch.link, h⟩)

end Account

/-- **When the pending list stays sorted.** In a run of the thread, after any top-up and with any
    reorganizations, the list is sorted at the head of every iteration, and no block processed
    leaves an entry that it matures, if and only if every push is in order. -/
theorem pullForever_sorted_iff (config : Config) (g : Global) (account : Account) (miner : Miner)
    (orders : Orders) (fuel : ℕ) (recv : Receiver) (w : History T) (i j : ℕ) (spawned : Spawned)
    (hspawn : (spawnPullUtxos config g account miner orders fuel).Returns w i (some spawned) j)
    (n : ℕ) :
    ((∀ m k st, m ≤ n → Reached account g recv config.net w j spawned.start m k st →
        st.unmatureds.Pairwise fun e e' => e.1 ≤ e'.1) ∧
      ∀ m st block, m < n → Processes account g recv config.net w j spawned.start m st block →
        ∀ e ∈ (account.afterBlock g block st).unmatureds,
          ¬ block.number > e.1 + 1800 * g.cellbaseMaturity) ↔
      ∀ m st block, m < n → Processes account g recv config.net w j spawned.start m st block →
        PushedInOrder account g block st := by
  constructor
  · rintro ⟨hsorted, -⟩ m st block hm ⟨i', j', hreached, -, -, hnext⟩
    exact (sortedBy_afterBlock_iff (hsorted m i' st hm.le hreached)).mp
      (hsorted (m + 1) j' _ hm hnext)
  · intro hpush
    have hstart : SortedBy Prod.fst spawned.start.unmatureds := by
      obtain ⟨-, -, -, -, -, -, hlists⟩ := spawnPullUtxos_cases hspawn
      unfold Spawned.start
      rw [(Prod.mk.inj hlists).2]
      exact sortedBy_sortedPending _ _
    have hall := sortedBy_of_reached hstart hpush
    refine ⟨hall, fun m st block hm ⟨i', j', hreached, _⟩ => ?_⟩
    exact not_held_back (hall m i' st hm.le hreached)

/-- With the full scan at block 1 and block 2 pulled, the thread starts at block 2 again. Its second
    push of that block's cellbase is in order. -/
theorem pullForever_sorted_iff_again :
    ∃ spawned j st k, (topUpRun 0).Returns (topUpHistory 1 3) 0 (some spawned) j ∧
      spawned.topUp.pulled = [2] ∧
      Reached Sample.account ⟨0, 0⟩ (fun _ => true) topUpConfig.net (topUpHistory 1 3) j
        spawned.start 1 k st ∧
      st.unmatureds.map Prod.fst = [2, 2] ∧ st.unmatureds.Pairwise fun e e' => e.1 ≤ e'.1 := by
  refine ⟨_, _, _, _, rfl, rfl, rfl, rfl, ?_⟩
  refine ((pullForever_sorted_iff topUpConfig ⟨0, 0⟩ Sample.account ⟨topUpConfig.net⟩ .stored 2
    (fun _ => true) (topUpHistory 1 3) 0 _ _ rfl 1).mpr ?_).1 1 _ _ (Nat.le_refl 1) rfl
  rintro m st block hm ⟨i', -, hreached, hnext, -⟩ -
  obtain rfl : m = 0 := by omega
  obtain ⟨heq, -⟩ := Rpc.returns_pure.mp hreached
  obtain rfl := Except.ok.inj heq
  rw [(topUpHistory 1 3 i' topUpConfig.net.first).chain.number_eq hnext]
  decide

/-- **Held back.** The loop pulls blocks 1 and 2, so the list starts with the cellbase of block 2,
    and the thread starts at block 1. The push for block 1 is out of order, and after block 2 the
    entry of block 1 is mature and still pending. -/
theorem pullForever_holds_back :
    (∀ rpc, Grows (topUpHistory 0 3) rpc) ∧
    ∃ spawned j, (topUpRun 0).Returns (topUpHistory 0 3) 0 (some spawned) j ∧
      (∃ st k, Reached Sample.account ⟨0, 0⟩ (fun _ => true) topUpConfig.net (topUpHistory 0 3) j
          spawned.start 1 k st ∧ ¬ st.unmatureds.Pairwise fun e e' => e.1 ≤ e'.1) ∧
      ∃ st block, Processes Sample.account ⟨0, 0⟩ (fun _ => true) topUpConfig.net
          (topUpHistory 0 3) j spawned.start 1 st block ∧
        ∃ e ∈ (Sample.account.afterBlock ⟨0, 0⟩ block st).unmatureds,
          block.number > e.1 + 1800 * 0 := by
  refine ⟨grows_topUpHistory 0 3, _, _, rfl, ⟨_, _, rfl, by decide⟩, ?_⟩
  exact ⟨_, _, ⟨_, _, rfl, rfl, rfl, rfl⟩,
    (1, ⟨Sample.output Sample.account, ⟨101, 0⟩⟩), by decide, by decide⟩

end TpsBench
