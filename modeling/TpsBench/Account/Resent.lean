/-
  How often does `pull_forever` send a cell?

  A rollback goes back up to 1000 blocks and forgets nothing, so the blocks that the new chain
  shares with the old one are processed again and their cells are sent again. Between two rollbacks
  the processed blocks stand on one chain, where each cell is created once.

  * `Rolled`: a run, with the number of its rollbacks.
  * `Counted.step`: what one block adds, on the chain since the last rollback.
  * `pullForever_resends_le`: a cell is sent at most once, and once more for each rollback.
-/
import TpsBench.Account.Queued
import TpsBench.Account.Reorg

namespace TpsBench

variable {T : BlockTree}

namespace Account

variable {a : Account} {g : Global} {recv : Receiver} {net : Net} {w : History T} {i t : ℕ}
  {st₀ st : PullState} {p : OutPoint}

/-! ## Rollbacks -/

/-- From `st` to `st'` the loop went back. -/
def RolledBack (st st' : PullState) : Prop :=
  st'.currentHeader ≠ st.currentHeader ∧ st'.currentHeader.number ≤ st.currentHeader.number

instance (st st' : PullState) : Decidable (RolledBack st st') :=
  inferInstanceAs (Decidable (_ ∧ _))

/-- A run that starts at call `i` in state `st₀` is at call `t` in state `st`, after `k`
    rollbacks. -/
inductive Rolled (a : Account) (g : Global) (recv : Receiver) (net : Net) (w : History T) (i : ℕ)
    (st₀ : PullState) : ℕ → ℕ → PullState → Prop
  | start : Rolled a g recv net w i st₀ 0 i st₀
  | step {k t t' : ℕ} {st st' : PullState} (h : Rolled a g recv net w i st₀ k t st)
      (hiter : Iterates a g recv net w t st (.ok st')) (ht : t ≤ t') :
      Rolled a g recv net w i st₀ (if RolledBack st st' then k + 1 else k) t' st'

theorem rolled_of_reached {m : ℕ} (h : Reached a g recv net w i st₀ m t st) :
    ∃ k, Rolled a g recv net w i st₀ k t st := by
  refine Reached.induction (P := fun t st => ∃ k, Rolled a g recv net w i st₀ k t st)
    ⟨0, .start⟩ ?_ m t st le_rfl h
  rintro - t st t' st' - - ⟨k, hrolled⟩ hiter ht
  exact ⟨_, hrolled.step hiter ht⟩

/-! ## Since the last rollback -/

/-- `c` is the chain that ends at the current header, `base` the height of the last rollback. The
    cell `p` was queued at the start, once for each rollback, or by the blocks above `base`. -/
structure Counted (a : Account) (p : OutPoint) (st₀ : PullState) (k base : ℕ) (c : Chain T)
    (st : PullState) : Prop where
  ends : EndsAt c st.currentHeader
  valid : ValidBlocks c.blocks
  above : base ≤ st.currentHeader.number
  count : (queued st).count p ≤
    (queued st₀).count p + k + (((c.after base).flatMap a.owned).map UTXO.outPoint).count p

/-- On a valid chain the account is given a cell once. -/
theorem count_owned_le {c : Chain T} (hv : ValidBlocks c.blocks) (base : ℕ) :
    (((c.after base).flatMap a.owned).map UTXO.outPoint).count p ≤ 1 := by
  apply List.nodup_iff_count_le_one.mp
  have hafter := (hv.sublist (List.drop_sublist (base + 1) _)).created_once
  refine hafter.sublist ?_
  rw [List.map_flatMap]
  exact List.Sublist.flatMap_right _ fun b _ => a.owned_sublist b

theorem Counted.count_le {k base : ℕ} {c : Chain T} (h : Counted a p st₀ k base c st) :
    (queued st).count p ≤ (queued st₀).count p + k + 1 :=
  h.count.trans (Nat.add_le_add_left (count_owned_le h.valid base) _)

theorem Counted.step {k base : ℕ} {c : Chain T} {block : BlockView}
    (h : Counted a p st₀ k base c st) (hvalid : ValidBlocks (w t net.first).chain.blocks)
    (hfetch : Fetches net w t st block) (g : Global) :
    ∃ c' : Chain T, Counted a p st₀ k base c' (a.afterBlock g block st) := by
  obtain ⟨c', hc', hblocks⟩ := h.ends.succ hfetch.next hfetch.link
  have habove := h.above
  have hafter : c'.after base = c.after base ++ [block] :=
    Chain.after_succ hblocks (h.ends.tipNumber.symm ▸ habove)
  have hends : EndsAt ((w t net.first).chain.upTo block.number) block.header := by
    refine EndsAt.upTo (Chain.header?_eq_some.mpr ⟨block, ?_, rfl⟩)
    rw [hfetch.number, hfetch.next]
  refine ⟨c', hc', ?_, ?_, ?_⟩
  · rw [hc'.unique hends]
    exact hvalid.sublist (List.take_sublist _ _)
  · have hnumber := hfetch.number
    show base ≤ block.number
    omega
  · have hcount := h.count
    rw [(queued_afterBlock a g block st).count_eq, List.count_append, hafter,
      List.flatMap_append, List.flatMap_singleton, List.map_append, List.count_append]
    omega

/-- What an iteration does: a rollback starts a new chain. -/
theorem counted_of_rolled (hvalid : ∀ t, ValidBlocks (w t net.first).chain.blocks)
    (hon : OnMainChain net w i st₀.currentHeader) {k : ℕ}
    (h : Rolled a g recv net w i st₀ k t st) (p : OutPoint) :
    ∃ base, ∃ c : Chain T, Counted a p st₀ k base c st := by
  induction h with
  | start =>
    exact ⟨st₀.currentHeader.number, _, EndsAt.upTo hon,
      (hvalid i).sublist (List.take_sublist _ _), le_rfl, Nat.le_add_right _ _⟩
  | @step k t t' st st' _ hiter ht ih =>
    obtain ⟨base, c, h⟩ := ih
    cases hiter with
    | idle =>
      rw [if_neg fun hback => hback.1 rfl]
      exact ⟨base, c, h⟩
    | @rollback header old hroll =>
      have hnumber := Chain.number_of_header? hroll.old
      by_cases hsame : old = st.currentHeader
      · -- the header that it goes back to is the one it has: nothing changes
        rw [if_neg fun hback => hback.1 hsame, hsame]
        exact ⟨base, c, h⟩
      · rw [if_pos ⟨hsame, by show old.number ≤ _; omega⟩]
        refine ⟨old.number, _, EndsAt.upTo (hnumber ▸ hroll.old),
          (hvalid _).sublist (List.take_sublist _ _), le_rfl, ?_⟩
        exact h.count_le.trans (Nat.le_add_right _ _)
    | @forward block hfetch =>
      have hnumber := hfetch.number
      have hforward : ¬ RolledBack st (a.afterBlock g block st) := by
        rintro ⟨-, hle⟩
        have hle : block.number ≤ st.currentHeader.number := hle
        omega
      rw [if_neg hforward]
      obtain ⟨c', hc'⟩ := h.step (hvalid t) hfetch g
      exact ⟨base, c', hc'⟩

/-- **How often a cell is sent.** For every run of `pull_forever` on valid chains, with any
    reorganizations: when the loop has gone back `k` times, no out point was sent, or is pending,
    more than `k + 1` times more often than at the start. -/
theorem pullForever_resends_le (a : Account) (g : Global) (recv : Receiver) (net : Net)
    (w : History T) (hvalid : ∀ t, ValidBlocks (w t net.first).chain.blocks) (i : ℕ)
    (st₀ : PullState)
    (hfrom : (w i net.first).chain.header? st₀.currentHeader.number = some st₀.currentHeader)
    (m t : ℕ) (st : PullState) (hreached : Reached a g recv net w i st₀ m t st) :
    ∃ k, Rolled a g recv net w i st₀ k t st ∧
      ∀ p, (st.sent.map fun s => s.utxo.outPoint).count p ≤ (queued st).count p ∧
        (queued st).count p ≤ (queued st₀).count p + k + 1 := by
  obtain ⟨k, hrolled⟩ := rolled_of_reached hreached
  refine ⟨k, hrolled, fun p => ⟨?_, ?_⟩⟩
  · exact (List.sublist_append_left _ _).count_le p
  · obtain ⟨base, c, hcounted⟩ := counted_of_rolled hvalid hfrom hrolled p
    exact hcounted.count_le

/-! ### A run with a rollback -/

/-- The bound is reached: the third iteration goes back, and the fourth sends the transfer a second
    time. -/
theorem pullForever_resends_le_shared :
    ∃ t st k, Reached Sample.account ⟨0, 0⟩ (fun _ => true) Sample.net sharedHistory 0 orphanStart
        4 t st ∧
      Rolled Sample.account ⟨0, 0⟩ (fun _ => true) Sample.net sharedHistory 0 orphanStart k t st ∧
      (st.sent.map fun s => s.utxo.outPoint).count ⟨201, 0⟩ = 2 ∧ 1 ≤ k := by
  have hshort : ValidBlocks shortChain.blocks := ⟨by decide, by decide⟩
  have hlong : ValidBlocks longChain.blocks := ⟨by decide, by decide⟩
  have hvalid : ∀ t, ValidBlocks (sharedHistory t Sample.net.first).chain.blocks := by
    intro t
    unfold sharedHistory History.switch
    dsimp only
    split
    · exact hshort
    · exact hlong
  have hreached : Reached Sample.account ⟨0, 0⟩ (fun _ => true) Sample.net sharedHistory 0
      orphanStart 4 8 _ := rfl
  obtain ⟨k, hrolled, hcount⟩ := pullForever_resends_le Sample.account ⟨0, 0⟩ (fun _ => true)
    Sample.net sharedHistory hvalid 0 orphanStart rfl 4 8 _ hreached
  obtain ⟨hsent, hqueued⟩ := hcount ⟨201, 0⟩
  have htwice : 2 ≤ 0 + k + 1 := hsent.trans hqueued
  exact ⟨8, _, k, hreached, hrolled, rfl, by omega⟩

end Account

end TpsBench
