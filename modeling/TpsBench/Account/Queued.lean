/-
  What `pull_forever` has queued: the out points sent and the out points pending.

  On a chain without reorganization a processed block adds its owned outputs to the queue, each
  once, and nothing leaves it: what the drain takes off the pending list it sends. So the queue is,
  up to order, what was queued at the start and the owned outputs of the blocks processed since
  (`Queued`, `queued_of_reached`). This needs neither the order of the pending list nor a bound on
  the maturity sum.

  What a run has sent is the beginning of what some state of it has sent, so one statement covers
  the runs that end in the middle of a block (`queued_of_run`).
-/
import TpsBench.Account.Steady

namespace TpsBench

variable {T : BlockTree}

namespace Account

variable {a : Account} {g : Global} {recv : Receiver} {net : Net} {w : History T} {i j : ℕ}
  {st st₀ : PullState}

/-- The out points of what has been sent and of what is pending. -/
def queued (st : PullState) : List OutPoint :=
  st.sent.map (fun s => s.utxo.outPoint) ++ st.unmatureds.map fun e => e.2.outPoint

/-- A block's owned outputs join the queue, and the drained entries stay in it. -/
theorem queued_afterBlock (a : Account) (g : Global) (block : BlockView) (st : PullState) :
    (queued (a.afterBlock g block st)).Perm
      (queued st ++ (a.owned block).map UTXO.outPoint) := by
  have hsent : (a.afterBlock g block st).sent.map (fun s => s.utxo.outPoint) =
      st.sent.map (fun s => s.utxo.outPoint) ++ ((a.ownedTransfers block).map UTXO.outPoint ++
        (st.unmatureds.takeWhile fun e => isMatured g block.number e.1).map
          fun e => e.2.outPoint) := by
    simp only [afterBlock, due, List.map_append, List.map_map]
    rfl
  have hpending : (a.afterBlock g block st).unmatureds.map (fun e => e.2.outPoint) =
      (st.unmatureds.dropWhile fun e => isMatured g block.number e.1).map (fun e => e.2.outPoint) ++
        (a.ownedCellbase block).map UTXO.outPoint := by
    simp only [afterBlock, pendingOf, List.map_append, List.map_map]
    rfl
  have hold : st.unmatureds.map (fun e => e.2.outPoint) =
      (st.unmatureds.takeWhile fun e => isMatured g block.number e.1).map (fun e => e.2.outPoint) ++
        (st.unmatureds.dropWhile fun e => isMatured g block.number e.1).map
          fun e => e.2.outPoint := by
    rw [← List.map_append, List.takeWhile_append_dropWhile]
  unfold queued
  rw [hsent, hpending, hold, owned, List.map_append, List.perm_iff_count]
  intro p
  simp only [List.count_append]
  omega

/-- The state is at the end of the chain `c`, and holds what `st₀` held and the owned outputs of
    the blocks of `c` above that. -/
structure Queued (a : Account) (Q : BlockView → Prop) (st₀ : PullState) (c : Chain T)
    (st : PullState) : Prop where
  ends : EndsAt c st.currentHeader
  above : st₀.currentHeader.number ≤ st.currentHeader.number
  perm : (queued st).Perm
    (queued st₀ ++ ((c.after st₀.currentHeader.number).flatMap a.owned).map UTXO.outPoint)
  processed : ∀ b ∈ c.after st₀.currentHeader.number, Q b

theorem Queued.step {Q : BlockView → Prop} {c : Chain T} {block : BlockView}
    (h : Queued a Q st₀ c st) (hQ : Q block) (hfetch : Fetches net w i st block) (g : Global) :
    ∃ c' : Chain T, Queued a Q st₀ c' (a.afterBlock g block st) := by
  obtain ⟨c', hc', hblocks⟩ := h.ends.succ hfetch.next hfetch.link
  have habove := h.above
  have hnumber := hfetch.number
  have hafter : c'.after st₀.currentHeader.number =
      c.after st₀.currentHeader.number ++ [block] := by
    refine Chain.after_succ hblocks ?_
    rw [h.ends.tipNumber]
    exact habove
  refine ⟨c', hc', ?_, ?_, fun b hb => ?_⟩
  · show st₀.currentHeader.number ≤ block.number
    omega
  · refine (queued_afterBlock a g block st).trans ((h.perm.append_right _).trans ?_)
    rw [hafter, List.flatMap_append, List.flatMap_singleton, List.map_append, List.append_assoc]
  · rw [hafter, List.mem_append, List.mem_singleton] at hb
    rcases hb with hb | rfl
    · exact h.processed b hb
    · exact hQ

/-- Nothing is queued twice exactly if nothing was at the start, and no block adds what was queued
    then: no two blocks add one cell. -/
theorem Queued.nodup_iff {Q : BlockView → Prop} {c : Chain T} (h : Queued a Q st₀ c st)
    (hv : ValidBlocks c.blocks) :
    (queued st).Nodup ↔ (queued st₀).Nodup ∧
      ∀ b ∈ c.after st₀.currentHeader.number, ∀ u ∈ a.owned b, u.outPoint ∉ queued st₀ := by
  have hnew : (((c.after st₀.currentHeader.number).flatMap a.owned).map UTXO.outPoint).Nodup := by
    have hafter := (hv.sublist (List.drop_sublist (st₀.currentHeader.number + 1) _)).created_once
    refine hafter.sublist ?_
    rw [List.map_flatMap]
    exact List.Sublist.flatMap_right _ fun b _ => a.owned_sublist b
  rw [h.perm.nodup_iff, List.nodup_append']
  constructor
  · rintro ⟨hstart, -, hdisj⟩
    exact ⟨hstart, fun b hb u hu hp =>
      hdisj hp (List.mem_map_of_mem (List.mem_flatMap.mpr ⟨b, hb, hu⟩))⟩
  · rintro ⟨hstart, hfresh⟩
    refine ⟨hstart, hnew, fun p hp hp' => ?_⟩
    obtain ⟨u, hu, rfl⟩ := List.mem_map.mp hp'
    obtain ⟨b, hb, hu⟩ := List.mem_flatMap.mp hu
    exact hfresh b hb u hu hp

/-- The chain of a queue is that of the endpoint at any call that has the current header. -/
theorem Queued.at_call {Q : BlockView → Prop} {c : Chain T} (h : Queued a Q st₀ c st) {t : ℕ}
    (hon : OnMainChain net w t st.currentHeader) :
    Queued a Q st₀ ((w t net.first).chain.upTo st.currentHeader.number) st := by
  have hafter : c.after st₀.currentHeader.number =
      ((w t net.first).chain.upTo st.currentHeader.number).after st₀.currentHeader.number := by
    unfold Chain.after
    rw [h.ends.unique (EndsAt.upTo hon)]
  exact ⟨EndsAt.upTo hon, h.above, hafter ▸ h.perm, hafter ▸ h.processed⟩

/-- In a run without reorganization, whose processed blocks satisfy `Q`, every state is at the
    end of such a chain. -/
theorem queued_of_reached (hgrow : Grows w net.first)
    (hon : OnMainChain net w i st₀.currentHeader) {n : ℕ} {Q : BlockView → Prop}
    (hQ : ∀ m i' st' block, m < n → Reached a g recv net w i st₀ m i' st' →
      Fetches net w i' st' block → Q block) :
    ∀ m i' st', m ≤ n → Reached a g recv net w i st₀ m i' st' →
      OnMainChain net w i' st'.currentHeader ∧ ∃ c : Chain T, Queued a Q st₀ c st' := by
  have hends : EndsAt ((w i net.first).chain.upTo st₀.currentHeader.number) st₀.currentHeader :=
    EndsAt.upTo hon
  have hafter : ((w i net.first).chain.upTo st₀.currentHeader.number).after
      st₀.currentHeader.number = [] := List.drop_eq_nil_of_le hends.1.le
  refine steady_induction hgrow hon ⟨_, hends, Nat.le_refl _, ?_, ?_⟩ ?_
  · rw [hafter, List.flatMap_nil, List.map_nil, List.append_nil]
  · rw [hafter]
    exact fun b hb => absurd hb List.not_mem_nil
  · rintro m i' st' block hm hreached ⟨c, h⟩ hfetch
    exact h.step (hQ m i' st' block hm hreached hfetch) hfetch g

theorem queued_of_run (hgrow : Grows w net.first) (hon : OnMainChain net w i st₀.currentHeader)
    {n : ℕ} {Q : BlockView → Prop}
    (hQ : ∀ m i' st' block, m < n → Reached a g recv net w i st₀ m i' st' →
      Fetches net w i' st' block → Q block)
    {r : Except (List Sent) PullState} (h : (a.pullForever g recv net n st₀).Returns w i r j) :
    ∃ st t, i ≤ t ∧ (sentBy r).Sublist st.sent ∧
      Queued a Q st₀ ((w t net.first).chain.upTo st.currentHeader.number) st := by
  obtain ⟨m, t, st, hreached, hm, hsub⟩ := sentBy_sublist h
  obtain ⟨hon', c, hc⟩ := queued_of_reached hgrow hon hQ m t st hm hreached
  rcases hsub with hsub | ⟨hlt, block, hfetch, hsub⟩
  · exact ⟨st, t, hreached.le, hsub, hc.at_call hon'⟩
  · obtain ⟨c', hc'⟩ := hc.step (hQ m t st block hlt hreached hfetch) hfetch g
    refine ⟨a.afterBlock g block st, t, hreached.le, hsub, hc'.at_call ?_⟩
    refine Chain.header?_eq_some.mpr ⟨block, ?_, rfl⟩
    show (w t net.first).chain.blocks[block.number]? = some block
    rw [hfetch.number, hfetch.next]

end Account

end TpsBench
