/-
  Do the waits of the monitor end?

  `bench` returns only after `wait_network_stabled` has, so a wait that does not end stops the whole
  benchmark. The chains here keep growing, with a shared genesis block and reorganizations of at
  most `confirmationBlocks` blocks. Then every height is confirmed at some time, at whatever pace.

  * `waitTip_ends`: the poll for a number. `waitCustomBlocksElapsed_ends_iff`: both waits, and the
    blocks are there to be evaluated.
  * `NearlyInv.ends`: no window is skipped, so one that passes is reached.
    `waitRecentBlocktxnsNearly_ends_iff`: the run ends exactly if there is one.
-/
import TpsBench.NetMonitor.Arithmetic

namespace TpsBench

open Lib Net

variable {T : BlockTree} {g : Global} {net : Net} {maxCapacity window warmup margin s k n i j : ℕ}
  {w : History T} {queue : List BlockView} {b : BlockView}

/-! ## A number of blocks -/

section Calls

variable (hcalls : ∀ i, ∃ header j, (net.getConfirmedTipHeader g).Returns w i header j)
  (hgrow : KeepsGrowing net w)

include hcalls hgrow

/-- With enough polls the target is reached, at the same call. -/
theorem waitTip_ends (target i : ℕ) :
    ∃ fuel₀ j, ∀ fuel, fuel₀ ≤ fuel → (waitTip g net target fuel).Returns w i true j := by
  obtain ⟨t₀, hpast⟩ := hgrow.passes g target
  -- the induction is on the calls until the tip is past the target
  induction hd : t₀ - i using Nat.strong_induction_on generalizing i with
  | _ d ih =>
    obtain ⟨header, k, hcall⟩ := hcalls i
    have htip := getConfirmedTipNumber_iff.mpr ⟨header, hcall, rfl⟩
    by_cases hbefore : target > header.number
    · have hik := getConfirmedTipNumber_lt htip
      have hi : i < t₀ := by
        by_contra hafter
        have := hpast i _ k (Nat.not_lt.mp hafter) htip
        omega
      obtain ⟨fuel₀, j, hends⟩ := ih (t₀ - k) (by omega) k rfl
      refine ⟨fuel₀ + 1, j, fun fuel hfuel => ?_⟩
      obtain ⟨fuel, rfl⟩ := Nat.exists_eq_succ_of_ne_zero (Nat.ne_zero_of_lt hfuel)
      refine Rpc.returns_bind.mpr ⟨_, k, htip, ?_⟩
      rw [if_pos hbefore]
      exact hends fuel (Nat.le_of_succ_le_succ hfuel)
    · refine ⟨1, k, fun fuel hfuel => ?_⟩
      obtain ⟨fuel, rfl⟩ := Nat.exists_eq_succ_of_ne_zero (Nat.ne_zero_of_lt hfuel)
      refine Rpc.returns_bind.mpr ⟨_, k, htip, ?_⟩
      rw [if_neg hbefore]
      exact Rpc.returns_pure.mpr ⟨rfl, rfl⟩

theorem waitBlocks_ends (blocks i : ℕ) :
    ∃ tip k, (net.getConfirmedTipNumber g).Returns w i tip k ∧ (tip + blocks < u64Size →
      ∃ fuel₀ j, ∀ fuel, fuel₀ ≤ fuel →
        (waitBlocks g net blocks fuel).Returns w i (some (tip, tip + blocks)) j) := by
  obtain ⟨header, k, hcall⟩ := hcalls i
  have htip := getConfirmedTipNumber_iff.mpr ⟨header, hcall, rfl⟩
  refine ⟨_, k, htip, fun hfits => ?_⟩
  obtain ⟨fuel₀, j, hends⟩ := waitTip_ends hcalls hgrow (header.number + blocks) k
  refine ⟨fuel₀, j, fun fuel hfuel => Rpc.returns_bind.mpr ⟨_, k, htip, ?_⟩⟩
  refine Rpc.returns_bind.mpr ⟨_, k, Rpc.returns_lift.mpr ⟨addU64_eq_ok.mpr ⟨hfits, rfl⟩, rfl⟩, ?_⟩
  exact Rpc.returns_bind.mpr ⟨_, j, hends fuel hfuel, Rpc.returns_pure.mpr ⟨rfl, rfl⟩⟩

end Calls

theorem waitTip_of_le {target fuel fuel' : ℕ} (h : (waitTip g net target fuel).Returns w i true j)
    (hle : fuel ≤ fuel') : (waitTip g net target fuel').Returns w i true j := by
  induction fuel generalizing i fuel' with
  | zero => cases (Rpc.returns_pure.mp h).1
  | succ fuel ih =>
    obtain ⟨fuel', rfl⟩ := Nat.exists_eq_succ_of_ne_zero (Nat.ne_zero_of_lt hle)
    obtain ⟨tip, k, hcall, h⟩ := Rpc.returns_bind.mp h
    refine Rpc.returns_bind.mpr ⟨tip, k, hcall, ?_⟩
    split at h
    next hbefore =>
      rw [if_pos hbefore]
      exact ih h (Nat.le_of_succ_le_succ hle)
    next hreached =>
      rw [if_neg hreached]
      exact h

theorem waitBlocks_of_le {blocks fuel fuel' : ℕ} {range : ℕ × ℕ}
    (h : (waitBlocks g net blocks fuel).Returns w i (some range) j) (hle : fuel ≤ fuel') :
    (waitBlocks g net blocks fuel').Returns w i (some range) j := by
  obtain ⟨tip, k, htip, h₁⟩ := Rpc.returns_bind.mp h
  obtain ⟨target, k', hlift, h₂⟩ := Rpc.returns_bind.mp h₁
  obtain ⟨reached, t, hwait, h₃⟩ := Rpc.returns_bind.mp h₂
  cases reached with
  | true => exact Rpc.returns_bind.mpr ⟨tip, k, htip, Rpc.returns_bind.mpr ⟨target, k', hlift,
      Rpc.returns_bind.mpr ⟨true, t, waitTip_of_le hwait hle, h₃⟩⟩⟩
  | false => cases (Rpc.returns_pure.mp h₃).1

/-- A wait that has ended has added without overflow. -/
theorem waitBlocks_fits {blocks fuel tip : ℕ} {range : ℕ × ℕ}
    (h : (waitBlocks g net blocks fuel).Returns w i (some range) j)
    (htip : (net.getConfirmedTipNumber g).Returns w i tip k) : tip + blocks < u64Size := by
  obtain ⟨tip', k', htip', h₁⟩ := Rpc.returns_bind.mp h
  obtain ⟨rfl, rfl⟩ := htip.unique htip'
  obtain ⟨target, k'', hlift, -⟩ := Rpc.returns_bind.mp h₁
  exact (addU64_eq_ok.mp (Rpc.returns_lift.mp hlift).1).1

/-- In a run from call `i` neither sum leaves the range of u64: the confirmed tip and the warmup,
    and the confirmed tip after that and the window. -/
structure SumsFit (g : Global) (net : Net) (window warmup : ℕ) (w : History T) (i : ℕ) : Prop where
  first : ∀ tip k, (net.getConfirmedTipNumber g).Returns w i tip k → tip + warmup < u64Size
  second : ∀ fuel warmed k tip k', (waitBlocks g net warmup fuel).Returns w i (some warmed) k →
    (net.getConfirmedTipNumber g).Returns w k tip k' → tip + window < u64Size

theorem sumsFit_of_returns {fuel : ℕ} {metrics : Metrics}
    (h : (waitCustomBlocksElapsed g net window warmup fuel).Returns w i (some metrics) j) :
    SumsFit g net window warmup w i := by
  obtain ⟨range, k, hrange, h₁⟩ := Rpc.returns_bind.mp h
  cases range with
  | none => cases (Rpc.returns_pure.mp h₁).1
  | some range =>
    obtain ⟨warmed, k₁, hwarmup, hwindow⟩ := returns_customRange hrange
    refine ⟨fun tip k htip => waitBlocks_fits hwarmup htip, ?_⟩
    intro fuel' warmed' k' tip t hwarmup' htip
    -- with enough polls for both the warmup ends at one call
    obtain ⟨-, rfl⟩ := (waitBlocks_of_le hwarmup (Nat.le_max_left fuel fuel')).unique
      (waitBlocks_of_le hwarmup' (Nat.le_max_right fuel fuel'))
    exact waitBlocks_fits hwindow htip

/-- **A number of blocks passes.** On chains that keep growing, `wait_custom_blocks_elapsed` returns
    metrics after some number of polls if and only if its two sums fit. Then it returns them after
    any larger number. -/
theorem waitCustomBlocksElapsed_ends_iff (g : Global) (net : Net) (window warmup : ℕ)
    (w : History T) (genesis : HeaderView) (hu64 : window + 1 < u64Size)
    (hgen : ∀ t, ∀ e ∈ net.endpoints, (w t e).chain.header? 0 = some genesis)
    (hreorg : BoundedReorgs g.confirmationBlocks net w) (hgrow : KeepsGrowing net w) (i : ℕ) :
    ((∃ fuel metrics j,
        (waitCustomBlocksElapsed g net window warmup fuel).Returns w i (some metrics) j) ↔
      SumsFit g net window warmup w i) ∧
    (SumsFit g net window warmup w i → ∃ fuel₀ metrics j, ∀ fuel, fuel₀ ≤ fuel →
      (waitCustomBlocksElapsed g net window warmup fuel).Returns w i (some metrics) j) := by
  have hcalls := getConfirmedTipHeader_total (g := g) hgen hreorg
  have hstay := confirmedStays_of_boundedReorgs (g := g) hgen hreorg
  have hends : SumsFit g net window warmup w i → ∃ fuel₀ metrics j, ∀ fuel, fuel₀ ≤ fuel →
      (waitCustomBlocksElapsed g net window warmup fuel).Returns w i (some metrics) j := by
    intro hfits
    obtain ⟨tip, k, htip, hwarmup⟩ := waitBlocks_ends hcalls hgrow warmup i
    obtain ⟨fuel₁, k₁, hwarmup⟩ := hwarmup (hfits.first tip k htip)
    obtain ⟨tip', k', htip', hwindow⟩ := waitBlocks_ends hcalls hgrow window k₁
    obtain ⟨fuel₂, k₂, hwindow⟩ :=
      hwindow (hfits.second fuel₁ _ k₁ tip' k' (hwarmup fuel₁ le_rfl) htip')
    -- the range ends at or below a confirmed tip, so its blocks are there
    obtain ⟨-, -, i', reached, hreached, hle⟩ := returns_waitBlocks (hwindow fuel₂ le_rfl)
    obtain ⟨header, hheader, rfl⟩ := getConfirmedTipNumber_iff.mp hreached
    have heval : ∃ metrics j, (evalBlocks net tip' (tip' + window)).Returns w k₂ metrics j :=
      evalBlocks_total (Nat.le_add_right tip' window) (by omega) fun t ht n hn =>
        exists_settled_of_confirmed hstay hheader (hn.trans hle) (by omega)
    obtain ⟨metrics, j, heval⟩ := heval
    refine ⟨max fuel₁ fuel₂, metrics, j, fun fuel hfuel => ?_⟩
    have hrange :
        (customRange g net window warmup fuel).Returns w i (some (tip', tip' + window)) k₂ :=
      Rpc.returns_bind.mpr ⟨_, k₁, hwarmup fuel (by omega), hwindow fuel (by omega)⟩
    exact Rpc.returns_bind.mpr ⟨_, k₂, hrange,
      Rpc.returns_bind.mpr ⟨metrics, j, heval, Rpc.returns_pure.mpr ⟨rfl, rfl⟩⟩⟩
  refine ⟨⟨fun h => ?_, fun h => ?_⟩, hends⟩
  · obtain ⟨fuel, metrics, j, hret⟩ := h
    exact sumsFit_of_returns hret
  · obtain ⟨fuel₀, metrics, j, hret⟩ := hends h
    exact ⟨fuel₀, metrics, j, hret fuel₀ le_rfl⟩

/-! ## A window that passes -/

/-- The window of settled blocks from height `a` on passes the test. -/
def WindowPasses (net : Net) (window margin : ℕ) (w : History T) (a : ℕ) : Prop :=
  ∃ l, l.length = window ∧ net.SettledAt w a l ∧
    blocktxnsNearly margin (innerBlocks l) = .ok true

/-- With enough polls the loop returns metrics, at the same call. -/
def Ends (g : Global) (net : Net) (window margin : ℕ) (w : History T) (i : ℕ)
    (queue : List BlockView) : Prop :=
  ∃ fuel₀ metrics j, ∀ fuel, fuel₀ ≤ fuel →
    (nearlyLoop g net window margin fuel queue).Returns w i (.metrics metrics) j

/-- A poll that returns metrics, or after which the loop ends. -/
theorem ends_of_poll {r : Nearly} (hpoll : (nearlyPoll g net window margin queue).Returns w i r j)
    (h : (∃ metrics, r = .metrics metrics) ∨
      ∃ queue', r = .waiting queue' ∧ Ends g net window margin w j queue') :
    Ends g net window margin w i queue := by
  rcases h with ⟨metrics, rfl⟩ | ⟨queue', rfl, fuel₀, metrics, j', hends⟩
  · refine ⟨1, metrics, j, fun fuel hfuel => ?_⟩
    obtain ⟨fuel, rfl⟩ := Nat.exists_eq_succ_of_ne_zero (Nat.ne_zero_of_lt hfuel)
    exact Rpc.returns_bind.mpr ⟨_, j, hpoll, Rpc.returns_pure.mpr ⟨rfl, rfl⟩⟩
  · refine ⟨fuel₀ + 1, metrics, j', fun fuel hfuel => ?_⟩
    obtain ⟨fuel, rfl⟩ := Nat.exists_eq_succ_of_ne_zero (Nat.ne_zero_of_lt hfuel)
    exact Rpc.returns_bind.mpr ⟨_, j, hpoll, hends fuel (Nat.le_of_succ_le_succ hfuel)⟩

/-- On a growing chain polls that see no new block come to an end. -/
theorem ends_of_poll_or_stay (hgrow : KeepsGrowing net w)
    (hpolls : ∀ i, ∃ r j, (nearlyPoll g net window margin queue).Returns w i r j)
    (h : ∀ i r j, (nearlyPoll g net window margin queue).Returns w i r j →
      (r = .waiting queue ∧ ∃ tip, (net.getConfirmedTipNumber g).Returns w i tip j ∧ tip < n) ∨
      (∃ metrics, r = .metrics metrics) ∨
      ∃ queue', r = .waiting queue' ∧ Ends g net window margin w j queue') (i : ℕ) :
    Ends g net window margin w i queue := by
  obtain ⟨t₀, hpast⟩ := hgrow.passes g n
  induction hd : t₀ - i using Nat.strong_induction_on generalizing i with
  | _ d ih =>
    obtain ⟨r, j, hpoll⟩ := hpolls i
    refine ends_of_poll hpoll ?_
    rcases h i r j hpoll with ⟨rfl, tip, hcall, htip⟩ | hends
    · have hij := getConfirmedTipNumber_lt hcall
      rcases Nat.lt_or_ge i t₀ with hbefore | hafter
      · exact .inr ⟨queue, rfl, ih (t₀ - j) (by omega) j rfl⟩
      · have := hpast i tip j hafter hcall
        omega
    · exact hends

/-- A window that passes is reached, or one before it passes. The induction is on how many blocks
    are still to be pushed until it is full. -/
theorem NearlyInv.ends
    (hcalls : ∀ i, ∃ header j, (net.getConfirmedTipHeader g).Returns w i header j)
    (hstay : net.ConfirmedStays g w) (hwindow : 3 ≤ window) (hu64 : window < u64Size)
    (hfits : MarginFits net window margin w s) (hgrow : KeepsGrowing net w) {k₁ : ℕ}
    (hpasses : WindowPasses net window margin w (s + k₁)) (pushes : ℕ) :
    ∀ k queue i, NearlyInv net window margin w s k queue → k ≤ k₁ →
      (k₁ - k) * window + (window - queue.length) = pushes →
      Ends g net window margin w i queue := by
  obtain ⟨l, hlen, hset, hpass⟩ := hpasses
  induction pushes using Nat.strong_induction_on with
  | _ pushes ih =>
    intro k queue i h hk hpushes
    have hshort := h.short
    have hpolls : ∀ i, ∃ r j, (nearlyPoll g net window margin queue).Returns w i r j := fun i =>
      (nearlyPoll_total hcalls hstay hwindow hu64 hfits h i).imp fun _ hr =>
        hr.imp fun _ hj => hj.1
    refine ends_of_poll_or_stay (n := s + k + queue.length) hgrow hpolls (fun i r j hpoll => ?_) i
    cases nearlyStep_of_nearlyPoll hstay h.settled hshort hpoll with
    | stay hcall htip => exact .inl ⟨rfl, _, hcall, htip⟩
    | @push next hset' hlen' =>
      have hlength : (queue ++ [next]).length = queue.length + 1 := List.length_append
      exact .inr (.inr ⟨_, rfl, ih _ (by omega) k _ j (h.push hset' hlen') hk rfl⟩)
    | pass => exact .inr (.inl ⟨_, rfl⟩)
    | @fail next hset' hlen' htest =>
      have hlength : (queue ++ [next]).length = queue.length + 1 := List.length_append
      have hinner := length_innerBlocks (queue ++ [next])
      -- the window at `k₁` does not fail
      have hlt : k < k₁ := by
        refine Nat.lt_of_le_of_ne hk ?_
        rintro rfl
        obtain rfl := hset.unique hset' (by omega)
        rw [hpass] at htest
        cases htest
      have hmul : (k₁ - k) * window = (k₁ - (k + 1)) * window + window := by
        rw [← Nat.succ_mul]
        congr 1
        omega
      exact .inr (.inr ⟨_, rfl, ih _ (by omega) (k + 1) _ j (h.fail hset' hlen' htest) hlt rfl⟩)

theorem FirstPassed.start_le {metrics : Metrics} (h : FirstPassed net window margin w s metrics)
    (hpasses : WindowPasses net window margin w (s + k)) : metrics.startBlockNumber ≤ s + k := by
  obtain ⟨k₁, -, -, -, -, hfailed, hfirst, -⟩ := h
  obtain ⟨l, hlen, hset, hpass⟩ := hpasses
  rw [hfirst]
  by_contra hlt
  exact not_windowFails hlen hset hpass (hfailed k (by omega))

/-- **A window has to pass.** On chains that keep growing, with a window of at least 3 that the
    queue can be made for and a margin that fits, `wait_recent_blocktxns_nearly` returns metrics
    after some number of polls if and only if some window of settled blocks, from the confirmed tip
    at the start on, passes the test. Then it does so after any larger number, and the metrics are
    of the first window that passes. -/
theorem waitRecentBlocktxnsNearly_ends_iff (g : Global) (net : Net)
    (maxCapacity window margin : ℕ) (w : History T) (i : ℕ) (genesis : HeaderView) (b : BlockView)
    (t : ℕ) (hwindow : 3 ≤ window) (hcap : window ≤ maxCapacity) (hu64 : window < u64Size)
    (hgen : ∀ t, ∀ e ∈ net.endpoints, (w t e).chain.header? 0 = some genesis)
    (hreorg : BoundedReorgs g.confirmationBlocks net w) (hgrow : KeepsGrowing net w)
    (hstart : (net.getConfirmedTipBlock g).Returns w i b t)
    (hfits : MarginFits net window margin w b.number) :
    ((∃ fuel metrics j, (waitRecentBlocktxnsNearly g net maxCapacity window margin fuel).Returns w i
        (.metrics metrics) j) ↔ ∃ k, WindowPasses net window margin w (b.number + k)) ∧
    ∀ k, WindowPasses net window margin w (b.number + k) →
      ∃ fuel₀ metrics j, FirstPassed net window margin w b.number metrics ∧
        metrics.startBlockNumber ≤ b.number + k ∧
        ∀ fuel, fuel₀ ≤ fuel →
          (waitRecentBlocktxnsNearly g net maxCapacity window margin fuel).Returns w i
            (.metrics metrics) j := by
  have hcalls := getConfirmedTipHeader_total (g := g) hgen hreorg
  have hstay := confirmedStays_of_boundedReorgs (g := g) hgen hreorg
  have hinv : NearlyInv net window margin w b.number 0 [b] :=
    NearlyInv.start (by omega) (settled_of_getConfirmedTipBlock hstay hstart)
  have hends : ∀ k, WindowPasses net window margin w (b.number + k) →
      ∃ fuel₀ metrics j, FirstPassed net window margin w b.number metrics ∧
        metrics.startBlockNumber ≤ b.number + k ∧
        ∀ fuel, fuel₀ ≤ fuel →
          (waitRecentBlocktxnsNearly g net maxCapacity window margin fuel).Returns w i
            (.metrics metrics) j := by
    intro k hpasses
    obtain ⟨fuel₀, metrics, j, hloop⟩ :=
      NearlyInv.ends hcalls hstay hwindow hu64 hfits hgrow hpasses _ 0 [b] t hinv k.zero_le rfl
    have hfirst := hinv.firstPassed hstay (hloop fuel₀ le_rfl)
    refine ⟨fuel₀, metrics, j, hfirst, ?_, fun fuel hfuel => ?_⟩
    · exact hfirst.start_le hpasses
    · exact (returns_waitRecentBlocktxnsNearly_of_start hstart).mpr ⟨hcap, hloop fuel hfuel⟩
  refine ⟨⟨?_, ?_⟩, hends⟩
  · rintro ⟨fuel, metrics, j, hret⟩
    have hloop := ((returns_waitRecentBlocktxnsNearly_of_start hstart).mp hret).2
    obtain ⟨k, l, hlen, hset, htest, -⟩ := hinv.firstPassed hstay hloop
    exact ⟨k, l, hlen, hset, htest⟩
  · rintro ⟨k, hpasses⟩
    obtain ⟨fuel₀, metrics, j, -, -, hret⟩ := hends k hpasses
    exact ⟨fuel₀, metrics, j, hret fuel₀ le_rfl⟩

/-! ## An endless chain -/

/-- Blocks of one transaction. -/
def endlessTree : BlockTree where
  block
    | 0 => none
    | number + 1 => some (nearlyBlock number 1)
  hash_block
    | 0, _, hb => nomatch hb
    | _ + 1, _, hb => Option.some.inj hb ▸ rfl

def endlessChain (tip : ℕ) : Chain endlessTree where
  blocks := (List.range (tip + 1)).map fun n => nearlyBlock n 1
  genesis := by
    rw [List.range_succ_eq_map]
    rfl
  follows := by
    refine List.isChain_iff_getElem.mpr fun n hn => ?_
    rw [List.getElem_map, List.getElem_map, List.getElem_range, List.getElem_range]
    exact ⟨rfl, rfl⟩
  mem_tree b hb := by
    obtain ⟨n, -, rfl⟩ := List.mem_map.mp hb
    rfl

/-- Each call finds one block more. -/
def endlessHistory : History endlessTree := fun t _ => { chain := endlessChain t }

theorem endlessChain_getElem? {tip : ℕ} (hn : n ≤ tip) :
    (endlessChain tip).blocks[n]? = some (nearlyBlock n 1) := by
  unfold endlessChain
  rw [List.getElem?_map, List.getElem?_range (Nat.lt_succ_of_le hn)]
  rfl

theorem grows_endlessHistory (rpc : Jsonrpc) : Grows endlessHistory rpc := fun t =>
  ⟨[nearlyBlock (t + 1) 1], by
    show (List.range (t + 1)).map _ ++ _ = (List.range (t + 1 + 1)).map fun n => nearlyBlock n 1
    rw [List.range_succ (n := t + 1), List.map_append, List.map_singleton]⟩

theorem endlessHistory_header? {t : ℕ} (hn : n ≤ t) (rpc : Jsonrpc) :
    (endlessHistory t rpc).chain.header? n = some (nearlyBlock n 1).header := by
  rw [Chain.header?, show (endlessHistory t rpc).chain = endlessChain t from rfl,
    endlessChain_getElem? hn, Option.map_some]

theorem keepsGrowing_endlessHistory (net : Net) : KeepsGrowing net endlessHistory := fun n =>
  ⟨_, n, fun _ ht _ _ => endlessHistory_header? ht _⟩

theorem endless_passes (k : ℕ) :
    Sample.net.SettledAt endlessHistory k ((List.range' k 3).map fun n => nearlyBlock n 1) ∧
      blocktxnsNearly 0 (innerBlocks ((List.range' k 3).map fun n => nearlyBlock n 1)) =
        .ok true := by
  refine ⟨fun n b hb => ⟨k + n, fun t ht => ?_⟩, rfl⟩
  rw [List.getElem?_map] at hb
  obtain ⟨m, hm, rfl⟩ := Option.map_eq_some_iff.mp hb
  obtain ⟨hn, rfl⟩ := List.getElem?_eq_some_iff.mp hm
  rw [List.getElem_range', Nat.one_mul]
  exact endlessChain_getElem? ht

/-- With a warmup of one block and a window of three. -/
theorem waitCustomBlocksElapsed_ends_iff_endless :
    ∃ fuel₀ metrics j, ∀ fuel, fuel₀ ≤ fuel →
      (waitCustomBlocksElapsed nearlyGlobal Sample.net 3 1 fuel).Returns endlessHistory 0
        (some metrics) j := by
  have hrun : (waitCustomBlocksElapsed nearlyGlobal Sample.net 3 1 3).Returns endlessHistory 0
      (some _) _ := rfl
  exact (waitCustomBlocksElapsed_ends_iff nearlyGlobal Sample.net 3 1 endlessHistory _ (by decide)
    (fun t _ _ => endlessHistory_header? (Nat.zero_le t) _)
    (boundedReorgs_of_grows fun e _ => grows_endlessHistory e)
    (keepsGrowing_endlessHistory _) 0).2 (sumsFit_of_returns hrun)

theorem waitRecentBlocktxnsNearly_ends_iff_endless :
    ∃ fuel₀ metrics j, metrics.startBlockNumber ≤ 0 ∧ ∀ fuel, fuel₀ ≤ fuel →
      (waitRecentBlocktxnsNearly nearlyGlobal Sample.net 100 3 0 fuel).Returns endlessHistory 0
        (.metrics metrics) j := by
  have hfits : MarginFits Sample.net 3 0 endlessHistory 0 := by
    intro k l hlen hset _ hover
    obtain ⟨hset', hpass⟩ := endless_passes (0 + k)
    rw [hset.unique hset' hlen, hpass] at hover
    cases hover
  obtain ⟨hset, hpass⟩ := endless_passes 0
  obtain ⟨fuel₀, metrics, j, -, hle, hends⟩ :=
    (waitRecentBlocktxnsNearly_ends_iff nearlyGlobal Sample.net 100 3 0 endlessHistory 0 _
      (nearlyBlock 0 1) 4 (by decide) (by decide) (by decide)
      (fun t _ _ => endlessHistory_header? (Nat.zero_le t) _)
      (boundedReorgs_of_grows fun e _ => grows_endlessHistory e) (keepsGrowing_endlessHistory _)
      rfl hfits).2 0 ⟨_, rfl, hset, hpass⟩
  exact ⟨fuel₀, metrics, j, hle, hends⟩

end TpsBench
