/-
  The confirmed tip over a run: when does its number go back?

  The header that `get_confirmed_tip_header` returns is final (`getConfirmedTipHeader_final`), but
  its number is a fixed offset below the last header that all endpoints have in common, and that
  one is not final: an endpoint that reorganizes drops blocks it shared with the others, so the
  common prefix gets shorter while every chain gets longer.

  * `unconfirmed_le_of_sharedStays`: if what all endpoints have had in common stays, the number of
    the common header never goes back.
  * `unconfirmed_eq_tip`: over one endpoint it is the endpoint's tip.
  * `confirmed_goes_back`: over two endpoints or more and with `confirmationBlocks` positive there
    is a run, with no reorganization deeper than that, in which the number does go back.
-/
import TpsBench.Net

namespace TpsBench

open Lib

variable {T : BlockTree}

namespace Net

variable {net : Net} {w : History T} {i j k k' n m number : ℕ} {header header' : HeaderView}

/-! ## One call -/

theorem getConfirmedTipNumber_iff {g : Global} :
    (net.getConfirmedTipNumber g).Returns w i n j ↔
      ∃ header, (net.getConfirmedTipHeader g).Returns w i header j ∧ header.number = n := by
  constructor
  · intro h
    obtain ⟨header, k, hcall, hnumber⟩ := Rpc.returns_bind.mp h
    obtain ⟨rfl, rfl⟩ := Rpc.returns_pure.mp hnumber
    exact ⟨header, hcall, rfl⟩
  · rintro ⟨header, hcall, rfl⟩
    exact Rpc.returns_bind.mpr ⟨header, j, hcall, Rpc.returns_pure.mpr ⟨rfl, rfl⟩⟩

theorem getConfirmedTipNumber_cases {g : Global}
    (h : (net.getConfirmedTipNumber g).Returns w i n j) :
    ∃ unconfirmed k, (net.getUnconfirmedFixedTipHeader).Returns w i unconfirmed k ∧ j = k + 1 ∧
      n = unconfirmed.number - g.confirmationBlocks ∧
      ∃ header, (w k net.first).chain.header? n = some header := by
  obtain ⟨header, hcall, rfl⟩ := getConfirmedTipNumber_iff.mp h
  obtain ⟨unconfirmed, k, hwalk, rfl, hheader⟩ := getConfirmedTipHeader_iff.mp hcall
  have hnum := Chain.number_of_header? hheader
  exact ⟨unconfirmed, k, hwalk, rfl, hnum, header, hnum ▸ hheader⟩

theorem returns_getConfirmedTipNumber {g : Global}
    (hwalk : (net.getUnconfirmedFixedTipHeader).Returns w i header j)
    (hn : header.number - g.confirmationBlocks = n)
    (hheader : (w j net.first).chain.header? n = some header') :
    (net.getConfirmedTipNumber g).Returns w i n (j + 1) := by
  subst hn
  apply getConfirmedTipNumber_iff.mpr
  refine ⟨header', ?_, Chain.number_of_header? hheader⟩
  exact getConfirmedTipHeader_iff.mpr ⟨header, j, hwalk, rfl, hheader⟩

/-- The header that the walk ends at was seen at every endpoint. -/
theorem findFixed_seen (numbers : List ℕ) (h : (net.findFixed numbers).Returns w i header j) :
    i < j ∧ ∀ e ∈ net.endpoints, SeenAt w i j e header.number header := by
  induction numbers generalizing i with
  | nil => exact absurd h Rpc.returns_raise
  | cons number rest ih =>
    obtain ⟨r, k, hprobe, h⟩ := Rpc.returns_bind.mp h
    obtain ⟨r', k', hret, hij, hsome, -⟩ := getFixedHeader_total net number w i
    obtain ⟨rfl, rfl⟩ := hret.unique hprobe
    cases r' with
    | none =>
      obtain ⟨hkj, hseen⟩ := ih h
      exact ⟨by omega, fun e he => (hseen e he).mono (by omega) (le_refl j)⟩
    | some found =>
      obtain ⟨rfl, rfl⟩ := Rpc.returns_pure.mp h
      obtain ⟨hfirst, -, hseen⟩ := hsome header rfl
      rw [Chain.number_of_header? hfirst]
      exact ⟨hij, hseen⟩

theorem getConfirmedTipNumber_lt {g : Global}
    (h : (net.getConfirmedTipNumber g).Returns w i n j) : i < j := by
  obtain ⟨unconfirmed, k, hwalk, rfl, -⟩ := getConfirmedTipNumber_cases h
  obtain ⟨tip, k', htip, hwalk⟩ := Rpc.returns_bind.mp hwalk
  obtain ⟨-, rfl⟩ := Jsonrpc.returns_getTipBlockNumber.mp htip
  have := (findFixed_seen _ hwalk).1
  omega

/-- The walk does not pass a height at which all endpoints have one header throughout. -/
theorem le_findFixed (hm : m ≤ n)
    (hshared : ∀ t, i ≤ t → ∀ e ∈ net.endpoints, (w t e).chain.header? m = some header')
    (h : (net.findFixed (List.range (n + 1)).reverse).Returns w i header j) :
    m ≤ header.number := by
  induction n, hm using Nat.le_induction generalizing i with
  | base =>
    rw [List.range_succ, List.reverse_append] at h
    obtain ⟨r, k, hprobe, h⟩ := Rpc.returns_bind.mp h
    obtain ⟨rfl, -⟩ := (getFixedHeader_of_shared fun t ht _ => hshared t ht).unique hprobe
    obtain ⟨rfl, -⟩ := Rpc.returns_pure.mp h
    rw [Chain.number_of_header? (hshared i (le_refl i) net.first net.first_mem)]
  | succ n hm ih =>
    rw [List.range_succ, List.reverse_append] at h
    obtain ⟨r, k, hprobe, h⟩ := Rpc.returns_bind.mp h
    obtain ⟨hik, hr⟩ := getFixedHeader_spec hprobe
    cases r with
    | none => exact ih (fun t ht => hshared t (by omega)) h
    | some found =>
      obtain ⟨rfl, -⟩ := Rpc.returns_pure.mp h
      rw [Chain.number_of_header? (hr header rfl).1]
      omega

/-! ## When it does not go back -/

/-- A header that every endpoint has had at a height stays on every endpoint's chain. -/
def SharedStays (net : Net) (w : History T) : Prop :=
  ∀ j n header, (∀ e ∈ net.endpoints, SeenAt w 0 j e n header) →
    ∀ t, j ≤ t → ∀ e ∈ net.endpoints, (w t e).chain.header? n = some header

theorem sharedStays_of_grows (h : ∀ e ∈ net.endpoints, Grows w e) : net.SharedStays w := by
  intro j n header hseen t ht e he
  obtain ⟨t', -, htj, hheader⟩ := hseen e he
  exact (h e he).header? (by omega) hheader

theorem unconfirmed_le_of_sharedStays (hstay : net.SharedStays w)
    (h : (net.getUnconfirmedFixedTipHeader).Returns w i header j) (hjk : j ≤ k)
    (h' : (net.getUnconfirmedFixedTipHeader).Returns w k header' k') :
    header.number ≤ header'.number := by
  obtain ⟨tip, j', htip, h⟩ := Rpc.returns_bind.mp h
  obtain ⟨hij, hseen⟩ := findFixed_seen _ h
  have hshared : ∀ t, k ≤ t → ∀ e ∈ net.endpoints,
      (w t e).chain.header? header.number = some header := by
    intro t ht
    apply hstay j header.number header _ t (by omega)
    exact fun e he => (hseen e he).mono (Nat.zero_le _) (le_refl j)
  obtain ⟨tip', k'', htip', h'⟩ := Rpc.returns_bind.mp h'
  obtain ⟨rfl, rfl⟩ := Jsonrpc.returns_getTipBlockNumber.mp htip'
  obtain ⟨b, hb, -⟩ := Chain.header?_eq_some.mp (hshared k (le_refl k) net.first net.first_mem)
  exact le_findFixed (Chain.le_tipNumber hb) (fun t ht => hshared t (by omega)) h'

/-- Over one endpoint whose tip does not go down the walk ends at the tip. -/
theorem unconfirmed_eq_tip (hone : net.endpoints.length = 1)
    (htip : ∀ t, (w t net.first).chain.tipNumber ≤ (w (t + 1) net.first).chain.tipNumber)
    (h : (net.getUnconfirmedFixedTipHeader).Returns w i header j) :
    i < j ∧ header.number = (w i net.first).chain.tipNumber := by
  obtain ⟨tip, k, hcall, h⟩ := Rpc.returns_bind.mp h
  obtain ⟨rfl, rfl⟩ := Jsonrpc.returns_getTipBlockNumber.mp hcall
  have hlen : (w i net.first).chain.tipNumber < (w (i + 1) net.first).chain.blocks.length := by
    have := htip i
    rw [Chain.length_eq]
    omega
  -- the only endpoint still has a header at that height when it is probed
  obtain ⟨found, hfound⟩ : ∃ found, (w (i + 1) net.first).chain.header?
      (w i net.first).chain.tipNumber = some found := by
    unfold Chain.header?
    rw [List.getElem?_eq_getElem hlen]
    exact ⟨_, rfl⟩
  rw [List.range_succ, List.reverse_append] at h
  obtain ⟨r, k', hprobe, h⟩ := Rpc.returns_bind.mp h
  have hfixed : (net.getFixedHeader (w i net.first).chain.tipNumber).Returns w (i + 1)
      (some found) (i + 1 + net.endpoints.length) := by
    apply getFixedHeader_of_shared
    intro t hit htj e he
    obtain rfl : t = i + 1 := by omega
    have hothers : net.others = [] := by
      have := net.length_others
      exact List.length_eq_zero_iff.mp (by omega)
    rcases mem_endpoints.mp he with rfl | he
    · exact hfound
    · rw [hothers] at he
      cases he
  obtain ⟨rfl, rfl⟩ := hfixed.unique hprobe
  obtain ⟨rfl, rfl⟩ := Rpc.returns_pure.mp h
  exact ⟨by omega, Chain.number_of_header? hfound⟩

/-! ## When it does -/

/-- Block `hash / 2` of the main chain, or of the side chain if the hash is odd. The side chain
    leaves the main chain above height `d`. -/
def switchBlock (d hash : ℕ) : BlockView where
  header :=
    { hash
      parentHash := if hash % 2 = 1 ∧ d + 1 < hash / 2 then hash - 2 else 2 * (hash / 2 - 1)
      number := hash / 2
      timestamp := hash / 2 }
  transactions := []

def switchTree (d : ℕ) : BlockTree where
  block hash := some (switchBlock d hash)
  hash_block hash b hb := by
    obtain rfl := Option.some.inj hb
    rfl

/-- The hash at height `n`. -/
def switchHash (d : ℕ) (side : Bool) (n : ℕ) : ℕ := if side ∧ d < n then 2 * n + 1 else 2 * n

theorem switchHash_div (d : ℕ) (side : Bool) (n : ℕ) : switchHash d side n / 2 = n := by
  unfold switchHash
  split <;> omega

theorem follows_switchBlock (d : ℕ) (side : Bool) (n : ℕ) :
    Follows (switchBlock d (switchHash d side n)) (switchBlock d (switchHash d side (n + 1))) := by
  refine ⟨?_, ?_⟩
  · show (if _ ∧ _ then _ else _) = switchHash d side n
    rw [switchHash_div]
    grind [switchHash]
  · show switchHash d side (n + 1) / 2 = switchHash d side n / 2 + 1
    rw [switchHash_div, switchHash_div]

/-- The main chain and the side chain, both up to height `2 * d`. -/
def switchChain (d : ℕ) (side : Bool) : Chain (switchTree d) where
  blocks := (List.range (2 * d + 1)).map fun n => switchBlock d (switchHash d side n)
  genesis := by
    simp [List.head?_range, BlockView.number, switchBlock, switchHash]
  follows := by
    apply List.isChain_iff_getElem.mpr
    intro n hn
    simpa using follows_switchBlock d side n
  mem_tree b hb := by
    obtain ⟨n, -, rfl⟩ := List.mem_map.mp hb
    rfl

theorem switchChain_header? (d : ℕ) (side : Bool) (hn : n ≤ 2 * d) :
    (switchChain d side).header? n = some (switchBlock d (switchHash d side n)).header := by
  simp [Chain.header?, switchChain, List.getElem?_range (show n < 2 * d + 1 by omega)]

theorem switchChain_tipNumber (d : ℕ) (side : Bool) :
    (switchChain d side).tipNumber = 2 * d := by
  simp [Chain.tipNumber, switchChain]

/-- The two chains are the same up to height `d`. -/
theorem switchHash_eq {d : ℕ} (side : Bool) (hn : n ≤ d) :
    switchHash d side n = switchHash d false n := by
  unfold switchHash
  rw [if_neg (by omega), if_neg (by simp)]

theorem reorg_switchChain (d : ℕ) (side side' : Bool) :
    Reorg d (switchChain d side).blocks (switchChain d side').blocks := by
  have hsame : (switchChain d side).blocks.take (d + 1) =
      (switchChain d side').blocks.take (d + 1) := by
    unfold switchChain
    rw [← List.map_take, ← List.map_take]
    apply List.map_congr_left
    intro n hn
    have := List.mem_range.mp (List.mem_of_mem_take hn)
    have hnd : n ≤ d := by
      rw [List.take_range] at hn
      have := List.mem_range.mp hn
      omega
    rw [switchHash_eq side hnd, switchHash_eq side' hnd]
  refine ⟨by simp [switchChain], ?_⟩
  have hlen : (switchChain d side).blocks.length - d = d + 1 := by
    simp [switchChain]
    omega
  rw [hlen, hsame]
  exact List.take_prefix _ _

/-- All endpoints stand at the main chain up to call `start`; after it they are at the main chain
    at every second call, and at the side chain at the others. -/
def switchHistory (d start : ℕ) : History (switchTree d) := fun t _ =>
  { chain := switchChain d (start ≤ t ∧ (t - start) % 2 = 0) }

theorem boundedReorgs_switchHistory (d start : ℕ) (net : Net) :
    BoundedReorgs d net (switchHistory d start) :=
  fun _ _ _ => .single (reorg_switchChain d _ _)

/-- A probe that the second endpoint answers differently fails after two calls. -/
theorem getFixedHeader_differs {second : Jsonrpc} {rest : List Jsonrpc}
    (hothers : net.others = second :: rest)
    (hfirst : (w i net.first).chain.header? n = some header)
    (hsecond : (w (i + 1) second).chain.header? n ≠ some header) :
    (net.getFixedHeader n).Returns w i none (i + 2) := by
  refine Rpc.returns_bind.mpr ⟨some header, i + 1, ?_, ?_⟩
  · exact Jsonrpc.returns_getHeaderByNumber.mpr ⟨hfirst.symm, rfl⟩
  · refine Rpc.returns_bind.mpr ⟨false, i + 2, ?_, Rpc.returns_pure.mpr ⟨rfl, rfl⟩⟩
    unfold isFixed
    rw [hothers]
    refine Rpc.returns_bind.mpr ⟨false, i + 2, ?_, Rpc.returns_pure.mpr ⟨rfl, rfl⟩⟩
    exact returns_answersWith.mpr ⟨by simp [hsecond], rfl⟩

/-- On the chains that keep switching, the walk from height `n` passes all above `d`. -/
theorem findFixed_switchHistory (start : ℕ) {d : ℕ} {second : Jsonrpc} {rest : List Jsonrpc}
    (hothers : net.others = second :: rest) (hdn : d ≤ n) (hn : n ≤ 2 * d) (p : ℕ) :
    ∃ j, start < j ∧ (net.findFixed (List.range (n + 1)).reverse).Returns (switchHistory d start)
      (start + 1 + 2 * p) (switchBlock d (2 * d)).header j := by
  induction n, hdn using Nat.le_induction generalizing p with
  | base =>
    refine ⟨start + 1 + 2 * p + net.endpoints.length, by omega, ?_⟩
    rw [List.range_succ, List.reverse_append]
    refine Rpc.returns_bind.mpr ⟨_, _, getFixedHeader_of_shared fun t _ _ e _ => ?_,
      Rpc.returns_pure.mpr ⟨rfl, rfl⟩⟩
    unfold switchHistory
    rw [switchChain_header? d _ hn, switchHash_eq _ (le_refl d)]
    simp [switchHash]
  | succ n hdn ih =>
    obtain ⟨j, hj, hrest⟩ := ih (by omega) (p + 1)
    refine ⟨j, hj, ?_⟩
    rw [List.range_succ, List.reverse_append]
    refine Rpc.returns_bind.mpr ⟨none, start + 1 + 2 * p + 2, ?_, hrest⟩
    -- the first endpoint answers on the main chain, the second on the side chain
    have hmain : (switchHistory d start (start + 1 + 2 * p) net.first).chain.header? (n + 1) =
        some (switchBlock d (2 * (n + 1))).header := by
      have hodd : ¬ (start ≤ start + 1 + 2 * p ∧ (start + 1 + 2 * p - start) % 2 = 0) := by omega
      unfold switchHistory
      rw [switchChain_header? d _ hn, decide_eq_false hodd]
      rfl
    apply getFixedHeader_differs hothers hmain
    have heven : start ≤ start + 1 + 2 * p + 1 ∧ (start + 1 + 2 * p + 1 - start) % 2 = 0 := by
      omega
    have hside : switchHash d true (n + 1) = 2 * (n + 1) + 1 := by
      unfold switchHash
      exact if_pos ⟨rfl, by omega⟩
    unfold switchHistory
    rw [switchChain_header? d _ hn, decide_eq_true heven, hside]
    intro heq
    have := congrArg HeaderView.hash (Option.some.inj heq)
    simp [switchBlock] at this

/-- Before `start`, long enough for a call, all endpoints are at the tip of the main chain. -/
theorem unconfirmed_switchHistory_before (d : ℕ) {start : ℕ}
    (hstart : net.endpoints.length + 1 ≤ start) :
    (net.getUnconfirmedFixedTipHeader).Returns (switchHistory d start) 0
      (switchBlock d (2 * (2 * d))).header (net.endpoints.length + 1) := by
  have hprobe : (net.getFixedHeader (2 * d)).Returns (switchHistory d start) 1
      (some (switchBlock d (2 * (2 * d))).header) (1 + net.endpoints.length) := by
    apply getFixedHeader_of_shared
    intro t _ ht e _
    have hbefore : ¬ (start ≤ t ∧ (t - start) % 2 = 0) := by omega
    unfold switchHistory
    rw [switchChain_header? d _ (le_refl _), decide_eq_false hbefore]
    rfl
  refine Rpc.returns_bind.mpr ⟨2 * d, 1, ?_, ?_⟩
  · exact Jsonrpc.returns_getTipBlockNumber.mpr ⟨(switchChain_tipNumber d _).symm, rfl⟩
  · rw [List.range_succ, List.reverse_append, Nat.add_comm]
    exact Rpc.returns_bind.mpr ⟨_, _, hprobe, Rpc.returns_pure.mpr ⟨rfl, rfl⟩⟩

/-- From `start` on, the walk of a second call ends at height `d`. -/
theorem unconfirmed_switchHistory_after (d start : ℕ) (hlen : net.endpoints.length ≠ 1) :
    ∃ j, start < j ∧ (net.getUnconfirmedFixedTipHeader).Returns (switchHistory d start) start
      (switchBlock d (2 * d)).header j := by
  obtain ⟨second, rest, hothers⟩ : ∃ second rest, net.others = second :: rest := by
    apply List.exists_cons_of_ne_nil
    intro hnil
    apply hlen
    rw [← net.length_others, hnil]
    rfl
  obtain ⟨j, hj, hwalk⟩ :=
    findFixed_switchHistory start hothers (by omega) (le_refl (2 * d)) 0
  refine ⟨j, hj, Rpc.returns_bind.mpr ⟨2 * d, start + 1, ?_, hwalk⟩⟩
  exact Jsonrpc.returns_getTipBlockNumber.mpr ⟨(switchChain_tipNumber d _).symm, rfl⟩

/-- **The number goes back.** Over two endpoints or more there is a run without a reorganization
    deeper than `confirmationBlocks` in which one call returns `confirmationBlocks` and the
    next one 0. -/
theorem confirmed_goes_back (g : Global) (hlen : net.endpoints.length ≠ 1) :
    ∃ start j, (net.getConfirmedTipNumber g).Returns
        (switchHistory g.confirmationBlocks start) 0 g.confirmationBlocks start ∧
      (net.getConfirmedTipNumber g).Returns
        (switchHistory g.confirmationBlocks start) start 0 j := by
  refine ⟨net.endpoints.length + 2, ?_⟩
  have hheader : ∀ t n, n ≤ g.confirmationBlocks → ∃ header,
      (switchHistory g.confirmationBlocks (net.endpoints.length + 2) t net.first).chain.header? n =
        some header := by
    intro t n hn
    exact ⟨_, switchChain_header? _ _ (by omega)⟩
  obtain ⟨j, -, hwalk⟩ := unconfirmed_switchHistory_after g.confirmationBlocks
    (net.endpoints.length + 2) hlen
  obtain ⟨header, hheader₁⟩ := hheader (net.endpoints.length + 1) g.confirmationBlocks (le_refl _)
  obtain ⟨genesis, hheader₂⟩ := hheader j 0 (Nat.zero_le _)
  refine ⟨j + 1, ?_, ?_⟩
  · apply returns_getConfirmedTipNumber
      (unconfirmed_switchHistory_before _ (Nat.le_succ _)) _ hheader₁
    simp only [switchBlock]
    omega
  · apply returns_getConfirmedTipNumber hwalk _ hheader₂
    simp [switchBlock]

end Net

end TpsBench
