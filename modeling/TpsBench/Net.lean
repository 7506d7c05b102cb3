/-
  `net.rs`: queries over several endpoints.

  An endpoint list is never empty: `--rpc-urls` is a required argument, and `Net` carries that as
  a field, so `self.endpoints[0]` does not panic.

  `getConfirmedTipHeader` asks one endpoint for its tip, walks down until a header is answered
  alike by all, and asks the first endpoint again, by number, for the header
  `confirmationBlocks` below it. Each of these calls sees its own world.

  * `getFixedHeader_spec`, `getFixedHeader_of_shared`: what one probe of a height tells.
  * `getUnconfirmedFixedTipHeader_spec`: the walk ends at a header that every endpoint had on its
    main chain at some moment of the walk.
  * `getConfirmedTipHeader_final`: with reorganizations of at most `confirmationBlocks` blocks, no
    panic, and the header returned is on every endpoint's main chain from then on.
-/
import TpsBench.Rpc

namespace TpsBench

open Lib

variable {T : BlockTree}

/-- The endpoints of one run. -/
structure Net where
  endpoints : List Jsonrpc
  connected : endpoints ≠ []

namespace Net

/-- `Net::connect_all`, for a list of addresses that is not empty. -/
def connectAll (uris : List String) (h : uris ≠ []) : Net where
  endpoints := uris.map Jsonrpc.mk
  connected := by simpa using h

/-- `self.endpoints[0]`, to which `Net` also dereferences. -/
def first (net : Net) : Jsonrpc := net.endpoints.head net.connected

/-- `self.endpoints[1..]`. -/
def others (net : Net) : List Jsonrpc := net.endpoints.tail

theorem mem_endpoints {net : Net} {e : Jsonrpc} :
    e ∈ net.endpoints ↔ e = net.first ∨ e ∈ net.others := by
  conv_lhs => rw [← List.cons_head_tail net.connected]
  exact List.mem_cons

theorem length_others (net : Net) : net.others.length + 1 = net.endpoints.length := by
  have := List.length_pos_iff.mpr net.connected
  unfold others
  rw [List.length_tail]
  omega

theorem first_mem (net : Net) : net.first ∈ net.endpoints := List.head_mem net.connected

/-! ## The queries -/

/-- Does `rpc` answer height `number` with `header`? -/
def answersWith (number : ℕ) (header : HeaderView) (rpc : Jsonrpc) : Rpc T Bool := do
  let h ← rpc.getHeaderByNumber number
  return (h.map (· == header)).getD false

/-- `is_fixed`: all other endpoints have `header` at height `number`. Stops at the first that
    does not. -/
def isFixed (net : Net) (number : ℕ) (header : HeaderView) : Rpc T Bool :=
  net.others.allM (answersWith number header)

def getFixedHeader (net : Net) (number : ℕ) : Rpc T (Option HeaderView) := do
  match ← net.first.getHeaderByNumber number with
  | some header =>
    if ← net.isFixed number header then
      return some header
    return none
  | none => return none

/-- The loop of `get_unconfirmed_fixed_tip_header` over the heights left to try. Its body is the
    body of `get_fixed_header`. -/
def findFixed (net : Net) : List ℕ → Rpc T HeaderView
  | [] => Rpc.raise .unreachable
  | number :: rest => do
    match ← net.getFixedHeader number with
    | some header => return header
    | none => net.findFixed rest

def getUnconfirmedFixedTipHeader (net : Net) : Rpc T HeaderView := do
  let tipNumber ← net.first.getTipBlockNumber
  net.findFixed (List.range (tipNumber + 1)).reverse

/-- The text of the panic in `get_confirmed_tip_header`. -/
def confirmedPanic (net : Net) (unconfirmed confirmed : ℕ) : Panic :=
  .text ("rpc.get_header_by_number(" ++ net.first.uri ++ ", unconfirmed=" ++
    toString unconfirmed ++ ", confirmed=" ++ toString confirmed ++ ")")

def getConfirmedTipHeader (g : Global) (net : Net) : Rpc T HeaderView := do
  let unconfirmed ← net.getUnconfirmedFixedTipHeader
  let unconfirmedNumber := unconfirmed.number
  let confirmedNumber := unconfirmedNumber - g.confirmationBlocks
  let header ← net.first.getHeaderByNumber confirmedNumber
  Rpc.unwrapOr (net.confirmedPanic unconfirmedNumber confirmedNumber) header

def getConfirmedTipNumber (g : Global) (net : Net) : Rpc T ℕ := do
  return (← net.getConfirmedTipHeader g).number

def getConfirmedTipBlock (g : Global) (net : Net) : Rpc T BlockView := do
  let header ← net.getConfirmedTipHeader g
  let block ← net.first.getBlock header.hash
  Rpc.unwrapOr .unwrapNone block

def getNetworkNodes (net : Net) : Rpc T ℕ := do
  return (← net.first.getPeers).length + 1

def getBenchNodes (net : Net) : ℕ := net.endpoints.length

/-! ## One height -/

variable {w : History T} {i j : ℕ} {net : Net} {number : ℕ} {header : HeaderView}

theorem returns_answersWith {rpc : Jsonrpc} {b : Bool} :
    (answersWith number header rpc : Rpc T Bool).Returns w i b j ↔
      b = decide ((w i rpc).chain.header? number = some header) ∧ j = i + 1 := by
  unfold answersWith
  simp only [Rpc.returns_bind, Jsonrpc.returns_getHeaderByNumber, Rpc.returns_pure]
  constructor
  · rintro ⟨_, _, ⟨rfl, rfl⟩, rfl, rfl⟩
    refine ⟨?_, rfl⟩
    cases (w i rpc).chain.header? number <;> simp [beq_eq_decide]
  · rintro ⟨rfl, rfl⟩
    refine ⟨_, _, ⟨rfl, rfl⟩, ?_, rfl⟩
    cases (w i rpc).chain.header? number <;> simp [beq_eq_decide]

/-- At some call from `i` up to `j`, endpoint `e` had `header` at height `number`. -/
def SeenAt (w : History T) (i j : ℕ) (e : Jsonrpc) (number : ℕ) (header : HeaderView) : Prop :=
  ∃ t, i ≤ t ∧ t < j ∧ (w t e).chain.header? number = some header

theorem SeenAt.mono {e : Jsonrpc} {i' j' : ℕ} (h : SeenAt w i j e number header) (hi : i' ≤ i)
    (hj : j ≤ j') : SeenAt w i' j' e number header := by
  obtain ⟨t, hit, htj, ht⟩ := h
  exact ⟨t, by omega, by omega, ht⟩

theorem allM_answersWith (rpcs : List Jsonrpc) (w : History T) (i number : ℕ)
    (header : HeaderView) :
    ∃ b j, (rpcs.allM (answersWith number header)).Returns w i b j ∧ i ≤ j ∧
      j ≤ i + rpcs.length ∧
      (b = true → j = i + rpcs.length ∧ ∀ e ∈ rpcs, SeenAt w i j e number header) ∧
      (b = false → ∃ e ∈ rpcs, ∃ t, i ≤ t ∧ t < j ∧
        (w t e).chain.header? number ≠ some header) := by
  induction rpcs generalizing i with
  | nil => exact ⟨true, i, Rpc.returns_pure.mpr ⟨rfl, rfl⟩, le_refl i, le_refl i, by simp, by simp⟩
  | cons rpc rpcs ih =>
    rw [List.length_cons]
    by_cases hrpc : (w i rpc).chain.header? number = some header
    · obtain ⟨b, j, hret, hij, hj, htrue, hfalse⟩ := ih (i + 1)
      refine ⟨b, j, ?_, by omega, by omega, ?_, ?_⟩
      · unfold List.allM
        refine Rpc.returns_bind.mpr ⟨true, i + 1, returns_answersWith.mpr ⟨?_, rfl⟩, hret⟩
        simp [hrpc]
      · intro hb
        obtain ⟨hj, hseen⟩ := htrue hb
        refine ⟨by omega, fun e he => ?_⟩
        rcases List.mem_cons.mp he with rfl | he
        · exact ⟨i, le_refl i, by omega, hrpc⟩
        · exact (hseen e he).mono (by omega) (le_refl j)
      · intro hb
        obtain ⟨e, he, t, hit, htj, ht⟩ := hfalse hb
        exact ⟨e, List.mem_cons_of_mem _ he, t, by omega, htj, ht⟩
    · refine ⟨false, i + 1, ?_, by omega, by omega, by simp, ?_⟩
      · unfold List.allM
        refine Rpc.returns_bind.mpr
          ⟨false, i + 1, returns_answersWith.mpr ⟨?_, rfl⟩, Rpc.returns_pure.mpr ⟨rfl, rfl⟩⟩
        simp [hrpc]
      · intro _
        exact ⟨rpc, List.mem_cons_self, i, le_refl i, by omega, hrpc⟩

/-- One probe returns. A header it returns was seen at every endpoint during the probe, each of
    which was asked once; `none` means some endpoint did not have the header that the first one
    answered when it was asked. -/
theorem getFixedHeader_total (net : Net) (number : ℕ) (w : History T) (i : ℕ) :
    ∃ r j, (net.getFixedHeader number).Returns w i r j ∧ i < j ∧
      (∀ header, r = some header → (w i net.first).chain.header? number = some header ∧
        j = i + net.endpoints.length ∧ ∀ e ∈ net.endpoints, SeenAt w i j e number header) ∧
      (r = none → ∀ header, (w i net.first).chain.header? number = some header →
        ∃ e ∈ net.endpoints, ∃ t, i ≤ t ∧ t < i + net.endpoints.length ∧
          (w t e).chain.header? number ≠ some header) := by
  cases hfirst : (w i net.first).chain.header? number with
  | none =>
    refine ⟨none, i + 1, ?_, by omega, by simp, by simp⟩
    refine Rpc.returns_bind.mpr ⟨none, i + 1, ?_, Rpc.returns_pure.mpr ⟨rfl, rfl⟩⟩
    exact Jsonrpc.returns_getHeaderByNumber.mpr ⟨hfirst.symm, rfl⟩
  | some header =>
    obtain ⟨b, j, hret, hij, hj, htrue, hfalse⟩ :=
      allM_answersWith net.others w (i + 1) number header
    have hlen := net.length_others
    refine ⟨if b then some header else none, j, ?_, by omega, ?_, ?_⟩
    · refine Rpc.returns_bind.mpr
        ⟨some header, i + 1, Jsonrpc.returns_getHeaderByNumber.mpr ⟨hfirst.symm, rfl⟩, ?_⟩
      refine Rpc.returns_bind.mpr ⟨b, j, hret, ?_⟩
      cases b <;> exact Rpc.returns_pure.mpr ⟨rfl, rfl⟩
    · cases b with
      | false => simp
      | true =>
        intro h hh
        obtain rfl : header = h := by simpa using hh
        obtain ⟨hj, hseen⟩ := htrue rfl
        refine ⟨rfl, by omega, fun e he => ?_⟩
        rcases mem_endpoints.mp he with rfl | he
        · exact ⟨i, le_refl i, by omega, hfirst⟩
        · exact (hseen e he).mono (by omega) (le_refl j)
    · cases b with
      | true => simp
      | false =>
        rintro - h hh
        obtain rfl : header = h := by simpa using hh
        obtain ⟨e, he, t, hit, htj, ht⟩ := hfalse rfl
        exact ⟨e, mem_endpoints.mpr (Or.inr he), t, by omega, by omega, ht⟩

/-- What a header returned by one probe says. -/
theorem getFixedHeader_spec {r : Option HeaderView}
    (h : (net.getFixedHeader number).Returns w i r j) :
    i < j ∧ ∀ header, r = some header → (w i net.first).chain.header? number = some header ∧
      j = i + net.endpoints.length := by
  obtain ⟨r', j', hret, hij, hsome, -⟩ := getFixedHeader_total net number w i
  obtain ⟨rfl, rfl⟩ := hret.unique h
  exact ⟨hij, fun header hr => ⟨(hsome header hr).1, (hsome header hr).2.1⟩⟩

/-- A header that every endpoint has during the probe is found, after each was asked once. -/
theorem getFixedHeader_of_shared {i : ℕ}
    (hshared : ∀ t, i ≤ t → t < i + net.endpoints.length → ∀ e ∈ net.endpoints,
      (w t e).chain.header? number = some header) :
    (net.getFixedHeader number).Returns w i (some header) (i + net.endpoints.length) := by
  obtain ⟨r, j, hret, -, hsome, hnone⟩ := getFixedHeader_total net number w i
  have hlen := net.length_others
  have hfirst := hshared i (le_refl i) (by omega) net.first net.first_mem
  cases r with
  | none =>
    obtain ⟨e, he, t, hit, htj, ht⟩ := hnone rfl header hfirst
    exact absurd (hshared t hit htj e he) ht
  | some header' =>
    obtain ⟨hfirst', rfl, -⟩ := hsome header' rfl
    rw [hfirst] at hfirst'
    obtain rfl := Option.some.inj hfirst'
    exact hret

/-! ## The walk down -/

/-- The walk over heights that end in `0` finds a header all endpoints had, if all endpoints
    always have the same genesis header. -/
theorem findFixed_spec {genesis : HeaderView}
    (hgen : ∀ t, ∀ e ∈ net.endpoints, (w t e).chain.header? 0 = some genesis) (numbers : List ℕ)
    (hzero : 0 ∈ numbers) (i : ℕ) :
    ∃ header j, (net.findFixed numbers).Returns w i header j ∧ i < j ∧
      ∀ e ∈ net.endpoints, SeenAt w i j e header.number header := by
  induction numbers generalizing i with
  | nil => simp at hzero
  | cons number rest ih =>
    obtain ⟨r, j, hret, hij, hsome, -⟩ := getFixedHeader_total net number w i
    cases r with
    | some header =>
      obtain ⟨hfirst, -, hseen⟩ := hsome header rfl
      have hnum : header.number = number := Chain.number_of_header? hfirst
      refine ⟨header, j, ?_, hij, hnum ▸ hseen⟩
      exact Rpc.returns_bind.mpr ⟨some header, j, hret, Rpc.returns_pure.mpr ⟨rfl, rfl⟩⟩
    | none =>
      have hrest : 0 ∈ rest := by
        rcases List.mem_cons.mp hzero with rfl | h
        · have hfound := getFixedHeader_of_shared fun t (_ : i ≤ t) _ => hgen t
          exact absurd (hret.unique hfound).1 (by simp)
        · exact h
      obtain ⟨header, k, hfound, hjk, hseen⟩ := ih hrest j
      refine ⟨header, k, ?_, by omega, fun e he => (hseen e he).mono (by omega) (le_refl k)⟩
      exact Rpc.returns_bind.mpr ⟨none, j, hret, hfound⟩

theorem getUnconfirmedFixedTipHeader_spec {genesis : HeaderView}
    (hgen : ∀ t, ∀ e ∈ net.endpoints, (w t e).chain.header? 0 = some genesis) (i : ℕ) :
    ∃ header j, (net.getUnconfirmedFixedTipHeader).Returns w i header j ∧ i < j ∧
      ∀ e ∈ net.endpoints, SeenAt w i j e header.number header := by
  obtain ⟨header, j, hret, hij, hseen⟩ := findFixed_spec hgen
    (List.range ((w i net.first).chain.tipNumber + 1)).reverse (by simp) (i + 1)
  refine ⟨header, j, ?_, by omega, fun e he => (hseen e he).mono (by omega) (le_refl j)⟩
  exact Rpc.returns_bind.mpr
    ⟨_, i + 1, Jsonrpc.returns_getTipBlockNumber.mpr ⟨rfl, rfl⟩, hret⟩

/-! ## The confirmed tip -/

/-- Each endpoint's chain moves only by reorganizations of at most `d` blocks, and its tip never
    goes down. Any number of them may fall between two calls. -/
def BoundedReorgs (d : ℕ) (net : Net) (w : History T) : Prop :=
  ∀ t, ∀ e ∈ net.endpoints, Evolves d (w t e).chain.blocks (w (t + 1) e).chain.blocks

theorem BoundedReorgs.evolves {d : ℕ} (h : BoundedReorgs d net w) {e : Jsonrpc}
    (he : e ∈ net.endpoints) {t t' : ℕ} (ht : t ≤ t') :
    Evolves d (w t e).chain.blocks (w t' e).chain.blocks := by
  induction t', ht using Nat.le_induction with
  | base => exact .refl
  | succ n _ ih => exact ih.trans (h n e he)

/-- A block `d` below a header that an endpoint had once is on its chain from then on. -/
theorem BoundedReorgs.stable {d : ℕ} (h : BoundedReorgs d net w) {e : Jsonrpc}
    (he : e ∈ net.endpoints) {t t' m : ℕ} (hseen : (w t e).chain.header? number = some header)
    (hm : m + d ≤ number) (ht : t ≤ t') :
    (w t' e).chain.blocks[m]? = (w t e).chain.blocks[m]? := by
  obtain ⟨b, hb, -⟩ := Chain.header?_eq_some.mp hseen
  have := (List.getElem?_eq_some_iff.mp hb).1
  exact (h.evolves he ht).getElem? (by omega)

/-- Once every endpoint has had `header`, all have one and the same header `d` below it, for
    good: it is the ancestor of `header`, and at each endpoint it was `d` deep when seen. -/
theorem BoundedReorgs.settled {d m : ℕ} (h : BoundedReorgs d net w)
    (hseen : ∀ e ∈ net.endpoints, SeenAt w i j e number header) (hm : m + d ≤ number) :
    ∃ settled, ∀ t, j ≤ t + 1 → ∀ e ∈ net.endpoints,
      (w t e).chain.header? m = some settled := by
  obtain ⟨t₀, -, -, hfirst⟩ := hseen net.first net.first_mem
  obtain ⟨b, hb, -⟩ := Chain.header?_eq_some.mp hfirst
  have hlen : m < (w t₀ net.first).chain.blocks.length := by
    have := (List.getElem?_eq_some_iff.mp hb).1
    omega
  refine ⟨((w t₀ net.first).chain.blocks[m]).header, fun t ht e he => ?_⟩
  obtain ⟨t₁, -, ht₁, hseen₁⟩ := hseen e he
  obtain ⟨a, ha, ha'⟩ := Chain.block_of_header? hfirst hseen₁
  have hsame : (w t₀ net.first).chain.blocks[m]? = (w t₁ e).chain.blocks[m]? :=
    Chain.getElem?_eq _ _ ha ha' (by omega)
  have hstable := h.stable he hseen₁ hm (show t₁ ≤ t by omega)
  rw [Chain.header?, hstable, ← hsame, List.getElem?_eq_getElem hlen, Option.map_some]

/-- The same for the height that the call asks for, which saturates at the shared genesis block. -/
theorem BoundedReorgs.settled_confirmed {d : ℕ} {genesis unconfirmed : HeaderView}
    (h : BoundedReorgs d net w)
    (hgen : ∀ t, ∀ e ∈ net.endpoints, (w t e).chain.header? 0 = some genesis)
    (hseen : ∀ e ∈ net.endpoints, SeenAt w i j e unconfirmed.number unconfirmed) :
    ∃ settled, ∀ t, j ≤ t + 1 → ∀ e ∈ net.endpoints,
      (w t e).chain.header? (unconfirmed.number - d) = some settled := by
  rcases Nat.le_total d unconfirmed.number with hle | hle
  · exact h.settled hseen (Nat.sub_add_cancel hle).le
  · rw [Nat.sub_eq_zero_of_le hle]
    exact ⟨genesis, fun t _ => hgen t⟩

/-- The call returns if the walk does and the first endpoint then has the header it asks for. -/
theorem getConfirmedTipHeader_iff {g : Global} :
    (net.getConfirmedTipHeader g).Returns w i header j ↔
      ∃ unconfirmed t, (net.getUnconfirmedFixedTipHeader).Returns w i unconfirmed t ∧ j = t + 1 ∧
        (w t net.first).chain.header? (unconfirmed.number - g.confirmationBlocks) =
          some header := by
  constructor
  · intro h
    obtain ⟨unconfirmed, t, hwalk, h⟩ := Rpc.returns_bind.mp h
    obtain ⟨answer, t', hcall, h⟩ := Rpc.returns_bind.mp h
    obtain ⟨rfl, rfl⟩ := Jsonrpc.returns_getHeaderByNumber.mp hcall
    obtain ⟨hheader, rfl⟩ := Rpc.returns_unwrapOr.mp h
    exact ⟨unconfirmed, t, hwalk, rfl, hheader⟩
  · rintro ⟨unconfirmed, t, hwalk, rfl, hheader⟩
    refine Rpc.returns_bind.mpr ⟨unconfirmed, t, hwalk, ?_⟩
    refine Rpc.returns_bind.mpr ⟨_, t + 1, Jsonrpc.returns_getHeaderByNumber.mpr ⟨rfl, rfl⟩, ?_⟩
    exact Rpc.returns_unwrapOr.mpr ⟨hheader, rfl⟩

/-- **The confirmed tip is final.** Endpoints share a genesis block, their tips never go down and
    no reorganization drops more than `confirmationBlocks` blocks. Then the call returns, and the
    header is on the main chain of every endpoint at its last call and at every later moment. -/
theorem getConfirmedTipHeader_final (g : Global) (net : Net) (w : History T) (genesis : HeaderView)
    (hgen : ∀ t, ∀ e ∈ net.endpoints, (w t e).chain.header? 0 = some genesis)
    (hreorg : BoundedReorgs g.confirmationBlocks net w) (i : ℕ) :
    ∃ header j, (net.getConfirmedTipHeader g).Returns w i header j ∧
      ∀ t, j ≤ t + 1 → ∀ e ∈ net.endpoints,
        (w t e).chain.header? header.number = some header := by
  obtain ⟨unconfirmed, j, hret, hij, hseen⟩ := getUnconfirmedFixedTipHeader_spec hgen i
  obtain ⟨settled, hsettled⟩ := hreorg.settled_confirmed hgen hseen
  have hcall := hsettled j (Nat.le_succ j) net.first net.first_mem
  refine ⟨settled, j + 1, ?_, ?_⟩
  · exact getConfirmedTipHeader_iff.mpr ⟨unconfirmed, j, hret, rfl, hcall⟩
  · intro t ht e he
    rw [Chain.number_of_header? hcall]
    exact hsettled t (by omega) e he

theorem getConfirmedTipHeader_seen {g : Global}
    (h : (net.getConfirmedTipHeader g).Returns w i header j) :
    ∃ t, j = t + 1 ∧ (w t net.first).chain.header? header.number = some header := by
  obtain ⟨unconfirmed, t, -, rfl, hheader⟩ := getConfirmedTipHeader_iff.mp h
  refine ⟨t, rfl, ?_⟩
  rw [Chain.number_of_header? hheader]
  exact hheader

/-- The block that `get_confirmed_tip_block` returns is the one with that header, on the first
    endpoint's main chain at that call. -/
theorem returns_getConfirmedTipBlock {g : Global} {b : BlockView}
    (h : (net.getConfirmedTipBlock g).Returns w i b j) :
    ∃ t, (net.getConfirmedTipHeader g).Returns w i b.header (t + 1) ∧ j = t + 2 ∧
      (w t net.first).chain.blocks[b.number]? = some b := by
  obtain ⟨header, k, hheader, h₁⟩ := Rpc.returns_bind.mp h
  obtain ⟨answer, k', hcall, h₂⟩ := Rpc.returns_bind.mp h₁
  obtain ⟨rfl, rfl⟩ := Jsonrpc.returns_getBlock.mp hcall
  obtain ⟨hb, rfl⟩ := Rpc.returns_unwrapOr.mp h₂
  obtain ⟨t, rfl, hseen⟩ := getConfirmedTipHeader_seen hheader
  obtain ⟨b', hb', rfl⟩ := Chain.header?_eq_some.mp hseen
  -- the tree has one block with the hash of the header
  have htree := (w t net.first).chain.mem_tree b' (List.mem_of_getElem? hb')
  have hsame := Node.getBlock_eq_some hb
  rw [show b'.header.hash = b'.hash from rfl, htree] at hsame
  obtain rfl := Option.some.inj hsame
  exact ⟨t, hheader, rfl, hb'⟩

/-! ## A reorganization during the call -/

/-- Block 12 is replaced by blocks 22 and 23. -/
def forkTree : BlockTree :=
  .ofList [Sample.block 10 0 0 [], Sample.block 11 10 1 [], Sample.block 12 11 2 [],
    Sample.block 22 11 2 [], Sample.block 23 22 3 []]

def beforeFork : Chain forkTree where
  blocks := [Sample.block 10 0 0 [], Sample.block 11 10 1 [], Sample.block 12 11 2 []]
  genesis := by decide
  follows := by decide
  mem_tree := by decide

def afterFork : Chain forkTree where
  blocks := [Sample.block 10 0 0 [], Sample.block 11 10 1 [], Sample.block 22 11 2 [],
    Sample.block 23 22 3 []]
  genesis := by decide
  follows := by decide
  mem_tree := by decide

/-- Endpoint `a` switches before call 2, the others before call 4. -/
def forkHistory : History forkTree :=
  .switch beforeFork afterFork fun rpc => if rpc.uri = "http://a" then 2 else 4

theorem boundedReorgs_switch {d : ℕ} {c c' : Chain T} (h : Reorg d c.blocks c'.blocks)
    (switchAt : Jsonrpc → ℕ) (net : Net) : BoundedReorgs d net (.switch c c' switchAt) := by
  intro t e _
  simp only [History.switch]
  by_cases hold : t + 1 < switchAt e
  · rw [if_pos hold, if_pos (by omega)]
    exact .refl
  · rw [if_neg hold]
    by_cases hswitch : t < switchAt e
    · rw [if_pos hswitch]
      exact .single h
    · rw [if_neg hswitch]
      exact .refl

/-- Both endpoints switch while the header is looked for. -/
theorem getConfirmedTipHeader_final_fork :
    ∃ header j, ((Net.connectAll ["http://a", "http://b"] (by decide)).getConfirmedTipHeader
        { cellbaseMaturity := 0, confirmationBlocks := 1 }).Returns forkHistory 0 header j ∧
      ∀ t, j ≤ t + 1 → ∀ e ∈ (Net.connectAll ["http://a", "http://b"] (by decide)).endpoints,
        (forkHistory t e).chain.header? header.number = some header := by
  refine getConfirmedTipHeader_final { cellbaseMaturity := 0, confirmationBlocks := 1 }
    (Net.connectAll ["http://a", "http://b"] (by decide)) forkHistory
    (Sample.block 10 0 0 []).header (fun t e _ => ?_) (boundedReorgs_switch (by decide) _ _) 0
  simp only [forkHistory, History.switch]
  split_ifs <;> rfl

end Net

namespace Sample

/-- One endpoint, and a connection to it. -/
def rpcUrls : List String := ["http://127.0.0.1:8114"]

theorem rpcUrls_ne_nil : rpcUrls ≠ [] := by decide

def net : Net := .connectAll rpcUrls rpcUrls_ne_nil

end Sample

end TpsBench
