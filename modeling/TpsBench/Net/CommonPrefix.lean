/-
  `net.rs` over endpoints whose chains stand still.

  The search starts at the first endpoint's tip and takes the first endpoint's header as the
  reference, so it seems to treat that endpoint specially. What it finds does not depend on it: the
  heights at which all endpoints have one header are those up to some number, by the hash links,
  and the search ends at the highest of them.

  * `getFixedHeader_fixed`: one probe answers with the header that all endpoints have, if any.
  * `findFixed_highest`: the walk down ends at the highest common header.
  * `getUnconfirmedFixedTipHeader_fixed`: that header is the last one of the longest common prefix,
    whatever the order of the endpoints; the same for `getFixedHeader` and `getConfirmedTipHeader`.
-/
import TpsBench.Net
import TpsBench.Lib.CommonPrefix
import Mathlib.Data.Nat.Find

namespace TpsBench

open Lib

variable {T : BlockTree}

/-- The headers of a chain, genesis first. -/
def Chain.headers (c : Chain T) : List HeaderView := c.blocks.map BlockView.header

theorem Chain.getElem?_headers (c : Chain T) (n : ℕ) : c.headers[n]? = c.header? n := by
  simp [Chain.headers, Chain.header?]

namespace Net

variable {net net' : Net} {w : History T} {c : Jsonrpc → Chain T} {n m i : ℕ}
  {header : HeaderView}

/-- Each endpoint `e` stands at the chain `c e`. -/
def Fixed (net : Net) (c : Jsonrpc → Chain T) (w : History T) : Prop :=
  ∀ t, ∀ e ∈ net.endpoints, (w t e).chain = c e

/-- All endpoints have `header` at height `n`. -/
def Shared (net : Net) (c : Jsonrpc → Chain T) (n : ℕ) (header : HeaderView) : Prop :=
  ∀ e ∈ net.endpoints, (c e).header? n = some header

theorem Fixed.perm (h : net.Fixed c w) (hperm : net'.endpoints.Perm net.endpoints) :
    net'.Fixed c w := fun t e he => h t e (hperm.mem_iff.mp he)

theorem Shared.perm (h : net.Shared c n header) (hperm : net'.endpoints.Perm net.endpoints) :
    net'.Shared c n header := fun e he => h e (hperm.mem_iff.mp he)

theorem Shared.number (h : net.Shared c n header) : header.number = n :=
  Chain.number_of_header? (h net.first net.first_mem)

/-- Endpoints that share a header share the whole chain below it. -/
theorem Shared.header?_eq (h : net.Shared c n header) {e : Jsonrpc} (he : e ∈ net.endpoints)
    (hm : m ≤ n) : (c e).header? m = (c net.first).header? m := by
  obtain ⟨b, hb, hb'⟩ := Chain.block_of_header? (h e he) (h net.first net.first_mem)
  unfold Chain.header?
  rw [Chain.getElem?_eq _ _ hb hb' hm]

theorem Shared.lower (h : net.Shared c n header) (hm : m ≤ n) :
    ∃ header', net.Shared c m header' := by
  obtain ⟨b, hb, -⟩ := Chain.header?_eq_some.mp (h net.first net.first_mem)
  have hlen : m < (c net.first).blocks.length := by
    have := (List.getElem?_eq_some_iff.mp hb).1
    omega
  refine ⟨((c net.first).blocks[m]).header, fun e he => ?_⟩
  rw [h.header?_eq he hm, Chain.header?, List.getElem?_eq_getElem hlen, Option.map_some]

theorem exists_highest (hgen : net.Shared c 0 header) :
    ∃ highest, net.Shared c highest.number highest ∧
      ∀ n header', net.Shared c n header' → n ≤ highest.number := by
  classical
  have hbound : ∀ n header', net.Shared c n header' → n ≤ (c net.first).tipNumber := by
    intro n header' hn
    obtain ⟨b, hb, -⟩ := Chain.header?_eq_some.mp (hn net.first net.first_mem)
    exact Chain.le_tipNumber hb
  obtain ⟨highest, hshared⟩ := Nat.findGreatest_spec
    (P := fun n => ∃ header', net.Shared c n header') (Nat.zero_le _) ⟨header, hgen⟩
  have hnum := hshared.number
  refine ⟨highest, hnum ▸ hshared, fun n header' hn => ?_⟩
  rw [hnum]
  exact Nat.le_findGreatest (hbound n header' hn) ⟨header', hn⟩

/-! ## The queries -/

theorem getFixedHeader_fixed (hfixed : net.Fixed c w) (n i : ℕ) :
    ∃ r j, (net.getFixedHeader n).Returns w i r j ∧
      ∀ header, r = some header ↔ net.Shared c n header := by
  obtain ⟨r, j, hret, -, hsome, hnone⟩ := getFixedHeader_total net n w i
  refine ⟨r, j, hret, fun header => ⟨fun hr e he => ?_, fun hshared => ?_⟩⟩
  · obtain ⟨t, -, -, ht⟩ := (hsome header hr).2.2 e he
    rwa [hfixed t e he] at ht
  · refine (hret.unique (getFixedHeader_of_shared fun t _ _ e he => ?_)).1
    rw [hfixed t e he, hshared e he]

/-- The walk down from any height at or above the highest common header ends at it. -/
theorem findFixed_highest (hfixed : net.Fixed c w) (hshared : net.Shared c header.number header)
    (hmax : ∀ n header', net.Shared c n header' → n ≤ header.number) {k : ℕ}
    (hk : header.number ≤ k) (i : ℕ) :
    ∃ j, (net.findFixed (List.range (k + 1)).reverse).Returns w i header j := by
  induction k, hk using Nat.le_induction generalizing i with
  | base =>
    obtain ⟨r, j, hret, hr⟩ := getFixedHeader_fixed hfixed header.number i
    obtain rfl := (hr header).mpr hshared
    refine ⟨j, ?_⟩
    rw [List.range_succ, List.reverse_append]
    exact Rpc.returns_bind.mpr ⟨_, j, hret, Rpc.returns_pure.mpr ⟨rfl, rfl⟩⟩
  | succ k hk ih =>
    obtain ⟨r, j, hret, hr⟩ := getFixedHeader_fixed hfixed (k + 1) i
    -- above the highest common header every probe fails
    have hnone : r = none := by
      apply Option.eq_none_iff_forall_ne_some.mpr
      intro header' hsome
      have := hmax _ _ ((hr header').mp hsome)
      omega
    subst hnone
    obtain ⟨j', hfound⟩ := ih j
    refine ⟨j', ?_⟩
    rw [List.range_succ, List.reverse_append]
    exact Rpc.returns_bind.mpr ⟨_, j, hret, hfound⟩

theorem getUnconfirmedFixedTipHeader_highest (hfixed : net.Fixed c w)
    (hshared : net.Shared c header.number header)
    (hmax : ∀ n header', net.Shared c n header' → n ≤ header.number) (i : ℕ) :
    ∃ j, (net.getUnconfirmedFixedTipHeader).Returns w i header j := by
  have htip : header.number ≤ (w i net.first).chain.tipNumber := by
    obtain ⟨b, hb, -⟩ := Chain.header?_eq_some.mp (hshared net.first net.first_mem)
    rw [hfixed i net.first net.first_mem]
    exact Chain.le_tipNumber hb
  obtain ⟨j, hret⟩ := findFixed_highest hfixed hshared hmax htip (i + 1)
  exact ⟨j, Rpc.returns_bind.mpr
    ⟨_, i + 1, Jsonrpc.returns_getTipBlockNumber.mpr ⟨rfl, rfl⟩, hret⟩⟩

/-- The headers up to the highest common one are the longest common prefix. -/
theorem longestCommonPrefix_highest (hshared : net.Shared c header.number header)
    (hmax : ∀ n header', net.Shared c n header' → n ≤ header.number) :
    LongestCommonPrefix (net.endpoints.map fun e => (c e).headers)
      ((c net.first).headers.take (header.number + 1)) := by
  apply longestCommonPrefix_take (List.mem_map_of_mem net.first_mem)
  · intro l hl
    obtain ⟨e, he, rfl⟩ := List.mem_map.mp hl
    have htake : (c net.first).headers.take (header.number + 1) =
        (c e).headers.take (header.number + 1) := by
      apply List.ext_getElem?
      intro m
      rcases Nat.lt_or_ge m (header.number + 1) with hm | hm
      · rw [List.getElem?_take_of_lt hm, List.getElem?_take_of_lt hm, Chain.getElem?_headers,
          Chain.getElem?_headers, hshared.header?_eq he (Nat.le_of_lt_succ hm)]
      · rw [List.getElem?_take_eq_none hm, List.getElem?_take_eq_none hm]
    rw [htake]
    exact List.take_prefix _ _
  · -- were the next header common as well, it would be the highest
    intro hlen
    by_contra hall
    push Not at hall
    have hnext : net.Shared c (header.number + 1) ((c net.first).headers[header.number + 1]) := by
      intro e he
      rw [← Chain.getElem?_headers, hall _ (List.mem_map_of_mem he),
        List.getElem?_eq_getElem hlen]
    have := hmax _ _ hnext
    omega

theorem getLast?_highest (hshared : net.Shared c header.number header) :
    ((c net.first).headers.take (header.number + 1)).getLast? = some header := by
  have hget : (c net.first).headers[header.number]? = some header := by
    rw [Chain.getElem?_headers]
    exact hshared net.first net.first_mem
  rw [List.take_add_one, hget, Option.toList_some, List.getLast?_append]
  rfl

/-- **The longest common prefix.** The endpoints' chains stand still and share a genesis block.
    Then `get_unconfirmed_fixed_tip_header` returns the last header of the longest common prefix
    of all chains, for every order of the endpoints; `get_fixed_header` finds a header exactly at
    the heights up to it; and the confirmed tip header is on every chain. -/
theorem getUnconfirmedFixedTipHeader_fixed (net : Net) (c : Jsonrpc → Chain T) (w : History T)
    (genesis : HeaderView) (hfixed : net.Fixed c w) (hgen : net.Shared c 0 genesis) :
    ∃ header common,
      LongestCommonPrefix (net.endpoints.map fun e => (c e).headers) common ∧
      common.getLast? = some header ∧
      (∀ net' : Net, net'.endpoints.Perm net.endpoints → ∀ i,
        ∃ j, (net'.getUnconfirmedFixedTipHeader).Returns w i header j) ∧
      (∀ n i, ∃ r j, (net.getFixedHeader n).Returns w i r j ∧ (r.isSome ↔ n ≤ header.number)) ∧
      (∀ g i, ∃ confirmed j, (net.getConfirmedTipHeader g).Returns w i confirmed j ∧
        ∀ e ∈ net.endpoints, (c e).header? confirmed.number = some confirmed) := by
  obtain ⟨header, hshared, hmax⟩ := exists_highest hgen
  refine ⟨header, _, longestCommonPrefix_highest hshared hmax, getLast?_highest hshared, ?_, ?_, ?_⟩
  · intro net' hperm i
    apply getUnconfirmedFixedTipHeader_highest (hfixed.perm hperm) (hshared.perm hperm)
    intro n header' h
    exact hmax n header' (h.perm hperm.symm)
  · intro n i
    obtain ⟨r, j, hret, hr⟩ := getFixedHeader_fixed hfixed n i
    refine ⟨r, j, hret, ?_⟩
    rw [Option.isSome_iff_exists]
    constructor
    · intro ⟨header', hsome⟩
      exact hmax n header' ((hr header').mp hsome)
    · intro hn
      obtain ⟨header', h⟩ := hshared.lower hn
      exact ⟨header', (hr header').mpr h⟩
  · intro g i
    obtain ⟨j, hret⟩ := getUnconfirmedFixedTipHeader_highest hfixed hshared hmax i
    obtain ⟨confirmed, hconfirmed⟩ := hshared.lower (Nat.sub_le _ g.confirmationBlocks)
    refine ⟨confirmed, j + 1, ?_, ?_⟩
    · refine getConfirmedTipHeader_iff.mpr ⟨header, j, hret, rfl, ?_⟩
      rw [hfixed j net.first net.first_mem, hconfirmed net.first net.first_mem]
    · rw [hconfirmed.number]
      exact hconfirmed

/-- Endpoint `a` stands at blocks 10, 11, 12, the others at 10, 11, 22, 23. -/
def forkChains (e : Jsonrpc) : Chain forkTree :=
  if e.uri = "http://a" then beforeFork else afterFork

/-- The two chains of the sample fork have a last common header, found from either end. -/
theorem getUnconfirmedFixedTipHeader_fixed_fork :
    ∃ header common,
      LongestCommonPrefix [beforeFork.headers, afterFork.headers] common ∧
      common.getLast? = some header ∧
      (∃ j, ((Net.connectAll ["http://a", "http://b"]
        (by decide)).getUnconfirmedFixedTipHeader).Returns
          (fun _ e => { chain := forkChains e }) 0 header j) ∧
      ∃ j, ((Net.connectAll ["http://b", "http://a"]
        (by decide)).getUnconfirmedFixedTipHeader).Returns
          (fun _ e => { chain := forkChains e }) 0 header j := by
  obtain ⟨header, common, hlongest, hlast, hfound, -⟩ := getUnconfirmedFixedTipHeader_fixed
    (Net.connectAll ["http://a", "http://b"] (by decide)) forkChains
    (fun _ e => { chain := forkChains e }) (Sample.block 10 0 0 []).header
    (fun _ _ _ => rfl) (by unfold Shared; decide)
  refine ⟨header, common, hlongest, hlast, ?_, ?_⟩
  · exact hfound _ (List.Perm.refl _) 0
  · exact hfound _ (List.Perm.swap _ _ []) 0

end Net

end TpsBench
