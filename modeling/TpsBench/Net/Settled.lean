/-
  Settled blocks: what the first endpoint keeps for good.

  `ConfirmedStays` says the first endpoint never drops a header that `get_confirmed_tip_header` has
  returned. Two kinds of runs have it: those in which its chain only grows
  (`confirmedStays_of_grows`), and those of `getConfirmedTipHeader_final`, with a shared genesis
  block and no reorganization of more than `confirmationBlocks` blocks
  (`confirmedStays_of_boundedReorgs`).

  The blocks below a confirmed tip are then settled, and there is one settled block at a height.
  `SettledAt a l`: the blocks of `l` are the settled ones from height `a` on.
-/
import TpsBench.Net.ConfirmedTip

namespace TpsBench

open Lib

variable {T : BlockTree}

namespace Net

variable {g : Global} {net : Net} {w : History T} {i j k n m t a : ℕ} {b b' : BlockView}
  {l l' : List BlockView} {header : HeaderView}

/-! ## Confirmed headers -/

/-- The first endpoint keeps every header that `get_confirmed_tip_header` has returned. -/
def ConfirmedStays (g : Global) (net : Net) (w : History T) : Prop :=
  ∀ i header j, (net.getConfirmedTipHeader g).Returns w i header j → ∀ t, j ≤ t + 1 →
    (w t net.first).chain.header? header.number = some header

theorem confirmedStays_of_grows (h : Grows w net.first) : net.ConfirmedStays g w := by
  intro i header j hcall t ht
  obtain ⟨t', rfl, hseen⟩ := getConfirmedTipHeader_seen hcall
  exact h.header? (by omega) hseen

theorem boundedReorgs_of_grows {d : ℕ} (h : ∀ e ∈ net.endpoints, Grows w e) :
    BoundedReorgs d net w :=
  fun t e he => .single ⟨(h e he t).length_le, (List.take_prefix _ _).trans (h e he t)⟩

theorem confirmedStays_of_boundedReorgs {genesis : HeaderView}
    (hgen : ∀ t, ∀ e ∈ net.endpoints, (w t e).chain.header? 0 = some genesis)
    (hreorg : BoundedReorgs g.confirmationBlocks net w) : net.ConfirmedStays g w := by
  intro i header j hcall t ht
  obtain ⟨unconfirmed, k, hwalk, rfl, hheader⟩ := getConfirmedTipHeader_iff.mp hcall
  obtain ⟨tip, k', htip, hwalk⟩ := Rpc.returns_bind.mp hwalk
  obtain ⟨settled, hsettled⟩ := hreorg.settled_confirmed hgen (findFixed_seen _ hwalk).2
  have hsame := hsettled k (Nat.le_succ k) net.first net.first_mem
  rw [hheader] at hsame
  obtain rfl := Option.some.inj hsame
  rw [Chain.number_of_header? hheader]
  exact hsettled t (by omega) net.first net.first_mem

/-- With a shared genesis block and bounded reorganizations every call returns. -/
theorem getConfirmedTipHeader_total {genesis : HeaderView}
    (hgen : ∀ t, ∀ e ∈ net.endpoints, (w t e).chain.header? 0 = some genesis)
    (hreorg : BoundedReorgs g.confirmationBlocks net w) (i : ℕ) :
    ∃ header j, (net.getConfirmedTipHeader g).Returns w i header j := by
  obtain ⟨unconfirmed, j, hwalk, -, hseen⟩ := getUnconfirmedFixedTipHeader_spec hgen i
  obtain ⟨settled, hsettled⟩ := hreorg.settled_confirmed hgen hseen
  have hheader := hsettled j (Nat.le_succ j) net.first net.first_mem
  exact ⟨settled, j + 1, getConfirmedTipHeader_iff.mpr ⟨unconfirmed, j, hwalk, rfl, hheader⟩⟩

/-! ## Settled blocks -/

/-- From some moment on `b` is the first endpoint's block at height `n`. -/
def Settled (net : Net) (w : History T) (n : ℕ) (b : BlockView) : Prop :=
  ∃ t₀, ∀ t, t₀ ≤ t → (w t net.first).chain.blocks[n]? = some b

theorem Settled.unique (h : net.Settled w n b) (h' : net.Settled w n b') : b = b' := by
  obtain ⟨t₀, h⟩ := h
  obtain ⟨t₁, h'⟩ := h'
  have hb := h (max t₀ t₁) (le_max_left _ _)
  rw [h' (max t₀ t₁) (le_max_right _ _)] at hb
  exact (Option.some.inj hb).symm

theorem Settled.number (h : net.Settled w n b) : b.number = n := by
  obtain ⟨t₀, h⟩ := h
  exact (w t₀ net.first).chain.number_eq (h t₀ (le_refl t₀))

/-- Up to a confirmed tip the first endpoint's chain does not change any more. -/
theorem getElem?_of_confirmed (hstay : net.ConfirmedStays g w)
    (h : (net.getConfirmedTipHeader g).Returns w i header j) (hm : m ≤ header.number)
    {t t' : ℕ} (ht : j ≤ t + 1) (ht' : j ≤ t' + 1) :
    (w t' net.first).chain.blocks[m]? = (w t net.first).chain.blocks[m]? := by
  obtain ⟨b, hb, hb'⟩ :=
    Chain.block_of_header? (hstay i header j h t' ht') (hstay i header j h t ht)
  exact Chain.getElem?_eq _ _ hb hb' hm

/-- The block that the endpoint has at a height up to a confirmed tip is settled. -/
theorem settled_of_confirmed (hstay : net.ConfirmedStays g w)
    (h : (net.getConfirmedTipHeader g).Returns w i header j) (hm : m ≤ header.number)
    (ht : j ≤ t + 1) (hb : (w t net.first).chain.blocks[m]? = some b) : net.Settled w m b :=
  ⟨t, fun t' ht' => by rw [getElem?_of_confirmed hstay h hm ht (by omega), hb]⟩

theorem exists_settled_of_confirmed (hstay : net.ConfirmedStays g w)
    (h : (net.getConfirmedTipHeader g).Returns w i header j) (hm : m ≤ header.number)
    (ht : j ≤ t + 1) : ∃ b, (w t net.first).chain.blocks[m]? = some b := by
  obtain ⟨b, hb, -⟩ := Chain.header?_eq_some.mp (hstay i header j h t ht)
  have hlen := (List.getElem?_eq_some_iff.mp hb).1
  exact ⟨_, List.getElem?_eq_getElem (by omega)⟩

/-! ## Settled runs of blocks -/

/-- The blocks of `l` are the settled blocks from height `a` on. -/
def SettledAt (net : Net) (w : History T) (a : ℕ) (l : List BlockView) : Prop :=
  ∀ n b, l[n]? = some b → net.Settled w (a + n) b

theorem settledAt_singleton (h : net.Settled w a b) : net.SettledAt w a [b] := by
  intro n b' hb'
  obtain ⟨rfl, rfl⟩ : n = 0 ∧ b = b' := by
    cases n with
    | zero => simpa using hb'
    | succ n => simp at hb'
  exact h

theorem SettledAt.append (h : net.SettledAt w a l) (hb : net.Settled w (a + l.length) b) :
    net.SettledAt w a (l ++ [b]) := by
  intro n b' hb'
  rcases Nat.lt_trichotomy n l.length with hn | rfl | hn
  · rw [List.getElem?_append_left hn] at hb'
    exact h n b' hb'
  · obtain rfl : b = b' := by simpa using hb'
    exact hb
  · rw [List.getElem?_eq_none (by rw [List.length_append, List.length_singleton]; omega)] at hb'
    cases hb'

theorem SettledAt.tail (h : net.SettledAt w a l) : net.SettledAt w (a + 1) l.tail := by
  intro n b hb
  rw [List.getElem?_tail] at hb
  rw [Nat.add_assoc, Nat.add_comm 1 n]
  exact h (n + 1) b hb

theorem SettledAt.of_isPrefix (h : net.SettledAt w a l) (hpre : l' <+: l) :
    net.SettledAt w a l' := by
  intro n b hb
  obtain ⟨r, rfl⟩ := hpre
  apply h n b
  rw [List.getElem?_append_left (List.getElem?_eq_some_iff.mp hb).1, hb]

theorem SettledAt.number (h : net.SettledAt w a l) (hn : l[n]? = some b) : b.number = a + n :=
  (h n b hn).number

theorem SettledAt.unique (h : net.SettledAt w a l) (h' : net.SettledAt w a l')
    (hlen : l.length = l'.length) : l = l' := by
  apply List.ext_getElem hlen
  intro n hn hn'
  exact (h n _ (List.getElem?_eq_getElem hn)).unique (h' n _ (List.getElem?_eq_getElem hn'))

end Net

end TpsBench
