/-
  A bounded FIFO channel with one sender and one receiver. General library: any type of messages.

  `sent` and `received` are the histories of both ends. A message is lost only with the receiver:
  as long as it is there, what was sent is what was received and what is queued, in this order.
-/
import Mathlib.Data.List.Basic

namespace TpsBench.Lib

structure Channel (μ : Type) where
  queue : List μ
  sent : List μ
  received : List μ
  /-- The sender is gone. -/
  hungUp : Bool

namespace Channel

variable {μ : Type} {c : Channel μ} {m : μ} {rest : List μ} {capacity : ℕ}

def empty : Channel μ := { queue := [], sent := [], received := [], hungUp := false }

/-- Does a `send` return at once? -/
def accepts (capacity : ℕ) (c : Channel μ) : Bool :=
  !c.hungUp && decide (c.queue.length < capacity)

def send (m : μ) (c : Channel μ) : Channel μ :=
  { c with queue := c.queue ++ [m], sent := c.sent ++ [m] }

/-- The receiver takes `m`, and leaves the `rest`. -/
def recv (m : μ) (rest : List μ) (c : Channel μ) : Channel μ :=
  { c with queue := rest, received := c.received ++ [m] }

def hangUp (c : Channel μ) : Channel μ := { c with hungUp := true }

/-- `recv` fails from now on. -/
def Finished (c : Channel μ) : Prop := c.hungUp = true ∧ c.queue = []

structure Valid (capacity : ℕ) (c : Channel μ) : Prop where
  inOrder : c.received ++ c.queue = c.sent
  bounded : c.queue.length ≤ capacity

theorem valid_empty : (empty : Channel μ).Valid capacity := ⟨rfl, Nat.zero_le _⟩

theorem Valid.send (h : c.Valid capacity) (hroom : c.accepts capacity = true) :
    (c.send m).Valid capacity := by
  have hlen := of_decide_eq_true (Bool.and_eq_true_iff.mp hroom).2
  refine ⟨?_, ?_⟩
  · show c.received ++ (c.queue ++ [m]) = c.sent ++ [m]
    rw [← List.append_assoc, h.inOrder]
  · show (c.queue ++ [m]).length ≤ capacity
    rw [List.length_append, List.length_singleton]
    exact hlen

theorem Valid.recv (h : c.Valid capacity) (hqueue : c.queue = m :: rest) :
    (c.recv m rest).Valid capacity := by
  have horder := h.inOrder
  have hlen := h.bounded
  rw [hqueue] at horder hlen
  refine ⟨?_, Nat.le_of_succ_le hlen⟩
  show c.received ++ [m] ++ rest = c.sent
  rw [← horder, List.append_assoc]
  rfl

theorem Valid.hangUp (h : c.Valid capacity) : c.hangUp.Valid capacity := ⟨h.inOrder, h.bounded⟩

theorem Valid.received_isPrefix (h : c.Valid capacity) : c.received <+: c.sent :=
  ⟨c.queue, h.inOrder⟩

theorem Finished.not_accepts (h : c.Finished) : ¬ c.accepts capacity = true := by
  unfold accepts
  rw [h.1]
  exact Bool.false_ne_true

end Channel

end TpsBench.Lib
