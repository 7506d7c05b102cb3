/-
  Threads that answer the messages of a bounded FIFO channel. General library: any type `μ` of
  messages and `ρ` of replies.

  Model. A worker takes the oldest message into its hand and asks for a reply, again and again,
  until one is final. It ends when its channel is empty and the sender is gone, which does not
  empty the channel. `put` is the sender's side. `enqueued` and `answered` are the histories of
  both sides; no step looks at them.

  * `Step.messages`: a step of a worker moves a message, it neither drops nor makes one.
  * `Valid`: the answers follow the order of the channel, and a worker that ended has answered all.
  * `Valid.drains`: a worker without a sender can go on until it has.
  * `perm_messages_put`: over any number of workers a `put` adds the message in one place.
-/
import Mathlib.Data.List.Basic
import Mathlib.Data.List.Perm.Basic
import Mathlib.Logic.Relation

namespace TpsBench.Lib

variable {μ ρ : Type}

structure Worker (μ ρ : Type) where
  queue : List μ
  hand : Option μ
  /-- The messages with a final reply, oldest first. -/
  answered : List (μ × ρ)
  /-- Everything that was put into the channel. -/
  enqueued : List μ
  ended : Bool

namespace Worker

def idle : Worker μ ρ :=
  { queue := [], hand := none, answered := [], enqueued := [], ended := false }

/-- Does the channel take a message? -/
def accepts (capacity : ℕ) (w : Worker μ ρ) : Bool := !w.ended && decide (w.queue.length < capacity)

def put (m : μ) (w : Worker μ ρ) : Worker μ ρ :=
  { w with queue := w.queue ++ [m], enqueued := w.enqueued ++ [m] }

/-- One step of the thread; `again r` says that `r` is not final. -/
inductive Step (again : ρ → Bool) (hungUp : Bool) : Worker μ ρ → Worker μ ρ → Prop
  | take {w : Worker μ ρ} {m : μ} {rest : List μ} (hlive : w.ended = false)
      (hhand : w.hand = none) (hqueue : w.queue = m :: rest) :
      Step again hungUp w { w with queue := rest, hand := some m }
  | again {w : Worker μ ρ} {m : μ} {r : ρ} (hhand : w.hand = some m) (hr : again r = true) :
      Step again hungUp w w
  | answer {w : Worker μ ρ} {m : μ} {r : ρ} (hhand : w.hand = some m) (hr : again r = false) :
      Step again hungUp w { w with hand := none, answered := w.answered ++ [(m, r)] }
  | finish {w : Worker μ ρ} (hlive : w.ended = false) (hhand : w.hand = none)
      (hqueue : w.queue = []) (hsender : hungUp = true) :
      Step again hungUp w { w with ended := true }

variable {w w' : Worker μ ρ} {again : ρ → Bool} {hungUp : Bool} {m : μ} {r : ρ} {capacity : ℕ}

/-! ## One worker -/

def answers (w : Worker μ ρ) : List μ := w.answered.map Prod.fst

/-- The messages that it has answered, holds, and has queued. -/
def messages (w : Worker μ ρ) : List μ := w.answers ++ w.hand.toList ++ w.queue

@[simp] theorem messages_idle : (idle : Worker μ ρ).messages = [] := rfl

@[simp] theorem messages_put : (w.put m).messages = w.messages ++ [m] :=
  (List.append_assoc _ _ _).symm

theorem Step.messages (h : Step again hungUp w w') : w'.messages = w.messages := by
  cases h with
  | take hlive hhand hqueue =>
    unfold Worker.messages
    rw [hhand, hqueue]
    simp [answers]
  | again hhand hr => rfl
  | answer hhand hr =>
    unfold Worker.messages
    rw [hhand]
    simp [answers]
  | finish hlive hhand hqueue hsender => rfl

theorem Step.enqueued (h : Step again hungUp w w') : w'.enqueued = w.enqueued := by
  cases h <;> rfl

theorem Step.length_queue_le (h : Step again hungUp w w') : w'.queue.length ≤ w.queue.length := by
  cases h with
  | take hlive hhand hqueue =>
    rw [hqueue, List.length_cons]
    exact Nat.le_succ _
  | again => exact Nat.le_refl _
  | answer => exact Nat.le_refl _
  | finish => exact Nat.le_refl _

theorem Step.ended (h : Step again hungUp w w') (hended : w.ended = true) : w'.ended = true := by
  cases h with
  | take => exact hended
  | again => exact hended
  | answer => exact hended
  | finish => rfl

structure Valid (capacity : ℕ) (w : Worker μ ρ) : Prop where
  inOrder : w.messages = w.enqueued
  bounded : w.queue.length ≤ capacity
  drained : w.ended = true → w.hand = none ∧ w.queue = []

theorem valid_idle : (idle : Worker μ ρ).Valid capacity :=
  ⟨rfl, Nat.zero_le _, fun h => absurd h Bool.false_ne_true⟩

theorem Valid.put (h : w.Valid capacity) (hroom : w.accepts capacity = true) :
    (w.put m).Valid capacity := by
  obtain ⟨hlive, hlen⟩ := Bool.and_eq_true_iff.mp hroom
  have hlen := of_decide_eq_true hlen
  refine ⟨?_, ?_, fun hended => ?_⟩
  · rw [messages_put, h.inOrder]
    rfl
  · show (w.queue ++ [m]).length ≤ capacity
    rw [List.length_append, List.length_singleton]
    exact hlen
  · rw [show w.ended = true from hended] at hlive
    cases hlive

theorem Valid.step (h : w.Valid capacity) (hstep : Step again hungUp w w') :
    w'.Valid capacity := by
  have horder : w'.messages = w'.enqueued := by
    rw [hstep.messages, hstep.enqueued, h.inOrder]
  cases hstep with
  | @take m rest hlive hhand hqueue =>
    refine ⟨horder, ?_, fun hended => absurd (hlive.symm.trans hended) Bool.false_ne_true⟩
    have hlen := h.bounded
    rw [hqueue, List.length_cons] at hlen
    exact Nat.le_of_succ_le hlen
  | again hhand hr => exact h
  | answer hhand hr =>
    refine ⟨horder, h.bounded, fun hended => ?_⟩
    rw [(h.drained hended).1] at hhand
    cases hhand
  | finish hlive hhand hqueue hsender => exact ⟨horder, h.bounded, fun _ => ⟨hhand, hqueue⟩⟩

theorem Valid.live (h : w.Valid capacity) (hqueue : w.queue ≠ []) : w.ended = false := by
  by_contra hended
  exact hqueue (h.drained ((Bool.not_eq_false _).mp hended)).2

/-- A worker that ended has answered everything, in order. -/
theorem Valid.answers_of_ended (h : w.Valid capacity) (hended : w.ended = true) :
    w.answers = w.enqueued := by
  obtain ⟨hhand, hqueue⟩ := h.drained hended
  rw [← h.inOrder]
  unfold messages
  rw [hhand, hqueue]
  simp

/-- The messages that have left the channel. -/
def taken (w : Worker μ ρ) : List μ := w.answers ++ w.hand.toList

theorem length_taken : w.taken.length = w.answered.length + w.hand.toList.length := by
  unfold taken answers
  rw [List.length_append, List.length_map]

theorem length_taken_of_none (hhand : w.hand = none) : w.taken.length = w.answered.length := by
  rw [length_taken, hhand]
  rfl

theorem length_messages : w.messages.length = w.taken.length + w.queue.length :=
  List.length_append

theorem Valid.length_answered (h : w.Valid capacity) (hhand : w.hand = none)
    (hqueue : w.queue = []) : w.enqueued.length = w.answered.length := by
  rw [← h.inOrder, length_messages, length_taken_of_none hhand, hqueue]
  rfl

theorem Valid.idle_of_le (h : w.Valid capacity) (hle : w.enqueued.length ≤ w.answered.length) :
    w.hand = none ∧ w.queue = [] := by
  rw [← h.inOrder, length_messages, length_taken] at hle
  refine ⟨Option.toList_eq_nil_iff.mp (List.length_eq_zero_iff.mp ?_),
    List.length_eq_zero_iff.mp ?_⟩ <;> omega

/-- Without an answer are at most the queue and the message in hand. -/
theorem Valid.length_messages_le (h : w.Valid capacity) :
    w.messages.length ≤ w.answers.length + (capacity + 1) := by
  have hhand : w.hand.toList.length ≤ 1 := Option.length_toList_le
  have hqueue := h.bounded
  unfold messages
  rw [List.length_append, List.length_append]
  omega

/-- What is sent earlier is answered earlier. -/
theorem Valid.mem_answers {n : ℕ} (h : w.Valid capacity) (hm : w.enqueued[n]? = some m)
    (hn : n < w.answered.length) : m ∈ w.answers := by
  rw [← h.inOrder] at hm
  unfold messages at hm
  rw [List.append_assoc, List.getElem?_append_left (by unfold answers; rwa [List.length_map])] at hm
  exact List.mem_of_getElem? hm

/-- While a message has no answer, the worker holds one or has one queued, and has not ended. -/
theorem Valid.busy {n : ℕ} (h : w.Valid capacity) (hm : w.enqueued[n]? = some m)
    (hn : w.answered.length ≤ n) : w.hand ≠ none ∨ (w.queue ≠ [] ∧ w.ended = false) := by
  by_contra hidle
  push Not at hidle
  obtain ⟨hhand, hidle⟩ := hidle
  have hqueue : w.queue = [] := by
    by_contra hqueue
    exact hidle hqueue (h.live hqueue)
  have hlen := (List.getElem?_eq_some_iff.mp hm).1
  rw [← h.inOrder] at hlen
  unfold messages answers at hlen
  rw [hhand, hqueue] at hlen
  simp at hlen
  omega

/-- `w'` is what the worker has become: nothing that was sent or answered is forgotten. -/
structure Later (w w' : Worker μ ρ) : Prop where
  enqueued : w.enqueued <+: w'.enqueued
  answered : w.answered <+: w'.answered

theorem Later.refl (w : Worker μ ρ) : w.Later w := ⟨List.prefix_rfl, List.prefix_rfl⟩

theorem Later.trans {w'' : Worker μ ρ} (h : w.Later w') (h' : w'.Later w'') : w.Later w'' :=
  ⟨h.enqueued.trans h'.enqueued, h.answered.trans h'.answered⟩

theorem later_put (w : Worker μ ρ) (m : μ) : w.Later (w.put m) :=
  ⟨List.prefix_append _ _, List.prefix_rfl⟩

theorem Step.later (h : Step again hungUp w w') : w.Later w' := by
  refine ⟨h.enqueued ▸ List.prefix_rfl, ?_⟩
  cases h with
  | take => exact List.prefix_rfl
  | again => exact List.prefix_rfl
  | answer => exact List.prefix_append _ _
  | finish => exact List.prefix_rfl

theorem Valid.run (h : w.Valid capacity)
    (hrun : Relation.ReflTransGen (Step again hungUp) w w') :
    w'.Valid capacity ∧ w'.enqueued = w.enqueued := by
  induction hrun with
  | refl => exact ⟨h, rfl⟩
  | tail _ hstep ih => exact ⟨ih.1.step hstep, hstep.enqueued.trans ih.2⟩

/-- A worker that has not ended can go on until its channel takes a message. -/
theorem Valid.makes_room (hr : again r = false) (h : w.Valid capacity) (hcapacity : 0 < capacity)
    (hlive : w.ended = false) (hungUp : Bool) :
    ∃ w', Relation.ReflTransGen (Step again hungUp) w w' ∧ w'.accepts capacity = true := by
  cases hqueue : w.queue with
  | nil =>
    refine ⟨w, .refl, ?_⟩
    unfold accepts
    rw [hlive, hqueue, List.length_nil, decide_eq_true hcapacity]
    rfl
  | cons m rest =>
    have hroom : rest.length < capacity := by
      have hbounded := h.bounded
      rw [hqueue, List.length_cons] at hbounded
      exact hbounded
    have haccepts : ∀ answered : List (μ × ρ), accepts capacity
        { w with queue := rest, hand := some m, answered } = true := by
      intro answered
      unfold accepts
      rw [hlive, decide_eq_true hroom]
      rfl
    cases hhand : w.hand with
    | none => exact ⟨_, .single (.take hlive hhand hqueue), haccepts w.answered⟩
    | some m' =>
      exact ⟨_, .head (.answer hhand hr) (.single (.take hlive rfl hqueue)), haccepts _⟩

/-- Without a sender, an idle worker can answer its queue and end. -/
theorem exists_run_of_queue (hr : again r = false) (queue : List μ) (hlive : w.ended = false)
    (hhand : w.hand = none) (hqueue : w.queue = queue) :
    ∃ w', Relation.ReflTransGen (Step again true) w w' ∧ w'.ended = true := by
  induction queue generalizing w with
  | nil => exact ⟨_, .single (.finish hlive hhand hqueue rfl), rfl⟩
  | cons m rest ih =>
    have hrun : Relation.ReflTransGen (Step again true) w { w with
        queue := rest, hand := none, answered := w.answered ++ [(m, r)] } :=
      .head (.take hlive hhand hqueue) (.single (.answer rfl hr))
    obtain ⟨w', hrun', hended⟩ := ih (w := { w with
      queue := rest, hand := none, answered := w.answered ++ [(m, r)] }) hlive rfl rfl
    exact ⟨w', hrun.trans hrun', hended⟩

/-- Whatever is queued when the sender goes away can still be answered. -/
theorem Valid.drains (hr : again r = false) (h : w.Valid capacity) :
    ∃ w', Relation.ReflTransGen (Step again true) w w' ∧ w'.ended = true ∧
      w'.answers = w.enqueued := by
  have hends : ∃ w', Relation.ReflTransGen (Step again true) w w' ∧ w'.ended = true := by
    cases hlive : w.ended with
    | true => exact ⟨w, .refl, hlive⟩
    | false =>
      cases hhand : w.hand with
      | none => exact exists_run_of_queue hr w.queue hlive hhand rfl
      | some m =>
        obtain ⟨w', hrun, hended⟩ := exists_run_of_queue hr w.queue
          (w := { w with hand := none, answered := w.answered ++ [(m, r)] }) hlive rfl rfl
        exact ⟨w', .head (.answer hhand hr) hrun, hended⟩
  obtain ⟨w', hrun, hended⟩ := hends
  obtain ⟨hvalid, henqueued⟩ := h.run hrun
  exact ⟨w', hrun, hended, (hvalid.answers_of_ended hended).trans henqueued⟩

end Worker

/-! ## Several workers -/

/-- Exchanging an element of a list, up to order. -/
theorem perm_flatMap_set {α β : Type} {l : List α} {k : ℕ} {a b : α} {f : α → List β}
    (extra : List β) (hk : l[k]? = some a) (hab : (f b).Perm (extra ++ f a)) :
    ((l.set k b).flatMap f).Perm (extra ++ l.flatMap f) := by
  obtain ⟨hlt, rfl⟩ := List.getElem?_eq_some_iff.mp hk
  have hsplit : l = l.take k ++ l[k] :: l.drop (k + 1) := by
    rw [← List.drop_eq_getElem_cons hlt, List.take_append_drop]
  rw [List.set_eq_take_append_cons_drop, if_pos hlt]
  conv_rhs => rw [hsplit]
  simp only [List.flatMap_append, List.flatMap_cons]
  refine ((hab.append_right _).append_left _).trans ?_
  rw [List.append_assoc]
  exact List.perm_append_comm_assoc _ _ _

namespace Worker

variable {ws : List (Worker μ ρ)} {w w' : Worker μ ρ} {k : ℕ} {m : μ} {again : ρ → Bool}
  {hungUp : Bool}

theorem perm_messages_put (hk : ws[k]? = some w) :
    ((ws.set k (w.put m)).flatMap messages).Perm (m :: ws.flatMap messages) := by
  apply perm_flatMap_set [m] hk
  rw [messages_put]
  exact List.perm_append_comm

/-- A step of a worker leaves every message in one place. -/
theorem perm_messages_step (hk : ws[k]? = some w) (hstep : Step again hungUp w w') :
    ((ws.set k w').flatMap messages).Perm (ws.flatMap messages) := by
  apply perm_flatMap_set [] hk
  rw [hstep.messages]
  exact .refl _

theorem length_messages_le (h : ∀ w ∈ ws, w.Valid capacity) :
    (ws.flatMap messages).length ≤ (ws.flatMap answers).length + ws.length * (capacity + 1) := by
  induction ws with
  | nil => exact Nat.zero_le _
  | cons w ws ih =>
    have hw := (h w List.mem_cons_self).length_messages_le
    have hws := ih fun w' hw' => h w' (List.mem_cons_of_mem w hw')
    simp only [List.flatMap_cons, List.length_append, List.length_cons, Nat.add_mul, Nat.one_mul]
    omega

theorem perm_enqueued_put (hk : ws[k]? = some w) :
    ((ws.set k (w.put m)).flatMap enqueued).Perm (m :: ws.flatMap enqueued) := by
  apply perm_flatMap_set [m] hk
  exact List.perm_append_comm

theorem perm_enqueued_step (hk : ws[k]? = some w) (hstep : Step again hungUp w w') :
    ((ws.set k w').flatMap enqueued).Perm (ws.flatMap enqueued) := by
  apply perm_flatMap_set [] hk
  rw [hstep.enqueued]
  exact .refl _

end Worker

end TpsBench.Lib
