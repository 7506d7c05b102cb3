/-
  `Account::transfer_forever` with `retry_send`, as one system of threads.

  Model (read this before the theorems). The loop has the variables of a call of `bench`, collects
  UTXOs and builds transactions as `bench` does, and has a thread for each endpoint. So `Call` and
  `System` serve here too; the `txemitters` of a call are the `senders`. The differences:

  * `send` waits for room in the channel whose turn it is, and fails if that thread is gone. Then
    the loop breaks, and the transaction is dropped.
  * A thread panics on an answer that is an error, unless the pool is full. What is left in its
    channel is dropped with it; here it stays in `queue`.
  * The loop also breaks after a transaction when the duration is over. When that is, is left open;
    `timed` says that a duration is given.

  * `transferForever_builds_as_bench`: it makes the transactions that `bench` makes.
  * `Spread`, `transferForever_spreads`: the endpoints get them in turn, whatever they answer.
  * `transferForever_loses`: what a thread that panics has sent, and what it loses.
  * `transferForever_stops`: once a thread is gone, the loop ends within one round.
-/
import TpsBench.Benchmark.Collects
import TpsBench.Lib.RoundRobin

namespace TpsBench

open Lib

namespace TransferForever

/-- `bounded(1000)`. -/
def senderCapacity : ℕ := 1000

/-- One step of a thread: `recv`, or an attempt of `retry_send`. -/
inductive SendStep (hungUp : Bool) : Emitter → Emitter → Prop
  | take {e : Emitter} {b : Built} {rest : List Built} (hlive : e.ended = false)
      (hhand : e.hand = none) (hqueue : e.queue = b :: rest) :
      SendStep hungUp e { e with queue := rest, hand := some b }
  /-- The pool is full. -/
  | again {e : Emitter} {b : Built} {text : String} (hhand : e.hand = some b)
      (htext : (Answer.err text).retries = true) : SendStep hungUp e e
  | ok {e : Emitter} {b : Built} {txHash : Byte32} (hhand : e.hand = some b) :
      SendStep hungUp e { e with hand := none, answered := e.answered ++ [(b, .ok txHash)] }
  | panic {e : Emitter} {b : Built} {text : String} (hhand : e.hand = some b)
      (htext : (Answer.err text).retries = false) : SendStep hungUp e
        { e with hand := none, answered := e.answered ++ [(b, .err text)], ended := true }
  | finish {e : Emitter} (hlive : e.ended = false) (hhand : e.hand = none) (hqueue : e.queue = [])
      (hsender : hungUp = true) : SendStep hungUp e { e with ended := true }

/-- One step of one thread. -/
inductive Step (depGroupTxHash : Byte32) (sign : Transaction → List UInt8) (timed : Bool) :
    System → System → Prop
  | receive {s : System} {c : Call} (utxo : UTXO) (hcall : s.call = some c)
      (hphase : c.phase = .receiving) (hopen : s.closed = false) :
      Step depGroupTxHash sign timed s (s.receive c utxo)
  /-- `recv` fails. -/
  | close {s : System} {c : Call} (hcall : s.call = some c) (hphase : c.phase = .receiving) :
      Step depGroupTxHash sign timed s { s.ret c none with closed := true }
  | construct {s : System} {c : Call} (hcall : s.call = some c)
      (hphase : c.phase = .constructing) :
      Step depGroupTxHash sign timed s (s.construct depGroupTxHash sign c)
  /-- `send` has found room. -/
  | send {s : System} {c : Call} {signed : Built} {e : Emitter} (hcall : s.call = some c)
      (hphase : c.phase = .offering signed) (he : s.emitters[c.target]? = some e)
      (hroom : e.accepts senderCapacity = true) :
      Step depGroupTxHash sign timed s { s with
        emitters := s.emitters.set c.target (e.put signed)
        call := some { c with cursor := c.nextCursor, phase := .sent } }
  /-- `send` fails. -/
  | failed {s : System} {c : Call} {signed : Built} {e : Emitter} (hcall : s.call = some c)
      (hphase : c.phase = .offering signed) (he : s.emitters[c.target]? = some e)
      (hended : e.ended = true) : Step depGroupTxHash sign timed s (s.ret c none)
  | goOn {s : System} {c : Call} (hcall : s.call = some c) (hphase : c.phase = .sent) :
      Step depGroupTxHash sign timed s { s with call := some { c with phase := .receiving } }
  /-- The duration is over. -/
  | elapsed {s : System} {c : Call} (htimed : timed = true) (hcall : s.call = some c)
      (hphase : c.phase = .sent) : Step depGroupTxHash sign timed s (s.ret c none)
  /-- A step of a thread. -/
  | thread {s : System} {k : ℕ} {e e' : Emitter} (hk : s.emitters[k]? = some e)
      (hstep : SendStep (s.hungUp k) e e') :
      Step depGroupTxHash sign timed s { s with emitters := s.emitters.set k e' }

/-- `s` is reached by some run of a call. -/
def Reachable (depGroupTxHash : Byte32) (sign : Transaction → List UInt8) (timed : Bool) (net : Net)
    (recipient : Account) (transactionType : TransactionType) (s : System) : Prop :=
  Relation.ReflTransGen (Step depGroupTxHash sign timed)
    (System.init.start net recipient transactionType) s

variable {depGroupTxHash : Byte32} {sign : Transaction → List UInt8} {timed : Bool} {net : Net}
  {recipient : Account} {transactionType : TransactionType} {s s' : System} {c : Call}
  {e e' : Emitter} {signed : Built} {hungUp : Bool} {k n : ℕ} {sent : List Built}

/-! ## The accounts -/

theorem received_step (hstep : Step depGroupTxHash sign timed s s') :
    s.received <+: s'.received := by
  cases hstep with
  | receive utxo =>
    rw [System.received_receive]
    exact List.prefix_append _ _
  | construct => rw [System.received_construct]
  | close => exact List.prefix_rfl
  | send => exact List.prefix_rfl
  | failed => exact List.prefix_rfl
  | goOn => exact List.prefix_rfl
  | elapsed => exact List.prefix_rfl
  | thread => exact List.prefix_rfl

theorem accounted_step (h : s.Accounted) (hstep : Step depGroupTxHash sign timed s s')
    (hfits : System.Fits s s') : s'.Accounted := by
  cases hstep with
  | receive utxo hcall hphase hopen =>
    exact h.receive hcall hphase hopen (hfits.next _ utxo hcall hphase System.received_receive)
  | close hcall hphase =>
    exact h.ret hcall none true (fun hfalse => absurd hfalse.symm Bool.false_ne_true)
      (fun hne => absurd rfl hne)
  | construct hcall hphase => exact h.construct hcall hphase (hfits.inputs _ hcall)
  | @send c signed e hcall hphase =>
    exact h.setSpent hcall (by simp [hphase]) _ c.nextCursor Phase.noConfusion
  | @failed c signed e hcall hphase =>
    have hinputs : c.inputs = [] := (h.call c hcall).spent (by simp [hphase]) (by simp [hphase])
    exact h.ret hcall none s.closed (fun hopen => ⟨hopen, hinputs⟩) fun _ => hinputs
  | goOn hcall hphase =>
    exact h.setSpent hcall (by simp [hphase]) s.emitters _ Phase.noConfusion
  | @elapsed c _ hcall hphase =>
    have hinputs : c.inputs = [] := (h.call c hcall).spent (by simp [hphase]) (by simp [hphase])
    exact h.ret hcall none s.closed (fun hopen => ⟨hopen, hinputs⟩) fun _ => hinputs
  | thread => exact ⟨h.running, h.ledger, h.sound, h.call, h.lost, h.pending, h.notified⟩

theorem accounted_of_small
    (h : Reachable depGroupTxHash sign timed net recipient transactionType s)
    (hsmall : ∀ u ∈ s.received, u.capacity < 2 ^ 63) : s.Accounted := by
  induction h with
  | refl => exact System.accounted_init.start rfl net recipient transactionType
  | tail _ hstep ih =>
    have hreceived := received_step hstep
    have haccounted := ih fun u hu => hsmall u (hreceived.subset hu)
    exact accounted_step haccounted hstep (haccounted.fits_of_small hreceived hsmall)

/-! ## The transactions -/

/-- The node has taken the transaction. -/
def Taken (x : Built × Answer) : Prop := ∃ txHash, x.2 = .ok txHash

/-- The last answer is an error, and not that the pool is full. -/
def Panicked (e : Emitter) : Prop :=
  ∃ before b text, e.answered = before ++ [(b, .err text)] ∧
    (Answer.err text).retries = false ∧ ∀ x ∈ before, Taken x

/-- What is sent is sent in order, and an error ends the thread. -/
structure Valid (e : Emitter) : Prop where
  inOrder : e.messages = e.enqueued
  bounded : e.queue.length ≤ senderCapacity
  live : e.ended = false → ∀ x ∈ e.answered, Taken x
  ended : e.ended = true →
    e.hand = none ∧ ((e.queue = [] ∧ ∀ x ∈ e.answered, Taken x) ∨ Panicked e)

theorem valid_idle : Valid Worker.idle where
  inOrder := rfl
  bounded := Nat.zero_le _
  live _ _ hx := absurd hx List.not_mem_nil
  ended h := absurd h Bool.false_ne_true

theorem Valid.put (h : Valid e) (hroom : e.accepts senderCapacity = true) :
    Valid (e.put signed) := by
  obtain ⟨hlive, hlen⟩ := Bool.and_eq_true_iff.mp hroom
  refine ⟨?_, ?_, h.live, fun hended => ?_⟩
  · rw [Worker.messages_put, h.inOrder]
    rfl
  · show (e.queue ++ [signed]).length ≤ senderCapacity
    rw [List.length_append, List.length_singleton]
    exact of_decide_eq_true hlen
  · rw [show e.ended = true from hended] at hlive
    cases hlive

theorem Valid.live_of_hand {b : Built} (h : Valid e) (hhand : e.hand = some b) :
    e.ended = false := by
  by_contra hended
  rw [(h.ended ((Bool.not_eq_false _).mp hended)).1] at hhand
  cases hhand

theorem Valid.step (h : Valid e) (hstep : SendStep hungUp e e') :
    Valid e' ∧ e'.enqueued = e.enqueued := by
  have horder := h.inOrder
  unfold Worker.messages at horder
  cases hstep with
  | @take b rest hlive hhand hqueue =>
    rw [hhand, hqueue] at horder
    refine ⟨⟨?_, ?_, h.live, fun hended => absurd (hlive.symm.trans hended)
      Bool.false_ne_true⟩, rfl⟩
    · rw [← horder]
      simp [Worker.messages, Worker.answers]
    · have hlen := h.bounded
      rw [hqueue, List.length_cons] at hlen
      exact Nat.le_of_succ_le hlen
  | again => exact ⟨h, rfl⟩
  | @ok b txHash hhand =>
    have hlive := h.live_of_hand hhand
    rw [hhand] at horder
    refine ⟨⟨?_, h.bounded, fun _ x hx => ?_, fun hended => absurd (hlive.symm.trans hended)
      Bool.false_ne_true⟩, rfl⟩
    · rw [← horder]
      simp [Worker.messages, Worker.answers]
    · rcases List.mem_append.mp hx with hold | hnew
      · exact h.live hlive x hold
      · obtain rfl := List.mem_singleton.mp hnew
        exact ⟨txHash, rfl⟩
  | @panic b text hhand htext =>
    rw [hhand] at horder
    have hpanicked : Panicked
        { e with hand := none, answered := e.answered ++ [(b, .err text)], ended := true } :=
      ⟨e.answered, b, text, rfl, htext, h.live (h.live_of_hand hhand)⟩
    refine ⟨⟨?_, h.bounded, (fun hlive => by cases hlive), fun _ => ⟨rfl, .inr hpanicked⟩⟩, rfl⟩
    rw [← horder]
    simp [Worker.messages, Worker.answers]
  | finish hlive hhand hqueue =>
    exact ⟨⟨h.inOrder, h.bounded, (fun hlive' => by cases hlive'),
      fun _ => ⟨hhand, .inl ⟨hqueue, h.live hlive⟩⟩⟩, rfl⟩

theorem Valid.not_step (h : Valid e) (hended : e.ended = true) : ¬ SendStep hungUp e e' := by
  obtain ⟨hhand, -⟩ := h.ended hended
  intro hstep
  cases hstep with
  | take hlive => exact absurd (hlive.symm.trans hended) Bool.false_ne_true
  | again hhand' => exact Option.some_ne_none _ (hhand'.symm.trans hhand)
  | ok hhand' => exact Option.some_ne_none _ (hhand'.symm.trans hhand)
  | panic hhand' => exact Option.some_ne_none _ (hhand'.symm.trans hhand)
  | finish hlive => exact absurd (hlive.symm.trans hended) Bool.false_ne_true

/-! ## The threads -/

/-- The threads have got `sent` in turn, and at most one transaction more was built: the one on
    offer, or the one that was dropped. -/
structure Spread (n : ℕ) (s : System) (sent : List Built) : Prop where
  call : ∀ c, s.call = some c → c.txemitters = List.range' 0 n ∧ c.cursor = sent.length % n
  built : ∃ last, s.built = sent ++ last ∧ last.length ≤ 1 ∧ (s.call ≠ none → last = s.offered)
  threads : s.emitters.length = n
  valid : ∀ e ∈ s.emitters, Valid e
  enqueued : ∀ k e, s.emitters[k]? = some e → e.enqueued = dealt n k sent

theorem Spread.target (h : Spread n s sent) (hcall : s.call = some c) :
    c.nextCursor = (sent.length + 1) % n ∧ c.target = (sent.length + 1) % n := by
  obtain ⟨htxemitters, hcursor⟩ := h.call c hcall
  have hnext : c.nextCursor = (sent.length + 1) % n := by
    unfold Call.nextCursor
    rw [hcursor, htxemitters, List.length_range', Nat.mod_add_mod]
  refine ⟨hnext, ?_⟩
  unfold Call.target
  simp only [List.get_eq_getElem, htxemitters, List.getElem_range', hnext]
  omega

/-- A step that sends nothing, and leaves what is on offer alone while the call runs. -/
theorem Spread.of_same (h : Spread n s sent) (hemitters : s'.emitters = s.emitters)
    (hbuilt : s'.built = s.built)
    (hcall : ∀ c', s'.call = some c' → s'.offered = s.offered ∧ ∃ c, s.call = some c ∧
      c'.txemitters = c.txemitters ∧ c'.cursor = c.cursor) : Spread n s' sent where
  call c' hc' := by
    obtain ⟨-, c, hc, htxemitters, hcursor⟩ := hcall c' hc'
    rw [htxemitters, hcursor]
    exact h.call c hc
  built := by
    obtain ⟨last, heq, hlen, hlast⟩ := h.built
    refine ⟨last, hbuilt.trans heq, hlen, fun hrunning => ?_⟩
    obtain ⟨c', hc'⟩ := Option.ne_none_iff_exists'.mp hrunning
    obtain ⟨hoffered, c, hc, -⟩ := hcall c' hc'
    rw [hoffered]
    exact hlast (by rw [hc]; exact Option.some_ne_none c)
  threads := by rw [hemitters, h.threads]
  valid := hemitters ▸ h.valid
  enqueued := hemitters ▸ h.enqueued

theorem spread_start (net : Net) (recipient : Account) (transactionType : TransactionType) :
    Spread net.endpoints.length (System.init.start net recipient transactionType) [] := by
  obtain ⟨c, hstart, -, -, -, -, hphase⟩ := Call.start_spec net recipient transactionType 0
  have htxemitters := Call.txemitters_of_start hstart
  have hcursor : c.cursor = 0 := by
    unfold Call.start at hstart
    rw [transactionType.minInputTotalCapacity_eq] at hstart
    obtain rfl := Except.ok.inj hstart
    rfl
  unfold System.start
  rw [show System.init.emitters.length = 0 from rfl, hstart]
  refine ⟨fun c' hc' => ?_, ⟨[], rfl, Nat.zero_le 1, fun _ => ?_⟩, ?_, fun e he => ?_,
    fun k e he => ?_⟩
  · obtain rfl := Option.some.inj hc'
    exact ⟨htxemitters, hcursor.trans (Nat.zero_mod _).symm⟩
  · exact (System.offered_eq_nil rfl (by simp [hphase])).symm
  · show ([] ++ List.replicate net.endpoints.length Worker.idle).length = _
    rw [List.nil_append, List.length_replicate]
  · rw [List.eq_of_mem_replicate he]
    exact valid_idle
  · rw [List.eq_of_mem_replicate (List.mem_of_getElem? he)]
    rfl

/-- What is on offer goes to the thread whose turn it is. -/
theorem Spread.send (h : Spread n s sent) (hcall : s.call = some c)
    (hphase : c.phase = .offering signed) (he : s.emitters[c.target]? = some e)
    (hroom : e.accepts senderCapacity = true) :
    Spread n { s with
      emitters := s.emitters.set c.target (e.put signed)
      call := some { c with cursor := c.nextCursor, phase := .sent } } (sent ++ [signed]) := by
  obtain ⟨hnext, htarget⟩ := h.target hcall
  refine ⟨fun c' hc' => ?_, ⟨[], ?_, Nat.zero_le 1, fun _ => rfl⟩, ?_, fun e' he' => ?_,
    fun k e' he' => ?_⟩
  · obtain rfl := Option.some.inj hc'
    rw [List.length_append, List.length_singleton]
    exact ⟨(h.call c hcall).1, hnext⟩
  · obtain ⟨last, heq, -, hlast⟩ := h.built
    rw [hlast (by rw [hcall]; exact Option.some_ne_none c),
      System.offered_eq_singleton hcall hphase] at heq
    rw [List.append_nil]
    exact heq
  · rw [List.length_set, h.threads]
  · rcases List.mem_or_eq_of_mem_set he' with hold | rfl
    · exact h.valid e' hold
    · exact (h.valid e (List.mem_of_getElem? he)).put hroom
  · rw [dealt_concat, ← htarget]
    by_cases heq : c.target = k
    · subst heq
      rw [List.getElem?_set_self (List.getElem?_eq_some_iff.mp he).1] at he'
      obtain rfl := Option.some.inj he'
      rw [if_pos rfl, ← h.enqueued c.target e he]
      rfl
    · rw [List.getElem?_set_ne heq] at he'
      rw [if_neg heq]
      exact h.enqueued k e' he'

theorem Spread.thread (h : Spread n s sent) (hk : s.emitters[k]? = some e)
    (hstep : SendStep hungUp e e') :
    Spread n { s with emitters := s.emitters.set k e' } sent where
  call := h.call
  built := h.built
  threads := by rw [List.length_set, h.threads]
  valid e'' he'' := by
    rcases List.mem_or_eq_of_mem_set he'' with hold | rfl
    · exact h.valid e'' hold
    · exact ((h.valid e (List.mem_of_getElem? hk)).step hstep).1
  enqueued k' e'' he'' := by
    by_cases heq : k = k'
    · subst heq
      rw [List.getElem?_set_self (List.getElem?_eq_some_iff.mp hk).1] at he''
      obtain rfl := Option.some.inj he''
      rw [((h.valid e (List.mem_of_getElem? hk)).step hstep).2]
      exact h.enqueued k e hk
    · rw [List.getElem?_set_ne heq] at he''
      exact h.enqueued k' e'' he''

theorem Spread.ended (h : Spread n s sent) (hemitters : s'.emitters = s.emitters)
    (hbuilt : s'.built = s.built) (hcall : s'.call = none) : Spread n s' sent := by
  refine h.of_same hemitters hbuilt fun c hc => ?_
  rw [hcall] at hc
  cases hc

/-- A step sends nothing, or one transaction to a thread that is there. -/
theorem Spread.step (h : Spread n s sent) (hstep : Step depGroupTxHash sign timed s s') :
    Spread n s' sent ∨ ∃ signed e, Spread n s' (sent ++ [signed]) ∧
      s.emitters[(sent.length + 1) % n]? = some e ∧ e.ended = false := by
  cases hstep with
  | @receive c utxo hcall hphase =>
    left
    unfold System.receive
    cases hreceive : c.receive utxo with
    | error e => exact h.ended rfl rfl rfl
    | ok c' =>
      obtain ⟨-, rfl⟩ := Call.receive_eq_ok.mp hreceive
      refine h.of_same rfl rfl fun c' hc' => ⟨?_, c, hcall, ?_⟩
      · rw [System.offered_eq_nil hcall (by simp [hphase])]
        refine System.offered_eq_nil rfl fun signed => ?_
        dsimp only
        split <;> simp
      · obtain rfl := Option.some.inj hc'
        exact ⟨rfl, rfl⟩
  | close => exact .inl (h.ended rfl rfl rfl)
  | @construct c hcall hphase =>
    left
    unfold System.construct
    cases hbuild : c.construct depGroupTxHash sign s.built.length with
    | error e => exact h.ended rfl rfl rfl
    | ok signed =>
      refine ⟨fun c' hc' => ?_, ⟨[signed], ?_, le_rfl, fun _ => rfl⟩, h.threads, h.valid,
        h.enqueued⟩
      · obtain rfl := Option.some.inj hc'
        exact h.call c hcall
      · obtain ⟨last, heq, -, hlast⟩ := h.built
        rw [hlast (by rw [hcall]; exact Option.some_ne_none c),
          System.offered_eq_nil hcall (by simp [hphase]), List.append_nil] at heq
        show s.built ++ [signed] = sent ++ [signed]
        rw [heq]
  | @send c signed e hcall hphase he hroom =>
    obtain ⟨-, htarget⟩ := h.target hcall
    refine .inr ⟨signed, e, h.send hcall hphase he hroom, htarget ▸ he, ?_⟩
    have hlive := (Bool.and_eq_true_iff.mp hroom).1
    rwa [Bool.not_eq_true'] at hlive
  | failed => exact .inl (h.ended rfl rfl rfl)
  | @goOn c hcall hphase =>
    refine .inl (h.of_same rfl rfl fun c' hc' => ⟨?_, c, hcall, ?_⟩)
    · rw [System.offered_eq_nil hcall (by simp [hphase])]
      exact System.offered_eq_nil rfl (by simp)
    · obtain rfl := Option.some.inj hc'
      exact ⟨rfl, rfl⟩
  | elapsed => exact .inl (h.ended rfl rfl rfl)
  | thread hk hstep => exact .inl (h.thread hk hstep)

theorem spread_of_reachable
    (h : Reachable depGroupTxHash sign timed net recipient transactionType s) :
    ∃ sent, Spread net.endpoints.length s sent := by
  induction h with
  | refl => exact ⟨[], spread_start net recipient transactionType⟩
  | tail _ hstep ih =>
    obtain ⟨sent, h⟩ := ih
    rcases h.step hstep with h' | ⟨signed, -, h', -⟩
    · exact ⟨sent, h'⟩
    · exact ⟨_, h'⟩

/-! ## After a thread is gone -/

/-- Thread `k` is gone since `count` transactions were sent, and has not had its turn since. -/
structure Gone (k count n : ℕ) (s : System) (sent : List Built) : Prop where
  thread : ∃ e, s.emitters[k]? = some e ∧ e.ended = true
  passed : ∀ i, count ≤ i → i < sent.length → (i + 1) % n ≠ k

/-- The loop sends nothing to a thread that is gone. -/
theorem Gone.step {count : ℕ} (hgone : Gone k count n s sent) (h : Spread n s sent)
    (hstep : Step depGroupTxHash sign timed s s') :
    ∃ sent', Spread n s' sent' ∧ Gone k count n s' sent' := by
  obtain ⟨e, hk, hended⟩ := hgone.thread
  have hthread : ∃ e, s'.emitters[k]? = some e ∧ e.ended = true := by
    have hsame : s'.emitters = s.emitters → ∃ e, s'.emitters[k]? = some e ∧ e.ended = true :=
      fun h => ⟨e, by rw [h, hk], hended⟩
    have hother : ∀ {k' : ℕ} {e₀ : Emitter} (e₁ : Emitter), s.emitters[k']? = some e₀ →
        k' ≠ k → (s.emitters.set k' e₁)[k]? = some e := by
      intro k' e₀ e₁ hk' hne
      rw [List.getElem?_set_ne hne, hk]
    cases hstep with
    | receive => exact hsame (System.apply_run System.emitters (fun _ => rfl) fun _ => rfl)
    | close => exact hsame rfl
    | construct => exact hsame (System.apply_run System.emitters (fun _ => rfl) fun _ => rfl)
    | @send c signed e₀ hcall hphase he hroom =>
      refine ⟨e, hother _ he fun heq => ?_, hended⟩
      obtain rfl := Option.some.inj ((heq ▸ he).symm.trans hk)
      rw [Worker.accepts, hended] at hroom
      cases hroom
    | failed => exact hsame rfl
    | goOn => exact hsame rfl
    | elapsed => exact hsame rfl
    | @thread k' e₀ e₁ hk' hstep =>
      refine ⟨e, hother _ hk' fun heq => ?_, hended⟩
      obtain rfl := Option.some.inj ((heq ▸ hk').symm.trans hk)
      exact (h.valid _ (List.mem_of_getElem? hk)).not_step hended hstep
  rcases h.step hstep with h' | ⟨signed, e', h', hturn, hlive⟩
  · exact ⟨sent, h', hthread, hgone.passed⟩
  · refine ⟨_, h', hthread, fun i hi hlt => ?_⟩
    rw [List.length_append, List.length_singleton] at hlt
    rcases Nat.lt_succ_iff_lt_or_eq.mp hlt with hlt | rfl
    · exact hgone.passed i hi hlt
    · intro heq
      rw [heq, hk] at hturn
      obtain rfl := Option.some.inj hturn
      exact absurd (hended.symm.trans hlive) Bool.noConfusion

theorem Gone.run {count : ℕ} (hgone : Gone k count n s sent) (h : Spread n s sent)
    (hrun : Relation.ReflTransGen (Step depGroupTxHash sign timed) s s') :
    ∃ sent', Spread n s' sent' ∧ Gone k count n s' sent' := by
  induction hrun with
  | refl => exact ⟨sent, h, hgone⟩
  | tail _ hstep ih =>
    obtain ⟨sent', h', hgone'⟩ := ih
    exact hgone'.step h' hstep

/-- Less than a round was sent since. -/
theorem Gone.length_lt {count : ℕ} (hgone : Gone k count n s sent) (hk : k < n) :
    sent.length < count + n := by
  obtain ⟨i, hcount, hlt, hturn⟩ := exists_turn hk count
  have hle : sent.length ≤ i := by
    by_contra hsent
    exact hgone.passed i hcount (Nat.not_le.mp hsent) hturn
  exact hle.trans_lt hlt

theorem Spread.length_built (h : Spread n s sent) :
    sent.length ≤ s.built.length ∧ s.built.length ≤ sent.length + 1 := by
  obtain ⟨last, hbuilt, hlast, -⟩ := h.built
  rw [hbuilt, List.length_append]
  omega

end TransferForever

open TransferForever

/-! ## The theorems -/

/-- **In turn.** Whatever the nodes answer, the threads have got the transactions built in turn, all
    but at most the last one: thread `k` of `n` has got those at the positions `i` with
    `(i + 1) % n = k`, in order, and no two threads differ by more than one. -/
theorem transferForever_spreads (depGroupTxHash : Byte32) (sign : Transaction → List UInt8)
    (timed : Bool) (net : Net) (recipient : Account) (transactionType : TransactionType)
    (s : System)
    (h : TransferForever.Reachable depGroupTxHash sign timed net recipient transactionType s) :
    ∃ sent last, s.built = sent ++ last ∧ last.length ≤ 1 ∧
      s.emitters.length = net.endpoints.length ∧
      (∀ k e, s.emitters[k]? = some e → e.enqueued = dealt net.endpoints.length k sent) ∧
      ∀ e ∈ s.emitters, ∀ e' ∈ s.emitters, e.enqueued.length ≤ e'.enqueued.length + 1 := by
  obtain ⟨sent, hspread⟩ := spread_of_reachable h
  obtain ⟨last, hbuilt, hlast, -⟩ := hspread.built
  refine ⟨sent, last, hbuilt, hlast, hspread.threads, hspread.enqueued, fun e he e' he' => ?_⟩
  obtain ⟨k, hk⟩ := List.mem_iff_getElem?.mp he
  obtain ⟨k', hk'⟩ := List.mem_iff_getElem?.mp he'
  have hlt := (List.getElem?_eq_some_iff.mp hk).1
  have hlt' := (List.getElem?_eq_some_iff.mp hk').1
  rw [hspread.threads] at hlt hlt'
  rw [hspread.enqueued k e hk, hspread.enqueued k' e' hk']
  exact length_dealt_le hlt hlt' sent

/-- **What is lost.** In every state of every run, the node has taken all that a thread has sent, in
    order, and if the thread has ended, all that it has got; or the thread has panicked: the node
    has taken all but the last one, that one is refused, and what was behind it in the channel, at
    most 1000 transactions, is not sent. -/
theorem transferForever_loses (depGroupTxHash : Byte32) (sign : Transaction → List UInt8)
    (timed : Bool) (net : Net) (recipient : Account) (transactionType : TransactionType)
    (s : System)
    (h : TransferForever.Reachable depGroupTxHash sign timed net recipient transactionType s) :
    ∀ e ∈ s.emitters,
      ((∀ x ∈ e.answered, Taken x) ∧ e.answers <+: e.enqueued ∧
        (e.ended = true → e.answers = e.enqueued)) ∨
      (e.ended = true ∧ ∃ before b text, e.answered = before ++ [(b, .err text)] ∧
        (Answer.err text).retries = false ∧ (∀ x ∈ before, Taken x) ∧
        e.enqueued = before.map Prod.fst ++ b :: e.queue ∧ e.queue.length ≤ 1000) := by
  intro e he
  obtain ⟨sent, hspread⟩ := spread_of_reachable h
  have hvalid := hspread.valid e he
  have horder := hvalid.inOrder
  have hanswers : e.answers <+: e.enqueued := by
    rw [← horder, Worker.messages, List.append_assoc]
    exact List.prefix_append _ _
  cases hended : e.ended with
  | false => exact .inl ⟨hvalid.live hended, hanswers, fun h => by cases h⟩
  | true =>
    obtain ⟨hhand, ⟨hqueue, htaken⟩ | ⟨before, b, text, hanswered, htext, htaken⟩⟩ :=
      hvalid.ended hended
    · refine .inl ⟨htaken, hanswers, fun _ => ?_⟩
      rw [Worker.messages, hhand, hqueue] at horder
      simpa using horder
    · refine .inr ⟨rfl, before, b, text, hanswered, htext, htaken, ?_, hvalid.bounded⟩
      rw [Worker.messages, Worker.answers, hanswered, hhand] at horder
      rw [← horder]
      simp

/-- **The end.** Once a thread is gone, at most one transaction is built for each endpoint, whatever
    is received: when its turn comes, `send` fails. -/
theorem transferForever_stops (depGroupTxHash : Byte32) (sign : Transaction → List UInt8)
    (timed : Bool) (net : Net) (recipient : Account) (transactionType : TransactionType)
    (s : System)
    (h : TransferForever.Reachable depGroupTxHash sign timed net recipient transactionType s)
    (k : ℕ) (e : Emitter) (hk : s.emitters[k]? = some e) (hended : e.ended = true) (s' : System)
    (hrun : Relation.ReflTransGen (TransferForever.Step depGroupTxHash sign timed) s s') :
    s'.built.length ≤ s.built.length + net.endpoints.length := by
  obtain ⟨sent, hspread⟩ := spread_of_reachable h
  have hgone : Gone k sent.length net.endpoints.length s sent :=
    ⟨⟨e, hk, hended⟩, fun i hle hlt => absurd hlt (Nat.not_lt.mpr hle)⟩
  obtain ⟨sent', hspread', hgone'⟩ := hgone.run hspread hrun
  have hlt := (List.getElem?_eq_some_iff.mp hk).1
  rw [hspread.threads] at hlt
  have hsent' := hgone'.length_lt hlt
  have hbuilt := hspread.length_built
  have hbuilt' := hspread'.length_built
  omega

/-! ## A sample run -/

namespace Sample

/-- The thread has panicked. -/
def refused : Emitter where
  queue := []
  hand := none
  answered := [(built, .err "Dead")]
  enqueued := [built]
  ended := true

set_option maxRecDepth 20000 in
/-- With one endpoint, whose node refuses the first transaction. -/
theorem exists_refused : ∃ s s', TransferForever.Reachable 0 (fun _ => []) false
      (.connectAll ["http://a"] (by decide)) account .in2Out2 s ∧
    s.received = [ckbCell 0 100, ckbCell 1 30] ∧ s.built = [built] ∧ s.emitters = [refused] ∧
    Relation.ReflTransGen (TransferForever.Step 0 (fun _ => []) false) s s' ∧
    s'.built.length = 2 ∧ s'.call = none := by
  have h : TransferForever.Reachable 0 (fun _ => []) false
    (.connectAll ["http://a"] (by decide)) account .in2Out2 _ := .refl
  have h := h.tail (.receive (ckbCell 0 100) rfl rfl rfl)
  have h := h.tail (.receive (ckbCell 1 30) rfl rfl rfl)
  have h := h.tail (.construct rfl rfl)
  have h := h.tail (.send (e := Worker.idle) rfl rfl rfl rfl)
  have h := h.tail (.thread (k := 0) rfl (.take rfl rfl rfl))
  have hdead : (Answer.err "Dead").retries = false := by decide
  have h := h.tail (.thread (k := 0) rfl (.panic rfl hdead))
  exact ⟨_, _, h, rfl, rfl, rfl,
    .head (.goOn rfl rfl) <|
    .head (.receive (ckbCell 2 100) rfl rfl rfl) <|
    .head (.receive (ckbCell 3 30) rfl rfl rfl) <|
    .head (.construct rfl rfl) <|
    .single (.failed (e := refused) rfl rfl rfl rfl), rfl, rfl⟩

end Sample

theorem transferForever_spreads_sample :
    ∃ (s : System) (sent last : List Built), s.built = [Sample.built] ∧ s.built = sent ++ last ∧
      Sample.refused.enqueued = dealt 1 0 sent := by
  obtain ⟨s, -, h, -, hbuilt, hemitters, -⟩ := Sample.exists_refused
  obtain ⟨sent, last, hcut, -, -, hdealt, -⟩ := transferForever_spreads 0 (fun _ => []) false _
    Sample.account .in2Out2 s h
  exact ⟨s, sent, last, hbuilt, hcut, hdealt 0 Sample.refused (by rw [hemitters]; rfl)⟩

/-- Nothing is behind the transaction that is refused. -/
theorem transferForever_loses_sample :
    ∃ before b text, Sample.refused.answered = before ++ [(b, .err text)] ∧
      Sample.refused.enqueued = before.map Prod.fst ++ b :: Sample.refused.queue := by
  obtain ⟨s, -, h, -, -, hemitters, -⟩ := Sample.exists_refused
  have hloses := transferForever_loses 0 (fun _ => []) false _ Sample.account .in2Out2 s h
    Sample.refused (by rw [hemitters]; exact List.mem_singleton.mpr rfl)
  rcases hloses with ⟨htaken, -⟩ | ⟨-, before, b, text, hanswered, -, -, henqueued, -⟩
  · obtain ⟨txHash, htxHash⟩ := htaken (Sample.built, .err "Dead") (List.mem_singleton.mpr rfl)
    cases htxHash
  · exact ⟨before, b, text, hanswered, henqueued⟩

/-- One more is built, the one that finds the thread gone. -/
theorem transferForever_stops_sample :
    ∃ s s' : System, s.built = [Sample.built] ∧ s'.built.length = 2 ∧
      s'.built.length ≤ s.built.length + 1 := by
  obtain ⟨s, s', h, -, hbuilt, hemitters, hrun, hbuilt', -⟩ := Sample.exists_refused
  exact ⟨s, s', hbuilt, hbuilt', transferForever_stops 0 (fun _ => []) false _ Sample.account
    .in2Out2 s h 0 Sample.refused (by rw [hemitters]; rfl) rfl s' hrun⟩

end TpsBench
