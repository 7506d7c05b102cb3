/-
  Endpoints, and programs that query them while their chains move.

  Model (read this before the theorems). `Node T` is what one endpoint would answer at one
  moment: its main chain and which block bodies it serves. `World T` is all endpoints at one
  moment. `History T` gives, for each `t`, the world that the `t`-th RPC call of a run sees.
  Nothing relates `w t` and `w (t + 1)`: chain switches, growth and other clients' actions
  happen between any two calls, also between two calls of one function. A theorem that needs
  less freedom than that says so as a hypothesis on the history.

  `Rpc T α` is a program that makes calls. It reads the history, starts at a call index and
  ends at a later one with a value, or panics. `p.Returns w i a j`: started at index `i`, `p`
  returns `a`, and the next call is number `j`. `returns_bind` and the other `returns_*` lemmas
  take a program apart; no proof unfolds the monad.

  Not modelled: transport errors. Each wrapper in `rpc.rs` panics on one; here every call is
  answered.
-/
import TpsBench.Chain

namespace TpsBench

variable {T : BlockTree}

/-! ## Endpoints -/

/-- A connection to one endpoint. -/
structure Jsonrpc where
  uri : String
  deriving DecidableEq, Repr

/-- A block to mine, as far as the miner loop reads it. -/
structure BlockTemplate where
  workId : ℕ
  number : ℕ
  parentHash : Byte32
  deriving DecidableEq, Repr

/-- An endpoint at one moment. -/
structure Node (T : BlockTree) where
  chain : Chain T
  /-- Which block bodies `get_block` answers for now. -/
  serves : Byte32 → Bool := fun _ => true
  workId : ℕ := 0
  /-- The answer to `submit_block`. -/
  accepts : String → BlockTemplate → Option Byte32 := fun _ _ => none
  /-- The ids of the nodes it is connected to. -/
  peers : List String := []

namespace Node

def getTipBlockNumber (n : Node T) : ℕ := n.chain.tipNumber

def getHeaderByNumber (number : ℕ) (n : Node T) : Option HeaderView := n.chain.header? number

def getBlockByNumber (number : ℕ) (n : Node T) : Option BlockView := n.chain.blocks[number]?

/-- By hash, a node may return any block of the tree, on its main chain or not, or none. -/
def getBlock (hash : Byte32) (n : Node T) : Option BlockView :=
  if n.serves hash then T.block hash else none

/-- A template builds on the tip. -/
def getBlockTemplate (n : Node T) : BlockTemplate :=
  { workId := n.workId
    number := n.chain.tipNumber + 1
    parentHash := ((n.chain.header? n.chain.tipNumber).map HeaderView.hash).getD 0 }

def submitBlock (workId : String) (block : BlockTemplate) (n : Node T) : Option Byte32 :=
  n.accepts workId block

end Node

/-- All endpoints at one moment. -/
abbrev World (T : BlockTree) := Jsonrpc → Node T

/-- The world each RPC call sees, by call number. -/
abbrev History (T : BlockTree) := ℕ → World T

/-- The chain of `rpc` only grows: no reorganization. -/
def Grows (w : History T) (rpc : Jsonrpc) : Prop :=
  ∀ t, (w t rpc).chain.blocks <+: (w (t + 1) rpc).chain.blocks

theorem Grows.prefix_of_le {w : History T} {rpc : Jsonrpc} (h : Grows w rpc) {t t' : ℕ}
    (ht : t ≤ t') : (w t rpc).chain.blocks <+: (w t' rpc).chain.blocks := by
  induction t', ht using Nat.le_induction with
  | base => exact List.prefix_rfl
  | succ n _ ih => exact ih.trans (h n)

theorem Grows.getElem? {w : History T} {rpc : Jsonrpc} (h : Grows w rpc) {t t' n : ℕ}
    (ht : t ≤ t') {b : BlockView} (hb : (w t rpc).chain.blocks[n]? = some b) :
    (w t' rpc).chain.blocks[n]? = some b := by
  obtain ⟨l, hl⟩ := h.prefix_of_le ht
  rw [← hl, List.getElem?_append_left (List.getElem?_eq_some_iff.mp hb).1, hb]

theorem Grows.header? {w : History T} {rpc : Jsonrpc} (h : Grows w rpc) {t t' n : ℕ}
    (ht : t ≤ t') {header : HeaderView} (hh : (w t rpc).chain.header? n = some header) :
    (w t' rpc).chain.header? n = some header := by
  obtain ⟨b, hb, rfl⟩ := Chain.header?_eq_some.mp hh
  exact Chain.header?_eq_some.mpr ⟨b, h.getElem? ht hb, rfl⟩

/-- The blocks up to a height that the chain has do not change. -/
theorem Grows.upTo_blocks {w : History T} {rpc : Jsonrpc} (h : Grows w rpc) {t t' n : ℕ}
    (ht : t ≤ t') (hn : n ≤ (w t rpc).chain.tipNumber) :
    ((w t' rpc).chain.upTo n).blocks = ((w t rpc).chain.upTo n).blocks := by
  obtain ⟨l, hl⟩ := h.prefix_of_le ht
  rw [Chain.upTo_blocks, Chain.upTo_blocks, ← hl,
    List.take_append_of_le_length (by rw [Chain.length_eq]; omega)]

/-- A history in which every endpoint stands at `c`. -/
def History.still (c : Chain T) : History T := fun _ _ => { chain := c }

/-- A history in which each endpoint stands at `c` before call `switchAt` and at `c'` from it
    on. -/
def History.switch (c c' : Chain T) (switchAt : Jsonrpc → ℕ) : History T := fun t rpc =>
  { chain := if t < switchAt rpc then c else c' }

/-- A history in which every endpoint stands at height `tip t` of `c` at call `t`, and accepts what
    is submitted to it. -/
def History.growing (c : Chain T) (tip : ℕ → ℕ) : History T := fun t _ =>
  { chain := c.upTo (tip t), accepts := fun _ _ => some 0 }

theorem grows_growing (c : Chain T) {tip : ℕ → ℕ} (htip : ∀ t, tip t ≤ tip (t + 1))
    (rpc : Jsonrpc) : Grows (.growing c tip) rpc := fun t =>
  List.take_prefix_take_left (Nat.succ_le_succ (htip t))

/-! ## Programs -/

/-- The ways the modelled code panics. -/
inductive Panic where
  /-- `unwrap` on `None`. -/
  | unwrapNone
  /-- `expect` on `None`. -/
  | expectNone (msg : String)
  /-- `unreachable!()`. -/
  | unreachable
  /-- `panic!` with a text. -/
  | text (msg : String)
  /-- `panic!` in `rollback_for_reorg`, whose text shows the old header. -/
  | rollbackForOrg (oldHeader : HeaderView)
  /-- `attempt to add with overflow`. -/
  | addOverflow
  /-- `attempt to subtract with overflow`. -/
  | subOverflow
  /-- `attempt to multiply with overflow`. -/
  | mulOverflow
  /-- `attempt to divide by zero`. -/
  | divideByZero
  /-- `capacity overflow`, when a collection is made. -/
  | capacityOverflow
  deriving DecidableEq, Repr

/-- A program that makes RPC calls: from the history and the number of its first call to a
    value and the number of the next call, or a panic. -/
def Rpc (T : BlockTree) (α : Type) : Type := History T → ℕ → Except Panic (α × ℕ)

namespace Rpc

variable {α β : Type}

instance : Monad (Rpc T) where
  pure a := fun _ i => .ok (a, i)
  bind p f := fun w i =>
    match p w i with
    | .ok (a, j) => f a w j
    | .error e => .error e

/-- One RPC call to `rpc`. -/
def call (rpc : Jsonrpc) (answer : Node T → α) : Rpc T α := fun w i => .ok (answer (w i rpc), i + 1)

/-- Panic. -/
def raise (e : Panic) : Rpc T α := fun _ _ => .error e

/-- The value of an `Option`, or a panic. -/
def unwrapOr (e : Panic) : Option α → Rpc T α
  | some a => pure a
  | none => raise e

/-- A computation without calls. -/
def lift : Except Panic α → Rpc T α
  | .ok a => pure a
  | .error e => raise e

/-- Started at call `i`, `p` returns `a` and the next call is number `j`. -/
def Returns (p : Rpc T α) (w : History T) (i : ℕ) (a : α) (j : ℕ) : Prop := p w i = .ok (a, j)

variable {w : History T} {i j k : ℕ}

theorem Returns.unique {p : Rpc T α} {a b : α} (h : p.Returns w i a j) (h' : p.Returns w i b k) :
    a = b ∧ j = k := by
  have := Except.ok.inj (h.symm.trans h')
  exact Prod.mk.inj this

@[simp] theorem returns_pure {a b : α} :
    (pure a : Rpc T α).Returns w i b j ↔ b = a ∧ j = i := by
  show Except.ok (a, i) = Except.ok (b, j) ↔ _
  rw [Except.ok.injEq, Prod.mk.injEq, eq_comm, @eq_comm _ i]

theorem returns_bind {p : Rpc T α} {f : α → Rpc T β} {b : β} :
    (p >>= f).Returns w i b k ↔ ∃ a j, p.Returns w i a j ∧ (f a).Returns w j b k := by
  show (match p w i with | .ok (a, j) => f a w j | .error e => .error e) = Except.ok (b, k) ↔ _
  unfold Returns
  cases p w i with
  | ok r => exact ⟨fun h => ⟨r.1, r.2, rfl, h⟩, fun ⟨_, _, h, h'⟩ => by cases h; exact h'⟩
  | error e => simp

theorem Returns.bind_eq {p : Rpc T α} {f : α → Rpc T β} {a : α} (h : p.Returns w i a j) :
    (p >>= f) w i = f a w j := by
  show (match p w i with | .ok (a, j) => f a w j | .error e => .error e) = _
  rw [show p w i = .ok (a, j) from h]

/-- A program returns if its first part does and the rest does from there. -/
theorem Returns.exists_bind {p : Rpc T α} {f : α → Rpc T β} {a : α} (h : p.Returns w i a j)
    (h' : ∃ b k, (f a).Returns w j b k) : ∃ b k, (p >>= f).Returns w i b k := by
  obtain ⟨b, k, hb⟩ := h'
  exact ⟨b, k, returns_bind.mpr ⟨a, j, h, hb⟩⟩

@[simp] theorem returns_call {rpc : Jsonrpc} {answer : Node T → α} {a : α} :
    (call rpc answer).Returns w i a j ↔ a = answer (w i rpc) ∧ j = i + 1 := by
  show Except.ok (answer (w i rpc), i + 1) = Except.ok (a, j) ↔ _
  rw [Except.ok.injEq, Prod.mk.injEq, eq_comm, @eq_comm _ (i + 1)]

@[simp] theorem returns_raise {e : Panic} {a : α} : ¬ (raise e : Rpc T α).Returns w i a j := by
  show ¬ Except.error e = Except.ok (a, j)
  simp

@[simp] theorem returns_unwrapOr {e : Panic} {o : Option α} {a : α} :
    (unwrapOr e o : Rpc T α).Returns w i a j ↔ o = some a ∧ j = i := by
  cases o with
  | none => simp [unwrapOr]
  | some b => simp [unwrapOr, eq_comm]

@[simp] theorem returns_lift {r : Except Panic α} {a : α} :
    (lift r : Rpc T α).Returns w i a j ↔ r = .ok a ∧ j = i := by
  cases r with
  | ok b => simp [lift, eq_comm]
  | error e => simp [lift]

end Rpc

/-! ## The calls of `rpc.rs` -/

namespace Jsonrpc

def getTipBlockNumber (rpc : Jsonrpc) : Rpc T ℕ := Rpc.call rpc Node.getTipBlockNumber

def getHeaderByNumber (rpc : Jsonrpc) (number : ℕ) : Rpc T (Option HeaderView) :=
  Rpc.call rpc (Node.getHeaderByNumber number)

def getBlockByNumber (rpc : Jsonrpc) (number : ℕ) : Rpc T (Option BlockView) :=
  Rpc.call rpc (Node.getBlockByNumber number)

def getBlock (rpc : Jsonrpc) (hash : Byte32) : Rpc T (Option BlockView) :=
  Rpc.call rpc (Node.getBlock hash)

def getBlockTemplate (rpc : Jsonrpc) : Rpc T BlockTemplate :=
  Rpc.call rpc Node.getBlockTemplate

def submitBlock (rpc : Jsonrpc) (workId : String) (block : BlockTemplate) :
    Rpc T (Option Byte32) :=
  Rpc.call rpc (Node.submitBlock workId block)

def getPeers (rpc : Jsonrpc) : Rpc T (List String) := Rpc.call rpc Node.peers

variable {w : History T} {i j : ℕ} {rpc : Jsonrpc}

@[simp] theorem returns_getTipBlockNumber {a : ℕ} :
    (rpc.getTipBlockNumber : Rpc T ℕ).Returns w i a j ↔
      a = (w i rpc).chain.tipNumber ∧ j = i + 1 := Rpc.returns_call

@[simp] theorem returns_getHeaderByNumber {number : ℕ} {a : Option HeaderView} :
    (rpc.getHeaderByNumber number : Rpc T _).Returns w i a j ↔
      a = (w i rpc).chain.header? number ∧ j = i + 1 := Rpc.returns_call

@[simp] theorem returns_getBlockByNumber {number : ℕ} {a : Option BlockView} :
    (rpc.getBlockByNumber number : Rpc T _).Returns w i a j ↔
      a = (w i rpc).chain.blocks[number]? ∧ j = i + 1 := Rpc.returns_call

@[simp] theorem returns_getBlock {hash : Byte32} {a : Option BlockView} :
    (rpc.getBlock hash : Rpc T _).Returns w i a j ↔
      a = (w i rpc).getBlock hash ∧ j = i + 1 := Rpc.returns_call

@[simp] theorem returns_getBlockTemplate {a : BlockTemplate} :
    (rpc.getBlockTemplate : Rpc T _).Returns w i a j ↔
      a = (w i rpc).getBlockTemplate ∧ j = i + 1 := Rpc.returns_call

@[simp] theorem returns_submitBlock {workId : String} {block : BlockTemplate}
    {a : Option Byte32} :
    (rpc.submitBlock workId block : Rpc T _).Returns w i a j ↔
      a = (w i rpc).accepts workId block ∧ j = i + 1 := Rpc.returns_call

@[simp] theorem returns_getPeers {a : List String} :
    (rpc.getPeers : Rpc T _).Returns w i a j ↔ a = (w i rpc).peers ∧ j = i + 1 := Rpc.returns_call

end Jsonrpc

/-- A body that a node returns is the block of the tree with the hash asked for. -/
theorem Node.getBlock_eq_some {n : Node T} {hash : Byte32} {b : BlockView}
    (h : n.getBlock hash = some b) : T.block hash = some b := by
  unfold Node.getBlock at h
  split at h
  · exact h
  · exact absurd h (Option.some_ne_none b).symm

end TpsBench
