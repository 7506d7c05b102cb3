/-
  `miner.rs`: one attempt to mine a block.

  The block number is read from the template. What the node says to the submitted block decides
  only between that number and none: the block at that height may by then be another miner's.
-/
import TpsBench.Net

namespace TpsBench

variable {T : BlockTree}

/-- A miner, as far as `generate_block` uses it. -/
structure Miner where
  net : Net

namespace Miner

def generateBlock (miner : Miner) : Rpc T (Option ℕ) := do
  let template ← miner.net.first.getBlockTemplate
  let workId := template.workId
  let blockNumber := template.number
  match ← miner.net.first.submitBlock (toString workId) template with
  | some _ => return some blockNumber
  | none => return none

/-- An attempt takes two calls, and what it returns is the height above the tip at the first. -/
theorem generateBlock_spec {miner : Miner} {w : History T} {i j : ℕ} {r : Option ℕ}
    (h : (miner.generateBlock).Returns w i r j) :
    j = i + 2 ∧ ∀ n, r = some n → n = (w i miner.net.first).chain.tipNumber + 1 := by
  obtain ⟨template, k, hcall, h⟩ := Rpc.returns_bind.mp h
  obtain ⟨rfl, rfl⟩ := Jsonrpc.returns_getBlockTemplate.mp hcall
  obtain ⟨answer, k, hcall, h⟩ := Rpc.returns_bind.mp h
  obtain ⟨-, rfl⟩ := Jsonrpc.returns_submitBlock.mp hcall
  cases answer with
  | none =>
    obtain ⟨rfl, rfl⟩ := Rpc.returns_pure.mp h
    exact ⟨rfl, fun n hn => by cases hn⟩
  | some _ =>
    obtain ⟨rfl, rfl⟩ := Rpc.returns_pure.mp h
    exact ⟨rfl, fun n hn => (Option.some.inj hn).symm⟩

end Miner

end TpsBench
