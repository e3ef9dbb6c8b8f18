import SqlChain.Workers
import SqlChain.Rebuild

/-!
# Heights along the main chain

`processBlocks` checks a block only when its height is the current turn, and
`CheckAndPushNewBlock` skips only the block whose hash is the head's.  A second
block chained on the head within the same turn therefore passes every check,
and the main chain gets two nodes of one height.  The scenario of this module
runs on the committee of §8 of the specification, with the local node `P0`.
-/

namespace SqlChain

/-- Heights strictly decrease up the parent walk of a node. -/
def HeightsIncrease : BlockNode → Prop
  | x :: y :: rest => y.height < x.height ∧ HeightsIncrease (y :: rest)
  | _ => True

instance decHeightsIncrease : DecidablePred HeightsIncrease
  | _ :: y :: rest => @instDecidableAnd _ _ (Int.decLt _ _) (decHeightsIncrease (y :: rest))
  | [] => instDecidableTrue
  | [_] => instDecidableTrue

/-! ## The committee of the scenarios -/

/-- Peers `P0`, `P1`, `P2` with `P0` local and ten-second turns. -/
def committee : RuntimeConfig := ⟨10, by decide, 0, [0, 1, 2], 30, 30⟩

/-- The genesis block, produced by `P0` at time zero. -/
def genesisBlock : Block := ⟨⟨1, 0, Hash.zero, Hash.zero, 0⟩, Hash.ofByte 1, 0, [], [], []⟩

/-- Signatures in which each peer signs with its own identity: a block verifies
when its signer is its producer, and the local key is `P0`'s. -/
def toyCrypto : Crypto where
  verify b := decide (b.signee = b.producer)
  verifyAsGenesis b := decide (b.parentHash = Hash.zero ∧ b.signee = b.producer)
  packAndSign b :=
    { b with hash := Hash.ofByte (UInt8.ofNat (b.timestamp.toNat / 10 + 100)), signee := 0 }
  pubKeyHash k := some k

/-- The chain settings of the scenarios, billing every block. -/
def scenarioConfig : Config := ⟨committee, toyCrypto, 1, some genesisBlock, some 100⟩

/-- The chain `P0` starts with on empty stores. -/
def coldChain : Chain :=
  (Chain.opened scenarioConfig [] SqlState.empty).extend scenarioConfig genesisBlock

/-! ## Two blocks in one turn -/

/-- `P1`'s block of turn 1 on genesis. -/
def turnOneBlock : Block := ⟨⟨1, 1, Hash.zero, Hash.ofByte 1, 10⟩, Hash.ofByte 9, 1, [], [], []⟩

/-- A second block of `P1` in turn 1, on the first. -/
def turnOneChild : Block := ⟨⟨1, 1, Hash.zero, Hash.ofByte 9, 15⟩, Hash.ofByte 5, 1, [], [], []⟩

/-- `P0` passes turn 0, then `processBlocks` checks both blocks of turn 1. -/
def sameTurnRun : List Action :=
  [.loopTop, .tick, .finish, .sendHeight, .recvHeight,
    .recvRemote turnOneBlock, .check Faults.none none true,
    .recvRemote turnOneChild, .check Faults.none none true]

/-- The node after `sameTurnRun`. -/
def sameTurnNode : Node :=
  ((Node.init coldChain).run scenarioConfig sameTurnRun).getD (Node.init coldChain)

theorem sameTurnRun_eq :
    (Node.init coldChain).run scenarioConfig sameTurnRun = some sameTurnNode := rfl

theorem sameTurnNode_reachable : Node.Reachable scenarioConfig coldChain sameTurnNode :=
  Node.Reachable.init.run scenarioConfig sameTurnRun_eq

theorem sameTurn_child_not_above_parent :
    ∃ s, Node.Reachable scenarioConfig coldChain s ∧
      ¬ HeightsIncrease s.chain.rt.head.node :=
  ⟨sameTurnNode, sameTurnNode_reachable, by decide⟩

/-- Both blocks of turn 1 are stored under height 1, so key order puts the
child, whose hash is smaller, before its parent, and reopening the stores
fails on the child with `ErrParentNotFound`. -/
theorem restart_after_sameTurn_child_fails :
    (sameTurnNode.chain.bdb.iter metaBlockIndex).map (·.2.hash) =
        [genesisBlock.hash, turnOneChild.hash, turnOneBlock.hash] ∧
      ∀ f st, Chain.newChainWithContext scenarioConfig f sameTurnNode.chain.bdb st =
        .error .parentNotFound :=
  ⟨by decide, fun _ _ => rfl⟩

end SqlChain
