import SqlChain.Heights

/-!
# Producer rotation

`CheckAndPushNewBlock` accepts a remote block only from the peer at position
`(nextTurn - 1) mod |peers|`.  When it reads the same `nextTurn` as the height
gate of `processBlocks`, that is the peer of the block's own height.  The two
reads are separate, though, and a tick of `mainCycle` between them moves the
expected slot one peer on.
-/

namespace SqlChain

theorem findPeer_getElem? {ps : List NodeID} {id : NodeID} {i : Nat}
    (h : findPeer ps id = some i) : ps[i]? = some id := by
  induction ps generalizing i with
  | nil => cases h
  | cons p ps ih =>
    simp only [findPeer] at h
    split at h
    · cases h; simp_all
    · cases i with
      | zero => simp at h
      | succ i => simpa using ih (by simpa using h)

/-! ## A tick between the gate and the check -/

/-- A block of height 1 signed by `P2`, the peer of turn 2. -/
def outOfTurnBlock : Block := ⟨⟨1, 2, Hash.zero, Hash.ofByte 1, 10⟩, Hash.ofByte 7, 2, [], [], []⟩

/-- `processBlocks` passes the block through the gate of turn 1, then
`mainCycle` runs turn 2 before `CheckAndPushNewBlock` reads `nextTurn`. -/
def raceRun : List Action :=
  [.loopTop, .tick, .finish, .sendHeight, .recvHeight, .recvRemote outOfTurnBlock,
    .loopTop, .tick, .finish, .check Faults.none none true]

/-- The node after `raceRun`. -/
def raceNode : Node :=
  ((Node.init coldChain).run scenarioConfig raceRun).getD (Node.init coldChain)

theorem raceRun_eq : (Node.init coldChain).run scenarioConfig raceRun = some raceNode := rfl

theorem tick_between_gate_and_check_admits_wrong_producer :
    ∃ s, Node.Reachable scenarioConfig coldChain s ∧
      ∃ x rest b, s.chain.rt.head.node = x :: rest ∧ rest ≠ [] ∧
        s.chain.bdb.get (metaBlockIndex ++ x.indexKey) = some b ∧
        committee.peers[(x.height % committee.peers.length).toNat]? ≠ some b.producer :=
  ⟨raceNode, Node.Reachable.init.run scenarioConfig raceRun_eq, ⟨Hash.ofByte 7, 1, 1⟩,
    [⟨Hash.ofByte 1, 0, 0⟩], outOfTurnBlock, by decide, by decide, by decide, by decide⟩

end SqlChain
