import SqlChain.Heights

/-!
# Billing rounds

`processBlocks` runs a billing round after every successful
`CheckAndPushNewBlock` whose head count is a multiple of `updatePeriod`.  The
call also succeeds, without any change, on the head block itself
("Maybe already set by FetchBlock"), so a block that reaches the ingest loop
twice in its turn, for instance once from the stash and once from `syncHead`,
is billed twice.
-/

namespace SqlChain

/-! ## A block billed twice -/

/-- `P1`'s block of turn 1, carrying one read of four rows by user 5 answered
by miner 1. -/
def billedBlock : Block :=
  ⟨⟨1, 1, Hash.zero, Hash.ofByte 1, 10⟩, Hash.ofByte 9, 1, [],
    [⟨⟨5, .readQuery, []⟩, ⟨Hash.ofByte 3, 10, 1, 4, 0⟩⟩], []⟩

/-- The block is advised early and stashed; at the tick it returns from the
stash while `syncHead` fetches it from `P1` too, and both copies reach the
ingest loop in turn 1. -/
def rebillRun : List Action :=
  [.recvRemote billedBlock, .loopTop, .tick, .finish, .sendHeight, .recvHeight,
    .sync billedBlock, .recvMain, .check Faults.none none true,
    .recvStash 0, .check Faults.none none true]

/-- The node after `rebillRun`. -/
def rebillNode : Node :=
  ((Node.init coldChain).run scenarioConfig rebillRun).getD (Node.init coldChain)

theorem rebillRun_eq : (Node.init coldChain).run scenarioConfig rebillRun = some rebillNode :=
  rfl

theorem redelivered_block_billed_twice :
    ∃ s, Node.Reachable scenarioConfig coldChain s ∧
      s.sent.map (fun r => (r.count, r.update)) =
        [(1, ⟨100, [⟨5, 4, [⟨1, 4⟩]⟩]⟩), (1, ⟨100, [⟨5, 4, [⟨1, 4⟩]⟩]⟩)] :=
  ⟨rebillNode, Node.Reachable.init.run scenarioConfig rebillRun_eq, by decide⟩

end SqlChain
