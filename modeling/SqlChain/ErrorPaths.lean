import SqlChain.BillingLaw

/-!
# What a failed call leaves behind

`CheckAndPushNewBlock` replays a peer's block into the SQL state before
`pushBlock` stores it, so a failing `Put` returns its error with the block
applied to the SQL state and nowhere else (`checkAndPushNewBlock_error`).

The billing round of `processBlocks` logs the errors of `billing`, of the
nonce RPC and of the signing, and goes on: it dereferences the update
`billing` returned, writes the nonce answer (zero when the RPC failed) and
sends `AddTx` whether or not the signing succeeded (`check_step_sends`).
-/

namespace SqlChain

namespace Chain

variable {cfg : Config}

/-- A push through `settle` fails only on a failing `Put`, before any
change. -/
theorem settle_pushBlock_error {f : Faults} {c c' : Chain} {b : Block} {e : ChainError}
    (h : c.settle (c.pushBlock cfg f b) = (c', some e)) :
    c' = c ∧ e = .storageFailed ∧ f.putFails = true := by
  unfold pushBlock at h
  split at h
  · cases h; exact ⟨rfl, rfl, ‹_›⟩
  · cases h

/-- A failed `CheckAndPushNewBlock` leaves the chain as it was, except when
the block store's `Put` fails after the replay of a peer's block: that block
then stays applied to the SQL state, and nothing else has changed. -/
theorem checkAndPushNewBlock_error {f : Faults} {c c' : Chain} {b : Block} {e : ChainError}
    (h : c.checkAndPushNewBlock cfg f b = (c', some e)) :
    c' = c ∨
      e = .storageFailed ∧ f.putFails = true ∧ c' = { c with st := c.st.replayBlock b } := by
  unfold checkAndPushNewBlock at h
  by_cases hhead : c.rt.head.height = c.heightOf cfg b.timestamp ∧ c.rt.head.head = b.hash
  · rw [if_pos hhead] at h; cases h
  rw [if_neg hhead] at h
  by_cases hp : b.parentHash ≠ c.rt.head.head
  · rw [if_pos hp] at h; exact .inl (Prod.mk.inj h).1.symm
  rw [if_neg hp] at h
  by_cases hv : (!cfg.crypto.verify b) = true
  · rw [if_pos hv] at h; exact .inl (Prod.mk.inj h).1.symm
  rw [if_neg hv] at h
  by_cases hs : b.producer = cfg.rc.server
  · rw [if_pos hs] at h; exact .inl (settle_pushBlock_error h).1
  rw [if_neg hs] at h
  split at h
  · exact .inl (Prod.mk.inj h).1.symm
  split_ifs at h with hi hr
  · exact .inl (Prod.mk.inj h).1.symm
  · exact .inl (Prod.mk.inj h).1.symm
  · obtain ⟨rfl, rfl, hf⟩ := settle_pushBlock_error h
    exact .inr ⟨rfl, hf, rfl⟩

end Chain

/-! ## A store failure after the replay -/

/-- A write of user 5 executed by `P1`. -/
def peerWrite : QueryAsTx := ⟨⟨5, .writeQuery, ["insert"]⟩, ⟨Hash.ofByte 4, 5, 1, 0, 1⟩⟩

/-- `P1`'s block of turn 1 on genesis, carrying `peerWrite`. -/
def unstoredBlock : Block :=
  ⟨⟨1, 1, Hash.zero, Hash.ofByte 1, 10⟩, Hash.ofByte 9, 1, [], [peerWrite], []⟩

/-- `P0` passes turn 0, then `processBlocks` takes `unstoredBlock` past its
gate. -/
def unstoredRun : List Action :=
  [.loopTop, .tick, .finish, .sendHeight, .recvHeight, .recvRemote unstoredBlock]

/-- The node after `unstoredRun`. -/
def unstoredNode : Node :=
  ((Node.init coldChain).run scenarioConfig unstoredRun).getD (Node.init coldChain)

theorem unstoredRun_eq :
    (Node.init coldChain).run scenarioConfig unstoredRun = some unstoredNode := rfl

/-- `P0` checks `P1`'s block and the block store's `Put` fails: the call
returns the storage error with the head, the index, the bodies, the ack index
and the store as they were, and `peerWrite` applied to the SQL state. -/
theorem put_failure_keeps_replayed_write :
    ∃ s : Node, Node.Reachable scenarioConfig coldChain s ∧ s.ingest = .checking unstoredBlock ∧
      s.chain.checkAndPushNewBlock scenarioConfig ⟨true, false⟩ unstoredBlock =
        ({ s.chain with st := s.chain.st.replayBlock unstoredBlock }, some .storageFailed) ∧
      peerWrite.request ∉ s.chain.st.held ∧
      peerWrite.request ∈ (s.chain.st.replayBlock unstoredBlock).held :=
  ⟨unstoredNode, Node.Reachable.init.run scenarioConfig unstoredRun_eq, rfl, rfl, by decide,
    by decide⟩

/-! ## The billing round -/

namespace Node

variable {cfg : Config}

/-- What a check step of `processBlocks` sends: nothing, when the push failed
or the head count is not a multiple of the period; a panic, when the period is
zero or `billing` built no update; and otherwise exactly one `AddTx` with the
update `billing` built, the nonce the RPC answered or zero, and the outcome of
the signing. -/
theorem check_step_sends {s s' : Node} {f : Faults} {nonce : Option Nat} {signOk : Bool}
    (h : s.step cfg (.check f nonce signOk) = some s') :
    (s'.panicked = false ∧ s'.sent = s.sent) ∨
      (s'.panicked = true ∧
        (cfg.updatePeriod = 0 ∨ (s'.chain.billing cfg s'.chain.rt.head.node).1 = none)) ∨
      ∃ ub, (s'.chain.billing cfg s'.chain.rt.head.node).1 = some ub ∧ s'.panicked = false ∧
        s'.sent = s.sent ++ [⟨s'.chain.rt.head.node.count, ub, nonce.getD 0, signOk⟩] := by
  unfold step at h
  split at h
  · cases h
  rename_i hp
  replace hp : s.panicked = false := by simpa using hp
  obtain ⟨b, c, -, ⟨-, rfl⟩ | ⟨e, -, rfl⟩⟩ := check_some h
  · simp only [billingRound]
    split_ifs with h0
    · exact .inr (.inl ⟨rfl, .inl h0⟩)
    · split
      · exact .inr (.inl ⟨rfl, .inr ‹_›⟩)
      · exact .inr (.inr ⟨_, ‹_›, hp, rfl⟩)
    · exact .inl ⟨hp, rfl⟩
  · exact .inl ⟨hp, rfl⟩

/-- The node a run from a fresh node ends in is reachable. -/
theorem Reachable.of_run (cfg : Config) (c₀ : Chain) (as : List Action)
    (h : ((Node.init c₀).run cfg as).isSome) :
    Node.Reachable cfg c₀ (((Node.init c₀).run cfg as).get h) :=
  Node.Reachable.init.run cfg (Option.some_get h).symm

end Node

/-! ## Billing rounds that fail -/

/-- `mixedRun` with a billing round whose nonce RPC and signing both fail. -/
def unsignedRun : List Action :=
  [.loopTop, .tick, .finish, .sendHeight, .recvHeight, .recvRemote mixedBlock,
    .check Faults.none none false]

/-- The scenario settings without an account address for the database:
`billing` fails on the receiver after building the update. -/
def noAccountConfig : Config := { scenarioConfig with dbAccount := none }

/-- The scenario signatures with no account address for user 5's key:
`PubKeyHash` fails on it. -/
def addrlessConfig : Config :=
  { scenarioConfig with
    crypto := { toyCrypto with pubKeyHash := fun k => if k = 5 then none else some k } }

/-- Three billing rounds of `P0` over `mixedBlock`: one whose nonce RPC and
signing fail still sends `AddTx` with nonce zero, unsigned; one whose
`billing` fails on the receiver still sends it, with a zero receiver; and one
whose `billing` fails on user 5's address dereferences the missing update and
panics. -/
theorem failed_billing_rounds_send_or_panic :
    (∃ s : Node, Node.Reachable scenarioConfig coldChain s ∧
      s.sent = [⟨1, ⟨100, [⟨5, 11, [⟨1, 1⟩]⟩]⟩, 0, false⟩]) ∧
    (Chain.newChainWithContext noAccountConfig Faults.none [] SqlState.empty = .ok coldChain ∧
      ∃ s : Node, Node.Reachable noAccountConfig coldChain s ∧
        (s.chain.billing noAccountConfig s.chain.rt.head.node).2 = some .receiver ∧
        s.sent = [⟨1, ⟨0, [⟨5, 11, [⟨1, 1⟩]⟩]⟩, 0, true⟩]) ∧
    (Chain.newChainWithContext addrlessConfig Faults.none [] SqlState.empty = .ok coldChain ∧
      ∃ s : Node, Node.Reachable addrlessConfig coldChain s ∧
        s.chain.billing addrlessConfig s.chain.rt.head.node = (none, some .userAddr) ∧
        s.panicked = true ∧ s.sent = []) :=
  ⟨⟨_, .of_run scenarioConfig coldChain unsignedRun rfl, by decide⟩,
    ⟨rfl, _, .of_run noAccountConfig coldChain mixedRun rfl, by decide, by decide⟩,
    ⟨rfl, _, .of_run addrlessConfig coldChain mixedRun rfl, by decide, by decide, by decide⟩⟩

end SqlChain
