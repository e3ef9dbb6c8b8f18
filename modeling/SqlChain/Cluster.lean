import SqlChain.Consistency

/-!
# A cluster of chain nodes

Every peer of the committee runs a node of the database's chain, with the
shared configuration and its own identity as the local server.  The nodes
meet through two RPCs.  Once `produceBlock` has handed its block to the local
ingest loop it calls `AdviseNewBlock` on every other peer; the requests wait
in the network and are delivered in any order, after any delay, or never, and
a call may return before its request is delivered.  `syncHead` calls
`FetchBlock` on a peer, which answers from its current chain.  Nothing else
reaches a node from outside, so no block is forged.

The cluster also records every block a node has produced.  No step reads the
record; it is there for the proofs.
-/

namespace SqlChain

/-- The configuration of the node of peer `p`: the shared one, with `p` as the
local server. -/
def Config.atPeer (cfg : Config) (p : NodeID) : Config :=
  { cfg with rc := { cfg.rc with server := p } }

/-- The block a step takes from outside the node: the block `syncHead` fetched
or the one an `AdviseNewBlock` handler passes on. -/
def Action.input : Action → List Block
  | .sync b | .recvRemote b => [b]
  | _ => []

namespace Node

/-- The advise requests a step sends: once the produced block has reached the
ingest loop, one `AdviseNewBlock` call per other peer. -/
def advises (cfg : Config) (s : Node) : Action → List (NodeID × Block)
  | .recvMain =>
      match s.main with
      | .produced b => (cfg.rc.peers.filter (· ≠ cfg.rc.server)).map fun q => (q, b)
      | _ => []
  | _ => []

/-- The block a step produced, read off the node after it: the block of
`runCurrentTurn`. -/
def producedIn (s' : Node) : Action → List Block
  | .tick =>
      match s'.main with
      | .produced b => [b]
      | _ => []
  | _ => []

end Node

/-- The nodes of the committee by peer, the advise requests on their way with
their recipients, and the record of every block a node has produced. -/
structure Cluster where
  nodes : NodeID → Node
  net : List (NodeID × Block)
  produced : List Block

/-- The steps of a cluster. -/
inductive ClusterAction
  /-- node `p` takes a step that needs nothing from another node -/
  | node (p : NodeID) (a : Action)
  /-- the `k`-th advise request on its way reaches its recipient's ingest loop -/
  | deliver (k : Nat)
  /-- `syncHead` of node `p` takes the block `FetchBlock` of peer `q` answers -/
  | fetch (p q : NodeID)

namespace Cluster

variable (cfg : Config)

/-- The cluster whose nodes start over the chains `c₀`, with nothing sent. -/
def init (c₀ : NodeID → Chain) : Cluster :=
  ⟨fun p => Node.init (c₀ p), [], []⟩

/-- One step of a cluster.  `none` when the step is not enabled. -/
def step (a : ClusterAction) (S : Cluster) : Option Cluster :=
  match a with
  | .node p a =>
      if p ∈ cfg.rc.peers ∧ a.input = [] then
        ((S.nodes p).step (cfg.atPeer p) a).map fun s' =>
          ⟨Function.update S.nodes p s', S.net ++ (S.nodes p).advises (cfg.atPeer p) a,
            S.produced ++ s'.producedIn a⟩
      else none
  | .deliver k =>
      match S.net[k]? with
      | some (q, b) =>
          ((S.nodes q).step (cfg.atPeer q) (.recvRemote b)).map fun s' =>
            { S with nodes := Function.update S.nodes q s', net := S.net.eraseIdx k }
      | none => none
  | .fetch p q =>
      if p ∈ cfg.rc.peers ∧ q ∈ cfg.rc.peers ∧ q ≠ p then
        match (S.nodes q).chain.fetchBlock ((S.nodes p).chain.rt.nextTurn - 1) with
        | .ok (some b) =>
            ((S.nodes p).step (cfg.atPeer p) (.sync b)).map fun s' =>
              { S with nodes := Function.update S.nodes p s' }
        | _ => none
      else none

/-- Run a list of steps, failing on the first disabled one. -/
def run : List ClusterAction → Cluster → Option Cluster
  | [], S => some S
  | a :: as, S =>
      match S.step cfg a with
      | some S' => run as S'
      | none => none

/-- The clusters reachable from nodes over the chains `c₀`. -/
inductive Reachable (c₀ : NodeID → Chain) : Cluster → Prop
  | init : Reachable c₀ (init c₀)
  | step {S S' : Cluster} (a : ClusterAction) :
      Reachable c₀ S → S.step cfg a = some S' → Reachable c₀ S'

theorem Reachable.run {c₀ : NodeID → Chain} {S S' : Cluster} {as : List ClusterAction}
    (hS : Reachable cfg c₀ S) (h : S.run cfg as = some S') : Reachable cfg c₀ S' := by
  induction as generalizing S with
  | nil => cases h; exact hS
  | cons a as ih =>
    simp only [Cluster.run] at h
    split at h
    · exact ih (hS.step a ‹_›) h
    · cases h

variable {cfg}

/-- What one step of a cluster does: one node `p` takes a step, and either it
needed nothing from outside and its advise requests and produced block are
recorded, or it received a delivered advise request, or a block its peer
`q` answered from `FetchBlock`. -/
theorem step_cases {a : ClusterAction} {S S' : Cluster} (h : S.step cfg a = some S') :
    ∃ p a' s', (S.nodes p).step (cfg.atPeer p) a' = some s' ∧
      S'.nodes = Function.update S.nodes p s' ∧
      ((a'.input = [] ∧ S'.net = S.net ++ (S.nodes p).advises (cfg.atPeer p) a' ∧
          S'.produced = S.produced ++ s'.producedIn a') ∨
        (∃ k b, S.net[k]? = some (p, b) ∧ a' = .recvRemote b ∧ S'.net = S.net.eraseIdx k ∧
          S'.produced = S.produced) ∨
        (∃ q b, (S.nodes q).chain.fetchBlock ((S.nodes p).chain.rt.nextTurn - 1) = .ok (some b) ∧
          a' = .sync b ∧ S'.net = S.net ∧ S'.produced = S.produced)) := by
  unfold step at h
  split at h
  · rename_i p a
    split_ifs at h with hp
    obtain ⟨s', hs, rfl⟩ := Option.map_eq_some'.mp h
    exact ⟨p, a, s', hs, rfl, .inl ⟨hp.2, rfl, rfl⟩⟩
  · rename_i k
    split at h
    · rename_i q b hk
      obtain ⟨s', hs, rfl⟩ := Option.map_eq_some'.mp h
      exact ⟨q, _, s', hs, rfl, .inr (.inl ⟨k, b, hk, rfl, rfl, rfl⟩)⟩
    · cases h
  · rename_i p q
    split_ifs at h
    split at h
    · rename_i b hb
      obtain ⟨s', hs, rfl⟩ := Option.map_eq_some'.mp h
      exact ⟨p, _, s', hs, rfl, .inr (.inr ⟨q, b, hb, rfl, rfl, rfl⟩)⟩
    · cases h

/-- Every node of a reachable cluster is a reachable node of its peer. -/
theorem Reachable.node {c₀ : NodeID → Chain} {S : Cluster} (hS : S.Reachable cfg c₀)
    (p : NodeID) : Node.Reachable (cfg.atPeer p) (c₀ p) (S.nodes p) := by
  induction hS with
  | init => exact .init
  | step _ _ h ih =>
    obtain ⟨q, a, s', hs, hn, -⟩ := step_cases h
    rw [hn]
    by_cases hpq : p = q
    · subst hpq
      rw [Function.update_same]
      exact ih.step a hs
    · rw [Function.update_noteq hpq]
      exact ih

end Cluster

/-- One node's head is the other's head or one of its ancestors. -/
def PrefixComparable (c c' : Chain) : Prop :=
  c.rt.head.head ∈ c'.rt.head.node.map (·.hash) ∨ c'.rt.head.head ∈ c.rt.head.node.map (·.hash)

instance (c c' : Chain) : Decidable (PrefixComparable c c') :=
  inferInstanceAs (Decidable (_ ∨ _))

/-! ## An advise that arrives after the turn -/

/-- A write executed by `P2`. -/
def writeAtTwo : QueryAsTx := ⟨⟨7, .writeQuery, ["insert"]⟩, ⟨Hash.ofByte 6, 15, 2, 0, 1⟩⟩

/-- A write executed by `P0`. -/
def writeAtZero : QueryAsTx := ⟨⟨5, .writeQuery, ["update"]⟩, ⟨Hash.ofByte 7, 25, 0, 0, 1⟩⟩

/-- `P2`'s block of turn 2, on genesis. -/
def forkBlockA : Block :=
  ⟨⟨0x01000000, 2, genesisBlock.hash, genesisBlock.hash, 20⟩, Hash.ofByte 102, 2, [], [writeAtTwo], []⟩

/-- `P0`'s block of turn 3, on genesis as well. -/
def forkBlockB : Block :=
  ⟨⟨0x01000000, 0, genesisBlock.hash, genesisBlock.hash, 30⟩, Hash.ofByte 103, 0, [], [writeAtZero], []⟩

/-- Signatures in which every peer signs with its own key and the blocks of
the run are the only ones that verify. -/
def forkCrypto : Crypto where
  verify b := decide (b = forkBlockA ∨ b = forkBlockB)
  verifyAsGenesis b := decide (b = genesisBlock)
  packAndSign b :=
    { b with hash := Hash.ofByte (UInt8.ofNat (b.timestamp.toNat / 10 + 100)), signee := b.producer }
  pubKeyHash k := some k

/-- The committee `P0`, `P1`, `P2` with ten-second turns, billing every hundred
blocks. -/
def forkConfig : Config := ⟨committee, forkCrypto, 100, some genesisBlock, some 100⟩

/-- The chain peer `p` starts with on empty stores. -/
def forkChain (p : NodeID) : Chain :=
  (Chain.opened (forkConfig.atPeer p) [] SqlState.empty).extend (forkConfig.atPeer p) genesisBlock

/-- A turn in which node `p` produces nothing. -/
def idleTurn (p : NodeID) : List ClusterAction :=
  [.node p .loopTop, .node p .tick, .node p .finish, .node p .sendHeight, .node p .recvHeight]

/-- A turn in which node `p` executes `tx`, produces its block, advises it to
the two other peers and, after the turn, takes it back from the stash and
pushes it. -/
def producingTurn (p : NodeID) (tx : QueryAsTx) : List ClusterAction :=
  [.node p (.query tx true), .node p .loopTop, .node p .tick, .node p .recvMain,
    .node p .advise, .node p .advise, .node p .advise, .node p .finish, .node p .sendHeight,
    .node p .recvHeight, .node p (.recvStash 0), .node p (.check Faults.none none true)]

/-- `P2` produces its block of turn 2.  `P0` sees nothing of it during turns 1
to 3 and produces its turn-3 block on genesis; `P2`'s advise then reaches `P0`
after the turn and is dropped as a past turn. -/
def forkRun : List ClusterAction :=
  idleTurn 2 ++ producingTurn 2 writeAtTwo ++ idleTurn 0 ++ idleTurn 0 ++
    producingTurn 0 writeAtZero ++ [.deliver 0]

/-- The cluster after `forkRun`. -/
def forkCluster : Cluster :=
  ((Cluster.init forkChain).run forkConfig forkRun).getD (Cluster.init forkChain)

set_option maxRecDepth 4000 in
theorem forkRun_eq : (Cluster.init forkChain).run forkConfig forkRun = some forkCluster := rfl

set_option maxRecDepth 4000 in
theorem late_advise_forks_main_chains :
    (∀ p, Chain.newChainWithContext (forkConfig.atPeer p) Faults.none [] SqlState.empty =
        .ok (forkChain p)) ∧
      ∃ S : Cluster, S.Reachable forkConfig forkChain ∧
        (S.nodes 0).chain.rt.head.node.map (·.hash) = [forkBlockB.hash, genesisBlock.hash] ∧
        (S.nodes 2).chain.rt.head.node.map (·.hash) = [forkBlockA.hash, genesisBlock.hash] ∧
        ¬ PrefixComparable (S.nodes 0).chain (S.nodes 2).chain :=
  ⟨fun _ => rfl, forkCluster, Cluster.Reachable.init.run forkConfig forkRun_eq, by decide,
    by decide, by decide⟩

end SqlChain
