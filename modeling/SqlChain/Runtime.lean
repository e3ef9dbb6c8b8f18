import SqlChain.BlockIndex

/-!
# The runtime clock

`runtime.go` is not part of the sources; the turn clock, the head state and the
peer list are modelled from §4.4 of the specification.  The settings fixed for
the life of a chain are a `RuntimeConfig`; what changes is a `Runtime`.
-/

namespace SqlChain

/-- The head state `state`: the tip node with its hash `Head` and height
`Height`. -/
structure HeadState where
  node : BlockNode
  head : Hash
  height : Int
  deriving DecidableEq

/-- `&state{node, node.hash, node.height}`, the head state of a node. -/
def HeadState.ofNode : BlockNode → HeadState
  | [] => ⟨[], Hash.zero, 0⟩
  | n :: rest => ⟨n :: rest, n.hash, n.height⟩

/-- The runtime settings that stay fixed while a chain runs. -/
structure RuntimeConfig where
  period : Int
  period_pos : 0 < period
  server : NodeID
  peers : List NodeID
  blockCacheTTL : Int
  queryTTL : Int

/-- The runtime fields that change: the genesis time set by `setGenesis`, the
head state and the next turn. -/
structure Runtime where
  chainInitTime : Int
  head : HeadState
  nextTurn : Int
  deriving DecidableEq

/-- `proto.Peers.Find`: the position of `id` in the peer list. -/
def findPeer : List NodeID → NodeID → Option Nat
  | [], _ => none
  | p :: ps, id => if p = id then some 0 else (findPeer ps id).map (· + 1)

namespace Runtime

variable (cfg : RuntimeConfig) (rt : Runtime)

/-- Modelled from the spec (§4.4): a fresh runtime with an empty head state;
its first turn is turn 1, the turn whose target is one period after genesis. -/
def init (t0 : Int) : Runtime :=
  ⟨t0, ⟨[], Hash.zero, 0⟩, 1⟩

/-- Modelled from the spec (§4.4): `getHeightFromTime`, the floor of the
periods elapsed since genesis. -/
def getHeightFromTime (t : Int) : Int :=
  (t - rt.chainInitTime) / cfg.period

/-- Modelled from the spec (§4.4): the target time of the next turn, whose
height is the next turn itself. -/
def nextTickTarget : Int :=
  rt.chainInitTime + rt.nextTurn * cfg.period

/-- Modelled from the spec (§4.4 and the glossary): `isMyTurn`, whether the
local server is `peers[h mod |peers|]` for the height `h` of the next turn's
target. -/
def isMyTurn : Bool :=
  match findPeer cfg.peers cfg.server with
  | some i => decide (rt.nextTurn % cfg.peers.length = i)
  | none => false

/-- Modelled from the spec (§4.3): `getMinValidHeight`, the head height less the
query TTL. -/
def getMinValidHeight : Int :=
  rt.head.height - cfg.queryTTL

/-- Modelled from the spec (§4.4): `setNextTurn`. -/
def setNextTurn : Runtime :=
  { rt with nextTurn := rt.nextTurn + 1 }

/-- Modelled from the spec (§4.4): `setHead`, an atomic swap of the head
state. -/
def setHead (s : HeadState) : Runtime :=
  { rt with head := s }

end Runtime

end SqlChain
