import SqlChain.Runtime
import SqlChain.AckIndex

/-!
# The chain engine

The state of one SQL-chain and the operations of `chain.go` that change it:
`pushBlock`, `genesis`, `CheckAndPushNewBlock`, `pruneBlockCache` and the
fetches.  Collaborators outside the sources are modelled from the
specification: the block store keeps its entries as a key/block list and
iterates them in bytewise key order, the SQL state keeps the requests whose
effects it holds, and the signature checks of `types.Block` are parameters.
A failing store `Put` or SQL replay is an input of the call (`Faults`).
-/

namespace SqlChain

/-- The block store `bdb`: its entries as key and decoded block. -/
abbrev Store := List (List UInt8 × Block)

namespace Store

variable (s : Store)

/-- `bdb.Get`. -/
def get (k : List UInt8) : Option Block :=
  (s.find? (·.1 = k)).map (·.2)

/-- `bdb.Put`, replacing an entry with the same key. -/
def put (k : List UInt8) (b : Block) : Store :=
  (k, b) :: s.filter (·.1 ≠ k)

/-- `bdb.NewIterator(util.BytesPrefix(tag))`: the entries whose key starts
with `tag`, in bytewise key order. -/
def iter (tag : List UInt8) : Store :=
  (s.filter (fun e => tag <+: e.1)).insertionSort (fun a b => a.1 ≤ b.1)

end Store

/-- Modelled from the spec (§6): the local SQL state `x.State` as the chain
sees it.  `held` lists the requests whose effects it holds, `pending` the
executed queries that `CommitEx` has not handed out yet, and `failed` the
requests rejected before execution. -/
structure SqlState where
  held : List Request
  pending : List QueryAsTx
  failed : List Request
  deriving DecidableEq

namespace SqlState

variable (st : SqlState)

/-- Modelled from the spec (§6): a fresh SQL state. -/
def empty : SqlState := ⟨[], [], []⟩

/-- Modelled from the spec (§6): `ReplayBlockWithContext`, applying the query
transactions of a block. -/
def replayBlock (b : Block) : SqlState :=
  { st with held := st.held ++ b.queryTxs.map (·.request) }

/-- Modelled from the spec (§6): `CommitEx`, handing out the failed requests
and the executed queries. -/
def commitEx : (List Request × List QueryAsTx) × SqlState :=
  ((st.failed, st.pending), { st with pending := [], failed := [] })

/-- Modelled from the spec (§6): `QueryWithContext` on the leader, executing
`tx` (its response is the one the leader signs), or rejecting its request
before execution when `ok` is false. -/
def query (tx : QueryAsTx) (ok : Bool) : SqlState :=
  if ok then { st with held := st.held ++ [tx.request], pending := st.pending ++ [tx] }
  else { st with failed := st.failed ++ [tx.request] }

end SqlState

/-- The signature primitives the sources call: `Block.Verify`, which checks
the body's merkle root and the signed header's hash and signature,
`Block.VerifyAsGenesis`, `Block.PackAndSignBlock` with the local key, which
sets the hash and signer of a block, and `crypto.PubKeyHash`. -/
structure Crypto where
  verify : Block → Bool
  verifyAsGenesis : Block → Bool
  packAndSign : Block → Block
  pubKeyHash : PublicKey → Option AccountAddress

/-- The settings of one chain: the runtime's, the signature primitives, the
billing period, the genesis block of the configuration and the account
address of the database ID, if it has one. -/
structure Config where
  rc : RuntimeConfig
  crypto : Crypto
  updatePeriod : Nat
  genesis : Option Block
  dbAccount : Option AccountAddress

/-- Which collaborator calls fail during one operation. -/
structure Faults where
  putFails : Bool
  replayFails : Bool
  deriving DecidableEq

/-- The faults of a call in which nothing fails. -/
def Faults.none : Faults := ⟨false, false⟩

inductive ChainError
  | invalidBlock
  | unknownProducer
  | invalidProducer
  | parentNotFound
  | verifyFailed
  | replayFailed
  | storageFailed
  | notFound
  | genesisNotProvided
  | genesisVerifyFailed
  deriving DecidableEq, Repr

/-- The state of one chain: the block store, the block index, the cached
bodies `node.block` by node hash, the ack index, the SQL state and the
runtime. -/
structure Chain where
  bdb : Store
  bi : BlockIndex
  cache : Hash → Option Block
  ai : AckIndex
  st : SqlState
  rt : Runtime

namespace Chain

variable (cfg : Config)

/-- The height of a time on this chain's clock. -/
def heightOf (c : Chain) (t : Int) : Int :=
  c.rt.getHeightFromTime cfg.rc t

/-- `AddResponse` into the ack index, with a failure left as a logged no-op as
`pushBlock` treats it. -/
def addResponseOrKeep (c : Chain) (ai : AckIndex) (r : ResponseHeader) : AckIndex :=
  match ai.addResponse (c.heightOf cfg r.requestTimestamp) r with
  | .ok ai' => ai'
  | .error _ => ai

/-- `remove` from the ack index, with a failure left as a logged no-op. -/
def removeOrKeep (c : Chain) (ai : AckIndex) (a : AckHeader) : AckIndex :=
  match ai.remove (c.heightOf cfg a.requestTimestamp) a with
  | .ok ai' => ai'
  | .error _ => ai

/-- The chain after `pushBlock` has stored `b`: the new node becomes the head,
enters the index with `b` as its cached body, and the ack index takes the
block's responses and drops its acknowledgements. -/
def extend (c : Chain) (b : Block) : Chain :=
  let node := newBlockNode (c.heightOf cfg b.timestamp) b c.rt.head.node
  { c with
    bdb := c.bdb.put (metaBlockIndex ++ BlockNode.indexKey node) b
    rt := c.rt.setHead (HeadState.ofNode node)
    bi := addBlock c.bi node
    cache := fun h => if h = b.hash then some b else c.cache h
    ai := b.acks.foldl (c.removeOrKeep cfg)
      (b.queryTxs.foldl (fun ai tx => c.addResponseOrKeep cfg ai tx.response) c.ai) }

/-- `pushBlock`: store the block under its index key, then extend the head;
a failing `Put` returns before any in-memory change. -/
def pushBlock (f : Faults) (c : Chain) (b : Block) : Except ChainError Chain :=
  if f.putFails then .error .storageFailed else .ok (c.extend cfg b)

/-- `genesis`: verify the configured genesis block and push it. -/
def genesis (f : Faults) (c : Chain) : Option Block → Except ChainError Chain
  | none => .error .genesisNotProvided
  | some b =>
      if cfg.crypto.verifyAsGenesis b then c.pushBlock cfg f b
      else .error .genesisVerifyFailed

/-- The producer slot `CheckAndPushNewBlock` expects, `(nextTurn - 1) % total`
with Go's truncating remainder, and `-1` without peers. -/
def expectedProducer (c : Chain) : Int :=
  let total : Int := cfg.rc.peers.length
  if 0 < total then (c.rt.nextTurn - 1).tmod total else -1

/-- The state and error after a push from `c`: the pushed chain, or `c` itself
with the push's error. -/
def settle (c : Chain) : Except ChainError Chain → Chain × Option ChainError
  | .ok c' => (c', none)
  | .error e => (c, some e)

/-- `CheckAndPushNewBlock`: skip the head block itself, reject a block that does
not extend the head, verify it, push a self-produced block directly, and
otherwise check the producer slot, replay the block into the SQL state and push
it.  The replay changes the SQL state in place, so the state after the call is
returned with its error. -/
def checkAndPushNewBlock (f : Faults) (c : Chain) (b : Block) : Chain × Option ChainError :=
  if c.rt.head.height = c.heightOf cfg b.timestamp ∧ c.rt.head.head = b.hash then (c, none)
  else if b.parentHash ≠ c.rt.head.head then (c, some .invalidBlock)
  else if !cfg.crypto.verify b then (c, some .verifyFailed)
  else if b.producer = cfg.rc.server then c.settle (c.pushBlock cfg f b)
  else match findPeer cfg.rc.peers b.producer with
    | none => (c, some .unknownProducer)
    | some index =>
        if (index : Int) ≠ c.expectedProducer cfg then (c, some .invalidProducer)
        else if f.replayFails then (c, some .replayFailed)
        else
          let c' := { c with st := c.st.replayBlock b }
          c'.settle (c'.pushBlock cfg f b)

/-- The second loop of `pruneBlockCache`: drop cached bodies up the parent walk
until a node already has none. -/
def dropBodies (cache : Hash → Option Block) : BlockNode → (Hash → Option Block)
  | [] => cache
  | n :: rest =>
      if cache n.hash = none then cache
      else dropBodies (fun h => if h = n.hash then none else cache h) rest

/-- `pruneBlockCache`: walk from the head past the nodes whose count is above
`head.count - blockCacheTTL`, then drop bodies from there on. -/
def pruneBlockCache (c : Chain) : Chain :=
  match c.rt.head.node with
  | [] => c
  | n :: rest =>
      let lastCnt := n.count - cfg.rc.blockCacheTTL
      { c with cache := dropBodies c.cache ((n :: rest).dropWhile (·.count > lastCnt)) }

/-- `fetchBlockByIndexKey`: the block stored under `BLCK` and the key. -/
def fetchBlockByIndexKey (c : Chain) (indexKey : List UInt8) : Except ChainError Block :=
  match c.bdb.get (metaBlockIndex ++ indexKey) with
  | some b => .ok b
  | none => .error .notFound

/-- `FetchBlock`: the block of the latest head ancestor at or below `height`,
and no block when the walk passes the root. -/
def fetchBlock (c : Chain) (height : Int) : Except ChainError (Option Block) :=
  match ancestor c.rt.head.node height with
  | [] => .ok none
  | n :: _ => (c.fetchBlockByIndexKey n.indexKey).map some

/-- `FetchBlockByCount`: the block, count and height of the head's ancestor
with count `count`, or of the head itself for a negative count. -/
def fetchBlockByCount (c : Chain) (count : Int) :
    Except ChainError (Option Block × Int × Int) :=
  let n := if count < 0 then c.rt.head.node else ancestorByCount c.rt.head.node count
  match n with
  | [] => .ok (none, 0, 0)
  | x :: _ => (c.fetchBlockByIndexKey x.indexKey).map fun b => (some b, x.count, x.height)

/-! ## What one call can do -/

variable {cfg}

theorem pushBlock_ok {f : Faults} {c c' : Chain} {b : Block}
    (h : c.pushBlock cfg f b = .ok c') : f.putFails = false ∧ c' = c.extend cfg b := by
  unfold pushBlock at h
  by_cases hf : f.putFails = true
  · simp [hf] at h
  · simp only [hf, if_false, Bool.false_eq_true, Except.ok.injEq] at h
    exact ⟨by simpa using hf, h.symm⟩

end Chain

end SqlChain
