import SqlChain.Chain

/-!
# Rebuilding a chain from its block store

`NewChainWithContext` opens the stores, walks the `BLCK` entries in key order
and rebuilds the block index: the first block is verified as genesis and sets
the clock, each later block hangs under the previous one when that is its
parent (fast path) or under the node its parent hash looks up (lookup path).
Without blocks it pushes the configured genesis block instead.  The response
and ack entries are only decoded for the log and are not modelled.
-/

namespace SqlChain

namespace Chain

variable (cfg : Config)

/-- The chain `newChainWithContext` starts from: the opened stores and SQL
state, an empty index and ack index, and a fresh runtime on the clock of the
configured genesis block. -/
def opened (bdb : Store) (st : SqlState) : Chain :=
  ⟨bdb, newBlockIndex, fun _ => none, AckIndex.empty, st,
    Runtime.init ((cfg.genesis.map Block.timestamp).getD 0)⟩

/-- The parent a loaded block hangs under, with the chain after `setGenesis`
for the first block. -/
def loadParent (c : Chain) (last : BlockNode) (b : Block) :
    Except ChainError (Chain × BlockNode) :=
  match last with
  | [] =>
      if cfg.crypto.verifyAsGenesis b then
        .ok ({ c with rt := { c.rt with chainInitTime := b.timestamp } }, [])
      else .error .genesisVerifyFailed
  | l :: ls =>
      if b.parentHash = l.hash then
        if cfg.crypto.verify b then .ok (c, l :: ls) else .error .verifyFailed
      else
        match c.bi b.parentHash with
        | some p => .ok (c, p)
        | none => .error .parentNotFound

/-- One iteration of the block loop: the node of `b` under its parent, added
to the index with `b` as its cached body. -/
def loadBlock (c : Chain) (last : BlockNode) (b : Block) :
    Except ChainError (Chain × BlockNode) :=
  (c.loadParent cfg last b).map fun (c, parent) =>
    let node := newBlockNode (c.heightOf cfg b.timestamp) b parent
    ({ c with
        bi := addBlock c.bi node
        cache := fun h => if h = b.hash then some b else c.cache h }, node)

/-- The block loop over the entries in iteration order, returning the chain
and the last node built. -/
def loadBlocks : Chain → BlockNode → Store → Except ChainError (Chain × BlockNode)
  | c, last, [] => .ok (c, last)
  | c, last, (_, b) :: rest =>
      match c.loadBlock cfg last b with
      | .ok (c', node) => loadBlocks c' node rest
      | .error e => .error e

/-- `NewChainWithContext` over the block store `bdb` and the SQL state `st`:
rebuild the index, set the head to the last node and prune the body cache, or
push the configured genesis block when the store has no blocks. -/
def newChainWithContext (f : Faults) (bdb : Store) (st : SqlState) :
    Except ChainError Chain :=
  match loadBlocks cfg (opened cfg bdb st) [] (bdb.iter metaBlockIndex) with
  | .error e => .error e
  | .ok (c, []) => c.genesis cfg f cfg.genesis
  | .ok (c, last) =>
      .ok ({ c with rt := c.rt.setHead (HeadState.ofNode last) }.pruneBlockCache cfg)

end Chain

end SqlChain
