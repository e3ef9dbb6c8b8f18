import SqlChain.Keys

/-!
# Block nodes and the block index

`blockindex.go` is not part of the sources; its nodes, index and walks are
modelled from §3 and §4.2 of the specification.  A node's parent pointer never
changes after the node is built, so a `*blockNode` is represented by its path
to the root: the node itself followed by its ancestors, and `nil` by `[]`.  The
cached body `node.block`, which pruning does change, lives in the chain state.
-/

namespace SqlChain

/-- The fields of a `blockNode` besides its parent pointer and cached body. -/
@[ext] structure NodeInfo where
  hash : Hash
  height : Int
  count : Int
  deriving DecidableEq

/-- A `*blockNode`: the node and its ancestors, nearest first; `[]` is `nil`. -/
abbrev BlockNode := List NodeInfo

/-- Modelled from the spec (§4.1): `blockNode.indexKey`, the big-endian height
followed by the 32 hash bytes. -/
def NodeInfo.indexKey (n : NodeInfo) : List UInt8 :=
  heightToKey n.height ++ n.hash.bytes

namespace BlockNode

/-- `node.indexKey()` of a node; `nil` has no key. -/
def indexKey : BlockNode → List UInt8
  | [] => []
  | n :: _ => n.indexKey

/-- `node.count`, read as zero on `nil`. -/
def count : BlockNode → Int
  | [] => 0
  | n :: _ => n.count

end BlockNode

/-- Modelled from the spec (§3): `newBlockNode`, a node at height `h` for block
`b` whose count is its parent's count plus one, and zero without a parent. -/
def newBlockNode (h : Int) (b : Block) (parent : BlockNode) : BlockNode :=
  ⟨b.hash, h, match parent with | [] => 0 | p :: _ => p.count + 1⟩ :: parent

/-- Modelled from the spec (§4.2): `blockNode.ancestor`, the first node of the
parent walk whose height is at most `h`, or `nil` past the root. -/
def ancestor : BlockNode → Int → BlockNode
  | [], _ => []
  | x :: rest, h => if x.height ≤ h then x :: rest else ancestor rest h

/-- Modelled from the spec (§4.2): `blockNode.ancestorByCount`, the first node
of the parent walk whose count is `c`, or `nil` past the root. -/
def ancestorByCount : BlockNode → Int → BlockNode
  | [], _ => []
  | x :: rest, c => if x.count = c then x :: rest else ancestorByCount rest c

/-- Modelled from the spec (§4.2): `blockIndex`, the map from block hash to
node. -/
abbrev BlockIndex := Hash → Option BlockNode

/-- The empty index, `newBlockIndex`. -/
def newBlockIndex : BlockIndex := fun _ => none

/-- Modelled from the spec (§4.2): `blockIndex.addBlock`, registering a node
under its hash. -/
def addBlock (bi : BlockIndex) : BlockNode → BlockIndex
  | [] => bi
  | n :: rest => fun h => if h = n.hash then some (n :: rest) else bi h

@[simp] theorem newBlockNode_head (h : Int) (b : Block) (parent : BlockNode) :
    (newBlockNode h b parent).head? =
      some ⟨b.hash, h, match parent with | [] => 0 | p :: _ => p.count + 1⟩ :=
  rfl

@[simp] theorem newBlockNode_tail (h : Int) (b : Block) (parent : BlockNode) :
    (newBlockNode h b parent).tail = parent := rfl

theorem addBlock_cons (bi : BlockIndex) (n : NodeInfo) (rest : BlockNode) (h : Hash) :
    addBlock bi (n :: rest) h = if h = n.hash then some (n :: rest) else bi h := rfl

end SqlChain
