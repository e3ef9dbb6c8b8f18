import SqlChain.Rebuild

/-!
# The well-formed chain

The head, the block index and the block store of a chain agree: the head node
is indexed under its hash; an indexed node's block is stored under `BLCK` and
the node's index key, and hangs under the indexed node of its parent hash one
count above it, or is a root with count zero; and every `BLCK` entry is the
block of an indexed node.  This module states that shape as `WellFormed` and
shows that a cold start establishes it and that `pushBlock`, through
`CheckAndPushNewBlock`, keeps it.

The proofs rely on three properties of the signature primitives
(`Crypto.Sound`): a block that verifies as genesis carries the zero parent
hash, no signed block has the zero hash, and two signed blocks with one hash
are one block.
-/

namespace SqlChain

/-- A block signed as the chain checks blocks: by `Verify` or by
`VerifyAsGenesis`. -/
def Crypto.Signed (k : Crypto) (b : Block) : Prop :=
  k.verify b = true ∨ k.verifyAsGenesis b = true

/-- What the chain relies on from its signature primitives. -/
structure Crypto.Sound (k : Crypto) : Prop where
  genesis_parent : ∀ b, k.verifyAsGenesis b = true → b.parentHash = Hash.zero
  hash_ne_zero : ∀ b, k.Signed b → b.hash ≠ Hash.zero
  hash_inj : ∀ b b', k.Signed b → k.Signed b' → b.hash = b'.hash → b = b'

/-! ## The block store -/

namespace Store

variable (s : Store)

theorem get_put (k k' : List UInt8) (b : Block) :
    (s.put k b).get k' = if k' = k then some b else s.get k' := by
  simp only [get, put]
  split_ifs with h
  · subst h; simp
  · rw [List.find?_cons_of_neg _ (by simpa using Ne.symm h), List.find?_filter]
    congr 2
    funext e
    by_cases he : e.1 = k' <;> simp [he, h, Ne.symm h]

theorem mem_put {k : List UInt8} {b : Block} {e : List UInt8 × Block} :
    e ∈ s.put k b ↔ e = (k, b) ∨ (e ∈ s ∧ e.1 ≠ k) := by
  simp [put, List.mem_filter]

theorem keys_nodup_put {k : List UInt8} {b : Block} (h : (s.map (·.1)).Nodup) :
    ((s.put k b).map (·.1)).Nodup := by
  simp only [put, List.map_cons, List.nodup_cons, List.mem_map, List.mem_filter]
  refine ⟨fun ⟨e, ⟨_, he⟩, hek⟩ => by simp_all, ?_⟩
  exact (List.Sublist.map _ (List.filter_sublist _)).nodup h

theorem mem_of_get {k : List UInt8} {b : Block} (h : s.get k = some b) : (k, b) ∈ s := by
  simp only [get, Option.map_eq_some'] at h
  obtain ⟨e, he, rfl⟩ := h
  have hk := List.find?_some he
  simp only [decide_eq_true_eq] at hk
  rw [← hk]
  exact List.mem_of_find?_eq_some he

theorem get_of_mem {k : List UInt8} {b : Block} (hn : (s.map (·.1)).Nodup) (h : (k, b) ∈ s) :
    s.get k = some b := by
  induction s with
  | nil => cases h
  | cons e s ih =>
    simp only [List.map_cons, List.nodup_cons, List.mem_map] at hn
    rcases List.mem_cons.mp h with rfl | h
    · simp [get]
    · have hne : e.1 ≠ k := fun hek => hn.1 ⟨(k, b), h, hek.symm⟩
      have := ih hn.2 h
      simp only [get] at this ⊢
      rw [List.find?_cons_of_neg _ (by simpa using hne)]
      exact this

/-- The iteration over a tag holds exactly the entries whose key starts with
it. -/
theorem mem_iter {tag : List UInt8} {e : List UInt8 × Block} :
    e ∈ s.iter tag ↔ e ∈ s ∧ tag <+: e.1 := by
  simp [iter, (List.perm_insertionSort _ _).mem_iff, List.mem_filter]

end Store

/-- Two index keys that agree agree on the hash. -/
theorem NodeInfo.hash_eq_of_indexKey {x y : NodeInfo} (h : x.indexKey = y.indexKey) :
    x.hash = y.hash :=
  Hash.ext (List.append_inj h (by simp)).2

/-! ## The shape of a chain -/

namespace Chain

variable (cfg : Config)

/-- The link of a node `x` with block `b` to its parent: a root has count zero,
the zero parent hash, and sets the chain's clock; any other node hangs under
the indexed node of its block's parent hash, one count above it. -/
def ParentOK (c : Chain) (x : NodeInfo) (b : Block) : BlockNode → Prop
  | [] => x.count = 0 ∧ b.parentHash = Hash.zero ∧ c.rt.chainInitTime = b.timestamp
  | y :: rest => c.bi y.hash = some (y :: rest) ∧ b.parentHash = y.hash ∧ x.count = y.count + 1

/-- The index entry of hash `h`: a node with that hash whose signed block is
stored under its index key, at the height of the block's timestamp, linked to
its parent. -/
def NodeOK (c : Chain) (h : Hash) : BlockNode → Prop
  | [] => False
  | x :: rest => x.hash = h ∧ ∃ b, c.bdb.get (metaBlockIndex ++ x.indexKey) = some b ∧
      b.hash = h ∧ cfg.crypto.Signed b ∧ c.heightOf cfg b.timestamp = x.height ∧
      c.ParentOK x b rest

/-- The node `pushBlock` builds for `b`: a child of the head at the height of
`b`'s timestamp. -/
def pushNode (c : Chain) (b : Block) : BlockNode :=
  newBlockNode (c.heightOf cfg b.timestamp) b c.rt.head.node

theorem pushNode_eq (c : Chain) (b : Block) :
    c.pushNode cfg b = ⟨b.hash, c.heightOf cfg b.timestamp,
      match c.rt.head.node with | [] => 0 | p :: _ => p.count + 1⟩ :: c.rt.head.node := rfl

@[simp] theorem extend_bi_eq (c : Chain) (b : Block) :
    (c.extend cfg b).bi = addBlock c.bi (c.pushNode cfg b) := rfl

@[simp] theorem extend_bdb (c : Chain) (b : Block) :
    (c.extend cfg b).bdb = c.bdb.put (metaBlockIndex ++ BlockNode.indexKey (c.pushNode cfg b)) b := rfl

@[simp] theorem extend_head (c : Chain) (b : Block) :
    (c.extend cfg b).rt.head = HeadState.ofNode (c.pushNode cfg b) := rfl

@[simp] theorem extend_chainInitTime (c : Chain) (b : Block) :
    (c.extend cfg b).rt.chainInitTime = c.rt.chainInitTime := rfl

/-- A chain whose head, index and block store agree. -/
structure WellFormed (c : Chain) : Prop where
  head_eq : c.rt.head = HeadState.ofNode c.rt.head.node
  head_ne : c.rt.head.node ≠ []
  head_indexed : c.bi c.rt.head.head = some c.rt.head.node
  indexed : ∀ h n, c.bi h = some n → c.NodeOK cfg h n
  stored : ∀ k b, (k, b) ∈ c.bdb →
    ∃ x rest, c.bi b.hash = some (x :: rest) ∧ k = metaBlockIndex ++ x.indexKey
  keys_nodup : (c.bdb.map (·.1)).Nodup

variable {cfg}

/-- The shape reads the store, the index and the clock only. -/
theorem nodeOK_congr {c c' : Chain} (hb : c'.bdb = c.bdb) (hi : c'.bi = c.bi)
    (ht : c'.rt.chainInitTime = c.rt.chainInitTime) {h : Hash} {n : BlockNode} :
    c'.NodeOK cfg h n ↔ c.NodeOK cfg h n := by
  rcases n with _ | ⟨x, _ | ⟨y, rest⟩⟩ <;>
    simp [NodeOK, ParentOK, heightOf, Runtime.getHeightFromTime, hb, hi, ht]

/-- A chain with the store, index and clock of a well-formed one and an
indexed head is well formed. -/
theorem WellFormed.transfer {c c' : Chain} (hc : c.WellFormed cfg) (hb : c'.bdb = c.bdb)
    (hi : c'.bi = c.bi) (ht : c'.rt.chainInitTime = c.rt.chainInitTime) {x : NodeInfo}
    {rest : BlockNode} (hh : c'.rt.head = HeadState.ofNode (x :: rest))
    (hx : c.bi x.hash = some (x :: rest)) : c'.WellFormed cfg where
  head_eq := by rw [hh]; rfl
  head_ne := by rw [hh]; simp [HeadState.ofNode]
  head_indexed := by rw [hh, hi]; exact hx
  indexed h n hn := (nodeOK_congr hb hi ht).mpr (hc.indexed h n (hi ▸ hn))
  stored k b hk := hi ▸ hc.stored k b (hb ▸ hk)
  keys_nodup := hb ▸ hc.keys_nodup

/-- The head node of a well-formed chain. -/
theorem WellFormed.head_cons {c : Chain} (hc : c.WellFormed cfg) :
    ∃ y rest, c.rt.head.node = y :: rest ∧ c.rt.head = HeadState.ofNode (y :: rest) ∧
      c.bi y.hash = some (y :: rest) := by
  obtain ⟨y, rest, hy⟩ := List.exists_cons_of_ne_nil hc.head_ne
  have hh := hc.head_eq
  rw [hy] at hh
  exact ⟨y, rest, hy, hh, by simpa [hh, HeadState.ofNode] using hc.head_indexed⟩

/-- A chain that differs from a well-formed one in fields the shape does not
read is well formed. -/
theorem WellFormed.frame {c c' : Chain} (hc : c.WellFormed cfg) (hb : c'.bdb = c.bdb)
    (hi : c'.bi = c.bi) (hr : c'.rt.head = c.rt.head)
    (ht : c'.rt.chainInitTime = c.rt.chainInitTime) : c'.WellFormed cfg := by
  obtain ⟨y, rest, -, hh, hy⟩ := hc.head_cons
  exact hc.transfer hb hi ht (hr.trans hh) hy

section Sound

variable {c : Chain}

/-- The facts of `NodeOK` for an indexed node. -/
theorem WellFormed.node (hc : c.WellFormed cfg) {h : Hash} {n : BlockNode} (hn : c.bi h = some n) :
    ∃ x rest, n = x :: rest ∧ x.hash = h ∧ ∃ b, c.bdb.get (metaBlockIndex ++ x.indexKey) = some b ∧
      b.hash = h ∧ cfg.crypto.Signed b ∧ c.heightOf cfg b.timestamp = x.height ∧
      c.ParentOK x b rest := by
  have := hc.indexed h n hn
  rcases n with _ | ⟨x, rest⟩
  · exact this.elim
  · exact ⟨x, rest, rfl, this⟩

/-- No indexed hash is the zero hash. -/
theorem WellFormed.hash_ne_zero (hc : c.WellFormed cfg) (hk : cfg.crypto.Sound) {h : Hash} {n : BlockNode} (hn : c.bi h = some n) :
    h ≠ Hash.zero := by
  obtain ⟨x, rest, -, -, b, -, rfl, hs, -⟩ := hc.node hn
  exact hk.hash_ne_zero b hs

/-- A stored entry is the block of the indexed node its key names. -/
theorem WellFormed.entry (hc : c.WellFormed cfg) {k : List UInt8} {b : Block} (he : (k, b) ∈ c.bdb) :
    ∃ x rest, c.bi b.hash = some (x :: rest) ∧ k = metaBlockIndex ++ x.indexKey ∧
      x.hash = b.hash ∧ cfg.crypto.Signed b ∧ c.heightOf cfg b.timestamp = x.height ∧
      c.ParentOK x b rest := by
  obtain ⟨x, rest, hx, rfl⟩ := hc.stored k b he
  obtain ⟨x', rest', hn, hxh, b', hget, -, hs, hht, hp⟩ := hc.node hx
  cases hn
  have : b' = b := by rw [Store.get_of_mem _ hc.keys_nodup he] at hget; exact (Option.some.inj hget).symm
  subst this
  exact ⟨x, rest, hx, rfl, hxh, hs, hht, hp⟩

/-- A signed block whose parent is the head has another hash than the head. -/
theorem WellFormed.head_hash_ne (hc : c.WellFormed cfg) (hk : cfg.crypto.Sound) {b : Block} (hv : cfg.crypto.verify b = true)
    (hp : b.parentHash = c.rt.head.head) : c.rt.head.head ≠ b.hash := by
  obtain ⟨y, rest, -, hh, hy⟩ := hc.head_cons
  rw [hh] at hp ⊢
  simp only [HeadState.ofNode] at hp ⊢
  intro hyb
  obtain ⟨y', rest', hn, -, b', -, hb', hs', -, hpar⟩ := hc.node hy
  cases hn
  have hbb : b' = b := hk.hash_inj _ _ hs' (.inl hv) (hb'.trans hyb)
  subst hbb
  rcases rest with _ | ⟨z, r⟩
  · exact hc.hash_ne_zero hk hy (hpar.2.1 ▸ hp.symm)
  · have hz := hpar.1
    rw [← hpar.2.1, hp] at hz
    rw [hy] at hz
    have := congrArg List.length (Option.some.inj hz)
    simp at this

/-- The index of a well-formed chain either lacks a signed child of the head,
or holds it under the very node a push would build. -/
theorem WellFormed.fresh_or_same (hc : c.WellFormed cfg) (hk : cfg.crypto.Sound) {b : Block} (hv : cfg.crypto.verify b = true)
    (hp : b.parentHash = c.rt.head.head) :
    c.bi b.hash = none ∨ c.bi b.hash = some (c.pushNode cfg b) := by
  cases hn : c.bi b.hash with
  | none => exact .inl rfl
  | some n =>
    right
    obtain ⟨y, rest, hy0, hh, hy⟩ := hc.head_cons
    obtain ⟨x, r, rfl, hxh, b', hget, hb', hs', hht, hpar⟩ := hc.node hn
    have hbb : b' = b := hk.hash_inj _ _ hs' (.inl hv) hb'
    subst hbb
    rw [hh] at hp
    rcases r with _ | ⟨z, r⟩
    · exact absurd (hpar.2.1.symm.trans hp) (Ne.symm (hc.hash_ne_zero hk hy))
    · obtain ⟨hz, hzp, hcount⟩ := hpar
      rw [hzp] at hp
      simp only [HeadState.ofNode] at hp
      rw [hp, hy] at hz
      cases hz
      simp only [pushNode, newBlockNode, hy0, Option.some.injEq, List.cons.injEq, and_true]
      ext <;> simp_all

/-- Entries of the index survive a push. -/
theorem WellFormed.extend_bi (hc : c.WellFormed cfg) (hk : cfg.crypto.Sound) {b : Block} (hv : cfg.crypto.verify b = true)
    (hp : b.parentHash = c.rt.head.head) {g : Hash} {m : BlockNode} (hg : c.bi g = some m) :
    (c.extend cfg b).bi g = some m := by
  rw [extend_bi_eq, pushNode_eq, addBlock_cons]
  split_ifs with hgb
  · subst hgb
    rcases hc.fresh_or_same hk hv hp with h | h
    · rw [h] at hg; cases hg
    · rw [h] at hg; rw [← Option.some.inj hg, pushNode_eq]
  · exact hg

/-- `pushBlock` of a signed child of the head keeps the chain well formed. -/
theorem WellFormed.push (hc : c.WellFormed cfg) (hk : cfg.crypto.Sound) {b : Block}
    (hv : cfg.crypto.verify b = true) (hp : b.parentHash = c.rt.head.head) :
    (c.extend cfg b).WellFormed cfg := by
  obtain ⟨y, rest, hy0, hh, hy⟩ := hc.head_cons
  have hne := hc.head_hash_ne hk hv hp
  rw [hh] at hne
  set x : NodeInfo := ⟨b.hash, c.heightOf cfg b.timestamp, y.count + 1⟩ with hx
  have hnode : c.pushNode cfg b = x :: y :: rest := by rw [pushNode_eq, hy0]
  have hbi : ∀ g m, c.bi g = some m → (c.extend cfg b).bi g = some m :=
    fun _ _ => hc.extend_bi hk hv hp
  have hbi' : ∀ g, g ≠ b.hash → (c.extend cfg b).bi g = c.bi g := fun g hg => by
    rw [extend_bi_eq, hnode, addBlock_cons, if_neg hg]
  have hbx : (c.extend cfg b).bi b.hash = some (x :: y :: rest) := by
    rw [extend_bi_eq, hnode, addBlock_cons, if_pos rfl]
  have hbdb : (c.extend cfg b).bdb = c.bdb.put (metaBlockIndex ++ x.indexKey) b := by
    rw [extend_bdb, hnode]; rfl
  refine ⟨by rw [extend_head, hnode]; rfl, by rw [extend_head, hnode]; simp [HeadState.ofNode],
    by rw [extend_head, hnode]; exact hbx, fun h n hn => ?_, fun k' b' hk' => ?_,
    by rw [hbdb]; exact Store.keys_nodup_put _ hc.keys_nodup⟩
  · by_cases hhb : h = b.hash
    · subst hhb
      rw [hbx] at hn
      cases hn
      refine ⟨rfl, b, by rw [hbdb, Store.get_put, if_pos rfl], rfl, .inl hv, rfl, hbi _ _ hy, ?_, rfl⟩
      rw [hp, hh]; rfl
    · rw [hbi' h hhb] at hn
      obtain ⟨x', r', rfl, hxh, b', hgb, hb', hs', hht, hpar⟩ := hc.node hn
      have hk' : metaBlockIndex ++ x'.indexKey ≠ metaBlockIndex ++ x.indexKey := fun he =>
        hhb (hxh ▸ NodeInfo.hash_eq_of_indexKey (List.append_cancel_left he))
      refine ⟨hxh, b', by rw [hbdb, Store.get_put, if_neg hk']; exact hgb, hb', hs', hht, ?_⟩
      rcases r' with _ | ⟨z, r⟩
      · exact hpar
      · exact ⟨hbi _ _ hpar.1, hpar.2⟩
  · rw [hbdb, Store.mem_put] at hk'
    rcases hk' with he | ⟨he, -⟩
    · cases he
      exact ⟨x, y :: rest, hbx, rfl⟩
    · obtain ⟨x', r', hx', rfl⟩ := hc.stored k' b' he
      exact ⟨x', r', hbi _ _ hx', rfl⟩

end Sound

end Chain

end SqlChain
