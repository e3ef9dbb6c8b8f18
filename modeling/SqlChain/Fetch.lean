import SqlChain.Consistency

/-!
# Fetching blocks of the main chain

`FetchBlock` walks from the head to the first node at or below a height and
reads that node's block from the store; `FetchBlockByCount` walks to the node
of a count.  On a reachable chain the parent walk from the head is indexed
node by node, a node's count is its number of ancestors, and every node's
block is stored under its index key (`WellFormed.mainChain`).  So
`FetchBlockByCount` answers every count exactly, and `FetchBlock` answers
with the latest node at or below the height, which, when a child shares its
parent's height, is not the parent.
-/

namespace SqlChain

/-- What a reachable chain guarantees of its parent walk `l` from the head:
every node is indexed with its ancestors, its count is the number of its
ancestors, and its block is stored under its index key. -/
structure MainChain (cfg : Config) (c : Chain) (l : BlockNode) : Prop where
  indexed : ∀ y r, y :: r <:+ l → c.bi y.hash = some (y :: r)
  count : ∀ y r, y :: r <:+ l → y.count = r.length
  stored : ∀ y r, y :: r <:+ l → ∃ b, c.bdb.get (metaBlockIndex ++ y.indexKey) = some b ∧
    b.hash = y.hash

namespace MainChain

variable {cfg : Config} {c : Chain} {l : BlockNode}

theorem suffix {l' : BlockNode} (hl : MainChain cfg c l) (hs : l' <:+ l) : MainChain cfg c l' :=
  ⟨fun y r h => hl.indexed y r (h.trans hs), fun y r h => hl.count y r (h.trans hs),
    fun y r h => hl.stored y r (h.trans hs)⟩

theorem tail {x : NodeInfo} {r : BlockNode} (hl : MainChain cfg c (x :: r)) : MainChain cfg c r :=
  hl.suffix (List.suffix_cons x r)

end MainChain

namespace Chain

variable {cfg : Config} {c : Chain}

/-- The parent walk from an indexed node is indexed node by node. -/
theorem WellFormed.indexed_suffix (hc : c.WellFormed cfg) :
    ∀ {n : BlockNode} {h : Hash}, c.bi h = some n →
      ∀ y r, y :: r <:+ n → c.bi y.hash = some (y :: r)
  | [], _, _, y, r, hs => absurd hs.length_le (by simp)
  | x :: rest, h, hn, y, r, hs => by
    obtain ⟨x', rest', hx, hxh, b, -, -, -, -, hpar⟩ := hc.node hn
    cases hx
    rcases List.suffix_cons_iff.mp hs with he | hs
    · cases he; exact hxh ▸ hn
    · rcases rest with _ | ⟨z, r'⟩
      · exact absurd hs.length_le (by simp)
      · exact hc.indexed_suffix hpar.1 y r hs

/-- The head's parent walk of a well-formed chain is a main chain. -/
theorem WellFormed.mainChain (hc : c.WellFormed cfg) : MainChain cfg c c.rt.head.node := by
  have hidx := hc.indexed_suffix hc.head_indexed
  refine ⟨hidx, fun y r hs => ?_, fun y r hs => ?_⟩
  · induction r generalizing y with
    | nil =>
      obtain ⟨_, _, hn, -, b, -, -, -, -, hpar⟩ := hc.node (hidx y [] hs)
      cases hn
      rw [hpar.1]; rfl
    | cons z r ih =>
      obtain ⟨_, _, hn, -, b, -, -, -, -, hpar⟩ := hc.node (hidx y (z :: r) hs)
      cases hn
      rw [hpar.2.2, ih z ((List.suffix_cons y _).trans hs), List.length_cons]; omega
  · obtain ⟨_, _, hn, -, b, hget, hb, -⟩ := hc.node (hidx y r hs)
    cases hn
    exact ⟨b, hget, hb⟩

end Chain

/-! ## The walks -/

/-- `ancestor` stops at the first node at or below `h`, after nodes all above
it, and returns `nil` when every node is above `h`. -/
theorem ancestor_cases (l : BlockNode) (h : Int) :
    (ancestor l h = [] ∧ ∀ y ∈ l, h < y.height) ∨
      ∃ pre x rest, l = pre ++ x :: rest ∧ (∀ y ∈ pre, h < y.height) ∧ x.height ≤ h ∧
        ancestor l h = x :: rest := by
  induction l with
  | nil => exact .inl ⟨rfl, fun _ hy => absurd hy (List.not_mem_nil _)⟩
  | cons y l ih =>
    by_cases hy : y.height ≤ h
    · exact .inr ⟨[], y, l, rfl, fun _ hz => absurd hz (List.not_mem_nil _), hy,
        by simp [ancestor, hy]⟩
    have hy' : h < y.height := Int.lt_of_not_ge hy
    rcases ih with ⟨ha, hall⟩ | ⟨pre, x, rest, rfl, hpre, hx, ha⟩
    · refine .inl ⟨by simp [ancestor, hy, ha], fun z hz => ?_⟩
      rcases List.mem_cons.mp hz with rfl | hz
      exacts [hy', hall z hz]
    · refine .inr ⟨y :: pre, x, rest, rfl, fun z hz => ?_, hx, by simp [ancestor, hy, ha]⟩
      rcases List.mem_cons.mp hz with rfl | hz
      exacts [hy', hpre z hz]

/-- `ancestor` walks past nodes above `h`. -/
theorem ancestor_append {pre : BlockNode} {h : Int} (hpre : ∀ y ∈ pre, h < y.height)
    (l : BlockNode) : ancestor (pre ++ l) h = ancestor l h := by
  induction pre with
  | nil => rfl
  | cons y pre ih =>
    have hy : ¬y.height ≤ h := Int.not_le.mpr (hpre y (List.mem_cons_self y pre))
    simp only [List.cons_append, ancestor, if_neg hy]
    exact ih fun z hz => hpre z (List.mem_cons_of_mem y hz)

namespace MainChain

variable {cfg : Config} {c : Chain} {l : BlockNode}

/-- On a main chain `ancestorByCount` finds the node of every count from zero
to the top, and nothing for any other count. -/
theorem ancestorByCount (hl : MainChain cfg c l) (n : Int) :
    (0 ≤ n → n < l.length → ∃ y r, ancestorByCount l n = y :: r ∧ y :: r <:+ l ∧ y.count = n) ∧
      (n < 0 ∨ l.length ≤ n → ancestorByCount l n = []) := by
  induction l with
  | nil => exact ⟨fun h0 h1 => absurd h1 (by simp; omega), fun _ => rfl⟩
  | cons x r ih =>
    have hx : x.count = r.length := hl.count x r List.suffix_rfl
    obtain ⟨ih₁, ih₂⟩ := ih hl.tail
    simp only [SqlChain.ancestorByCount, hx, List.length_cons]
    refine ⟨fun h0 h1 => ?_, fun h => ?_⟩
    · by_cases hn : (r.length : Int) = n
      · exact ⟨x, r, if_pos hn, List.suffix_rfl, hx.trans hn⟩
      · obtain ⟨y, r', ha, hs, hy⟩ := ih₁ h0 (by omega)
        exact ⟨y, r', by rw [if_neg hn, ha], hs.trans (List.suffix_cons x r), hy⟩
    · rw [if_neg (by omega)]
      exact ih₂ (by omega)

/-- Two nodes of a main chain with one count are the same node. -/
theorem count_inj (hl : MainChain cfg c l) {x y : NodeInfo} (hx : x ∈ l) (hy : y ∈ l)
    (hxy : x.count = y.count) : x = y := by
  obtain ⟨s, r, rfl⟩ := List.mem_iff_append.mp hx
  obtain ⟨s', r', he⟩ := List.mem_iff_append.mp hy
  have hsx : x :: r <:+ s ++ x :: r := List.suffix_append s _
  have hsy : y :: r' <:+ s ++ x :: r := ⟨s', he.symm⟩
  have hlen : (x :: r).length = (y :: r').length := by
    have := hl.count x r hsx; have := hl.count y r' hsy
    simp only [List.length_cons]; omega
  rw [List.suffix_iff_eq_drop] at hsx hsy
  rw [hlen] at hsx
  exact (List.cons.inj (hsx.trans hsy.symm)).1

end MainChain

/-! ## The fetches on a reachable chain -/

variable {cfg : Config}

theorem fetchBlockByIndexKey_stored {c : Chain} {x : NodeInfo} {b : Block}
    (h : c.bdb.get (metaBlockIndex ++ x.indexKey) = some b) :
    c.fetchBlockByIndexKey x.indexKey = .ok b := by
  simp [Chain.fetchBlockByIndexKey, h]

/-- `FetchBlock` on a well-formed chain: the stored block of the first node
of the parent walk at or below the height, or no block when every node is
above it. -/
theorem fetchBlock_cases {c : Chain} (hw : c.WellFormed cfg) (h : Int) :
    ((∀ y ∈ c.rt.head.node, h < y.height) ∧ c.fetchBlock h = .ok none) ∨
      ∃ pre x rest b, c.rt.head.node = pre ++ x :: rest ∧ (∀ y ∈ pre, h < y.height) ∧
        x.height ≤ h ∧ c.bdb.get (metaBlockIndex ++ x.indexKey) = some b ∧ b.hash = x.hash ∧
        c.fetchBlock h = .ok (some b) := by
  rcases ancestor_cases c.rt.head.node h with ⟨ha, hall⟩ | ⟨pre, x, rest, hl, hpre, hx, ha⟩
  · exact .inl ⟨hall, by simp [Chain.fetchBlock, ha]⟩
  · obtain ⟨b, hget, hb⟩ := hw.mainChain.stored x rest (hl ▸ List.suffix_append pre _)
    refine .inr ⟨pre, x, rest, b, hl, hpre, hx, hget, hb, ?_⟩
    simp only [Chain.fetchBlock, ha, fetchBlockByIndexKey_stored hget]
    rfl

/-- A node of the main chain gets its own block back from `FetchBlock` at its
height exactly when every later node of the main chain is above that height. -/
theorem fetchBlock_own_iff {c : Chain} (hw : c.WellFormed cfg) {pre rest : BlockNode} {n : NodeInfo}
    (hl : c.rt.head.node = pre ++ n :: rest) :
    (∃ b, b.hash = n.hash ∧ c.fetchBlock n.height = .ok (some b)) ↔
      ∀ y ∈ pre, n.height < y.height := by
  refine ⟨fun ⟨b, hb, hf⟩ => ?_, fun hpre => ?_⟩
  · rcases fetchBlock_cases hw n.height with ⟨hall, -⟩ | ⟨pre', x, rest', b', hl', hpre', -, -, hb', hf'⟩
    · exact absurd (hall n (hl ▸ List.mem_append_right pre (List.mem_cons_self n rest))) (lt_irrefl _)
    have hbb : b' = b := Option.some.inj (Except.ok.inj (hf'.symm.trans hf))
    have hsame := (hw.mainChain.indexed x rest' (hl' ▸ List.suffix_append pre' _)).symm.trans
      (((hbb ▸ hb').symm.trans hb) ▸ hw.mainChain.indexed n rest (hl ▸ List.suffix_append pre _))
    rw [← Option.some.inj hsame, hl'] at hl
    rw [← List.append_cancel_right hl]
    exact hpre'
  · obtain ⟨b, hget, hb⟩ := hw.mainChain.stored n rest (hl ▸ List.suffix_append pre _)
    refine ⟨b, hb, ?_⟩
    simp only [Chain.fetchBlock, hl, ancestor_append hpre, ancestor, le_refl, if_true,
      fetchBlockByIndexKey_stored hget]
    rfl

/-- `registryNode`'s chain is reachable. -/
theorem registryNode_chain_reachable : registryNode.chain.Reachable registryConfig :=
  (Node.Reachable.init.run registryConfig registryRun_eq).chain_reachable
    (.coldStart registryChain_started)

/-- On a reachable chain `FetchBlock` returns the block of the latest node of
the main chain at or below the height, and no block when every node is above
it; so a node gets its own block back at its height exactly when every later
node of the main chain is above that height. -/
theorem fetchBlock_latest_at_or_below (hk : cfg.crypto.Sound) {c : Chain} (hc : c.Reachable cfg) :
    (∀ h : Int, ((∀ y ∈ c.rt.head.node, h < y.height) ∧ c.fetchBlock h = .ok none) ∨
      ∃ pre x rest b, c.rt.head.node = pre ++ x :: rest ∧ (∀ y ∈ pre, h < y.height) ∧
        x.height ≤ h ∧ c.bdb.get (metaBlockIndex ++ x.indexKey) = some b ∧ b.hash = x.hash ∧
        c.fetchBlock h = .ok (some b)) ∧
    ∀ pre n rest, c.rt.head.node = pre ++ n :: rest →
      ((∃ b, b.hash = n.hash ∧ c.fetchBlock n.height = .ok (some b)) ↔
        ∀ y ∈ pre, n.height < y.height) := by
  have hw := hc.wellFormed hk
  exact ⟨fetchBlock_cases hw, fun _ _ _ hl => fetchBlock_own_iff hw hl⟩

/-- `registryNode`'s head is `turnOneBlock`, alone at height 1, so `FetchBlock`
at height 1 returns its block. -/
theorem registryNode_fetchBlock_head :
    ∃ b, b.hash = turnOneBlock.hash ∧ registryNode.chain.fetchBlock 1 = .ok (some b) :=
  ((fetchBlock_latest_at_or_below registryCrypto_sound registryNode_chain_reachable).2 []
    ⟨turnOneBlock.hash, 1, 1⟩ [⟨genesisBlock.hash, 0, 0⟩] rfl).mpr
    fun _ h => absurd h (List.not_mem_nil _)

/-! ## Two nodes at one height -/

/-- From a cold start, `P0` pushes `P1`'s block of turn 1 and then its child of
the same height: the parent is a node of the main chain at height 1, but
`FetchBlock` at height 1 returns the child's block, which is not the
parent's. -/
theorem fetchBlock_at_shared_height_returns_child :
    Chain.newChainWithContext scenarioConfig Faults.none [] SqlState.empty = .ok coldChain ∧
      ∃ s : Node, Node.Reachable scenarioConfig coldChain s ∧
        s.chain.rt.head.node.map (fun x => (x.hash, x.height)) =
          [(turnOneChild.hash, 1), (turnOneBlock.hash, 1), (genesisBlock.hash, 0)] ∧
        s.chain.fetchBlock 1 = .ok (some turnOneChild) ∧ turnOneChild.hash ≠ turnOneBlock.hash :=
  ⟨rfl, sameTurnNode, sameTurnNode_reachable, by decide, rfl, by decide⟩

/-! ## Fetching by count -/

/-- On a reachable chain `FetchBlockByCount` answers every count: for a count
from zero to the head's, the stored block of the one main-chain node of that
count with the count and the node's height; past the head's count, no block
and no error; and for a negative count, the head's block, count and height. -/
theorem fetchBlockByCount_exact (hk : cfg.crypto.Sound) {c : Chain} (hc : c.Reachable cfg)
    (n : Int) :
    (0 ≤ n → n ≤ c.rt.head.node.count →
      ∃ x ∈ c.rt.head.node, x.count = n ∧ (∀ y ∈ c.rt.head.node, y.count = n → y = x) ∧
        ∃ b, c.bdb.get (metaBlockIndex ++ x.indexKey) = some b ∧ b.hash = x.hash ∧
          c.fetchBlockByCount n = .ok (some b, n, x.height)) ∧
    (c.rt.head.node.count < n → c.fetchBlockByCount n = .ok (none, 0, 0)) ∧
    (n < 0 → ∃ b, c.bdb.get (metaBlockIndex ++ c.rt.head.node.indexKey) = some b ∧
      b.hash = c.rt.head.head ∧
      c.fetchBlockByCount n = .ok (some b, c.rt.head.node.count, c.rt.head.height)) := by
  have hw := hc.wellFormed hk
  have hl := hw.mainChain
  obtain ⟨t, rest, ht, hh, -⟩ := hw.head_cons
  have htop : c.rt.head.node.count = rest.length := by
    rw [ht]; exact hl.count t rest (ht ▸ List.suffix_rfl)
  have hlen : (c.rt.head.node.length : Int) = rest.length + 1 := by simp [ht]
  obtain ⟨hfind, hnone⟩ := hl.ancestorByCount n
  refine ⟨fun h0 h1 => ?_, fun h1 => ?_, fun h0 => ?_⟩
  · obtain ⟨y, r, ha, hs, hy⟩ := hfind h0 (by omega)
    obtain ⟨b, hget, hb⟩ := hl.stored y r hs
    have hmem : y ∈ c.rt.head.node := hs.subset (List.mem_cons_self y r)
    refine ⟨y, hmem, hy, fun z hz hzn => hl.count_inj hz hmem (hzn.trans hy.symm), b, hget, hb, ?_⟩
    simp only [Chain.fetchBlockByCount, if_neg (Int.not_lt.mpr h0), ha,
      fetchBlockByIndexKey_stored hget, hy]
    rfl
  · simp only [Chain.fetchBlockByCount, if_neg (by omega : ¬n < 0), hnone (.inr (by omega))]
  · obtain ⟨b, hget, hb⟩ := hl.stored t rest (ht ▸ List.suffix_rfl)
    refine ⟨b, by rw [ht]; exact hget, by rw [hh, hb]; rfl, ?_⟩
    simp only [Chain.fetchBlockByCount, if_pos h0, hh, HeadState.ofNode,
      fetchBlockByIndexKey_stored hget, BlockNode.count]
    rfl

/-- On `registryNode`'s chain count 0 is the genesis node's. -/
theorem registryNode_fetchBlockByCount_genesis :
    ∃ x ∈ registryNode.chain.rt.head.node, x.count = 0 ∧
      (∀ y ∈ registryNode.chain.rt.head.node, y.count = 0 → y = x) ∧
      ∃ b, registryNode.chain.bdb.get (metaBlockIndex ++ x.indexKey) = some b ∧ b.hash = x.hash ∧
        registryNode.chain.fetchBlockByCount 0 = .ok (some b, 0, x.height) :=
  (fetchBlockByCount_exact registryCrypto_sound registryNode_chain_reachable 0).1 le_rfl (by decide)

end SqlChain
