import SqlChain.Fetch

/-!
# The body cache of the main chain

`pushBlock` caches the body of every block it pushes, the block loop of a
restart caches the body of every block it loads, and `pruneBlockCache` walks
from the head past the nodes whose count is above `head.count -
blockCacheTTL` and then drops bodies up the parent walk until a node already
has none.

On a reachable chain the cached bodies of the main chain are the nodes from
some count up to the head (`BodyWindow`), and that count is at most one past
the last count a prune keeps.  So the walk that drops bodies meets only
cached nodes until it has emptied the rest of the chain, and right after a
prune a main-chain node has its body exactly when its count is above
`head.count - blockCacheTTL` (`BodyWindow.prune`).

Every cached body is also the block of its hash (`CacheSound`).  So the walk
of `billing` reads a body for every node of the main chain, from the cache or
through `FetchBlock`. It reads the node's own block unless the body was evicted
and a later node of the main chain is at or below the node's height
(`billing_reads_main_chain_bodies`).
-/

namespace SqlChain

namespace MainChain

variable {cfg : Config} {c : Chain} {l : BlockNode}

/-- Counts fall strictly along a main chain, and stay non-negative. -/
theorem count_lt {x y : NodeInfo} {r : BlockNode} (hl : MainChain cfg c (x :: r)) (hy : y ∈ r) :
    0 ≤ y.count ∧ y.count < x.count := by
  obtain ⟨s, r', rfl⟩ := List.mem_iff_append.mp hy
  have hy' := hl.count y r' ((List.suffix_append s _).trans (List.suffix_cons x _))
  have hx := hl.count x _ List.suffix_rfl
  simp only [List.length_append, List.length_cons] at hx
  omega

/-- The top node of a main chain has its largest count. -/
theorem count_le_top (hl : MainChain cfg c l) : ∀ x ∈ l, 0 ≤ x.count ∧ x.count ≤ l.count := by
  rcases l with _ | ⟨t, r⟩
  · intro x hx; cases hx
  · intro x hx
    rcases List.mem_cons.mp hx with rfl | hx
    · exact ⟨by rw [hl.count x r List.suffix_rfl]; omega, le_rfl⟩
    · exact ⟨(hl.count_lt hx).1, (hl.count_lt hx).2.le⟩

/-- Two nodes of a main chain with one hash are the same node. -/
theorem hash_inj (hl : MainChain cfg c l) {x y : NodeInfo} (hx : x ∈ l) (hy : y ∈ l)
    (hxy : x.hash = y.hash) : x = y := by
  obtain ⟨s, r, rfl⟩ := List.mem_iff_append.mp hx
  obtain ⟨s', r', he⟩ := List.mem_iff_append.mp hy
  have hy' := hl.indexed y r' ⟨s', he.symm⟩
  rw [← hxy, hl.indexed x r (List.suffix_append s _)] at hy'
  exact (List.cons.inj (Option.some.inj hy')).1

/-- No node below the top of a main chain shares its hash. -/
theorem hash_ne_top {x y : NodeInfo} {r : BlockNode} (hl : MainChain cfg c (x :: r)) (hy : y ∈ r) :
    y.hash ≠ x.hash := fun h =>
  absurd (hl.count_lt hy).2 (by rw [hl.hash_inj (List.mem_cons_of_mem x hy) (List.mem_cons_self x r) h]; omega)

/-- The walk of `pruneBlockCache` past the counts above `t` stops at the first
node at or below `t`: on a main chain it keeps exactly those nodes. -/
theorem mem_dropWhile_iff (hl : MainChain cfg c l) (t : Int) {y : NodeInfo} (hy : y ∈ l) :
    y ∈ l.dropWhile (fun x => decide (x.count > t)) ↔ y.count ≤ t := by
  induction l with
  | nil => cases hy
  | cons x r ih =>
    rw [List.dropWhile_cons]
    by_cases hx : x.count > t
    · rw [if_pos (decide_eq_true hx)]
      rcases List.mem_cons.mp hy with rfl | hy
      · have hnot : y ∉ r := fun h => absurd (hl.count_lt h).2 (lt_irrefl _)
        exact ⟨fun h => absurd ((List.dropWhile_suffix _).subset h) hnot, fun h => absurd h (by omega)⟩
      · exact ih hl.tail hy
    · rw [if_neg (by simpa using hx)]
      rcases List.mem_cons.mp hy with rfl | hy
      · exact ⟨fun _ => by omega, fun _ => List.mem_cons_self _ _⟩
      · exact ⟨fun _ => by have := hl.count_lt hy; omega, fun _ => List.mem_cons_of_mem _ hy⟩

end MainChain

namespace Chain

variable {cfg : Config} {c : Chain}

/-- `dropBodies` leaves the bodies of nodes off the walk. -/
theorem dropBodies_of_ne (cache : Hash → Option Block) {ys : BlockNode} {g : Hash}
    (hg : ∀ y ∈ ys, y.hash ≠ g) : dropBodies cache ys g = cache g := by
  induction ys generalizing cache with
  | nil => rfl
  | cons y ys ih =>
    simp only [dropBodies]
    split_ifs
    · rfl
    · rw [ih _ fun z hz => hg z (List.mem_cons_of_mem y hz),
        if_neg (hg y (List.mem_cons_self y ys)).symm]

/-- On a main chain whose bodies are those from count `k` up, `dropBodies`
empties the whole walk: it stops only at a node without a body, and every node
below that one has none either. -/
theorem dropBodies_clears {cache : Hash → Option Block} {ys : BlockNode} {k : Int}
    (hm : MainChain cfg c ys) (hbody : ∀ y ∈ ys, (cache y.hash).isSome ↔ k ≤ y.count) :
    ∀ y ∈ ys, dropBodies cache ys y.hash = none := by
  induction ys generalizing cache with
  | nil => intro y hy; cases hy
  | cons x r ih =>
    intro y hy
    simp only [dropBodies]
    split_ifs with hx
    · -- `x` has no body, so no node below it has one
      have hxk : ¬k ≤ x.count := by simpa [hx] using hbody x (List.mem_cons_self x r)
      rcases List.mem_cons.mp hy with rfl | hy
      · exact hx
      · have hyx := (hm.count_lt hy).2
        exact Option.not_isSome_iff_eq_none.mp fun hs =>
          hxk (by have := (hbody y (List.mem_cons_of_mem x hy)).mp hs; omega)
    · rcases List.mem_cons.mp hy with rfl | hy
      · rw [dropBodies_of_ne _ fun z hz => hm.hash_ne_top hz]
        simp
      · refine ih hm.tail (fun w hw => ?_) y hy
        rw [if_neg (hm.hash_ne_top hw)]
        exact hbody w (List.mem_cons_of_mem x hw)

/-- Dropping bodies from the first main-chain node at or below `t` leaves a
node its body exactly when its count is above `t`, provided the bodies were
those from a count `k` at most one past `t` up. -/
theorem dropBodies_window {cache : Hash → Option Block} {l : BlockNode} {k t : Int}
    (hm : MainChain cfg c l) (hk : k ≤ 0 ∨ k ≤ t + 1)
    (hbody : ∀ x ∈ l, (cache x.hash).isSome ↔ k ≤ x.count) :
    ∀ x ∈ l, (dropBodies cache (l.dropWhile fun y => decide (y.count > t)) x.hash).isSome ↔
      t < x.count := by
  intro x hx
  have hx0 := (hm.count_le_top x hx).1
  by_cases hxt : x.count ≤ t
  · have hxd := (hm.mem_dropWhile_iff t hx).mpr hxt
    have hsuf := List.dropWhile_suffix (l := l) fun y => decide (y.count > t)
    rw [dropBodies_clears (hm.suffix hsuf) (fun y hy => hbody y (hsuf.subset hy)) x hxd]
    simp only [Option.isSome_none, Bool.false_eq_true, false_iff]
    omega
  · have hne : ∀ y ∈ l.dropWhile fun y => decide (y.count > t), y.hash ≠ x.hash := by
      intro y hy he
      have hyl := (List.dropWhile_suffix _).subset hy
      rw [hm.hash_inj hyl hx he] at hy
      exact hxt ((hm.mem_dropWhile_iff t hx).mp hy)
    rw [dropBodies_of_ne _ hne, hbody x hx]
    omega

end Chain

/-- The cached bodies of the main chain are those of the nodes from some count
`k` up to the head, and `k` is at most zero or at most one past the last count
a prune of the chain keeps. -/
def BodyWindow (cfg : Config) (c : Chain) : Prop :=
  ∃ k : Int, (k ≤ 0 ∨ k ≤ c.rt.head.node.count - cfg.rc.blockCacheTTL + 1) ∧
    ∀ x ∈ c.rt.head.node, (c.cache x.hash).isSome ↔ k ≤ x.count

namespace BodyWindow

variable {cfg : Config} {c : Chain}

theorem of_nil (h : c.rt.head.node = []) : BodyWindow cfg c :=
  ⟨0, .inl le_rfl, by simp [h]⟩

/-- Right after `pruneBlockCache`, a main-chain node has its body exactly when
its count is above `head.count - blockCacheTTL`. -/
theorem prune (hm : MainChain cfg c c.rt.head.node) (hb : BodyWindow cfg c) :
    ∀ x ∈ c.rt.head.node, ((c.pruneBlockCache cfg).cache x.hash).isSome ↔
      c.rt.head.node.count - cfg.rc.blockCacheTTL < x.count := by
  obtain ⟨k, hk, hbody⟩ := hb
  unfold Chain.pruneBlockCache
  split
  · rename_i hnil; simp [hnil]
  · rename_i n rest hl
    rw [hl] at hm hk hbody ⊢
    exact Chain.dropBodies_window hm hk hbody

/-- A prune keeps a body window. -/
theorem of_prune (hm : MainChain cfg c c.rt.head.node) (hb : BodyWindow cfg c) :
    BodyWindow cfg (c.pruneBlockCache cfg) := by
  refine ⟨c.rt.head.node.count - cfg.rc.blockCacheTTL + 1, .inr (by simp), fun x hx => ?_⟩
  rw [Chain.pruneBlockCache_rt] at hx
  rw [hb.prune hm x hx]
  omega

/-- A push of a block off the main chain keeps a body window: the new head has
its body, and the window grows down to it if it was empty. -/
theorem extend {b : Block} (htop : ∀ x ∈ c.rt.head.node, x.count ≤ c.rt.head.node.count)
    (hfresh : ∀ y ∈ c.rt.head.node, y.hash ≠ b.hash) (hb : BodyWindow cfg c) :
    BodyWindow cfg (c.extend cfg b) := by
  obtain ⟨k, hk, hbody⟩ := hb
  have hcache : ∀ g, (c.extend cfg b).cache g = if g = b.hash then some b else c.cache g :=
    fun _ => rfl
  rcases hl : c.rt.head.node with _ | ⟨t, rest⟩
  · refine ⟨0, .inl le_rfl, fun x hx => ?_⟩
    simp only [Chain.extend_head, Chain.pushNode_eq, hl, HeadState.ofNode,
      List.mem_singleton] at hx
    subst hx
    simp [hcache]
  · rw [hl] at hk hbody htop hfresh
    have hhead : (c.extend cfg b).rt.head.node =
        ⟨b.hash, c.heightOf cfg b.timestamp, t.count + 1⟩ :: t :: rest := by
      simp [Chain.pushNode_eq, hl, HeadState.ofNode]
    refine ⟨min k (t.count + 1), ?_, fun x hx => ?_⟩
    · simp only [hhead, BlockNode.count] at hk ⊢
      omega
    rw [hhead] at hx
    rcases List.mem_cons.mp hx with rfl | hx
    · simp [hcache]
    · rw [hcache, if_neg (hfresh x hx), hbody x hx]
      have := htop x hx
      simp only [BlockNode.count] at this
      omega

end BodyWindow

namespace Chain

variable {cfg : Config}

/-- A verified block extending the head of a well-formed chain is not on its
main chain. -/
theorem WellFormed.pushed_off_main {c : Chain} (hc : c.WellFormed cfg) (hk : cfg.crypto.Sound)
    {b : Block} (hv : cfg.crypto.verify b = true) (hp : b.parentHash = c.rt.head.head) :
    ∀ y ∈ c.rt.head.node, y.hash ≠ b.hash := by
  intro y hy he
  obtain ⟨s, r, hs⟩ := List.mem_iff_append.mp hy
  have hsuf : y :: r <:+ c.rt.head.node := ⟨s, hs.symm⟩
  have hy' := hc.mainChain.indexed y r hsuf
  rw [he] at hy'
  rcases hc.fresh_or_same hk hv hp with h | h <;> rw [h] at hy'
  · cases hy'
  · have hlen := congrArg List.length (Option.some.inj hy')
    have := hsuf.length_le
    simp only [pushNode_eq, List.length_cons] at hlen this
    omega

/-- Every cached body is the block of its hash. -/
def CacheSound (cache : Hash → Option Block) : Prop :=
  ∀ g b, cache g = some b → b.hash = g

theorem CacheSound.update {cache : Hash → Option Block} (hs : CacheSound cache) (b : Block) :
    CacheSound fun g => if g = b.hash then some b else cache g := by
  intro g b' h
  dsimp only at h
  split_ifs at h with hg
  · cases h; exact hg.symm
  · exact hs g b' h

theorem CacheSound.drop {cache cache' : Hash → Option Block} (hs : CacheSound cache)
    (h : ∀ g, cache' g = cache g ∨ cache' g = none) : CacheSound cache' := by
  intro g b hg
  rcases h g with h | h <;> rw [h] at hg
  · exact hs g b hg
  · cases hg

/-- One iteration of the block loop keeps the head, indexes only the node of
its block, and caches that block as its body. -/
theorem loadBlock_ok {cn cn' : Chain} {last node : BlockNode} {b : Block}
    (h : cn.loadBlock cfg last b = .ok (cn', node)) :
    cn'.rt.head = cn.rt.head ∧ (∀ g, cn'.bi g ≠ none → g = b.hash ∨ cn.bi g ≠ none) ∧
      cn'.cache = fun g => if g = b.hash then some b else cn.cache g := by
  unfold Chain.loadBlock at h
  cases hl : cn.loadParent cfg last b with
  | error e => rw [hl] at h; cases h
  | ok p =>
    obtain ⟨cn₁, parent⟩ := p
    rw [hl] at h
    simp only [Except.map, Except.ok.injEq, Prod.mk.injEq] at h
    obtain ⟨rfl, rfl⟩ := h
    have key : cn₁.rt.head = cn.rt.head ∧ cn₁.bi = cn.bi ∧ cn₁.cache = cn.cache := by
      rcases loadParent_ok hl with ⟨-, -, -, rfl⟩ | ⟨rfl, -⟩ <;> exact ⟨rfl, rfl, rfl⟩
    refine ⟨key.1, fun g hg => ?_, by rw [← key.2.2]⟩
    simp only [newBlockNode, addBlock_cons] at hg
    split_ifs at hg with hgb
    · exact .inl hgb
    · exact .inr (key.2.1 ▸ hg)

/-- The block loop keeps the head, caches the body of every node it indexes,
and caches bodies under their own hashes only. -/
theorem loadBlocks_cached : ∀ {L : Store} {cn cn' : Chain} {last last' : BlockNode},
    (∀ g, cn.bi g ≠ none → (cn.cache g).isSome) → CacheSound cn.cache →
      loadBlocks cfg cn last L = .ok (cn', last') →
      cn'.rt.head = cn.rt.head ∧ (∀ g, cn'.bi g ≠ none → (cn'.cache g).isSome) ∧
        CacheSound cn'.cache
  | [], _, _, _, _, hc, hs, h => by cases h; exact ⟨rfl, hc, hs⟩
  | (_, b) :: L, cn, cn', last, last', hc, hs, h => by
    simp only [Chain.loadBlocks] at h
    split at h
    · rename_i cn₁ _ hlb
      obtain ⟨hh₁, hbi₁, hcache₁⟩ := loadBlock_ok hlb
      have hc₁ : ∀ g, cn₁.bi g ≠ none → (cn₁.cache g).isSome := fun g hg => by
        simp only [hcache₁]
        split_ifs with hgb
        · rfl
        · exact hc g ((hbi₁ g hg).resolve_left hgb)
      obtain ⟨hh, hc', hs'⟩ := loadBlocks_cached hc₁ (hcache₁ ▸ hs.update b) h
      exact ⟨hh.trans hh₁, hc', hs'⟩
    · cases h

end Chain

/-- What every reachable chain keeps of its body cache: the bodies of the main
chain form a window at the head, and every cached body is the block of its
hash. -/
structure BodyCacheInv (cfg : Config) (c : Chain) : Prop where
  window : BodyWindow cfg c
  sound : Chain.CacheSound c.cache

namespace Chain

variable {cfg : Config}

/-- `NewChainWithContext` gives the body cache invariant: after a cold start
the genesis block alone is cached, and after a restart every loaded body,
pruned. -/
theorem newChainWithContext_bodyCache {f : Faults} {bdb : Store} {st : SqlState} {c' : Chain}
    (hw : c'.WellFormed cfg) (h : newChainWithContext cfg f bdb st = .ok c') :
    BodyCacheInv cfg c' := by
  unfold newChainWithContext at h
  cases hl : loadBlocks cfg (opened cfg bdb st) [] (bdb.iter metaBlockIndex) with
  | error e => rw [hl] at h; cases h
  | ok p =>
    obtain ⟨cn, last⟩ := p
    rw [hl] at h
    obtain ⟨hhead, hcached, hs⟩ :=
      loadBlocks_cached (fun _ hg => absurd rfl hg) (fun _ _ hg => by cases hg) hl
    have hnil : cn.rt.head.node = [] := by rw [hhead]; rfl
    rcases last with _ | ⟨x, rest⟩
    · -- no stored block: the genesis block is pushed on the empty head
      simp only at h
      cases hg : cfg.genesis with
      | none => rw [hg] at h; cases h
      | some g =>
        rw [hg] at h
        simp only [genesis] at h
        split_ifs at h
        obtain ⟨-, rfl⟩ := pushBlock_ok h
        exact ⟨BodyWindow.extend (by simp [hnil]) (by simp [hnil]) (BodyWindow.of_nil hnil),
          hs.update g⟩
    · -- every loaded node has its body before the prune
      simp only [Except.ok.injEq] at h
      subst h
      set c₁ : Chain := { cn with rt := cn.rt.setHead (HeadState.ofNode (x :: rest)) }
      have hw₁ : c₁.WellFormed cfg := hw.frame (by simp) (by simp) (by simp) (by simp)
      have hm := hw₁.mainChain
      refine ⟨BodyWindow.of_prune hm ⟨0, .inl le_rfl, fun y hy => ?_⟩,
        hs.drop (pruneBlockCache_keeps cfg c₁).2.2.2⟩
      obtain ⟨s, r, hs⟩ := List.mem_iff_append.mp hy
      have hsuf : y :: r <:+ c₁.rt.head.node := ⟨s, hs.symm⟩
      have hidx : cn.bi y.hash ≠ none := by
        rw [show cn.bi = c₁.bi from rfl, hm.indexed y r hsuf]; simp
      simp only [show c₁.cache = cn.cache from rfl, hcached _ hidx, true_iff]
      exact (hm.count_le_top y hy).1

/-- Every reachable chain keeps the body cache invariant. -/
theorem Reachable.bodyCacheInv (hk : cfg.crypto.Sound) {c : Chain} (h : c.Reachable cfg) :
    BodyCacheInv cfg c := by
  induction h with
  | coldStart h => exact newChainWithContext_bodyCache (coldStart_wellFormed hk h) h
  | restart hc h _ =>
    exact newChainWithContext_bodyCache ((hc.wellFormed hk).restart_wellFormed hk h) h
  | @checkAndPush c f b hc ih =>
    rcases checkAndPushNewBlock_fst f c b with ⟨st, h⟩ | ⟨hp, hv, st, h⟩
    · rw [h]; exact ⟨ih.1, ih.2⟩
    · have hst : WellFormed cfg { c with st := st } := (hc.wellFormed hk).frame rfl rfl rfl rfl
      rw [h]
      exact ⟨BodyWindow.extend (fun x hx => (hst.mainChain.count_le_top x hx).2)
        (hst.pushed_off_main hk hv hp) ih.window, ih.sound.update b⟩
  | prune hc ih =>
    exact ⟨BodyWindow.of_prune (hc.wellFormed hk).mainChain ih.window,
      ih.sound.drop (pruneBlockCache_keeps cfg _).2.2.2⟩
  | nextTurn _ ih | ackIndex _ _ ih | sqlState _ _ ih => exact ⟨ih.1, ih.2⟩

end Chain

variable {cfg : Config}

/-- On a reachable chain the cached bodies of the main chain are those of the
nodes from some count up to the head; a node within `blockCacheTTL` counts of
the head always has its body; and right after `pruneBlockCache` a main-chain
node has its body exactly when its count is above `head.count -
blockCacheTTL`. -/
theorem body_cache_window_after_prune (hk : cfg.crypto.Sound) {c : Chain} (hc : c.Reachable cfg) :
    (∃ k : Int, ∀ x ∈ c.rt.head.node, (c.cache x.hash).isSome ↔ k ≤ x.count) ∧
      (∀ x ∈ c.rt.head.node, c.rt.head.node.count - cfg.rc.blockCacheTTL < x.count →
        (c.cache x.hash).isSome) ∧
      ∀ x ∈ c.rt.head.node, ((c.pruneBlockCache cfg).cache x.hash).isSome ↔
        c.rt.head.node.count - cfg.rc.blockCacheTTL < x.count := by
  obtain ⟨k, hk', hbody⟩ := (hc.bodyCacheInv hk).window
  have hm := (hc.wellFormed hk).mainChain
  refine ⟨⟨k, hbody⟩, fun x hx hlt => ?_, BodyWindow.prune hm ⟨k, hk', hbody⟩⟩
  exact (hbody x hx).mpr (by have := (hm.count_le_top x hx).1; omega)

/-- On `registryNode`'s chain, whose head is `turnOneBlock` at count 1, the
genesis block keeps its body through a prune with a thirty-count window. -/
theorem registryNode_prune_keeps_genesis :
    ((registryNode.chain.pruneBlockCache registryConfig).cache genesisBlock.hash).isSome = true :=
  ((body_cache_window_after_prune registryCrypto_sound registryNode_chain_reachable).2.2
    ⟨genesisBlock.hash, 0, 0⟩ (by decide)).mpr (by decide)

/-! ## What `billing` reads -/

/-- A monadic map in `Except` succeeds when it succeeds on each element. -/
theorem mapM_ok_of_forall {α β ε : Type} {f : α → Except ε β} :
    ∀ {l : List α}, (∀ x ∈ l, ∃ b, f x = .ok b) → ∃ bs, l.mapM f = .ok bs
  | [], _ => ⟨[], rfl⟩
  | x :: l, h => by
    obtain ⟨b, hb⟩ := h x (List.mem_cons_self x l)
    obtain ⟨bs, hbs⟩ := mapM_ok_of_forall fun y hy => h y (List.mem_cons_of_mem x hy)
    exact ⟨b :: bs, by rw [List.mapM_cons, hb, hbs]; rfl⟩

namespace Chain

variable {c : Chain}

/-- `billing` reads a body for every node of the main chain of a well-formed
chain: the cached one, or the block `FetchBlock` finds at the node's height. -/
theorem billingBody_ok (hw : c.WellFormed cfg) {n : NodeInfo} (hn : n ∈ c.rt.head.node) :
    ∃ b, c.billingBody n = .ok b := by
  cases hcache : c.cache n.hash with
  | some b => exact ⟨b, by simp only [billingBody, hcache]⟩
  | none =>
    rcases fetchBlock_cases hw n.height with ⟨hall, -⟩ | ⟨-, -, -, b, -, -, -, -, -, hf⟩
    · exact absurd (hall n hn) (lt_irrefl _)
    · exact ⟨b, by simp only [billingBody, hcache, hf]⟩

/-- The body `billing` reads for a node of the main chain is the node's own
block exactly when the node's body is cached or every later node of the main
chain is above its height. -/
theorem billingBody_own_iff (hw : c.WellFormed cfg) (hs : CacheSound c.cache)
    {pre rest : BlockNode} {n : NodeInfo} (hl : c.rt.head.node = pre ++ n :: rest) :
    (∃ b, c.billingBody n = .ok b ∧ b.hash = n.hash) ↔
      (c.cache n.hash).isSome ∨ ∀ y ∈ pre, n.height < y.height := by
  cases hcache : c.cache n.hash with
  | some b => simpa [billingBody, hcache] using hs _ _ hcache
  | none =>
    rw [← fetchBlock_own_iff hw hl]
    cases hf : c.fetchBlock n.height with
    | error e => simp [billingBody, hcache, hf]
    | ok o => cases o <;> simp [billingBody, hcache, hf, and_comm]

end Chain

/-- On a reachable chain `billing` reads a body for every node of any window
of the main chain, so its walk never fails on a missing block; and the body it
reads for a node is the node's own block exactly when the node's body is
cached or every later node of the main chain is above the node's height. -/
theorem billing_reads_main_chain_bodies (hk : cfg.crypto.Sound) {c : Chain} (hc : c.Reachable cfg) :
    (∀ k : Nat, ∃ bs, (c.rt.head.node.take k).mapM c.billingBody = .ok bs) ∧
      ∀ pre n rest, c.rt.head.node = pre ++ n :: rest →
        ((∃ b, c.billingBody n = .ok b ∧ b.hash = n.hash) ↔
          (c.cache n.hash).isSome ∨ ∀ y ∈ pre, n.height < y.height) := by
  have hw := hc.wellFormed hk
  exact ⟨fun _ => mapM_ok_of_forall fun _ hx => Chain.billingBody_ok hw (List.mem_of_mem_take hx),
    fun _ _ _ hl => Chain.billingBody_own_iff hw (hc.bodyCacheInv hk).sound hl⟩

/-- `billing` reads both bodies of `registryNode`'s main chain. -/
theorem registryNode_billing_reads :
    ∃ bs, (registryNode.chain.rt.head.node.take 2).mapM registryNode.chain.billingBody = .ok bs :=
  (billing_reads_main_chain_bodies registryCrypto_sound registryNode_chain_reachable).1 2

end SqlChain
