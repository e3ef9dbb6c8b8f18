import SqlChain.NodeRuns

/-!
# Reopening a store whose heights increase

`NewChainWithContext` walks the `BLCK` entries in key order and needs each
block's parent to be loaded before the block itself.  A key starts with the
big-endian height, so on heights in `[0, 2 ^ 31)` key order follows height
order.  When heights strictly increase along every parent link of the index, a
parent's key therefore comes before its child's.  Reopening the store of a
reachable chain then succeeds: it rebuilds the index exactly and takes a node
of the greatest height as the head (`Chain.Reachable.reopen`).

Along a run of one node from a cold start every indexed node lies on the main
chain, and every stored block is the block of a main-chain node: a node keeps
no fork (`node_keeps_no_fork`).  `CheckAndPushNewBlock` pushes only children of
the head, and `processBlocks` drops a block of a past turn.  So when heights
strictly increase along the main chain, reopening gives back the very head
(`reopen_after_run_restores_head`).  A second block in one
turn breaks the condition, and reopening then fails.
-/

namespace SqlChain

/-! ## Keys in bytewise order -/

theorem key_lt_irrefl (a : List UInt8) : ¬ List.lt a a :=
  List.lt_irrefl (fun _ h => by rw [byte_lt_iff] at h; omega) a

theorem key_lt_trans {a b c : List UInt8} (h₁ : List.lt a b) (h₂ : List.lt b c) : List.lt a c :=
  List.lt_trans (fun h h' => by rw [byte_lt_iff] at *; omega)
    (fun h h' h'' => by rw [byte_lt_iff] at *; omega) h₁ h₂

theorem key_eq_of_not_lt {a b : List UInt8} (h₁ : ¬ List.lt a b) (h₂ : ¬ List.lt b a) : a = b :=
  List.lt_antisymm (fun h h' => UInt8.toNat.inj (by rw [byte_lt_iff] at h h'; omega)) h₁ h₂

/-- On heights in `[0, 2 ^ 31)` the block keys of two nodes compare as their
heights. -/
theorem blockKey_lt {x y : NodeInfo} (h0 : 0 ≤ x.height) (hxy : x.height < y.height)
    (hy : y.height < 2 ^ 31) :
    List.lt (metaBlockIndex ++ x.indexKey) (metaBlockIndex ++ y.indexKey) := by
  have hlt : (x.height % 2 ^ 32).toNat < (y.height % 2 ^ 32).toNat := by omega
  have hk : (y.height % 2 ^ 32).toNat < 2 ^ 32 := by omega
  exact append_lt_append_left _ (putUint32_append_lt hlt hk _ _)

namespace Store

/-- `iter` lists the entries in bytewise key order. -/
theorem iter_sorted (s : Store) (tag : List UInt8) :
    (s.iter tag).Pairwise fun a b => ¬ List.lt b.1 a.1 := by
  haveI : IsTotal (List UInt8 × Block) (fun a b => a.1 ≤ b.1) := ⟨fun a b => by
    by_cases h : List.lt b.1 a.1
    · exact .inr fun h' => key_lt_irrefl _ (key_lt_trans h h')
    · exact .inl h⟩
  haveI : IsTrans (List UInt8 × Block) (fun a b => a.1 ≤ b.1) := ⟨fun a b c hab hbc hca => by
    by_cases h : List.lt a.1 b.1
    · exact hbc (key_lt_trans hca h)
    · exact hbc (key_eq_of_not_lt h hab ▸ hca)⟩
  exact List.sorted_insertionSort (fun a b : List UInt8 × Block => a.1 ≤ b.1) _

theorem iter_nodup (s : Store) (tag : List UInt8) (h : (s.map (·.1)).Nodup) : (s.iter tag).Nodup :=
  (List.perm_insertionSort _ _).nodup_iff.mpr ((List.Nodup.of_map _ h).filter _)

end Store

namespace Chain

variable {cfg : Config}

/-! ## Entries in key order -/

/-- Heights in `[0, 2 ^ 31)` that strictly increase along every parent link of
the index. -/
structure HeightsOrdered (c : Chain) : Prop where
  range : ∀ g x rest, c.bi g = some (x :: rest) → 0 ≤ x.height ∧ x.height < 2 ^ 31
  increase : ∀ g x y rest, c.bi g = some (x :: y :: rest) → y.height < x.height

section Order

variable {c : Chain} (hw : c.WellFormed cfg) (ho : c.HeightsOrdered)
include hw ho

/-- The parent of a stored block is stored under a smaller key. -/
theorem parent_key_lt {k : List UInt8} {b : Block} (he : (k, b) ∈ c.bdb)
    (hz : b.parentHash ≠ Hash.zero) :
    ∃ p ∈ c.bdb, p.2.hash = b.parentHash ∧ List.lt p.1 k := by
  obtain ⟨x, rest, hx, rfl, -, -, -, hpar⟩ := hw.entry he
  rcases rest with _ | ⟨y, r⟩
  · exact absurd hpar.2.1 hz
  obtain ⟨y', r', hy, hyh, bz, hget, hbz, -⟩ := hw.node hpar.1
  cases hy
  have hxy := ho.increase _ _ _ _ hx
  refine ⟨_, Store.mem_of_get _ hget, hbz.trans (hyh.trans hpar.2.1.symm), ?_⟩
  exact blockKey_lt (ho.range _ _ _ hpar.1).1 hxy (ho.range _ _ _ hx).2

/-- A stored block without a parent is stored under the smallest key. -/
theorem root_key_lt (hk : cfg.crypto.Sound) (hroots : c.RootsGenesis cfg) {k k' : List UInt8} {b b' : Block}
    (he : (k, b) ∈ c.bdb) (he' : (k', b') ∈ c.bdb) (hz : b.parentHash = Hash.zero)
    (hne : (k', b') ≠ (k, b)) : List.lt k k' := by
  obtain ⟨x, rest, hx, rfl, -, -, hht, hpar⟩ := hw.entry he
  obtain ⟨x', rest', hx', rfl, -, -, -, hpar'⟩ := hw.entry he'
  rcases rest with _ | ⟨y, r⟩
  swap
  · exact absurd (hpar.2.1.symm.trans hz) (hw.hash_ne_zero hk hpar.1)
  have h0 : x.height = 0 := by
    rw [← hht]; simp [heightOf, Runtime.getHeightFromTime, hpar.2.2]
  rcases rest' with _ | ⟨y', r'⟩
  · -- two roots: both are the genesis block
    have hbb : b' = b := Option.some.inj (((hroots _ he' hpar'.2.1).1.symm).trans (hroots _ he hz).1)
    subst hbb
    rw [hx'] at hx
    obtain ⟨rfl, -⟩ := List.cons.inj (Option.some.inj hx)
    exact absurd rfl hne
  · have := ho.increase _ _ _ _ hx'
    have := (ho.range _ _ _ hpar'.1).1
    exact blockKey_lt (by omega) (by omega) (ho.range _ _ _ hx').2

/-- The entry last in key order is the block of an indexed node of the
greatest height. -/
theorem height_le_of_last_key {L : Store} {e : List UInt8 × Block}
    (hL : c.bdb.iter metaBlockIndex = L ++ [e]) {x : NodeInfo} {rest : BlockNode}
    (hx : c.bi x.hash = some (x :: rest)) (hek : e.1 = metaBlockIndex ++ x.indexKey) {g : Hash}
    {z : NodeInfo} {r : BlockNode} (hz : c.bi g = some (z :: r)) : z.height ≤ x.height := by
  obtain ⟨z', r', hz', -, bz, hgetz, -⟩ := hw.node hz
  cases hz'
  by_contra hlt
  have hzL : (metaBlockIndex ++ z.indexKey, bz) ∈ L ++ [e] := hL ▸
    (Store.mem_iter _).mpr ⟨Store.mem_of_get _ hgetz, List.prefix_append _ _⟩
  have hkey : List.lt e.1 (metaBlockIndex ++ z.indexKey) := hek ▸
    blockKey_lt (ho.range _ _ _ hx).1 (by omega) (ho.range _ _ _ hz).2
  have hsort := Store.iter_sorted c.bdb metaBlockIndex
  rw [hL] at hsort
  rcases List.mem_append.mp hzL with hzL | hzL
  · exact (List.pairwise_append.mp hsort).2.2 _ hzL e (List.mem_singleton_self _) hkey
  · rw [List.mem_singleton] at hzL
    subst hzL
    exact key_lt_irrefl _ hkey

end Order

/-! ## The block loop -/

/-- The block loop can take the entries `L` once it has loaded the blocks with
hashes `done`: the first block verifies as genesis, and each later one has a
parent among the blocks loaded before it. -/
def Ready (cfg : Config) : List Hash → Store → Prop
  | _, [] => True
  | done, (_, b) :: L =>
      (done = [] → cfg.crypto.verifyAsGenesis b = true) ∧
        (done ≠ [] → b.parentHash ≠ Hash.zero ∧ b.parentHash ∈ done) ∧
        Ready cfg (done ++ [b.hash]) L

/-- One iteration of the block loop succeeds on a block that is ready. -/
theorem loadBlock_ok_of_ready {c cn : Chain} (hc : c.WellFormed cfg) (hk : cfg.crypto.Sound)
    {last : BlockNode} {k : List UInt8} {b : Block} (he : (k, b) ∈ c.bdb)
    (hfirst : last = [] → cfg.crypto.verifyAsGenesis b = true)
    (hnext : last ≠ [] → b.parentHash ≠ Hash.zero ∧ cn.bi b.parentHash ≠ none) :
    ∃ r, cn.loadBlock cfg last b = .ok r := by
  suffices ∃ r, cn.loadParent cfg last b = .ok r by
    obtain ⟨r, hr⟩ := this
    exact ⟨_, by rw [loadBlock, hr]; rfl⟩
  rcases last with _ | ⟨l, ls⟩
  · exact ⟨_, by rw [loadParent, if_pos (hfirst rfl)]⟩
  obtain ⟨hz, hn⟩ := hnext (List.cons_ne_nil _ _)
  by_cases hp : b.parentHash = l.hash
  · -- the fast path verifies the block, which has a parent and so is no genesis
    obtain ⟨-, -, -, -, -, hs, -⟩ := hc.entry he
    have hv : cfg.crypto.verify b = true := hs.resolve_right fun hg => hz (hk.genesis_parent b hg)
    exact ⟨_, by rw [loadParent, if_pos hp, if_pos hv]⟩
  · obtain ⟨n, hn'⟩ := Option.ne_none_iff_exists'.mp hn
    exact ⟨_, by rw [loadParent, if_neg hp, hn']⟩

/-- The block loop succeeds on ready entries of `c`'s store, and ends on the
node of the last one. -/
theorem loadBlocks_ok_of_ready {c : Chain} (hc : c.WellFormed cfg) (hk : cfg.crypto.Sound) :
    ∀ (L : Store) {cn : Chain} {last : BlockNode} {done : List Hash}, LoadInv c cn last →
      (∀ h ∈ done, cn.bi h ≠ none) → (last = [] ↔ done = []) → (∀ e ∈ L, e ∈ c.bdb) →
      Ready cfg done L →
      ∃ cn' last', loadBlocks cfg cn last L = .ok (cn', last') ∧
        ∀ e, L.getLast? = some e → cn'.bi e.2.hash = some last'
  | [], cn, last, _, _, _, _, _, _ => ⟨cn, last, rfl, by simp⟩
  | (k, b) :: L, cn, last, done, hI, hd, hl, hL, ⟨hfirst, hnext, hr⟩ => by
    have he : (k, b) ∈ c.bdb := hL _ (List.mem_cons_self _ _)
    obtain ⟨⟨cn₁, node⟩, h₁⟩ := loadBlock_ok_of_ready hc hk he (fun h => hfirst (hl.mp h))
      fun h => let ⟨hz, hin⟩ := hnext (mt hl.mpr h); ⟨hz, hd _ hin⟩
    obtain ⟨hI₁, hb₁, hmono₁⟩ := hI.loadBlock hc hk he h₁
    have hnode : node ≠ [] := by
      rintro rfl
      rcases hI₁.last with ⟨-, hnone⟩ | ⟨_, _, h, -⟩
      · exact absurd hb₁ (by simp [hnone])
      · cases h
    obtain ⟨cn', last', hrun, hlast⟩ := loadBlocks_ok_of_ready hc hk L hI₁
      (fun h hh => (List.mem_append.mp hh).elim (fun hh => hmono₁ h (hd h hh))
        fun hh => by rw [List.mem_singleton.mp hh, hb₁]; simp)
      (by simp [hnode]) (fun e he => hL e (List.mem_cons_of_mem _ he)) hr
    refine ⟨cn', last', by simp only [loadBlocks, h₁, hrun], fun e he' => ?_⟩
    rcases L with _ | ⟨e₁, L⟩
    · cases hrun
      obtain rfl : (k, b) = e := by simpa using he'
      exact hb₁
    · exact hlast e (by simpa [List.getLast?_cons_cons] using he')

/-- The entries of a well-formed store in key order are ready when heights
increase. -/
theorem ready_iter {c : Chain} (hw : c.WellFormed cfg) (hk : cfg.crypto.Sound)
    (ho : c.HeightsOrdered) (hroots : c.RootsGenesis cfg) :
    ∀ (L pre : Store), pre ++ L = c.bdb.iter metaBlockIndex → Ready cfg (pre.map (·.2.hash)) L
  | [], _, _ => trivial
  | (k, b) :: L, pre, hI => by
    have hmem : ∀ e, e ∈ c.bdb ↔ e ∈ pre ++ (k, b) :: L := fun e => by
      rw [hI, Store.mem_iter]
      refine ⟨fun he => ⟨he, ?_⟩, And.left⟩
      obtain ⟨_, _, -, hek⟩ := hw.stored e.1 e.2 he
      rw [hek]
      exact List.prefix_append _ _
    have hkb : (k, b) ∈ c.bdb := (hmem _).mpr (by simp)
    have hsort := Store.iter_sorted c.bdb metaBlockIndex
    have hnd := Store.iter_nodup c.bdb metaBlockIndex hw.keys_nodup
    rw [← hI] at hsort hnd
    obtain ⟨-, hsort₂, hcross⟩ := List.pairwise_append.mp hsort
    -- the parent of a block with one was loaded before it
    have hparent : b.parentHash ≠ Hash.zero → ∃ p ∈ pre, p.2.hash = b.parentHash := fun hz => by
      obtain ⟨p, hp, hph, hlt⟩ := parent_key_lt hw ho hkb hz
      rcases List.mem_append.mp ((hmem p).mp hp) with hp | hp
      · exact ⟨p, hp, hph⟩
      · rcases List.mem_cons.mp hp with rfl | hp
        · exact absurd hlt (key_lt_irrefl _)
        · exact absurd hlt ((List.pairwise_cons.mp hsort₂).1 p hp)
    refine ⟨fun hpre => ?_, fun hpre => ?_, ?_⟩
    · -- the first block has no parent, so it is the genesis block
      have hz : b.parentHash = Hash.zero := by
        by_contra hz
        obtain ⟨p, hp, -⟩ := hparent hz
        simp_all
      exact (hroots _ hkb hz).2
    · -- a later block is no root, since the root has the smallest key
      have hz : b.parentHash ≠ Hash.zero := fun hz => by
        obtain ⟨a, ha⟩ := List.exists_mem_of_ne_nil pre (by simpa using hpre)
        have hne : a ≠ (k, b) := fun hab =>
          (List.nodup_append.mp hnd).2.2 ha (by rw [hab]; exact List.mem_cons_self _ _)
        exact hcross a ha (k, b) (List.mem_cons_self _ _)
          (root_key_lt hw ho hk hroots hkb ((hmem a).mpr (List.mem_append_left _ ha)) hz hne)
      obtain ⟨p, hp, hph⟩ := hparent hz
      exact ⟨hz, hph ▸ List.mem_map_of_mem _ hp⟩
    · simpa using ready_iter hw hk ho hroots L (pre ++ [(k, b)]) (by rw [← hI]; simp)

/-- Reopening the store of a reachable chain whose heights increase succeeds:
it rebuilds the index exactly, keeps the store and the clock, and takes an
indexed node of the greatest height as the head. -/
theorem Reachable.reopen (hk : cfg.crypto.Sound) {c : Chain} (hc : c.Reachable cfg)
    (ho : c.HeightsOrdered) (f : Faults) (st : SqlState) :
    ∃ c', newChainWithContext cfg f c.bdb st = .ok c' ∧ c'.bi = c.bi ∧ c'.bdb = c.bdb ∧
      c'.rt.chainInitTime = c.rt.chainInitTime ∧
      ∃ x rest, c'.rt.head = HeadState.ofNode (x :: rest) ∧ c.bi x.hash = some (x :: rest) ∧
        ∀ g y r, c.bi g = some (y :: r) → y.height ≤ x.height := by
  have hw := hc.wellFormed hk
  set L := c.bdb.iter metaBlockIndex with hLdef
  have hL : ∀ e ∈ L, e ∈ c.bdb := fun e he => ((Store.mem_iter _).mp he).1
  obtain ⟨cn, last, hrun, hlast⟩ := loadBlocks_ok_of_ready hw hk L (loadInv_opened c st)
    (by simp) (by simp) hL (ready_iter hw hk ho (hc.rootsGenesis hk) L [] rfl)
  -- the store holds the head's block, so the loop ran
  obtain ⟨y, rest, -, -, hy⟩ := hw.head_cons
  obtain ⟨x₀, r₀, hn₀, -, b₀, hget₀, -⟩ := hw.node hy
  have hmem₀ : (metaBlockIndex ++ x₀.indexKey, b₀) ∈ L :=
    (Store.mem_iter _).mpr ⟨Store.mem_of_get _ hget₀, List.prefix_append _ _⟩
  have hload := (loadInv_opened c st).loadBlocks hw hk hL hrun
  have hne : last ≠ [] := hload.2.2.2 (List.ne_nil_of_mem hmem₀)
  obtain ⟨e, hlastE⟩ := Option.isSome_iff_exists.mp (List.getLast?_isSome.mpr (List.ne_nil_of_mem hmem₀))
  have hopen : newChainWithContext cfg f c.bdb st =
      .ok ({ cn with rt := cn.rt.setHead (HeadState.ofNode last) }.pruneBlockCache cfg) := by
    rw [newChainWithContext, hrun]
    rcases last with _ | ⟨_, _⟩
    · exact absurd rfl hne
    · rfl
  obtain ⟨hbi, hbdb, ht, -⟩ := hw.restart hk hopen
  refine ⟨_, hopen, hbi, hbdb, ht, ?_⟩
  -- the head is the node of the last entry, whose key is the greatest
  obtain ⟨L', hL'⟩ := List.getLast?_eq_some_iff.mp hlastE
  have hce := hload.1.sub _ _ (hlast e hlastE)
  obtain ⟨x, rest', rfl⟩ := List.exists_cons_of_ne_nil hne
  obtain ⟨x₁, rest₁, hx₁, hek, hx₁h, -⟩ := hw.entry (hL e (by simp [hL']))
  rw [hce] at hx₁
  obtain ⟨rfl, -⟩ := List.cons.inj (Option.some.inj hx₁)
  rw [← hx₁h] at hce
  exact ⟨x, rest', by simp [Runtime.setHead], hce,
    fun _ _ _ hz => height_le_of_last_key hw ho (hLdef.symm.trans hL') hce hek hz⟩

/-! ## One node's run from a cold start -/

/-- Every indexed node lies on the main chain: its parent walk is a suffix of
the head's. -/
def OnMain (c : Chain) : Prop :=
  ∀ g n, c.bi g = some n → n <:+ c.rt.head.node

theorem OnMain.extend {c : Chain} (hm : c.OnMain) (b : Block) : (c.extend cfg b).OnMain := by
  intro g n hn
  obtain ⟨x, hx, -, -⟩ := @pushNode_cons cfg c b
  rw [extend_bi_eq, hx, addBlock_cons] at hn
  rw [extend_head, hx]
  split_ifs at hn
  · cases hn; exact List.suffix_refl _
  · exact (hm g n hn).trans (List.suffix_cons _ _)

theorem coldStart_onMain {f : Faults} {st : SqlState} {c : Chain}
    (h : newChainWithContext cfg f [] st = .ok c) : c.OnMain := by
  obtain ⟨g, -, -, rfl⟩ := coldStart_genesis h
  exact OnMain.extend (fun _ _ hn => by cases hn) g

end Chain

namespace Node

variable {cfg : Config} {s s' : Node} {a : Action}

theorem step_onMain (hm : s.chain.OnMain) (h : s.step cfg a = some s') : s'.chain.OnMain := by
  rcases step_chain h with h | ⟨st, h⟩ | h | ⟨f, b, h⟩ <;> rw [h]
  · exact hm
  · exact hm
  · intro g n hn
    simpa using hm g n (by simpa using hn)
  · rcases Chain.checkAndPushNewBlock_fst f s.chain b with ⟨st, h⟩ | ⟨-, -, st, h⟩ <;> rw [h]
    · exact hm
    · exact Chain.OnMain.extend (c := { s.chain with st := st }) hm b

theorem Reachable.onMain {c₀ : Chain} (h₀ : c₀.OnMain) (hs : Node.Reachable cfg c₀ s) :
    s.chain.OnMain := by
  induction hs with
  | init => exact h₀
  | step _ _ h ih => exact step_onMain ih h

theorem node_keeps_no_fork (hk : cfg.crypto.Sound) {f₀ : Faults} {st₀ : SqlState} {c₀ : Chain}
    (h₀ : Chain.newChainWithContext cfg f₀ [] st₀ = .ok c₀) (hs : Node.Reachable cfg c₀ s) :
    (∀ h n, s.chain.bi h = some n → n <:+ s.chain.rt.head.node) ∧
      ∀ e ∈ s.chain.bdb, ∃ x ∈ s.chain.rt.head.node,
        e.1 = metaBlockIndex ++ x.indexKey ∧ e.2.hash = x.hash := by
  have hm := hs.onMain (Chain.coldStart_onMain h₀)
  refine ⟨hm, fun e he => ?_⟩
  -- a stored block is the block of an indexed node, which lies on the main chain
  obtain ⟨x, rest, hx, hek, hxh, -⟩ :=
    ((hs.chain_reachable (.coldStart h₀)).wellFormed hk).entry (k := e.1) (b := e.2) he
  exact ⟨x, (hm _ _ hx).subset (List.mem_cons_self _ _), hek, hxh.symm⟩

/-- `registryNode` keeps no block off its main chain. -/
theorem registryNode_keeps_no_fork :
    (∀ h n, registryNode.chain.bi h = some n → n <:+ registryNode.chain.rt.head.node) ∧
      ∀ e ∈ registryNode.chain.bdb, ∃ x ∈ registryNode.chain.rt.head.node,
        e.1 = metaBlockIndex ++ x.indexKey ∧ e.2.hash = x.hash :=
  node_keeps_no_fork registryCrypto_sound registryChain_started
    (Node.Reachable.init.run registryConfig registryRun_eq)

end Node

namespace HeightsIncrease

theorem tail {a : NodeInfo} {l : BlockNode} (h : HeightsIncrease (a :: l)) : HeightsIncrease l := by
  rcases l with _ | ⟨b, l⟩
  · trivial
  · exact h.2

theorem of_suffix {l n : BlockNode} (h : HeightsIncrease l) (hn : n <:+ l) : HeightsIncrease n := by
  obtain ⟨t, rfl⟩ := hn
  induction t with
  | nil => exact h
  | cons a t ih => exact ih h.tail

/-- Every node below the first sits lower. -/
theorem lt_head {a : NodeInfo} {l : BlockNode} (h : HeightsIncrease (a :: l)) :
    ∀ z ∈ l, z.height < a.height := by
  induction l generalizing a with
  | nil => intro z hz; cases hz
  | cons b l ih =>
    intro z hz
    rcases List.mem_cons.mp hz with rfl | hz
    · exact h.1
    · exact (ih h.2 z hz).trans h.1

/-- Every node above a node sits higher. -/
theorem lt_of_append {pre rest : BlockNode} {n : NodeInfo} (h : HeightsIncrease (pre ++ n :: rest)) :
    ∀ y ∈ pre, n.height < y.height := by
  induction pre with
  | nil => intro y hy; cases hy
  | cons a pre ih =>
    intro y hy
    rcases List.mem_cons.mp hy with rfl | hy
    · exact h.lt_head n (by simp)
    · exact ih h.tail y hy

/-- The last node sits lowest. -/
theorem le_of_mem_append {z : NodeInfo} :
    ∀ {l : BlockNode}, HeightsIncrease (l ++ [z]) → ∀ x ∈ l ++ [z], z.height ≤ x.height
  | [], _, x, hx => by rw [List.mem_singleton.mp hx]
  | a :: l, h, x, hx => by
    rcases List.mem_cons.mp hx with rfl | hx
    · exact (lt_head h z (by simp)).le
    · exact le_of_mem_append (tail h) x hx

end HeightsIncrease

variable {cfg : Config}

/-- Reopening the store of a reachable chain restores its head, index, store
and clock, when the index lies on the main chain and heights increase down the
main chain within `[0, 2 ^ 31)`. -/
theorem Chain.Reachable.reopen_head (hk : cfg.crypto.Sound) {c : Chain} (hc : c.Reachable cfg)
    (hm : c.OnMain) (hinc : HeightsIncrease c.rt.head.node)
    (hr : ∀ x ∈ c.rt.head.node, 0 ≤ x.height ∧ x.height < 2 ^ 31) (f : Faults) (st : SqlState) :
    ∃ c', Chain.newChainWithContext cfg f c.bdb st = .ok c' ∧ c'.rt.head = c.rt.head ∧
      c'.bi = c.bi ∧ c'.bdb = c.bdb ∧ c'.rt.chainInitTime = c.rt.chainInitTime := by
  have ho : c.HeightsOrdered :=
    ⟨fun g x rest hx => hr x ((hm g _ hx).subset (List.mem_cons_self _ _)),
     fun g x y rest hx => (hinc.of_suffix (hm g _ hx)).1⟩
  obtain ⟨c', hopen, hbi, hbdb, ht, x, rest, hh, hx, hmax⟩ := hc.reopen hk ho f st
  refine ⟨c', hopen, ?_, hbi, hbdb, ht⟩
  -- the highest indexed node is the head: any other main-chain node sits lower
  obtain ⟨y, t, hy0, hyh, hy⟩ := (hc.wellFormed hk).head_cons
  rw [hh, hyh]
  rcases List.suffix_cons_iff.mp (hy0 ▸ hm _ _ hx) with heq | hsuf
  · rw [heq]
  · have := (hy0 ▸ hinc).lt_head x (hsuf.subset (List.mem_cons_self _ _))
    have := hmax _ _ _ hy
    omega

/-- Heights that increase down a main chain grown from a cold start are never
negative: the chain ends in the genesis node at height zero. -/
theorem Node.Reachable.heights_nonneg (hk : cfg.crypto.Sound) {f₀ : Faults} {st₀ : SqlState}
    {c₀ : Chain} (h₀ : Chain.newChainWithContext cfg f₀ [] st₀ = .ok c₀) {s : Node}
    (hs : Node.Reachable cfg c₀ s) (hinc : HeightsIncrease s.chain.rt.head.node) :
    ∀ x ∈ s.chain.rt.head.node, 0 ≤ x.height := by
  obtain ⟨new, hnew, -⟩ := hs.extends_start hk (.coldStart h₀)
  obtain ⟨g, hg, -, -⟩ := Chain.coldStart_genesis h₀
  rw [hnew, (Chain.coldStart_head hg h₀).1] at hinc ⊢
  exact hinc.le_of_mem_append

theorem reopen_after_run_restores_head (hk : cfg.crypto.Sound) {f₀ : Faults} {st₀ : SqlState}
    {c₀ : Chain} (h₀ : Chain.newChainWithContext cfg f₀ [] st₀ = .ok c₀) {s : Node}
    (hs : Node.Reachable cfg c₀ s) (hinc : HeightsIncrease s.chain.rt.head.node)
    (hlt : ∀ x ∈ s.chain.rt.head.node, x.height < 2 ^ 31) (f : Faults) (st : SqlState) :
    ∃ c', Chain.newChainWithContext cfg f s.chain.bdb st = .ok c' ∧
      c'.rt.head = s.chain.rt.head ∧ c'.bi = s.chain.bi ∧ c'.bdb = s.chain.bdb ∧
      c'.rt.chainInitTime = s.chain.rt.chainInitTime := by
  have h0 := hs.heights_nonneg hk h₀ hinc
  exact (hs.chain_reachable (.coldStart h₀)).reopen_head hk (hs.onMain (Chain.coldStart_onMain h₀))
    hinc (fun x hx => ⟨h0 x hx, hlt x hx⟩) f st

/-- `registryNode`'s stores, holding genesis and the block of turn 1, reopen to
its head, index and store. -/
theorem registryNode_reopens_to_its_head :
    HeightsIncrease registryNode.chain.rt.head.node ∧
      (∀ x ∈ registryNode.chain.rt.head.node, x.height < 2 ^ 31) ∧
      ∃ c', Chain.newChainWithContext registryConfig Faults.none registryNode.chain.bdb
          SqlState.empty = .ok c' ∧
        c'.rt.head = registryNode.chain.rt.head ∧ c'.bi = registryNode.chain.bi ∧
        c'.bdb = registryNode.chain.bdb ∧ c'.rt.chainInitTime = registryNode.chain.rt.chainInitTime :=
  ⟨by decide, by decide, reopen_after_run_restores_head registryCrypto_sound registryChain_started
    (Node.Reachable.init.run registryConfig registryRun_eq) (by decide) (by decide) _ _⟩

end SqlChain
