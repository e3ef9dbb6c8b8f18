import SqlChain.Invariant

/-!
# Starting a chain

A cold start on an empty store pushes the configured genesis block and gives a
well-formed chain.  Reopening the store of a well-formed chain, when it
succeeds, rebuilds exactly the index the chain had, on the same clock, with an
indexed head (`WellFormed.restart`).  The block loop can still fail: a block
whose parent comes later in key order has no indexed parent yet.
-/

namespace SqlChain

namespace Chain

variable {cfg : Config}

@[simp] theorem pruneBlockCache_bi (c : Chain) : (c.pruneBlockCache cfg).bi = c.bi := by
  unfold pruneBlockCache; split <;> rfl

@[simp] theorem pruneBlockCache_bdb (c : Chain) : (c.pruneBlockCache cfg).bdb = c.bdb := by
  unfold pruneBlockCache; split <;> rfl

@[simp] theorem pruneBlockCache_rt (c : Chain) : (c.pruneBlockCache cfg).rt = c.rt := by
  unfold pruneBlockCache; split <;> rfl

theorem heightOf_congr {c c' : Chain} (ht : c'.rt.chainInitTime = c.rt.chainInitTime) (t : Int) :
    c'.heightOf cfg t = c.heightOf cfg t := by
  simp [heightOf, Runtime.getHeightFromTime, ht]

/-- The node a push or a load builds for the block of a well-formed entry is
the entry's node. -/
theorem newBlockNode_of_parentOK {c : Chain} {x : NodeInfo} {b : Block} {rest : BlockNode}
    (hxh : x.hash = b.hash) (hpar : c.ParentOK x b rest) :
    newBlockNode x.height b rest = x :: rest := by
  rcases rest with _ | ⟨y, r⟩ <;> simp only [newBlockNode, List.cons.injEq, and_true] <;>
    ext <;> simp_all [ParentOK]

/-! ## A cold start -/

theorem coldStart_wellFormed (hk : cfg.crypto.Sound) {f : Faults} {st : SqlState} {c : Chain}
    (h : newChainWithContext cfg f [] st = .ok c) : c.WellFormed cfg := by
  simp only [newChainWithContext, loadBlocks, Store.iter, List.filter_nil,
    List.insertionSort] at h
  cases hg : cfg.genesis with
  | none => rw [hg] at h; cases h
  | some b =>
    rw [hg] at h
    simp only [genesis] at h
    split_ifs at h with hv
    obtain ⟨-, rfl⟩ := pushBlock_ok h
    set c₀ := opened cfg [] st
    have ht : c₀.rt.chainInitTime = b.timestamp := by simp [c₀, opened, hg, Runtime.init]
    have hnode : c₀.pushNode cfg b = [⟨b.hash, c₀.heightOf cfg b.timestamp, 0⟩] := rfl
    have hbx : (c₀.extend cfg b).bi b.hash = some (c₀.pushNode cfg b) := by
      simp [addBlock_cons, pushNode_eq]
    refine ⟨by rw [extend_head, hnode]; rfl, by rw [extend_head, hnode]; simp [HeadState.ofNode],
      by rw [extend_head, hnode]; exact hbx, fun h n hn => ?_, fun k b' hk' => ?_,
      by simp [Store.put, c₀, opened]⟩
    · rw [extend_bi_eq, hnode, addBlock_cons] at hn
      split_ifs at hn with hh
      · cases hn
        subst hh
        exact ⟨rfl, b, by simp [Store.get_put, hnode, BlockNode.indexKey], rfl, .inr hv, rfl, rfl,
          hk.genesis_parent b hv, ht⟩
      · cases hn
    · simp only [extend_bdb, Store.put, c₀, opened, List.filter_nil, List.mem_singleton,
        Prod.mk.injEq] at hk'
      obtain ⟨rfl, rfl⟩ := hk'
      exact ⟨_, [], hbx, rfl⟩

/-! ## Reopening a store -/

/-- What the block loop has built from the store of a well-formed chain `c`: a
part of `c`'s index over `c`'s store and, once the first block has set it,
`c`'s clock, with the last node built indexed. -/
structure LoadInv (c cn : Chain) (last : BlockNode) : Prop where
  sub : ∀ h n, cn.bi h = some n → c.bi h = some n
  bdb : cn.bdb = c.bdb
  last : (last = [] ∧ ∀ h, cn.bi h = none) ∨
    ∃ x rest, last = x :: rest ∧ cn.bi x.hash = some (x :: rest) ∧
      cn.rt.chainInitTime = c.rt.chainInitTime

theorem loadInv_opened (c : Chain) (st : SqlState) : LoadInv c (opened cfg c.bdb st) [] :=
  ⟨fun _ _ h => (by cases h), rfl, .inl ⟨rfl, fun _ => rfl⟩⟩

/-- `loadParent` either verified the first block as genesis and set the clock,
or kept the chain and found the parent as the last node or in the index. -/
theorem loadParent_ok {cn cn₁ : Chain} {last parent : BlockNode} {b : Block}
    (h : cn.loadParent cfg last b = .ok (cn₁, parent)) :
    (last = [] ∧ parent = [] ∧ cfg.crypto.verifyAsGenesis b = true ∧
        cn₁ = { cn with rt := { cn.rt with chainInitTime := b.timestamp } }) ∨
      (cn₁ = cn ∧ last ≠ [] ∧ ((b.parentHash = (last.head?.map NodeInfo.hash).getD Hash.zero ∧
        parent = last) ∨ cn.bi b.parentHash = some parent)) := by
  rcases last with _ | ⟨l, ls⟩ <;> simp only [loadParent] at h
  · split_ifs at h with hv
    cases h
    exact .inl ⟨rfl, rfl, hv, rfl⟩
  · split_ifs at h with hp hv
    · cases h
      exact .inr ⟨rfl, by simp, .inl ⟨by simpa using hp, rfl⟩⟩
    · split at h
      · cases h
        exact .inr ⟨rfl, by simp, .inr ‹_›⟩
      · cases h

section Load

variable {c : Chain}

/-- One iteration of the block loop over an entry of `c`'s store builds `c`'s
node for the entry's block. -/
theorem LoadInv.loadBlock (hc : c.WellFormed cfg) (hk : cfg.crypto.Sound) {cn cn' : Chain} {last node : BlockNode} {k : List UInt8} {b : Block}
    (hI : LoadInv c cn last) (he : (k, b) ∈ c.bdb)
    (h : cn.loadBlock cfg last b = .ok (cn', node)) :
    LoadInv c cn' node ∧ cn'.bi b.hash = some node ∧ ∀ g, cn.bi g ≠ none → cn'.bi g ≠ none := by
  obtain ⟨x, rest, hx, -, hxh, -, hht, hpar⟩ := hc.entry he
  unfold Chain.loadBlock at h
  cases hl : cn.loadParent cfg last b with
  | error e => rw [hl] at h; cases h
  | ok p =>
    obtain ⟨cn₁, parent⟩ := p
    rw [hl] at h
    simp only [Except.map, Except.ok.injEq, Prod.mk.injEq] at h
    obtain ⟨rfl, rfl⟩ := h
    -- the parent the loop found is the entry's parent, and the clock is `c`'s
    have hzero : ∀ {g n}, c.bi g = some n → g ≠ Hash.zero := fun hg => hc.hash_ne_zero hk hg
    have key : parent = rest ∧ cn₁.rt.chainInitTime = c.rt.chainInitTime ∧ cn₁.bi = cn.bi ∧
        cn₁.bdb = cn.bdb := by
      rcases loadParent_ok hl with ⟨rfl, rfl, hv, rfl⟩ | ⟨rfl, hne, hpath⟩
      · have hb0 := hk.genesis_parent b hv
        rcases rest with _ | ⟨y, r⟩
        · exact ⟨rfl, hpar.2.2.symm, rfl, rfl⟩
        · exact absurd (hpar.2.1.symm.trans hb0) (hzero hpar.1)
      · rcases hI.last with ⟨rfl, -⟩ | ⟨l, ls, rfl, hl', ht⟩
        · exact absurd rfl hne
        refine ⟨?_, ht, rfl, rfl⟩
        have hpar' : ∀ {g p}, c.bi g = some p → b.parentHash = g → p = rest := by
          intro g p hg hbg
          rcases rest with _ | ⟨y, r⟩
          · exact absurd (hbg.symm.trans hpar.2.1) (hzero hg)
          · rw [← hbg, hpar.2.1, hpar.1] at hg
            exact (Option.some.inj hg).symm
        rcases hpath with ⟨hbp, rfl⟩ | hbp
        · exact hpar' (hI.sub _ _ hl') (by simpa using hbp)
        · exact hpar' (hI.sub _ _ hbp) rfl
    obtain ⟨rfl, ht, hbi, hbdb⟩ := key
    have hnode : newBlockNode (cn₁.heightOf cfg b.timestamp) b parent = x :: parent := by
      rw [heightOf_congr ht, hht, newBlockNode_of_parentOK hxh hpar]
    rw [hnode]
    refine ⟨⟨fun g n hg => ?_, hbdb.trans hI.bdb, .inr ⟨x, parent, rfl, ?_, ht⟩⟩, ?_, fun g hg => ?_⟩
    · simp only [addBlock_cons] at hg
      split_ifs at hg with hgx
      · cases hg; rw [hgx, hxh]; exact hx
      · exact hI.sub g n (hbi ▸ hg)
    · simp [addBlock_cons]
    · simp [addBlock_cons, hxh]
    · simp only [addBlock_cons]
      split_ifs
      · simp
      · rwa [hbi]

/-- The block loop over entries of `c`'s store builds a part of `c`'s index
holding every block it went through. -/
theorem LoadInv.loadBlocks (hc : c.WellFormed cfg) (hk : cfg.crypto.Sound) :
    ∀ {L : Store} {cn cn' : Chain} {last last' : BlockNode}, LoadInv c cn last →
      (∀ e ∈ L, e ∈ c.bdb) → Chain.loadBlocks cfg cn last L = .ok (cn', last') →
      LoadInv c cn' last' ∧ (∀ e ∈ L, cn'.bi e.2.hash ≠ none) ∧
        (∀ g, cn.bi g ≠ none → cn'.bi g ≠ none) ∧ (L ≠ [] → last' ≠ [])
  | [], _, _, _, _, hI, _, h => by
    cases h
    exact ⟨hI, by simp, fun _ h => h, by simp⟩
  | (k, b) :: L, cn, cn', last, last', hI, hL, h => by
    simp only [Chain.loadBlocks] at h
    split at h
    · rename_i cn₁ node hlb
      obtain ⟨hI₁, hb₁, hmono₁⟩ := hI.loadBlock hc hk (hL _ (List.mem_cons_self _ _)) hlb
      obtain ⟨hI', hall, hmono, hne⟩ :=
        LoadInv.loadBlocks hc hk hI₁ (fun e he => hL e (List.mem_cons_of_mem _ he)) h
      refine ⟨hI', ?_, fun g hg => hmono g (hmono₁ g hg), fun _ => ?_⟩
      · rintro e (_ | ⟨_, he⟩)
        · exact hmono _ (by simp [hb₁])
        · exact hall e he
      · rcases L with _ | ⟨e, L⟩
        · cases h
          rcases hI₁.last with ⟨-, hnone⟩ | ⟨x, rest, rfl, -⟩
          · exact absurd (hnone b.hash) (by simp [hb₁])
          · simp
        · exact hne (by simp)
    · cases h

/-- Reopening the store of a well-formed chain, when it succeeds, rebuilds the
chain's index exactly, on the chain's clock, and takes an indexed node as the
head. -/
theorem WellFormed.restart (hc : c.WellFormed cfg) (hk : cfg.crypto.Sound) {f : Faults} {st : SqlState} {c' : Chain}
    (h : newChainWithContext cfg f c.bdb st = .ok c') :
    c'.bi = c.bi ∧ c'.bdb = c.bdb ∧ c'.rt.chainInitTime = c.rt.chainInitTime ∧
      ∃ x rest, c'.rt.head = HeadState.ofNode (x :: rest) ∧ c.bi x.hash = some (x :: rest) := by
  unfold newChainWithContext at h
  cases hl : loadBlocks cfg (opened cfg c.bdb st) [] (c.bdb.iter metaBlockIndex) with
  | error e => rw [hl] at h; cases h
  | ok p =>
    obtain ⟨cn, last⟩ := p
    rw [hl] at h
    obtain ⟨hI, hall, -, hne⟩ := (loadInv_opened c st).loadBlocks hc hk
      (fun e he => (Store.mem_iter _).mp he |>.1) hl
    -- the store holds the head's block, so the loop ran
    obtain ⟨y, rest, -, -, hy⟩ := hc.head_cons
    obtain ⟨x₀, r₀, hn₀, -, b₀, hget₀, -⟩ := hc.node hy
    have hmem₀ : (metaBlockIndex ++ x₀.indexKey, b₀) ∈ c.bdb.iter metaBlockIndex :=
      (Store.mem_iter _).mpr ⟨Store.mem_of_get _ hget₀, List.prefix_append _ _⟩
    have hlast := hne (List.ne_nil_of_mem hmem₀)
    rcases hI.last with ⟨rfl, -⟩ | ⟨x, rest', rfl, hx, ht⟩
    · exact absurd rfl hlast
    simp only [Except.ok.injEq] at h
    subst h
    have hbi : cn.bi = c.bi := by
      funext g
      cases hg : c.bi g with
      | none =>
        cases hcn : cn.bi g with
        | none => rfl
        | some n => rw [hI.sub g n hcn] at hg; cases hg
      | some n =>
        obtain ⟨x', r', rfl, hxh, b', hget, hb', -⟩ := hc.node hg
        have hmem : (metaBlockIndex ++ x'.indexKey, b') ∈ c.bdb.iter metaBlockIndex :=
          (Store.mem_iter _).mpr ⟨Store.mem_of_get _ hget, List.prefix_append _ _⟩
        have hsome := hall _ hmem
        rw [hb'] at hsome
        obtain ⟨n', hn'⟩ := Option.ne_none_iff_exists'.mp hsome
        rw [hn', ← hg, hI.sub g n' hn']
    refine ⟨by simp [hbi], by simp [hI.bdb], by simp [Runtime.setHead, ht], x, rest', ?_, hbi ▸ hx⟩
    simp [Runtime.setHead]

/-- Reopening the store of a well-formed chain gives a well-formed chain. -/
theorem WellFormed.restart_wellFormed (hc : c.WellFormed cfg) (hk : cfg.crypto.Sound) {f : Faults} {st : SqlState} {c' : Chain}
    (h : newChainWithContext cfg f c.bdb st = .ok c') : c'.WellFormed cfg := by
  obtain ⟨hbi, hbdb, ht, x, rest, hh, hx⟩ := hc.restart hk h
  exact hc.transfer hbdb hbi ht hh hx

end Load

end Chain

end SqlChain
