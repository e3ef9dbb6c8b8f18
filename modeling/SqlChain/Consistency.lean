import SqlChain.Restart
import SqlChain.Heights

/-!
# Consistency of every reachable chain

A chain is reachable when it comes from a cold start or from reopening the
stores of a reachable chain, followed by any calls of `CheckAndPushNewBlock`
(which is the only caller of `pushBlock` after startup), `pruneBlockCache`,
turn advances and changes of the ack index and the SQL state.  Every step of
the workers of a node is one of these (`Node.Reachable.chain_reachable`).  Every
reachable chain is well formed, and the only block it stores without a parent
is the configured genesis block, so its head, index and store agree as §3 of
the specification describes (`Chain.Consistent`); and pruning only drops
cached bodies.  Reopening the stores of a reachable chain, when it succeeds,
rebuilds exactly its index.
-/

namespace SqlChain

namespace Chain

variable {cfg : Config}

/-- `settle` of a push: the chain before the push, or the pushed one. -/
theorem settle_pushBlock_fst (f : Faults) (c : Chain) (b : Block) :
    (c.settle (c.pushBlock cfg f b)).1 = c ∨ (c.settle (c.pushBlock cfg f b)).1 = c.extend cfg b := by
  unfold pushBlock
  split
  · exact .inl rfl
  · exact .inr rfl

/-- What any call of `CheckAndPushNewBlock` leaves: the chain as it was, the
chain with a remote block replayed into its SQL state, or the chain extended
with a verified child of its head, directly for a self-produced block and
after the replay for a remote one. -/
theorem checkAndPushNewBlock_cases (f : Faults) (c : Chain) (b : Block) :
    (c.checkAndPushNewBlock cfg f b).1 = c ∨
      (b.producer ≠ cfg.rc.server ∧
        (c.checkAndPushNewBlock cfg f b).1 = { c with st := c.st.replayBlock b }) ∨
      (b.parentHash = c.rt.head.head ∧ cfg.crypto.verify b = true ∧
        ((b.producer = cfg.rc.server ∧ (c.checkAndPushNewBlock cfg f b).1 = c.extend cfg b) ∨
          (b.producer ≠ cfg.rc.server ∧
            (c.checkAndPushNewBlock cfg f b).1 = { c with st := c.st.replayBlock b }.extend cfg b))) := by
  unfold checkAndPushNewBlock
  by_cases hhead : c.rt.head.height = c.heightOf cfg b.timestamp ∧ c.rt.head.head = b.hash
  · rw [if_pos hhead]; exact .inl rfl
  rw [if_neg hhead]
  by_cases hp : b.parentHash = c.rt.head.head
  swap
  · rw [if_pos hp]; exact .inl rfl
  rw [if_neg (not_not.mpr hp)]
  by_cases hv : cfg.crypto.verify b = true
  swap
  · rw [if_pos (by simpa using hv)]; exact .inl rfl
  rw [if_neg (by simpa using hv)]
  by_cases hs : b.producer = cfg.rc.server
  · rw [if_pos hs]
    rcases settle_pushBlock_fst f c b with h | h
    · exact .inl h
    · exact .inr (.inr ⟨hp, hv, .inl ⟨hs, h⟩⟩)
  rw [if_neg hs]
  cases findPeer cfg.rc.peers b.producer with
  | none => exact .inl rfl
  | some i =>
    dsimp only
    split_ifs
    · exact .inl rfl
    · exact .inl rfl
    · rcases settle_pushBlock_fst f { c with st := c.st.replayBlock b } b with h | h
      · exact .inr (.inl ⟨hs, h⟩)
      · exact .inr (.inr ⟨hp, hv, .inr ⟨hs, h⟩⟩)

/-- What any call of `CheckAndPushNewBlock` leaves: the chain with at most its
SQL state changed by a replay, or such a chain extended with a signed child of
its head. -/
theorem checkAndPushNewBlock_fst (f : Faults) (c : Chain) (b : Block) :
    (∃ st, (c.checkAndPushNewBlock cfg f b).1 = { c with st := st }) ∨
      (b.parentHash = c.rt.head.head ∧ cfg.crypto.verify b = true ∧
        ∃ st, (c.checkAndPushNewBlock cfg f b).1 = { c with st := st }.extend cfg b) := by
  rcases checkAndPushNewBlock_cases f c b with h | ⟨-, h⟩ | ⟨hp, hv, ⟨-, h⟩ | ⟨-, h⟩⟩
  · exact .inl ⟨c.st, h⟩
  · exact .inl ⟨_, h⟩
  · exact .inr ⟨hp, hv, c.st, h⟩
  · exact .inr ⟨hp, hv, _, h⟩

/-- The chains a node can hold: a cold start or a reopened store of a
reachable chain, then any calls of `CheckAndPushNewBlock` and
`pruneBlockCache`, turn advances, and changes of the ack index and the SQL
state. -/
inductive Reachable (cfg : Config) : Chain → Prop
  | coldStart {f : Faults} {st : SqlState} {c : Chain} :
      newChainWithContext cfg f [] st = .ok c → Reachable cfg c
  | restart {c c' : Chain} {f : Faults} {st : SqlState} :
      Reachable cfg c → newChainWithContext cfg f c.bdb st = .ok c' → Reachable cfg c'
  | checkAndPush {c : Chain} (f : Faults) (b : Block) :
      Reachable cfg c → Reachable cfg (c.checkAndPushNewBlock cfg f b).1
  | prune {c : Chain} : Reachable cfg c → Reachable cfg (c.pruneBlockCache cfg)
  | nextTurn {c : Chain} : Reachable cfg c → Reachable cfg { c with rt := c.rt.setNextTurn }
  | ackIndex {c : Chain} (ai : AckIndex) : Reachable cfg c → Reachable cfg { c with ai := ai }
  | sqlState {c : Chain} (st : SqlState) : Reachable cfg c → Reachable cfg { c with st := st }

/-- Every reachable chain is well formed. -/
theorem Reachable.wellFormed (hk : cfg.crypto.Sound) {c : Chain} (h : c.Reachable cfg) :
    c.WellFormed cfg := by
  induction h with
  | coldStart h => exact coldStart_wellFormed hk h
  | restart _ h ih => exact ih.restart_wellFormed hk h
  | @checkAndPush c f b _ ih =>
    rcases checkAndPushNewBlock_fst f c b with ⟨st, h⟩ | ⟨hp, hv, st, h⟩
    · rw [h]; exact ih.frame rfl rfl rfl rfl
    · have hst : WellFormed cfg { c with st := st } := ih.frame rfl rfl rfl rfl
      rw [h]; exact hst.push hk hv hp
  | prune _ ih => exact ih.frame (by simp) (by simp) (by simp) (by simp)
  | nextTurn _ ih => exact ih.frame rfl rfl rfl rfl
  | ackIndex _ _ ih => exact ih.frame rfl rfl rfl rfl
  | sqlState _ _ ih => exact ih.frame rfl rfl rfl rfl

/-! ## Roots -/

/-- A cold start pushes the configured genesis block, which verifies as
genesis. -/
theorem coldStart_genesis {f : Faults} {st : SqlState} {c : Chain}
    (h : newChainWithContext cfg f [] st = .ok c) :
    ∃ g, cfg.genesis = some g ∧ cfg.crypto.verifyAsGenesis g = true ∧
      c = (opened cfg [] st).extend cfg g := by
  simp only [newChainWithContext, loadBlocks, Store.iter, List.filter_nil,
    List.insertionSort] at h
  cases hg : cfg.genesis with
  | none => rw [hg] at h; cases h
  | some g =>
    rw [hg] at h
    simp only [genesis] at h
    split_ifs at h with hv
    exact ⟨g, rfl, hv, (pushBlock_ok h).2⟩

/-- Every stored block without a parent is the configured genesis block, and
it verifies as genesis. -/
def RootsGenesis (cfg : Config) (c : Chain) : Prop :=
  ∀ e ∈ c.bdb, e.2.parentHash = Hash.zero →
    cfg.genesis = some e.2 ∧ cfg.crypto.verifyAsGenesis e.2 = true

/-- Only a cold start stores a block without a parent: `CheckAndPushNewBlock`
pushes children of the head. -/
theorem Reachable.rootsGenesis (hk : cfg.crypto.Sound) {c : Chain} (h : c.Reachable cfg) :
    c.RootsGenesis cfg := by
  induction h with
  | coldStart h =>
    obtain ⟨g, hg, hv, rfl⟩ := coldStart_genesis h
    intro e he _
    simp only [extend_bdb, Store.put, opened, List.filter_nil, List.mem_singleton] at he
    rw [he]
    exact ⟨hg, hv⟩
  | restart hc h ih =>
    obtain ⟨-, hbdb, -⟩ := (hc.wellFormed hk).restart hk h
    exact fun e he => ih e (hbdb ▸ he)
  | @checkAndPush c f b hc ih =>
    intro e he hroot
    rcases checkAndPushNewBlock_fst f c b with ⟨st, h⟩ | ⟨hp, -, st, h⟩ <;> rw [h] at he
    · exact ih e he hroot
    · rw [extend_bdb, Store.mem_put] at he
      rcases he with rfl | ⟨he, -⟩
      · have hw := hc.wellFormed hk
        exact absurd (hp.symm.trans hroot) (hw.hash_ne_zero hk hw.head_indexed)
      · exact ih e he hroot
  | prune _ ih => exact fun e he => ih e (by simpa using he)
  | nextTurn _ ih => exact ih
  | ackIndex _ _ ih => exact ih
  | sqlState _ _ ih => exact ih

end Chain

/-! ## The chains of a running node -/

namespace Node

variable {cfg : Config}

@[simp] theorem receive_chain (s : Node) (b : Block) : (s.receive cfg b).chain = s.chain := by
  simp only [receive]; split_ifs <;> rfl

@[simp] theorem billingRound_chain (s : Node) (nonce : Option Nat) (signOk : Bool) :
    (s.billingRound cfg nonce signOk).chain = s.chain := by
  simp only [billingRound]; split_ifs <;> (try split) <;> rfl

theorem produceBlock_snd (c : Chain) (t : Int) :
    (c.produceBlock cfg t).2 = { c with st := c.st.commitEx.2 } := by
  simp only [Chain.produceBlock]; split_ifs <;> rfl

/-- What one step of a node does to its chain: nothing, a client query, the
commit of `produceBlock`, the end of a turn, or a call of
`CheckAndPushNewBlock` on the block past the gate. -/
theorem step_chain_cases {s s' : Node} {a : Action} (h : s.step cfg a = some s') :
    s'.chain = s.chain ∨ (∃ tx ok, s'.chain = { s.chain with st := s.chain.st.query tx ok }) ∨
      s'.chain = { s.chain with st := s.chain.st.commitEx.2 } ∨
      s'.chain = s.chain.finishTurn cfg ∨
      ∃ f b, s.ingest = .checking b ∧ s'.chain = (s.chain.checkAndPushNewBlock cfg f b).1 := by
  unfold Node.step at h
  split at h
  · cases h
  have hp : ∀ {o c}, s.chain.produceBlock cfg (s.chain.rt.nextTickTarget cfg.rc) = (o, c) →
      c = { s.chain with st := s.chain.st.commitEx.2 } := fun hp =>
    (congrArg Prod.snd hp).symm.trans (produceBlock_snd _ _)
  cases a
  case query => cases h; exact .inr (.inl ⟨_, _, rfl⟩)
  case cancel => cases h; exact .inl rfl
  case loopTop => obtain ⟨-, rfl⟩ := loopTop_some h; exact .inl (by split <;> rfl)
  case sync => obtain ⟨-, -, -, rfl⟩ := syncFetch_some h; exact .inl rfl
  case sleep => obtain ⟨-, rfl⟩ := sleep_some h; exact .inl rfl
  case tick =>
    obtain ⟨-, ⟨-, b, c, hc, rfl⟩ | ⟨-, c, hc, rfl⟩ | ⟨-, rfl⟩⟩ := tick_some h
    · exact .inr (.inr (.inl (hp hc)))
    · exact .inr (.inr (.inl (hp hc)))
    · exact .inl rfl
  case abortSend => obtain ⟨-, ⟨_, -, rfl⟩ | ⟨_, -, rfl⟩⟩ := abortSend_some h <;> exact .inl rfl
  case advise => obtain ⟨-, rfl⟩ | ⟨_, -, rfl⟩ := advise_some h <;> exact .inl rfl
  case finish => obtain ⟨-, rfl⟩ := finish_some h; exact .inr (.inr (.inr (.inl rfl)))
  case sendHeight => obtain ⟨_, -, -, rfl⟩ := sendHeight_some h; exact .inl rfl
  case recvHeight => obtain ⟨_, _, -, -, rfl⟩ := recvHeight_some h; exact .inl (by split <;> rfl)
  case recvMain =>
    obtain ⟨-, ⟨_, -, rfl⟩ | ⟨_, -, rfl⟩⟩ := recvMain_some h <;> exact .inl (receive_chain _ _)
  case recvStash => obtain ⟨-, _, _, -, -, -, rfl⟩ := recvStash_some h; exact .inl (receive_chain _ _)
  case recvRemote => obtain ⟨-, rfl⟩ := recvRemote_some h; exact .inl (receive_chain _ _)
  case check f nonce signOk =>
    obtain ⟨b, c, hb, ⟨hc, rfl⟩ | ⟨e, hc, rfl⟩⟩ := check_some h
    · exact .inr (.inr (.inr (.inr
        ⟨f, b, hb, (billingRound_chain _ _ _).trans (congrArg Prod.fst hc).symm⟩)))
    · exact .inr (.inr (.inr (.inr ⟨f, b, hb, (congrArg Prod.fst hc).symm⟩)))
  case stop => obtain ⟨-, -, rfl⟩ := stop_some h; exact .inl rfl
  case abortStash => obtain ⟨_, -, -, -, rfl⟩ := abortStash_some h; exact .inl rfl
  case drained => obtain ⟨-, -, rfl⟩ := drained_some h; exact .inl rfl

/-- What one step of a node does to its chain: nothing, a change of the SQL
state, the end of a turn, or a call of `CheckAndPushNewBlock`. -/
theorem step_chain {s s' : Node} {a : Action} (h : s.step cfg a = some s') :
    s'.chain = s.chain ∨ (∃ st, s'.chain = { s.chain with st := st }) ∨
      s'.chain = s.chain.finishTurn cfg ∨
      ∃ f b, s'.chain = (s.chain.checkAndPushNewBlock cfg f b).1 := by
  rcases step_chain_cases h with h | ⟨_, _, h⟩ | h | h | ⟨f, b, -, h⟩
  · exact .inl h
  · exact .inr (.inl ⟨_, h⟩)
  · exact .inr (.inl ⟨_, h⟩)
  · exact .inr (.inr (.inl h))
  · exact .inr (.inr (.inr ⟨f, b, h⟩))

/-- The chain of every node reachable from a reachable chain is reachable. -/
theorem Reachable.chain_reachable {c₀ : Chain} {s : Node} (hs : Node.Reachable cfg c₀ s)
    (h₀ : c₀.Reachable cfg) : s.chain.Reachable cfg := by
  induction hs with
  | init => exact h₀
  | step _ _ hstep ih =>
    rcases step_chain hstep with h | ⟨st, h⟩ | h | ⟨f, b, h⟩ <;> rw [h]
    · exact ih
    · exact ih.sqlState st
    · exact ih.prune.nextTurn.ackIndex _
    · exact ih.checkAndPush f b

end Node

/-! ## The shape the specification states -/

namespace Chain

/-- `dropBodies` only drops bodies. -/
theorem dropBodies_cases (cache : Hash → Option Block) (n : BlockNode) (h : Hash) :
    dropBodies cache n h = cache h ∨ dropBodies cache n h = none := by
  induction n generalizing cache with
  | nil => exact .inl rfl
  | cons x rest ih =>
    simp only [dropBodies]
    split_ifs
    · exact .inl rfl
    · rcases ih (fun g => if g = x.hash then none else cache g) with hd | hd <;> rw [hd]
      · split_ifs <;> simp
      · exact .inr rfl

/-- `pruneBlockCache` keeps the index, the store and the runtime, and only
drops cached bodies. -/
theorem pruneBlockCache_keeps (cfg : Config) (c : Chain) :
    (c.pruneBlockCache cfg).bi = c.bi ∧ (c.pruneBlockCache cfg).bdb = c.bdb ∧
      (c.pruneBlockCache cfg).rt = c.rt ∧
      ∀ h, (c.pruneBlockCache cfg).cache h = c.cache h ∨ (c.pruneBlockCache cfg).cache h = none := by
  refine ⟨by simp, by simp, by simp, fun h => ?_⟩
  unfold pruneBlockCache
  split
  · exact .inl rfl
  · exact dropBodies_cases _ _ h

/-- The shape of a chain as §3 of the specification describes it: the head
state is an indexed node, with the node's hash and height; every indexed node
is filed under its own hash; a node without a parent is the genesis node, of
count zero, whose stored block is the configured genesis block, verifies as
genesis, carries the zero parent hash and set the chain's clock; any other node
has its parent indexed, its block carries the parent's hash and its count is
the parent's plus one; and the store's entries, with distinct keys, are exactly
the blocks of the indexed nodes, each under `BLCK` and the node's index key. -/
structure Consistent (cfg : Config) (c : Chain) : Prop where
  head : ∃ x rest, c.rt.head.node = x :: rest ∧ c.bi x.hash = some (x :: rest) ∧
    c.rt.head.head = x.hash ∧ c.rt.head.height = x.height
  indexed_hash : ∀ h n, c.bi h = some n → ∃ x rest, n = x :: rest ∧ x.hash = h
  root : ∀ h x, c.bi h = some [x] → x.count = 0 ∧
    ∃ b, (metaBlockIndex ++ x.indexKey, b) ∈ c.bdb ∧ b.hash = h ∧ cfg.genesis = some b ∧
      cfg.crypto.verifyAsGenesis b = true ∧ b.parentHash = Hash.zero ∧
      c.rt.chainInitTime = b.timestamp
  parent : ∀ h x y rest, c.bi h = some (x :: y :: rest) →
    c.bi y.hash = some (y :: rest) ∧ x.count = y.count + 1 ∧
      ∃ b, (metaBlockIndex ++ x.indexKey, b) ∈ c.bdb ∧ b.parentHash = y.hash
  block_of_node : ∀ h x rest, c.bi h = some (x :: rest) →
    ∃ b, (metaBlockIndex ++ x.indexKey, b) ∈ c.bdb ∧ b.hash = h
  node_of_block : ∀ k b, (k, b) ∈ c.bdb →
    ∃ x rest, c.bi b.hash = some (x :: rest) ∧ k = metaBlockIndex ++ x.indexKey
  keys_nodup : (c.bdb.map (·.1)).Nodup

variable {cfg : Config}

/-- A well-formed chain whose parentless blocks are the genesis block has the
shape the specification states. -/
theorem WellFormed.consistent {c : Chain} (hc : c.WellFormed cfg) (hr : c.RootsGenesis cfg) :
    c.Consistent cfg where
  head := by
    obtain ⟨y, rest, hy0, hh, hy⟩ := hc.head_cons
    exact ⟨y, rest, hy0, hy, by rw [hh]; rfl, by rw [hh]; rfl⟩
  indexed_hash h n hn := by
    obtain ⟨x, rest, rfl, hxh, -⟩ := hc.node hn
    exact ⟨x, rest, rfl, hxh⟩
  root h x hn := by
    obtain ⟨x', rest, hn', -, b, hget, hb, -, -, hpar⟩ := hc.node hn
    cases hn'
    obtain ⟨hcount, hz, ht⟩ := hpar
    have hmem := Store.mem_of_get _ hget
    exact ⟨hcount, b, hmem, hb, (hr _ hmem hz).1, (hr _ hmem hz).2, hz, ht⟩
  parent h x y rest hn := by
    obtain ⟨x', r', hn', -, b, hget, -, -, -, hpar⟩ := hc.node hn
    cases hn'
    exact ⟨hpar.1, hpar.2.2, b, Store.mem_of_get _ hget, hpar.2.1⟩
  block_of_node h x rest hn := by
    obtain ⟨x', r', hn', -, b, hget, hb, -⟩ := hc.node hn
    cases hn'
    exact ⟨b, Store.mem_of_get _ hget, hb⟩
  node_of_block := hc.stored
  keys_nodup := hc.keys_nodup

end Chain

variable {cfg : Config}

theorem reachable_node_chain_consistent (hk : cfg.crypto.Sound) {c₀ : Chain} {s : Node}
    (h₀ : c₀.Reachable cfg) (hs : Node.Reachable cfg c₀ s) :
    s.chain.Consistent cfg ∧ (s.chain.pruneBlockCache cfg).bi = s.chain.bi ∧
      (s.chain.pruneBlockCache cfg).bdb = s.chain.bdb ∧
      (s.chain.pruneBlockCache cfg).rt = s.chain.rt ∧
      ∀ h, (s.chain.pruneBlockCache cfg).cache h = s.chain.cache h ∨
        (s.chain.pruneBlockCache cfg).cache h = none :=
  have hc := hs.chain_reachable h₀
  ⟨(hc.wellFormed hk).consistent (hc.rootsGenesis hk), Chain.pruneBlockCache_keeps cfg s.chain⟩

/-- Reopening the stores of a reachable chain, when it succeeds, rebuilds the
chain's index exactly, keeps its store and its clock, and takes an indexed
node as the head. -/
theorem restart_rebuilds_index (hk : cfg.crypto.Sound) {c c' : Chain} {f : Faults}
    {st : SqlState} (hc : c.Reachable cfg) (h : Chain.newChainWithContext cfg f c.bdb st = .ok c') :
    c'.bi = c.bi ∧ c'.bdb = c.bdb ∧ c'.rt.chainInitTime = c.rt.chainInitTime ∧
      ∃ x rest, c'.rt.head = HeadState.ofNode (x :: rest) ∧ c.bi x.hash = some (x :: rest) :=
  (hc.wellFormed hk).restart hk h

/-! ## Signatures that accept two blocks -/

/-- Signatures that accept `genesisBlock` as genesis and `turnOneBlock` as a
block, and no other block. -/
def registryCrypto : Crypto where
  verify b := decide (b = turnOneBlock)
  verifyAsGenesis b := decide (b = genesisBlock)
  packAndSign b := b
  pubKeyHash k := some k

theorem registryCrypto_sound : registryCrypto.Sound where
  genesis_parent b h := by
    simp only [registryCrypto, decide_eq_true_eq] at h
    subst h; rfl
  hash_ne_zero b h := by
    rcases h with h | h <;> simp only [registryCrypto, decide_eq_true_eq] at h <;> subst h <;> decide
  hash_inj b b' h h' hh := by
    rcases h with h | h <;> rcases h' with h' | h' <;>
      simp only [registryCrypto, decide_eq_true_eq] at h h' <;> subst h h' <;>
      first | rfl | exact absurd hh (by decide)

/-- The chain settings of the scenarios with `registryCrypto`. -/
def registryConfig : Config := ⟨committee, registryCrypto, 1, some genesisBlock, some 100⟩

/-- The chain a cold start gives under `registryConfig`. -/
def registryChain : Chain :=
  (Chain.opened registryConfig [] SqlState.empty).extend registryConfig genesisBlock

theorem registryChain_started :
    Chain.newChainWithContext registryConfig Faults.none [] SqlState.empty = .ok registryChain :=
  rfl

/-- `P0` passes turn 0 and pushes `P1`'s block of turn 1. -/
def registryRun : List Action :=
  [.loopTop, .tick, .finish, .sendHeight, .recvHeight, .recvRemote turnOneBlock,
    .check Faults.none none true]

/-- The node after `registryRun`. -/
def registryNode : Node :=
  ((Node.init registryChain).run registryConfig registryRun).getD (Node.init registryChain)

theorem registryRun_eq :
    (Node.init registryChain).run registryConfig registryRun = some registryNode := rfl

theorem registryNode_consistent :
    registryNode.chain.Consistent registryConfig ∧
      (registryNode.chain.pruneBlockCache registryConfig).bi = registryNode.chain.bi ∧
      (registryNode.chain.pruneBlockCache registryConfig).bdb = registryNode.chain.bdb ∧
      (registryNode.chain.pruneBlockCache registryConfig).rt = registryNode.chain.rt ∧
      ∀ h, (registryNode.chain.pruneBlockCache registryConfig).cache h = registryNode.chain.cache h ∨
        (registryNode.chain.pruneBlockCache registryConfig).cache h = none :=
  reachable_node_chain_consistent registryCrypto_sound (.coldStart registryChain_started)
    (Node.Reachable.init.run registryConfig registryRun_eq)

/-- `registryNode`'s stores reopened. -/
def registryReopened : Chain :=
  match Chain.newChainWithContext registryConfig Faults.none registryNode.chain.bdb
      SqlState.empty with
  | .ok c => c
  | .error _ => registryChain

theorem registryReopened_eq :
    Chain.newChainWithContext registryConfig Faults.none registryNode.chain.bdb SqlState.empty =
      .ok registryReopened := rfl

theorem registryNode_restart_rebuilds_index :
    registryReopened.bi = registryNode.chain.bi ∧ registryReopened.bdb = registryNode.chain.bdb ∧
      registryReopened.rt.chainInitTime = registryNode.chain.rt.chainInitTime ∧
      ∃ x rest, registryReopened.rt.head = HeadState.ofNode (x :: rest) ∧
        registryNode.chain.bi x.hash = some (x :: rest) :=
  restart_rebuilds_index registryCrypto_sound
    ((Node.Reachable.init.run registryConfig registryRun_eq).chain_reachable
      (.coldStart registryChain_started)) registryReopened_eq

end SqlChain
