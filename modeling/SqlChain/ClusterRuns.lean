import SqlChain.Reopen
import SqlChain.BodyCache

/-!
# Whole runs of a cluster

Properties of every run of a cluster whose nodes start cold on one genesis
block.  All rest on the cluster's record of the blocks its nodes produced.

Every block on a node's main chain other than genesis was produced by the peer
whose slot its height is (`main_chain_blocks_from_slot_peers`).
`CheckAndPushNewBlock` compares a remote producer with the slot of the turn it
reads, and a tick can move that turn between the gate and the check.  Among the
nodes of a cluster the race never lets in a block of the wrong peer, since a
peer produces only in its own turns.

A node's SQL state holds the request of every query transaction of every block
it stored, genesis apart (`stored_block_queries_held`).
`CheckAndPushNewBlock` replays only the blocks of other peers.  The queries of
a node's own blocks are the ones its SQL state executed before `CommitEx`
handed them to `produceBlock`, and the requests a SQL state holds only grow.

Heights strictly increase down every node's main chain
(`main_chain_heights_increase`).  A remote peer may sign two blocks of one turn
on one parent, but an honest peer produces on its head, and the height gate and
the turn clock keep that head below the turn it produces in.  So the store of
every node reopens to exactly its head, index and store
(`cluster_node_reopens_to_its_head`).  Billing, which falls back to
`FetchBlock` at a node's height once the body cache has dropped the node's body,
reads the node's own block for every main-chain node
(`cluster_billing_reads_own_blocks`).

The argument assumes that `PackAndSignBlock` leaves the header and the query
transactions of a block as they are.
-/

namespace SqlChain

namespace Cluster

variable {cfg : Config} {g : Block} {c₀ : NodeID → Chain} {S S' : Cluster}

/-- The chain of every node of a cluster started cold is well formed. -/
theorem Reachable.wellFormed (hk : cfg.crypto.Sound)
    (h₀ : ∀ p, ∃ f st, Chain.newChainWithContext (cfg.atPeer p) f [] st = .ok (c₀ p))
    (hS : S.Reachable cfg c₀) (p : NodeID) : (S.nodes p).chain.WellFormed cfg := by
  obtain ⟨f, st, h⟩ := h₀ p
  exact (((hS.node p).chain_reachable (.coldStart h)).wellFormed
    (show (cfg.atPeer p).crypto.Sound from hk)).of_atPeer

/-- A main-chain node has a known block stored under its index key, at the
node's height on the genesis clock. -/
theorem Inv.head_block (hI : S.Inv cfg g) {p : NodeID} (hw : (S.nodes p).chain.WellFormed cfg)
    {x : NodeInfo} (hx : x ∈ (S.nodes p).chain.rt.head.node) :
    ∃ b, (S.nodes p).chain.bdb.get (metaBlockIndex ++ x.indexKey) = some b ∧ b.hash = x.hash ∧
      Known g S b ∧ heightOn cfg g b = x.height := by
  obtain ⟨rest, hr⟩ := hw.mem_head hx
  obtain ⟨x', rest', hn, -, b, hget, hbh, -, hht, -⟩ := hw.node hr
  cases hn
  refine ⟨b, hget, hbh, (hI.holds p).1 _ (Store.mem_of_get _ hget), ?_⟩
  rw [← hht]
  simp [Chain.heightOf, Runtime.getHeightFromTime, heightOn, hI.clock p]

theorem main_chain_blocks_from_slot_peers (hk : cfg.crypto.Sound)
    (hsign : ∀ b, (cfg.crypto.packAndSign b).header = b.header) (hg : cfg.genesis = some g)
    (h₀ : ∀ p, ∃ f st, Chain.newChainWithContext (cfg.atPeer p) f [] st = .ok (c₀ p))
    (hS : S.Reachable cfg c₀) {p : NodeID} {x : NodeInfo}
    (hx : x ∈ (S.nodes p).chain.rt.head.node) :
    ∃ b, (S.nodes p).chain.bdb.get (metaBlockIndex ++ x.indexKey) = some b ∧ b.hash = x.hash ∧
      ((b = g ∧ x.height = 0) ∨
        (0 < x.height ∧ cfg.rc.peers[(x.height % cfg.rc.peers.length).toNat]? = some b.producer)) := by
  have hI := Inv.reachable hsign hg h₀ hS
  obtain ⟨b, hget, hbh, hkn, hh⟩ := hI.head_block (hS.wellFormed hk h₀ p) hx
  refine ⟨b, hget, hbh, ?_⟩
  rcases hkn with rfl | hb
  · exact .inl ⟨rfl, by rw [← hh]; simp [heightOn]⟩
  · obtain ⟨i, hi, hmod⟩ := hI.slot b hb
    refine .inr ⟨hh ▸ (hI.above b hb).1, ?_⟩
    rw [← hh, hmod, Int.toNat_ofNat]
    exact findPeer_getElem? hi

set_option maxRecDepth 4000 in
/-- `P0`'s block of turn 3 in the fork run was produced by `P0`, the peer of
slot 3. -/
theorem forkCluster_head_from_slot_peer :
    ∃ b, (forkCluster.nodes 0).chain.bdb.get
        (metaBlockIndex ++ NodeInfo.indexKey ⟨forkBlockB.hash, 3, 1⟩) = some b ∧
      b.hash = forkBlockB.hash ∧ ((b = genesisBlock ∧ (3 : Int) = 0) ∨
        (0 < (3 : Int) ∧
          forkConfig.rc.peers[((3 : Int) % forkConfig.rc.peers.length).toNat]? = some b.producer)) :=
  main_chain_blocks_from_slot_peers forkCrypto_sound (fun _ => rfl) rfl
    (fun _ => ⟨Faults.none, SqlState.empty, by rfl⟩) (Cluster.Reachable.init.run forkConfig forkRun_eq)
    (show (⟨forkBlockB.hash, 3, 1⟩ : NodeInfo) ∈ (forkCluster.nodes 0).chain.rt.head.node by decide)

/-! ## Queries applied -/

/-- A step of a cluster is a step of one node, whose produced blocks the record
gains. -/
theorem step_produced {a : ClusterAction} (h : S.step cfg a = some S') :
    ∃ p a' s', (S.nodes p).step (cfg.atPeer p) a' = some s' ∧
      (∀ r, S'.nodes r = if r = p then s' else S.nodes r) ∧
      S'.produced = S.produced ++ s'.producedIn a' := by
  obtain ⟨p, a', s', hs, hn, hcase⟩ := step_cases h
  refine ⟨p, a', s', hs, fun r => by rw [hn, Function.update_apply], ?_⟩
  rcases hcase with ⟨-, -, h⟩ | ⟨_, _, -, rfl, -, h⟩ | ⟨_, _, -, rfl, -, h⟩ <;>
    simp [h, Node.producedIn]

/-- What the SQL state of every node holds along a run of the cluster: the
requests of the queries it executed and has not committed, of the blocks the
node produced, and of every block other than genesis it stored. -/
structure Applied (cfg : Config) (g : Block) (S : Cluster) : Prop where
  pending : ∀ p, ∀ tx ∈ (S.nodes p).chain.st.pending, tx.request ∈ (S.nodes p).chain.st.held
  produced : ∀ b ∈ S.produced, ∀ tx ∈ b.queryTxs,
    tx.request ∈ (S.nodes b.producer).chain.st.held
  stored : ∀ p, ∀ e ∈ (S.nodes p).chain.bdb,
    e.2 = g ∨ ∀ tx ∈ e.2.queryTxs, tx.request ∈ (S.nodes p).chain.st.held

theorem applied_init (hg : cfg.genesis = some g)
    (h₀ : ∀ p, ∃ f st, Chain.newChainWithContext (cfg.atPeer p) f [] st = .ok (c₀ p))
    (hst : ∀ p, ∀ tx ∈ (c₀ p).st.pending, tx.request ∈ (c₀ p).st.held) :
    Applied cfg g (init c₀) := by
  refine ⟨hst, by simp [init], fun p e he => .inl ?_⟩
  obtain ⟨f, st, h⟩ := h₀ p
  simp only [init, Node.init, Chain.coldStart_eq hg h, Chain.extend_bdb, Store.put, Chain.opened,
    List.filter_nil, List.mem_singleton] at he
  rw [he]

theorem Applied.step (hsign : ∀ b, (cfg.crypto.packAndSign b).header = b.header)
    (hbody : ∀ b, (cfg.crypto.packAndSign b).queryTxs = b.queryTxs) (hI : S.Inv cfg g)
    (hA : S.Applied cfg g) {a : ClusterAction} (h : S.step cfg a = some S') : S'.Applied cfg g := by
  obtain ⟨p, a', s', hs, hnode, hprod⟩ := step_produced h
  have hheld : ∀ r, (S.nodes r).chain.st.held ⊆ (S'.nodes r).chain.st.held := fun r => by
    rw [hnode r]
    split_ifs with hr
    · subst hr; exact (Node.step_held hs).subset
    · exact List.Subset.refl _
  refine ⟨fun r => ?_, fun b hb => ?_, fun r e he => ?_⟩
  · rw [hnode r]
    split_ifs with hr
    · subst hr; exact Node.step_pending (hA.pending r) hs
    · exact hA.pending r
  · rcases List.mem_append.mp (hprod ▸ hb) with hb | hb
    · exact fun tx htx => hheld _ (hA.produced b hb tx htx)
    · -- a block produced in this step carries the queries its producer executed
      obtain ⟨hp, -⟩ := hI.produced_slot hsign hs hb
      have hq : b.queryTxs = (S.nodes p).chain.st.pending :=
        (congrArg Block.queryTxs (Node.producedIn_block hs hb)).trans (hbody _)
      intro tx htx
      rw [hp]
      exact hheld p (hA.pending p tx (hq ▸ htx))
  · rw [hnode r] at he ⊢
    split_ifs at he ⊢ with hr
    · subst hr
      rcases Node.step_stored hs he with he | ⟨hin, hown | hall⟩
      · exact (hA.stored r e he).imp_right fun h tx htx => (Node.step_held hs).subset (h tx htx)
      · -- a block of its own: the node produced it, or it is genesis
        have hown' : e.2.producer = r := hown
        rcases (hI.holds r).2.2.1 _ hin with hgen | hprod'
        · exact .inl hgen
        · exact .inr fun tx htx =>
            (Node.step_held hs).subset (hown' ▸ hA.produced _ hprod' tx htx)
      · exact .inr hall
    · exact hA.stored r e he

theorem Applied.reachable (hsign : ∀ b, (cfg.crypto.packAndSign b).header = b.header)
    (hbody : ∀ b, (cfg.crypto.packAndSign b).queryTxs = b.queryTxs) (hg : cfg.genesis = some g)
    (h₀ : ∀ p, ∃ f st, Chain.newChainWithContext (cfg.atPeer p) f [] st = .ok (c₀ p))
    (hst : ∀ p, ∀ tx ∈ (c₀ p).st.pending, tx.request ∈ (c₀ p).st.held)
    (hS : S.Reachable cfg c₀) : S.Applied cfg g := by
  induction hS with
  | init => exact applied_init hg h₀ hst
  | step _ hS' h ih => exact ih.step hsign hbody (Inv.reachable hsign hg h₀ hS') h

theorem stored_block_queries_held (hsign : ∀ b, (cfg.crypto.packAndSign b).header = b.header)
    (hbody : ∀ b, (cfg.crypto.packAndSign b).queryTxs = b.queryTxs) (hg : cfg.genesis = some g)
    (h₀ : ∀ p, ∃ f st, Chain.newChainWithContext (cfg.atPeer p) f [] st = .ok (c₀ p))
    (hst : ∀ p, ∀ tx ∈ (c₀ p).st.pending, tx.request ∈ (c₀ p).st.held)
    (hS : S.Reachable cfg c₀) (p : NodeID) :
    ∀ e ∈ (S.nodes p).chain.bdb,
      e.2 = g ∨ ∀ tx ∈ e.2.queryTxs, tx.request ∈ (S.nodes p).chain.st.held :=
  (Applied.reachable hsign hbody hg h₀ hst hS).stored p

set_option maxRecDepth 4000 in
/-- In the fork run `P0` stores its own block of turn 3 without a replay, and
its SQL state holds the block's write. -/
theorem forkCluster_stored_queries_held :
    (metaBlockIndex ++ NodeInfo.indexKey ⟨forkBlockB.hash, 3, 1⟩, forkBlockB) ∈
        (forkCluster.nodes 0).chain.bdb ∧
      (forkBlockB = genesisBlock ∨
        ∀ tx ∈ forkBlockB.queryTxs, tx.request ∈ (forkCluster.nodes 0).chain.st.held) :=
  have hmem : (metaBlockIndex ++ NodeInfo.indexKey ⟨forkBlockB.hash, 3, 1⟩, forkBlockB) ∈
      (forkCluster.nodes 0).chain.bdb := by decide
  ⟨hmem, stored_block_queries_held (fun _ => rfl) (fun _ => rfl) rfl
    (fun _ => ⟨Faults.none, SqlState.empty, by rfl⟩) (fun _ tx htx => absurd htx (List.not_mem_nil tx))
    (Cluster.Reachable.init.run forkConfig forkRun_eq) 0 _ hmem⟩

/-! ## Heights down a main chain -/

/-- A node reads heights on the genesis clock. -/
theorem Inv.heightOf_eq (hI : S.Inv cfg g) (p : NodeID) (b : Block) :
    (S.nodes p).chain.heightOf cfg b.timestamp = heightOn cfg g b := by
  simp [Chain.heightOf, Runtime.getHeightFromTime, heightOn, hI.clock p]

/-- The genesis block of a cluster started cold has no parent. -/
theorem genesis_parent_zero (hk : cfg.crypto.Sound) (hg : cfg.genesis = some g)
    (h₀ : ∀ p, ∃ f st, Chain.newChainWithContext (cfg.atPeer p) f [] st = .ok (c₀ p))
    (p : NodeID) : g.parentHash = Hash.zero := by
  obtain ⟨f, st, h⟩ := h₀ p
  obtain ⟨g', hg', hv, -⟩ := Chain.coldStart_genesis h
  obtain rfl : g = g' := Option.some.inj (hg.symm.trans hg')
  exact hk.genesis_parent g hv

/-- Every node of a cluster started cold starts with its main chain below
turn 1. -/
theorem start_below_turn (hg : cfg.genesis = some g)
    (h₀ : ∀ p, ∃ f st, Chain.newChainWithContext (cfg.atPeer p) f [] st = .ok (c₀ p))
    (p : NodeID) : ∀ x ∈ (c₀ p).rt.head.node, x.height < (c₀ p).rt.nextTurn := by
  obtain ⟨f, st, h⟩ := h₀ p
  obtain ⟨hn, ht⟩ := Chain.coldStart_head (show (cfg.atPeer p).genesis = some g from hg) h
  intro x hx
  rw [hn, List.mem_singleton] at hx
  rw [hx, ht]
  simp

/-- Every produced block hangs under a signed block of a lower height on the
genesis clock: the head of its producer when it produced it. -/
def ParentsBelow (cfg : Config) (g : Block) (S : Cluster) : Prop :=
  ∀ b ∈ S.produced, ∃ b', cfg.crypto.Signed b' ∧ b'.hash = b.parentHash ∧
    heightOn cfg g b' < heightOn cfg g b

/-- A node produces on its head, which sits below the turn it produces in. -/
theorem ParentsBelow.step (hk : cfg.crypto.Sound)
    (hsign : ∀ b, (cfg.crypto.packAndSign b).header = b.header) (hg : cfg.genesis = some g)
    (h₀ : ∀ p, ∃ f st, Chain.newChainWithContext (cfg.atPeer p) f [] st = .ok (c₀ p))
    (hS : S.Reachable cfg c₀) (hP : S.ParentsBelow cfg g) {a : ClusterAction}
    (h : S.step cfg a = some S') : S'.ParentsBelow cfg g := by
  obtain ⟨p, a', s', hs, -, hprod⟩ := step_produced h
  intro b hb
  rcases List.mem_append.mp (hprod ▸ hb) with hb | hb
  · exact hP b hb
  have hI := Inv.reachable hsign hg h₀ hS
  have hw := hS.wellFormed hk h₀ p
  obtain ⟨y, rest, hy, hh, hyi⟩ := hw.head_cons
  obtain ⟨_, _, hn, -, b', -, hb'h, hs', hht, -⟩ := hw.node hyi
  cases hn
  have hbelow := ((hS.node p).belowTurn (start_below_turn hg h₀ p)).1 y (hy ▸ List.mem_cons_self _ _)
  obtain ⟨hpar, hts⟩ := @Node.producedIn_header (cfg.atPeer p) _ _ _ hsign _ hs hb
  refine ⟨b', hs', hb'h.trans (by rw [hpar, hh]; rfl), ?_⟩
  rw [← hI.heightOf_eq p, hht, heightOn_nextTickTarget (hI.clock p) hts]
  exact hbelow

theorem ParentsBelow.reachable (hk : cfg.crypto.Sound)
    (hsign : ∀ b, (cfg.crypto.packAndSign b).header = b.header) (hg : cfg.genesis = some g)
    (h₀ : ∀ p, ∃ f st, Chain.newChainWithContext (cfg.atPeer p) f [] st = .ok (c₀ p))
    (hS : S.Reachable cfg c₀) : S.ParentsBelow cfg g := by
  induction hS with
  | init => simp [ParentsBelow, init]
  | step _ hS' h ih => exact ih.step hk hsign hg h₀ hS' h

/-- Heights strictly increase down every indexed walk of a node: the block of a
node with a parent is no genesis block, so it was produced above the block its
parent hash names. -/
theorem ParentsBelow.heightsIncrease (hk : cfg.crypto.Sound) (hI : S.Inv cfg g)
    (hP : S.ParentsBelow cfg g) (hgz : g.parentHash = Hash.zero) {p : NodeID}
    (hw : (S.nodes p).chain.WellFormed cfg) :
    ∀ {n : BlockNode} {h : Hash}, (S.nodes p).chain.bi h = some n → HeightsIncrease n
  | [], _, _ | [_], _, _ => trivial
  | x :: y :: r, _, hn => by
    obtain ⟨_, _, hx, -, b, hget, -, -, hht, hpar⟩ := hw.node hn
    cases hx
    obtain ⟨hyi, hbp, -⟩ := hpar
    obtain ⟨_, _, hy, -, by', -, hbyh, hsy, hhty, -⟩ := hw.node hyi
    cases hy
    refine ⟨?_, hP.heightsIncrease hk hI hgz hw hyi⟩
    rcases (hI.holds p).1 _ (Store.mem_of_get _ hget) with rfl | hb
    · exact absurd (hbp.symm.trans hgz) (hw.hash_ne_zero hk hyi)
    obtain ⟨b', hs', hb'h, hlt⟩ := hP b hb
    obtain rfl := hk.hash_inj _ _ hs' hsy (hb'h.trans (hbp.trans hbyh.symm))
    have := hI.heightOf_eq p b
    have := hI.heightOf_eq p b'
    omega

/-- Heights strictly increase down every indexed walk of every node of a
cluster started cold. -/
theorem Reachable.heightsIncrease (hk : cfg.crypto.Sound)
    (hsign : ∀ b, (cfg.crypto.packAndSign b).header = b.header) (hg : cfg.genesis = some g)
    (h₀ : ∀ p, ∃ f st, Chain.newChainWithContext (cfg.atPeer p) f [] st = .ok (c₀ p))
    (hS : S.Reachable cfg c₀) {p : NodeID} {n : BlockNode} {h : Hash}
    (hn : (S.nodes p).chain.bi h = some n) : HeightsIncrease n :=
  (ParentsBelow.reachable hk hsign hg h₀ hS).heightsIncrease hk (Inv.reachable hsign hg h₀ hS)
    (genesis_parent_zero hk hg h₀ p) (hS.wellFormed hk h₀ p) hn

theorem main_chain_heights_increase (hk : cfg.crypto.Sound)
    (hsign : ∀ b, (cfg.crypto.packAndSign b).header = b.header) (hg : cfg.genesis = some g)
    (h₀ : ∀ p, ∃ f st, Chain.newChainWithContext (cfg.atPeer p) f [] st = .ok (c₀ p))
    (hS : S.Reachable cfg c₀) (p : NodeID) : HeightsIncrease (S.nodes p).chain.rt.head.node :=
  hS.heightsIncrease hk hsign hg h₀ (hS.wellFormed hk h₀ p).head_indexed

set_option maxRecDepth 4000 in
/-- Heights increase down `P0`'s main chain in the fork run. -/
theorem forkCluster_heights_increase : HeightsIncrease (forkCluster.nodes 0).chain.rt.head.node :=
  main_chain_heights_increase forkCrypto_sound (fun _ => rfl) rfl
    (fun _ => ⟨Faults.none, SqlState.empty, by rfl⟩) (Cluster.Reachable.init.run forkConfig forkRun_eq) 0

theorem cluster_node_reopens_to_its_head (hk : cfg.crypto.Sound)
    (hsign : ∀ b, (cfg.crypto.packAndSign b).header = b.header) (hg : cfg.genesis = some g)
    (h₀ : ∀ p, ∃ f st, Chain.newChainWithContext (cfg.atPeer p) f [] st = .ok (c₀ p))
    (hS : S.Reachable cfg c₀) (p : NodeID)
    (hlt : ∀ x ∈ (S.nodes p).chain.rt.head.node, x.height < 2 ^ 31) (f : Faults) (st : SqlState) :
    ∃ c', Chain.newChainWithContext (cfg.atPeer p) f (S.nodes p).chain.bdb st = .ok c' ∧
      c'.rt.head = (S.nodes p).chain.rt.head ∧ c'.bi = (S.nodes p).chain.bi ∧
      c'.bdb = (S.nodes p).chain.bdb ∧ c'.rt.chainInitTime = (S.nodes p).chain.rt.chainInitTime := by
  have hinc := hS.heightsIncrease hk hsign hg h₀ (hS.wellFormed hk h₀ p).head_indexed
  obtain ⟨f₀, st₀, h₀p⟩ := h₀ p
  have hk' : (cfg.atPeer p).crypto.Sound := hk
  have h0 := (hS.node p).heights_nonneg hk' h₀p hinc
  exact ((hS.node p).chain_reachable (.coldStart h₀p)).reopen_head hk'
    ((hS.node p).onMain (Chain.coldStart_onMain h₀p)) hinc (fun x hx => ⟨h0 x hx, hlt x hx⟩) f st

set_option maxRecDepth 4000 in
/-- `P0`'s store in the fork run reopens to its head, index and store. -/
theorem forkCluster_node_reopens :
    (∀ x ∈ (forkCluster.nodes 0).chain.rt.head.node, x.height < 2 ^ 31) ∧
      ∃ c', Chain.newChainWithContext (forkConfig.atPeer 0) Faults.none
          (forkCluster.nodes 0).chain.bdb SqlState.empty = .ok c' ∧
        c'.rt.head = (forkCluster.nodes 0).chain.rt.head ∧ c'.bi = (forkCluster.nodes 0).chain.bi ∧
        c'.bdb = (forkCluster.nodes 0).chain.bdb ∧
        c'.rt.chainInitTime = (forkCluster.nodes 0).chain.rt.chainInitTime :=
  have hlt : ∀ x ∈ (forkCluster.nodes 0).chain.rt.head.node, x.height < 2 ^ 31 := by decide
  ⟨hlt, cluster_node_reopens_to_its_head forkCrypto_sound (fun _ => rfl) rfl
    (fun _ => ⟨Faults.none, SqlState.empty, by rfl⟩) (Cluster.Reachable.init.run forkConfig forkRun_eq)
    0 hlt _ _⟩

/-! ## The bodies billing reads -/

/-- A `mapM` whose every call succeeds with a value whose key is its input's
succeeds, with the keys of the input. -/
theorem mapM_ok_map_eq {α β κ ε : Type} {f : α → Except ε β} {kb : β → κ} {ka : α → κ} :
    ∀ {l : List α}, (∀ x ∈ l, ∃ b, f x = .ok b ∧ kb b = ka x) →
      ∃ bs, l.mapM f = .ok bs ∧ bs.map kb = l.map ka
  | [], _ => ⟨[], rfl, rfl⟩
  | x :: l, h => by
    obtain ⟨b, hb, hk⟩ := h x (List.mem_cons_self x l)
    obtain ⟨bs, hbs, hks⟩ := mapM_ok_map_eq fun y hy => h y (List.mem_cons_of_mem x hy)
    exact ⟨b :: bs, by rw [List.mapM_cons, hb, hbs]; rfl, by simp [hk, hks]⟩

theorem cluster_billing_reads_own_blocks (hk : cfg.crypto.Sound)
    (hsign : ∀ b, (cfg.crypto.packAndSign b).header = b.header) (hg : cfg.genesis = some g)
    (h₀ : ∀ p, ∃ f st, Chain.newChainWithContext (cfg.atPeer p) f [] st = .ok (c₀ p))
    (hS : S.Reachable cfg c₀) (p : NodeID) (k : Nat) :
    ∃ bs, ((S.nodes p).chain.rt.head.node.take k).mapM (S.nodes p).chain.billingBody = .ok bs ∧
      bs.map Block.hash = ((S.nodes p).chain.rt.head.node.take k).map NodeInfo.hash := by
  have hinc := hS.heightsIncrease hk hsign hg h₀ (hS.wellFormed hk h₀ p).head_indexed
  obtain ⟨f, st, h⟩ := h₀ p
  have hk' : (cfg.atPeer p).crypto.Sound := hk
  have hc := (hS.node p).chain_reachable (.coldStart h)
  -- a pruned body is fetched by height, and no main-chain node above shares it
  refine mapM_ok_map_eq fun n hn => ?_
  obtain ⟨pre, rest, hl⟩ := List.append_of_mem (List.mem_of_mem_take hn)
  exact (Chain.billingBody_own_iff (hc.wellFormed hk') (hc.bodyCacheInv hk').sound hl).mpr
    (.inr ((hl ▸ hinc).lt_of_append))

set_option maxRecDepth 4000 in
/-- Billing at `P0` in the fork run reads the blocks of both its main-chain
nodes. -/
theorem forkCluster_billing_reads_own_blocks :
    ∃ bs, ((forkCluster.nodes 0).chain.rt.head.node.take 2).mapM
        (forkCluster.nodes 0).chain.billingBody = .ok bs ∧
      bs.map Block.hash = ((forkCluster.nodes 0).chain.rt.head.node.take 2).map NodeInfo.hash :=
  cluster_billing_reads_own_blocks forkCrypto_sound (fun _ => rfl) rfl
    (fun _ => ⟨Faults.none, SqlState.empty, by rfl⟩) (Cluster.Reachable.init.run forkConfig forkRun_eq) 0 2

end Cluster

end SqlChain
