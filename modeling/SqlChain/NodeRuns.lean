import SqlChain.Agreement

/-!
# Whole runs of one node

Whatever blocks its peers send and whatever its collaborators answer, a node's
chain only grows at the head.  Along any run of its workers the main chain of
the later state continues the main chain of the earlier one, and the store and
the index keep every entry.  The only entries the store gains are the blocks of
the new main-chain nodes (`node_run_extends_chain`).

The height gate of `processBlocks` and a turn clock that only moves on keep
every main-chain node and the block past the gate below the next turn
(`main_chain_below_next_turn`).  This holds even when a turn ends between the
gate and `CheckAndPushNewBlock`.

The module also says what one step does to the SQL state: the requests it holds
only grow, and every query it has executed but not committed is among them.
A write committed into a local block that a late block of the previous turn
overtakes stays in the SQL state, on no block at all
(`committed_write_outlives_dropped_block`).
-/

namespace SqlChain

namespace Chain

variable {cfg : Config}

@[simp] theorem finishTurn_head (c : Chain) : (c.finishTurn cfg).rt.head = c.rt.head := by
  simp [finishTurn, Runtime.setNextTurn]

@[simp] theorem finishTurn_bi (c : Chain) : (c.finishTurn cfg).bi = c.bi := by
  simp [finishTurn]

@[simp] theorem finishTurn_nextTurn (c : Chain) :
    (c.finishTurn cfg).rt.nextTurn = c.rt.nextTurn + 1 := by
  simp [finishTurn, Runtime.setNextTurn]

@[simp] theorem finishTurn_st (c : Chain) : (c.finishTurn cfg).st = c.st := by
  simp only [finishTurn, pruneBlockCache]; split <;> rfl

@[simp] theorem extend_st (c : Chain) (b : Block) : (c.extend cfg b).st = c.st := rfl

/-- The node a push builds is a child of the head, with the block's hash, at
the height of its timestamp. -/
theorem pushNode_cons (c : Chain) (b : Block) :
    ∃ x, c.pushNode cfg b = x :: c.rt.head.node ∧ x.hash = b.hash ∧
      x.height = c.heightOf cfg b.timestamp :=
  ⟨_, pushNode_eq cfg c b, rfl, rfl⟩

/-- What a call of `CheckAndPushNewBlock` leaves of the SQL state: the state
as it was, or a remote block replayed into it. -/
theorem checkAndPushNewBlock_st (f : Faults) (c : Chain) (b : Block) :
    (c.checkAndPushNewBlock cfg f b).1.st = c.st ∨
      (b.producer ≠ cfg.rc.server ∧ (c.checkAndPushNewBlock cfg f b).1.st = c.st.replayBlock b) := by
  rcases checkAndPushNewBlock_cases f c b with h | ⟨hs, h⟩ | ⟨-, -, ⟨-, h⟩ | ⟨hs, h⟩⟩ <;> rw [h]
  · exact .inl rfl
  · exact .inr ⟨hs, rfl⟩
  · exact .inl rfl
  · exact .inr ⟨hs, rfl⟩

/-- A block `CheckAndPushNewBlock` stores is the checked block, stored directly
when the local server produced it and after its replay otherwise. -/
theorem checkAndPushNewBlock_stored {f : Faults} {c : Chain} {b : Block} {e : List UInt8 × Block}
    (he : e ∈ (c.checkAndPushNewBlock cfg f b).1.bdb) :
    e ∈ c.bdb ∨ e.2 = b ∧ (b.producer = cfg.rc.server ∨
      ∀ tx ∈ b.queryTxs, tx.request ∈ (c.checkAndPushNewBlock cfg f b).1.st.held) := by
  rcases checkAndPushNewBlock_cases f c b with h | ⟨-, h⟩ | ⟨-, -, ⟨hs, h⟩ | ⟨-, h⟩⟩ <;>
    rw [h] at he ⊢
  · exact .inl he
  · exact .inl he
  · rcases (Store.mem_put _).mp he with rfl | ⟨he, -⟩
    · exact .inr ⟨rfl, .inl hs⟩
    · exact .inl he
  · rcases (Store.mem_put _).mp he with rfl | ⟨he, -⟩
    · exact .inr ⟨rfl, .inr fun tx htx => List.mem_append_right _ (List.mem_map_of_mem _ htx)⟩
    · exact .inl he

/-- The block `produceBlock` packs is the block on the head built from what the
SQL state executed and had not committed. -/
theorem produceBlock_block {c : Chain} {t : Int} {b : Block}
    (h : (c.produceBlock cfg t).1 = some b) :
    b = cfg.crypto.packAndSign (c.newBlock cfg t c.st.failed c.st.pending) := by
  simp only [produceBlock] at h
  split_ifs at h
  cases h
  rfl

/-- A cold start puts the genesis node at height zero below turn 1. -/
theorem coldStart_head {f : Faults} {st : SqlState} {g : Block} {c : Chain}
    (hg : cfg.genesis = some g) (h : newChainWithContext cfg f [] st = .ok c) :
    c.rt.head.node = [⟨g.hash, 0, 0⟩] ∧ c.rt.nextTurn = 1 := by
  rw [coldStart_eq hg h]
  refine ⟨?_, rfl⟩
  simp [pushNode_eq, heightOf, Runtime.getHeightFromTime, opened, Runtime.init, hg, HeadState.ofNode]

example : coldChain.rt.head.node = [⟨genesisBlock.hash, 0, 0⟩] ∧ coldChain.rt.nextTurn = 1 :=
  @coldStart_head scenarioConfig Faults.none SqlState.empty genesisBlock coldChain rfl rfl

/-! ## Continuing a chain -/

/-- `c'` continues `c`: its main chain is `c`'s with the nodes `new` on top, it
keeps every entry of `c`'s store and index, and each entry it adds to the store
is the block of a new node under that node's index key. -/
def Extends (c c' : Chain) : Prop :=
  ∃ new, c'.rt.head.node = new ++ c.rt.head.node ∧ (∀ e ∈ c.bdb, e ∈ c'.bdb) ∧
    (∀ e ∈ c'.bdb, e ∈ c.bdb ∨
      ∃ x ∈ new, e.1 = metaBlockIndex ++ x.indexKey ∧ e.2.hash = x.hash) ∧
    ∀ g n, c.bi g = some n → c'.bi g = some n

/-- A chain with the head, the store and the index of `c` continues it. -/
theorem extends_of_eq {c c' : Chain} (hh : c'.rt.head.node = c.rt.head.node) (hb : c'.bdb = c.bdb)
    (hi : c'.bi = c.bi) : c.Extends c' :=
  ⟨[], hh, fun _ he => hb ▸ he, fun _ he => .inl (hb ▸ he), fun _ _ hg => hi ▸ hg⟩

theorem Extends.trans {c₁ c₂ c₃ : Chain} (h₁ : c₁.Extends c₂) (h₂ : c₂.Extends c₃) :
    c₁.Extends c₃ := by
  obtain ⟨n₁, hh₁, hk₁, ha₁, hi₁⟩ := h₁
  obtain ⟨n₂, hh₂, hk₂, ha₂, hi₂⟩ := h₂
  refine ⟨n₂ ++ n₁, by rw [hh₂, hh₁, List.append_assoc], fun e he => hk₂ e (hk₁ e he),
    fun e he => ?_, fun g n hg => hi₂ g n (hi₁ g n hg)⟩
  rcases ha₂ e he with he | ⟨x, hx, hxe⟩
  · exact (ha₁ e he).imp_right fun ⟨x, hx, hxe⟩ => ⟨x, List.mem_append_right _ hx, hxe⟩
  · exact .inr ⟨x, List.mem_append_left _ hx, hxe⟩

/-- Pushing a signed child of the head of a well-formed chain continues the
chain by the pushed node.  An entry already under the pushed key holds the
pushed block itself, so the `Put` loses nothing. -/
theorem WellFormed.extends_extend {c : Chain} (hc : c.WellFormed cfg) (hk : cfg.crypto.Sound)
    {b : Block} (hv : cfg.crypto.verify b = true) (hp : b.parentHash = c.rt.head.head) :
    c.Extends (c.extend cfg b) := by
  obtain ⟨x, hx, hxh, -⟩ := @pushNode_cons cfg c b
  have hkey : metaBlockIndex ++ BlockNode.indexKey (c.pushNode cfg b) =
      metaBlockIndex ++ x.indexKey := by rw [hx]; rfl
  refine ⟨[x], by rw [extend_head, hx]; rfl, fun e he => ?_, fun e he => ?_,
    fun _ _ hg => hc.extend_bi hk hv hp hg⟩
  · rw [extend_bdb, Store.mem_put, hkey]
    by_cases he1 : e.1 = metaBlockIndex ++ x.indexKey
    · obtain ⟨x', -, -, hek, hx'h, hs, -⟩ := hc.entry he
      have hb : e.2 = b := hk.hash_inj _ _ hs (.inl hv) (hx'h.symm.trans
        ((NodeInfo.hash_eq_of_indexKey (List.append_cancel_left (hek.symm.trans he1))).trans hxh))
      exact .inl (Prod.ext he1 hb)
    · exact .inr ⟨he, he1⟩
  · rw [extend_bdb, Store.mem_put, hkey] at he
    rcases he with rfl | ⟨he, -⟩
    · exact .inr ⟨x, List.mem_singleton_self _, rfl, hxh.symm⟩
    · exact .inl he

end Chain

namespace Node

variable {cfg : Config} {s s' : Node} {a : Action}

/-- One step of a node over a well-formed chain continues its chain. -/
theorem step_extends (hk : cfg.crypto.Sound) (hw : s.chain.WellFormed cfg)
    (h : s.step cfg a = some s') : s.chain.Extends s'.chain := by
  rcases step_chain h with h | ⟨st, h⟩ | h | ⟨f, b, h⟩ <;> rw [h]
  · exact Chain.extends_of_eq rfl rfl rfl
  · exact Chain.extends_of_eq rfl rfl rfl
  · exact Chain.extends_of_eq (by simp) (by simp) (by simp)
  · rcases Chain.checkAndPushNewBlock_fst f s.chain b with ⟨st, h⟩ | ⟨hp, hv, st, h⟩ <;> rw [h]
    · exact Chain.extends_of_eq rfl rfl rfl
    · exact Chain.WellFormed.extends_extend (c := { s.chain with st := st })
        (hw.frame rfl rfl rfl rfl) hk hv hp

theorem node_run_extends_chain (hk : cfg.crypto.Sound) {c₀ : Chain} (h₀ : c₀.Reachable cfg)
    {s s' : Node} {as : List Action} (hs : Node.Reachable cfg c₀ s) (h : s.run cfg as = some s') :
    s.chain.Extends s'.chain := by
  induction as generalizing s with
  | nil => cases h; exact Chain.extends_of_eq rfl rfl rfl
  | cons a as ih =>
    simp only [Node.run] at h
    split at h
    · rename_i s₁ h₁
      exact (step_extends hk ((hs.chain_reachable h₀).wellFormed hk) h₁).trans
        (ih (hs.step a h₁) h)
    · cases h

/-- A node's chain continues the chain it started from. -/
theorem Reachable.extends_start (hk : cfg.crypto.Sound) {c₀ : Chain} (h₀ : c₀.Reachable cfg)
    (hs : Node.Reachable cfg c₀ s) : c₀.Extends s.chain := by
  induction hs with
  | init => exact Chain.extends_of_eq rfl rfl rfl
  | step _ hs' h ih => exact ih.trans (step_extends hk ((hs'.chain_reachable h₀).wellFormed hk) h)

/-- `registryRun` continues the cold-started chain by the block of turn 1. -/
theorem registryRun_extends_chain : registryChain.Extends registryNode.chain :=
  node_run_extends_chain registryCrypto_sound (.coldStart registryChain_started) .init
    registryRun_eq

/-! ## The turn clock and the gate -/

/-- The block past the gate after a step was past it before, or the step
received it at the height of the current turn. -/
theorem receive_ingest {x b : Block} (hb : b ∈ (s.receive cfg x).ingest.blocks) :
    b ∈ s.ingest.blocks ∨ s.chain.heightOf cfg b.timestamp = s.chain.rt.nextTurn - 1 := by
  simp only [receive] at hb
  split_ifs at hb with h₁ h₂
  · exact .inl hb
  · exact .inl hb
  · obtain rfl := List.mem_singleton.mp hb
    exact .inr (by omega)

@[simp] theorem billingRound_ingest (nonce : Option Nat) (signOk : Bool) :
    (s.billingRound cfg nonce signOk).ingest = s.ingest := by
  simp only [billingRound]; split_ifs <;> (try split) <;> rfl

theorem step_ingest (h : s.step cfg a = some s') {b : Block} (hb : b ∈ s'.ingest.blocks) :
    b ∈ s.ingest.blocks ∨ s.chain.heightOf cfg b.timestamp = s.chain.rt.nextTurn - 1 := by
  cases hm : a.byMain
  swap
  · obtain ⟨c, hs, m, rfl⟩ := step_byMain hm h
    exact .inl hb
  unfold Node.step at h
  split at h
  · cases h
  cases a <;> simp only [Action.byMain, Bool.true_eq_false] at hm
  case cancel => cases h; exact .inl hb
  case recvHeight => obtain ⟨_, _, -, -, rfl⟩ := recvHeight_some h; split at hb <;> exact .inl hb
  case recvMain =>
    obtain ⟨-, ⟨_, -, rfl⟩ | ⟨_, -, rfl⟩⟩ := recvMain_some h <;> exact (receive_ingest hb :)
  case recvStash =>
    obtain ⟨-, _, _, -, -, -, rfl⟩ := recvStash_some h
    exact (receive_ingest hb :)
  case recvRemote => obtain ⟨-, rfl⟩ := recvRemote_some h; exact receive_ingest hb
  case check =>
    obtain ⟨_, _, -, ⟨-, rfl⟩ | ⟨_, -, rfl⟩⟩ := check_some h <;>
      simp [IngestPC.blocks] at hb
  case stop => obtain ⟨-, -, rfl⟩ := stop_some h; cases hb
  case abortStash => obtain ⟨_, -, -, -, rfl⟩ := abortStash_some h; exact .inl hb
  case drained => obtain ⟨-, -, rfl⟩ := drained_some h; cases hb

/-- A step moves the turn on or keeps it, and keeps the main chain or puts the
node of the block past the gate on top of it. -/
theorem step_head (h : s.step cfg a = some s') :
    s.chain.rt.nextTurn ≤ s'.chain.rt.nextTurn ∧
      (s'.chain.rt.head.node = s.chain.rt.head.node ∨
        ∃ b ∈ s.ingest.blocks, s'.chain.rt.head.node = s.chain.pushNode cfg b) := by
  rcases step_chain_cases h with h | ⟨_, _, h⟩ | h | h | ⟨f, b, hb, h⟩ <;> rw [h]
  · exact ⟨le_rfl, .inl rfl⟩
  · exact ⟨le_rfl, .inl rfl⟩
  · exact ⟨le_rfl, .inl rfl⟩
  · exact ⟨by simp only [Chain.finishTurn_nextTurn]; omega, .inl (by simp)⟩
  · have hturn := (@Chain.checkAndPushNewBlock_rt cfg f s.chain b).2
    refine ⟨hturn.ge, ?_⟩
    rcases Chain.checkAndPushNewBlock_fst f s.chain b with ⟨st, h⟩ | ⟨-, -, st, h⟩ <;> rw [h]
    · exact .inl rfl
    · exact .inr ⟨b, by simp [hb, IngestPC.blocks], by rw [Chain.extend_head, Chain.pushNode_eq]; rfl⟩

/-- Every main-chain node and the block past the gate sit below the next
turn. -/
def BelowTurn (cfg : Config) (s : Node) : Prop :=
  (∀ x ∈ s.chain.rt.head.node, x.height < s.chain.rt.nextTurn) ∧
    ∀ b ∈ s.ingest.blocks, s.chain.heightOf cfg b.timestamp < s.chain.rt.nextTurn

theorem BelowTurn.step (hI : s.BelowTurn cfg) (h : s.step cfg a = some s') : s'.BelowTurn cfg := by
  obtain ⟨hturn, hhead⟩ := step_head h
  have hof := @Chain.heightOf_congr cfg _ _ (step_clock h)
  refine ⟨fun x hx => ?_, fun b hb => ?_⟩
  · rcases hhead with hh | ⟨b, hb, hh⟩ <;> rw [hh] at hx
    · exact (hI.1 x hx).trans_le hturn
    · obtain ⟨y, hy, -, hyh⟩ := @Chain.pushNode_cons cfg s.chain b
      rw [hy] at hx
      rcases List.mem_cons.mp hx with rfl | hx
      · exact hyh ▸ (hI.2 b hb).trans_le hturn
      · exact (hI.1 x hx).trans_le hturn
  · rw [hof]
    rcases step_ingest h hb with hb | hb
    · exact (hI.2 b hb).trans_le hturn
    · omega

theorem Reachable.belowTurn {c₀ : Chain} (h₀ : ∀ x ∈ c₀.rt.head.node, x.height < c₀.rt.nextTurn)
    (hs : Node.Reachable cfg c₀ s) : s.BelowTurn cfg := by
  induction hs with
  | init => exact ⟨h₀, fun _ hb => by cases hb⟩
  | step _ _ h ih => exact ih.step h

theorem main_chain_below_next_turn {c₀ : Chain}
    (h₀ : ∀ x ∈ c₀.rt.head.node, x.height < c₀.rt.nextTurn) {s : Node}
    (hs : Node.Reachable cfg c₀ s) :
    (∀ x ∈ s.chain.rt.head.node, x.height < s.chain.rt.nextTurn) ∧
      ∀ b ∈ s.ingest.blocks, s.chain.heightOf cfg b.timestamp < s.chain.rt.nextTurn :=
  hs.belowTurn h₀

/-- Along `raceRun` the block of turn 1 is checked after turn 2 has begun, and
the main chain still sits below the next turn. -/
theorem raceNode_below_next_turn :
    (∀ x ∈ coldChain.rt.head.node, x.height < coldChain.rt.nextTurn) ∧
      ∀ x ∈ raceNode.chain.rt.head.node, x.height < raceNode.chain.rt.nextTurn :=
  ⟨by decide, (main_chain_below_next_turn (by decide)
    (Node.Reachable.init.run scenarioConfig raceRun_eq)).1⟩

/-! ## The SQL state -/

/-- The requests the SQL state holds only grow. -/
theorem step_held (h : s.step cfg a = some s') : s.chain.st.held <+: s'.chain.st.held := by
  rcases step_chain_cases h with h | ⟨tx, ok, h⟩ | h | h | ⟨f, b, -, h⟩
  · exact h ▸ List.prefix_refl _
  · rw [h]; cases ok <;> simp [SqlState.query]
  · exact h ▸ List.prefix_refl _
  · exact h ▸ (Chain.finishTurn_st s.chain).symm ▸ List.prefix_refl _
  · rw [h]
    rcases Chain.checkAndPushNewBlock_st f s.chain b with hst | ⟨-, hst⟩
    · exact hst ▸ List.prefix_refl _
    · exact hst ▸ List.prefix_append _ _

/-- Every query the SQL state executed and has not committed stays among the
requests it holds. -/
theorem step_pending (hI : ∀ tx ∈ s.chain.st.pending, tx.request ∈ s.chain.st.held)
    (h : s.step cfg a = some s') : ∀ tx ∈ s'.chain.st.pending, tx.request ∈ s'.chain.st.held := by
  have hheld := (step_held h).subset
  rcases step_chain_cases h with h | ⟨tx', ok, h⟩ | h | h | ⟨f, b, -, h⟩ <;> rw [h] at hheld ⊢
  · exact hI
  · cases ok <;> simp only [SqlState.query, if_true, if_false, Bool.false_eq_true]
    · exact hI
    · intro tx htx
      rcases List.mem_append.mp htx with htx | htx
      · exact List.mem_append_left _ (hI tx htx)
      · simp [List.mem_singleton.mp htx]
  · intro tx htx; cases htx
  · simpa using hI
  · intro tx htx
    rcases Chain.checkAndPushNewBlock_st f s.chain b with hst | ⟨-, hst⟩ <;> rw [hst] at htx
    · exact hheld (hI tx htx)
    · exact hheld (hI tx htx)

/-- A block a step produces is the tick's block on the head of the node's chain,
carrying the queries its SQL state had executed. -/
theorem producedIn_block {b : Block} (h : s.step cfg a = some s') (hb : b ∈ s'.producedIn a) :
    b = cfg.crypto.packAndSign (s.chain.newBlock cfg (s.chain.rt.nextTickTarget cfg.rc)
      s.chain.st.failed s.chain.st.pending) := by
  obtain rfl := mem_producedIn hb
  unfold Node.step at h
  split at h
  · cases h
  obtain ⟨-, ⟨-, b', c, hp, rfl⟩ | ⟨-, _, -, rfl⟩ | ⟨-, rfl⟩⟩ := tick_some h
  · obtain rfl : b = b' := List.mem_singleton.mp hb
    exact Chain.produceBlock_block (congrArg Prod.fst hp)
  all_goals cases hb

/-- A block a step produces hangs under the head and carries the target time of
the next turn, when signing keeps a block's header. -/
theorem producedIn_header (hsign : ∀ b, (cfg.crypto.packAndSign b).header = b.header) {b : Block}
    (h : s.step cfg a = some s') (hb : b ∈ s'.producedIn a) :
    b.parentHash = s.chain.rt.head.head ∧ b.timestamp = s.chain.rt.nextTickTarget cfg.rc := by
  rw [producedIn_block h hb]
  simp only [Block.parentHash, Block.timestamp, hsign]
  exact ⟨rfl, rfl⟩

/-- A block a step stores was past the gate, and it was produced by the local
server or its queries are now held. -/
theorem step_stored (h : s.step cfg a = some s') {e : List UInt8 × Block} (he : e ∈ s'.chain.bdb) :
    e ∈ s.chain.bdb ∨ e.2 ∈ s.ingest.blocks ∧
      (e.2.producer = cfg.rc.server ∨ ∀ tx ∈ e.2.queryTxs, tx.request ∈ s'.chain.st.held) := by
  rcases step_chain_cases h with h | ⟨_, _, h⟩ | h | h | ⟨f, b, hb, h⟩ <;> rw [h] at he ⊢
  · exact .inl he
  · exact .inl he
  · exact .inl he
  · exact .inl (by simpa using he)
  · rcases Chain.checkAndPushNewBlock_stored he with he | ⟨rfl, hcase⟩
    · exact .inl he
    · exact .inr ⟨by simp [hb, IngestPC.blocks], hcase⟩

end Node

/-! ## A committed write on no block

`produceBlock` commits the SQL state before it sends its block to the ingest
loop, and the block reaches `CheckAndPushNewBlock` only after the turn ends,
through the stash.  If the previous turn's block arrives in between and
becomes the head, the local block no longer extends the head and is rejected
with `ErrInvalidBlock`.  The requests the SQL state holds only grow
(`step_held`), and nothing rolls them back: the SQL state keeps a write that is
on no block of the main chain, no longer pending, and on no block still on its
way to the ingest loop. -/

/-- The blocks of the main chain: the stored block of every node from the head
down to genesis. -/
def Chain.mainChainBlocks (c : Chain) : List Block :=
  c.rt.head.node.filterMap fun n => c.bdb.get (metaBlockIndex ++ n.indexKey)

/-- The blocks still on their way to `CheckAndPushNewBlock`: the one
`mainCycle` is sending, the one past the gate, the stash, and the blocks the
stash-return goroutines have not sent yet. -/
def Node.inFlight (s : Node) : List Block :=
  (match s.main with
    | .syncSend b | .produced b => [b]
    | _ => []) ++
  (match s.ingest with
    | .checking b => [b]
    | _ => []) ++
  s.stash ++ (s.returners.map fun r => r.stash.drop r.next).flatten

/-- Whether a query transaction is on one of the blocks. -/
def carries (bs : List Block) (tx : QueryAsTx) : Bool :=
  bs.any fun b => b.queryTxs.contains tx

/-! ## A local block overtaken by the previous turn's -/

/-- A write of user 5 executed by `P0`. -/
def userWrite : QueryAsTx := ⟨⟨5, .writeQuery, ["insert"]⟩, ⟨Hash.ofByte 4, 25, 0, 0, 1⟩⟩

/-- `P2`'s block of turn 2 on genesis, which reaches `P0` late. -/
def lateTurnBlock : Block := ⟨⟨1, 2, Hash.zero, Hash.ofByte 1, 20⟩, Hash.ofByte 21, 2, [], [], []⟩

/-- `P0` passes turns 1 and 2 without `P2`'s block, executes `userWrite`, and
produces its turn-3 block on genesis.  `P2`'s block arrives before the local
one reaches the ingest loop, and becomes the head; the local block is stashed,
returned after the turn, and rejected. -/
def lateRun : List Action :=
  [.loopTop, .tick, .finish, .sendHeight, .recvHeight,
    .loopTop, .tick, .finish, .sendHeight, .recvHeight,
    .query userWrite true, .loopTop, .tick,
    .recvRemote lateTurnBlock, .check Faults.none none true,
    .recvMain, .advise, .advise, .advise, .finish, .sendHeight, .recvHeight,
    .recvStash 0, .check Faults.none none true]

/-- The node after `lateRun`. -/
def lateNode : Node :=
  ((Node.init coldChain).run scenarioConfig lateRun).getD (Node.init coldChain)

theorem lateRun_eq : (Node.init coldChain).run scenarioConfig lateRun = some lateNode := rfl

theorem committed_write_outlives_dropped_block :
    ∃ s, Node.Reachable scenarioConfig coldChain s ∧
      s.chain.rt.head.head = lateTurnBlock.hash ∧
      userWrite.request.queryType = .writeQuery ∧ userWrite.request ∈ s.chain.st.held ∧
      userWrite ∉ s.chain.st.pending ∧
      carries (s.chain.mainChainBlocks ++ s.inFlight) userWrite = false :=
  ⟨lateNode, Node.Reachable.init.run scenarioConfig lateRun_eq, by decide, rfl, by decide,
    by decide, by decide⟩

end SqlChain
