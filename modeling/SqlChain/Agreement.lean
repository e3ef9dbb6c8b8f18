import SqlChain.Cluster
import SqlChain.StashReturn
import SqlChain.Rotation

/-!
# Agreement by height

The main chains of two nodes need not be prefix-comparable, but they never
hold two different blocks at one height.  Every block a node holds is the
genesis block or one a node produced, and a height determines the produced
block: only the peer of the height's slot produces at that height, and it
produces at most once per turn, since its turn only moves on.  Below a block
both nodes hold, their indexes agree, by induction down the parent walk.

The argument assumes that `PackAndSignBlock` leaves the header's producer
and timestamp as they are, and the properties of the signatures the chain
relies on (`Crypto.Sound`).
-/

namespace SqlChain

namespace MainPC

/-- The block `mainCycle` is sending. -/
def blocks : MainPC → List Block
  | syncSend b | produced b => [b]
  | _ => []

/-- Whether `mainCycle` is inside `runCurrentTurn`, between the tick and the
deferred function that moves the turn on. -/
def inTurn : MainPC → Bool
  | produced _ | advising _ | finishTurn => true
  | _ => false

end MainPC

/-- The block past the gate of `processBlocks`. -/
def IngestPC.blocks : IngestPC → List Block
  | .checking b => [b]
  | _ => []

namespace Chain

variable {cfg : Config}

theorem checkAndPushNewBlock_rt (f : Faults) (c : Chain) (b : Block) :
    (c.checkAndPushNewBlock cfg f b).1.rt.chainInitTime = c.rt.chainInitTime ∧
      (c.checkAndPushNewBlock cfg f b).1.rt.nextTurn = c.rt.nextTurn := by
  rcases checkAndPushNewBlock_fst f c b with ⟨st, h⟩ | ⟨-, -, st, h⟩ <;> rw [h] <;> exact ⟨rfl, rfl⟩

/-- A call of `CheckAndPushNewBlock` stores at most the block it checks. -/
theorem checkAndPushNewBlock_bdb {f : Faults} {c : Chain} {b : Block} {e : List UInt8 × Block}
    (he : e ∈ (c.checkAndPushNewBlock cfg f b).1.bdb) : e.2 = b ∨ e ∈ c.bdb := by
  rcases checkAndPushNewBlock_fst f c b with ⟨st, h⟩ | ⟨-, -, st, h⟩ <;> rw [h] at he
  · exact .inr he
  · rcases (Store.mem_put _).mp he with rfl | ⟨he, -⟩
    · exact .inl rfl
    · exact .inr he

/-- The block `produceBlock` packs carries the local server as producer and
the turn's target as timestamp. -/
theorem produceBlock_fst {c : Chain} {t : Int} {b : Block}
    (h : (c.produceBlock cfg t).1 = some b) :
    ∃ blk : Block, b = cfg.crypto.packAndSign blk ∧ blk.producer = cfg.rc.server ∧
      blk.timestamp = t := by
  simp only [produceBlock] at h
  split_ifs at h
  cases h
  exact ⟨_, rfl, rfl, rfl⟩

end Chain

namespace Node

/-- Every block a node holds satisfies `P`: the stored blocks, the block
`mainCycle` is sending, the block past the gate, the stash, and the stashes
handed to the stash-return goroutines. -/
def Holds (P : Block → Prop) (s : Node) : Prop :=
  (∀ e ∈ s.chain.bdb, P e.2) ∧ (∀ b ∈ s.main.blocks, P b) ∧ (∀ b ∈ s.ingest.blocks, P b) ∧
    (∀ b ∈ s.stash, P b) ∧ ∀ r ∈ s.returners, ∀ b ∈ r.stash, P b

/-- The last turn `runCurrentTurn` has started: the next turn while it runs,
the one before otherwise. -/
def lastTurn (s : Node) : Int :=
  if s.main.inTurn then s.chain.rt.nextTurn else s.chain.rt.nextTurn - 1

variable {cfg : Config} {s s' : Node} {P : Block → Prop}

theorem nil_holds : ∀ b ∈ ([] : List Block), P b := fun _ h => absurd h (List.not_mem_nil _)

theorem singleton_holds {b : Block} (hb : P b) : ∀ x ∈ [b], P x :=
  fun _ h => List.mem_singleton.mp h ▸ hb

theorem Holds.mono {Q : Block → Prop} (h : s.Holds P) (hPQ : ∀ b, P b → Q b) : s.Holds Q :=
  let ⟨hb, hm, hi, hs, hr⟩ := h
  ⟨fun e he => hPQ _ (hb e he), fun b h => hPQ _ (hm b h), fun b h => hPQ _ (hi b h),
    fun b h => hPQ _ (hs b h), fun r hr' b h => hPQ _ (hr r hr' b h)⟩

theorem Holds.receive (h : s.Holds P) {b : Block} (hb : P b) : (s.receive cfg b).Holds P := by
  obtain ⟨hbdb, hm, hi, hs, hr⟩ := h
  rcases @receive_cases cfg s b with ⟨-, he⟩ | ⟨-, he | he⟩ <;> rw [he]
  · exact ⟨hbdb, hm, hi, fun x hx => (List.mem_append.mp hx).elim (hs x)
      (fun hx => List.mem_singleton.mp hx ▸ hb), hr⟩
  · exact ⟨hbdb, hm, hi, hs, hr⟩
  · exact ⟨hbdb, hm, singleton_holds hb, hs, hr⟩

theorem holds_billingRound (nonce : Option Nat) (signOk : Bool) :
    (s.billingRound cfg nonce signOk).Holds P ↔ s.Holds P := by
  simp only [billingRound]; split_ifs <;> (try split) <;> exact Iff.rfl

theorem produceBlock_bdb {c c' : Chain} {t : Int} {b : Option Block}
    (h : c.produceBlock cfg t = (b, c')) : c'.bdb = c.bdb := by
  have := congrArg (fun p => p.2.bdb) h
  simpa [produceBlock_snd] using this.symm

@[simp] theorem finishTurn_bdb (c : Chain) : (c.finishTurn cfg).bdb = c.bdb := by
  simp [Chain.finishTurn]

/-- A stash-return goroutine's stash is one the node handed out. -/
theorem mem_set_stash {rs : List Returner} {i : Nat} {r r' q : Returner} (hr : rs[i]? = some r)
    (hq : q ∈ rs.set i r') (hs : r'.stash = r.stash) : ∃ q' ∈ rs, q'.stash = q.stash := by
  rcases List.mem_or_eq_of_mem_set hq with hq | rfl
  · exact ⟨q, hq, rfl⟩
  · exact ⟨r, List.getElem?_mem hr, hs.symm⟩

/-- A step of a node holds only blocks it held, the block it takes from
outside, and the block it produces. -/
theorem Holds.step (hP : s.Holds P) {a : Action} (hin : ∀ b ∈ a.input, P b)
    (hprod : ∀ b ∈ s'.producedIn a, P b) (h : s.step cfg a = some s') : s'.Holds P := by
  obtain ⟨hb, hm, hi, hs, hr⟩ := hP
  have main : ∀ m : MainPC, (∀ x ∈ m.blocks, P x) → Holds P { s with main := m } :=
    fun _ hm' => ⟨hb, hm', hi, hs, hr⟩
  have returners : ∀ {i r r'}, s.returners[i]? = some r → r'.stash = r.stash →
      Holds P { s with returners := s.returners.set i r' } := fun hri he =>
    ⟨hb, hm, hi, hs, fun q hq => by
      obtain ⟨q', hq', he'⟩ := mem_set_stash hri hq he
      exact he' ▸ hr q' hq'⟩
  unfold Node.step at h
  split at h
  · cases h
  cases a
  case query | cancel => cases h; exact ⟨hb, hm, hi, hs, hr⟩
  case loopTop => obtain ⟨-, rfl⟩ := loopTop_some h; split <;> exact main _ nil_holds
  case sync => obtain ⟨-, -, -, rfl⟩ := syncFetch_some h; exact main _ hin
  case sleep => obtain ⟨-, rfl⟩ := sleep_some h; exact main _ nil_holds
  case tick =>
    obtain ⟨-, ⟨-, _, c, hc, rfl⟩ | ⟨-, c, hc, rfl⟩ | ⟨-, rfl⟩⟩ := tick_some h
    · exact ⟨fun e he => hb e (produceBlock_bdb hc ▸ he), hprod, hi, hs, hr⟩
    · exact ⟨fun e he => hb e (produceBlock_bdb hc ▸ he), nil_holds, hi, hs, hr⟩
    · exact main _ nil_holds
  case abortSend =>
    obtain ⟨-, ⟨_, -, rfl⟩ | ⟨_, -, rfl⟩⟩ := abortSend_some h <;> exact main _ nil_holds
  case advise => obtain ⟨-, rfl⟩ | ⟨_, -, rfl⟩ := advise_some h <;> exact main _ nil_holds
  case finish =>
    obtain ⟨-, rfl⟩ := finish_some h
    exact ⟨fun e he => hb e (by simpa using he), nil_holds, hi, hs, hr⟩
  case sendHeight => obtain ⟨_, -, -, rfl⟩ := sendHeight_some h; exact ⟨hb, nil_holds, hi, hs, hr⟩
  case recvHeight =>
    obtain ⟨_, _, -, -, rfl⟩ := recvHeight_some h
    split_ifs
    · exact ⟨hb, hm, hi, hs, hr⟩
    · refine ⟨hb, hm, hi, nil_holds, fun q hq => ?_⟩
      rcases List.mem_append.mp hq with hq | hq
      · exact hr q hq
      · exact List.mem_singleton.mp hq ▸ hs
  case recvMain =>
    obtain ⟨-, ⟨_, hmain, rfl⟩ | ⟨_, hmain, rfl⟩⟩ := recvMain_some h
    · exact (main .afterSync nil_holds).receive (hm _ (by simp [hmain, MainPC.blocks]))
    · exact (main (.advising _) nil_holds).receive (hm _ (by simp [hmain, MainPC.blocks]))
  case recvStash =>
    obtain ⟨-, r, b, hri, -, hbr, rfl⟩ := recvStash_some h
    exact (returners hri (by rfl)).receive (hr r (List.getElem?_mem hri) _ (List.getElem?_mem hbr))
  case recvRemote b =>
    obtain ⟨-, rfl⟩ := recvRemote_some h
    exact Holds.receive ⟨hb, hm, hi, hs, hr⟩ (hin b (List.mem_singleton_self b))
  case check f nonce signOk =>
    obtain ⟨b, c, hib, ⟨hc, rfl⟩ | ⟨e, hc, rfl⟩⟩ := check_some h <;>
    · have hc' : ∀ e ∈ c.bdb, P e.2 := fun e he =>
        (Chain.checkAndPushNewBlock_bdb (hc ▸ he : e ∈ (s.chain.checkAndPushNewBlock cfg f b).1.bdb)).elim
          (fun h => h ▸ hi b (by simp [hib, IngestPC.blocks])) (hb e)
      first
        | exact (holds_billingRound _ _).mpr ⟨hc', hm, nil_holds, hs, hr⟩
        | exact ⟨hc', hm, nil_holds, hs, hr⟩
  case stop => obtain ⟨-, -, rfl⟩ := stop_some h; exact ⟨hb, hm, nil_holds, hs, hr⟩
  case abortStash => obtain ⟨r, hri, -, -, rfl⟩ := abortStash_some h; exact returners hri rfl
  case drained => obtain ⟨-, -, rfl⟩ := drained_some h; exact ⟨hb, hm, nil_holds, hs, hr⟩

theorem produceBlock_rt {c c' : Chain} {t : Int} {b : Option Block}
    (h : c.produceBlock cfg t = (b, c')) : c'.rt = c.rt := by
  have := congrArg (fun p => p.2.rt) h
  simpa [produceBlock_snd] using this.symm

theorem checkAndPushNewBlock_nextTurn {f : Faults} {c c' : Chain} {b : Block}
    {e : Option ChainError} (h : c.checkAndPushNewBlock cfg f b = (c', e)) :
    c'.rt.nextTurn = c.rt.nextTurn := by
  have : (c.checkAndPushNewBlock cfg f b).1.rt.nextTurn = c.rt.nextTurn :=
    (Chain.checkAndPushNewBlock_rt f c b).2
  rwa [h] at this

@[simp] theorem receive_main (b : Block) : (s.receive cfg b).main = s.main := by
  rcases @receive_cases cfg s b with ⟨-, h⟩ | ⟨-, h | h⟩ <;> rw [h]

@[simp] theorem billingRound_main (nonce : Option Nat) (signOk : Bool) :
    (s.billingRound cfg nonce signOk).main = s.main := by
  simp only [billingRound]; split_ifs <;> (try split) <;> rfl

/-- A step that keeps where the main loop stands in the turn and the next turn
keeps the last turn. -/
theorem lastTurn_le_of (hm : s'.main.inTurn = s.main.inTurn)
    (ht : s'.chain.rt.nextTurn = s.chain.rt.nextTurn) : s.lastTurn ≤ s'.lastTurn := by
  simp only [lastTurn, hm, ht, le_refl]

/-- A step of a node never moves the last turn it started back. -/
theorem step_lastTurn {a : Action} (h : s.step cfg a = some s') : s.lastTurn ≤ s'.lastTurn := by
  unfold Node.step at h
  split at h
  · cases h
  cases a
  case query | cancel => cases h; exact le_rfl
  case loopTop =>
    obtain ⟨hm, rfl⟩ := loopTop_some h
    split <;> exact lastTurn_le_of (by simp [hm, MainPC.inTurn]) rfl
  case sync =>
    obtain ⟨hm, -, -, rfl⟩ := syncFetch_some h
    exact lastTurn_le_of (by simp [hm, MainPC.inTurn]) rfl
  case sleep =>
    obtain ⟨hm, rfl⟩ := sleep_some h
    exact lastTurn_le_of (by simp [hm, MainPC.inTurn]) rfl
  case tick =>
    obtain ⟨hm, ⟨-, _, c, hc, rfl⟩ | ⟨-, c, hc, rfl⟩ | ⟨-, rfl⟩⟩ := tick_some h <;>
      simp only [lastTurn, hm, MainPC.inTurn, Bool.false_eq_true, if_true, if_false] <;>
      first | omega | (rw [produceBlock_rt hc]; omega)
  case abortSend =>
    obtain ⟨-, ⟨_, hm, rfl⟩ | ⟨_, hm, rfl⟩⟩ := abortSend_some h <;>
      exact lastTurn_le_of (by simp [hm, MainPC.inTurn]) rfl
  case advise =>
    obtain ⟨hm, rfl⟩ | ⟨_, hm, rfl⟩ := advise_some h <;>
      exact lastTurn_le_of (by simp [hm, MainPC.inTurn]) rfl
  case finish =>
    obtain ⟨hm, rfl⟩ := finish_some h
    simp only [lastTurn, hm, MainPC.inTurn, Chain.finishTurn, Runtime.setNextTurn,
      Chain.pruneBlockCache_rt, Bool.false_eq_true, if_true, if_false]
    omega
  case sendHeight =>
    obtain ⟨_, hm, -, rfl⟩ := sendHeight_some h
    exact lastTurn_le_of (by simp [hm, MainPC.inTurn]) rfl
  case recvHeight => obtain ⟨_, _, -, -, rfl⟩ := recvHeight_some h; split <;> exact le_rfl
  case recvMain =>
    obtain ⟨-, ⟨_, hm, rfl⟩ | ⟨_, hm, rfl⟩⟩ := recvMain_some h <;>
      exact lastTurn_le_of (by simp [hm, MainPC.inTurn]) (by simp)
  case recvStash =>
    obtain ⟨-, _, _, -, -, -, rfl⟩ := recvStash_some h
    exact lastTurn_le_of (by simp) (by simp)
  case recvRemote => obtain ⟨-, rfl⟩ := recvRemote_some h; exact lastTurn_le_of (by simp) (by simp)
  case check =>
    obtain ⟨_, _, -, ⟨hc, rfl⟩ | ⟨_, hc, rfl⟩⟩ := check_some h
    · exact lastTurn_le_of (by simp) (by simp [checkAndPushNewBlock_nextTurn hc])
    · exact lastTurn_le_of rfl (checkAndPushNewBlock_nextTurn hc)
  case stop => obtain ⟨-, -, rfl⟩ := stop_some h; exact le_rfl
  case abortStash => obtain ⟨_, -, -, -, rfl⟩ := abortStash_some h; exact le_rfl
  case drained => obtain ⟨-, -, rfl⟩ := drained_some h; exact le_rfl

/-- A tick that produces a block packs it for the local server at the turn's
target, in a turn of the local server's slot, and starts that turn. -/
theorem tick_produced {b : Block} (h : s.step cfg .tick = some s')
    (hb : b ∈ s'.producedIn .tick) :
    s.chain.rt.isMyTurn cfg.rc = true ∧ s.lastTurn = s.chain.rt.nextTurn - 1 ∧
      s'.lastTurn = s.chain.rt.nextTurn ∧
      ∃ blk : Block, b = cfg.crypto.packAndSign blk ∧ blk.producer = cfg.rc.server ∧
        blk.timestamp = s.chain.rt.nextTickTarget cfg.rc := by
  unfold Node.step at h
  split at h
  · cases h
  obtain ⟨hm, ⟨hturn, b', c, hp, rfl⟩ | ⟨-, _, -, rfl⟩ | ⟨-, rfl⟩⟩ := tick_some h
  · obtain rfl : b = b' := List.mem_singleton.mp hb
    obtain ⟨blk, hb, hprod, hts⟩ := Chain.produceBlock_fst (congrArg Prod.fst hp)
    exact ⟨hturn, by simp [lastTurn, hm, MainPC.inTurn],
      by simp [lastTurn, MainPC.inTurn, produceBlock_rt hp], blk, hb, hprod, hts⟩
  all_goals cases hb

/-- A step of a node keeps its clock. -/
theorem step_clock {a : Action} (h : s.step cfg a = some s') :
    s'.chain.rt.chainInitTime = s.chain.rt.chainInitTime := by
  rcases step_chain h with h' | ⟨st, h'⟩ | h' | ⟨f, b, h'⟩ <;> rw [h']
  · simp [Chain.finishTurn, Runtime.setNextTurn]
  · exact (Chain.checkAndPushNewBlock_rt f s.chain b).1

/-- A step produces at most one block. -/
theorem producedIn_cases (s' : Node) (a : Action) :
    s'.producedIn a = [] ∨ ∃ b, s'.producedIn a = [b] := by
  cases a <;> simp only [producedIn, true_or]
  split
  · exact .inr ⟨_, rfl⟩
  · exact .inl rfl

/-- Only a tick produces. -/
theorem mem_producedIn {a : Action} {b : Block} (hb : b ∈ s'.producedIn a) : a = .tick := by
  cases a <;> first | rfl | cases hb

/-- An advise request carries the block `mainCycle` is sending. -/
theorem mem_advises {a : Action} {m : NodeID × Block} (hm : m ∈ s.advises cfg a) :
    m.2 ∈ s.main.blocks := by
  cases a <;> simp only [advises, List.not_mem_nil] at hm
  split at hm
  · rename_i b hmain
    obtain ⟨q, -, rfl⟩ := List.mem_map.mp hm
    simp [hmain, MainPC.blocks]
  · cases hm

end Node

namespace Chain

variable {cfg : Config} {c c' : Chain}

/-- The chain's shape reads only the signatures and the period of the
configuration, which every peer shares. -/
theorem WellFormed.of_atPeer {p : NodeID} (hc : c.WellFormed (cfg.atPeer p)) : c.WellFormed cfg :=
  ⟨hc.head_eq, hc.head_ne, hc.head_indexed, hc.indexed, hc.stored, hc.keys_nodup⟩

/-- Every node of the main chain is indexed with its ancestors. -/
theorem WellFormed.mem_head (hc : c.WellFormed cfg) {x : NodeInfo} (hx : x ∈ c.rt.head.node) :
    ∃ rest, c.bi x.hash = some (x :: rest) := by
  suffices ∀ n h, c.bi h = some n → x ∈ n → ∃ rest, c.bi x.hash = some (x :: rest) from
    this _ _ hc.head_indexed hx
  intro n
  induction n with
  | nil => intro _ _ hx; cases hx
  | cons y rest ih =>
    intro h hn hx
    obtain ⟨y', rest', hn', hyh, b, -, -, -, -, hpar⟩ := hc.node hn
    cases hn'
    rcases List.mem_cons.mp hx with rfl | hx
    · exact ⟨rest, hyh ▸ hn⟩
    · rcases rest with _ | ⟨z, r⟩
      · cases hx
      · exact ih z.hash hpar.1 hx

/-- Two well-formed chains on one clock index the same ancestry under a
hash they both index. -/
theorem WellFormed.index_agree (hk : cfg.crypto.Sound) (hc : c.WellFormed cfg)
    (hc' : c'.WellFormed cfg) (ht : c'.rt.chainInitTime = c.rt.chainInitTime) :
    ∀ {h : Hash} {n n' : BlockNode}, c.bi h = some n → c'.bi h = some n' → n = n' := by
  intro h n
  induction n generalizing h with
  | nil => intro n' hn _; obtain ⟨_, _, hn, -⟩ := hc.node hn; cases hn
  | cons x rest ih =>
    intro n' hn hn'
    obtain ⟨x₁, r₁, h₁, hxh, b, -, hbh, hs, hht, hpar⟩ := hc.node hn
    obtain ⟨x', r', rfl, hxh', b', -, hbh', hs', hht', hpar'⟩ := hc'.node hn'
    cases h₁
    obtain rfl : b = b' := hk.hash_inj _ _ hs hs' (hbh.trans hbh'.symm)
    have hheight : x.height = x'.height := by
      rw [← hht, ← hht', heightOf_congr ht]
    rcases rest with _ | ⟨y, r⟩ <;> rcases r' with _ | ⟨y', r'⟩
    · have : x = x' := NodeInfo.ext (hxh.trans hxh'.symm) hheight (hpar.1.trans hpar'.1.symm)
      rw [this]
    · exact absurd (hpar'.2.1.symm.trans hpar.2.1) (hc'.hash_ne_zero hk hpar'.1)
    · exact absurd (hpar.2.1.symm.trans hpar'.2.1) (hc.hash_ne_zero hk hpar.1)
    · have hy : y'.hash = y.hash := hpar'.2.1.symm.trans hpar.2.1
      have hrest : y :: r = y' :: r' := ih hpar.1 (hy ▸ hpar'.1)
      obtain ⟨rfl, rfl⟩ := List.cons.inj hrest
      have : x = x' := NodeInfo.ext (hxh.trans hxh'.symm) hheight
        (hpar.2.2.trans hpar'.2.2.symm)
      rw [this]

/-- `FetchBlock` answers with a stored block. -/
theorem fetchBlock_mem {height : Int} {b : Block} (h : c.fetchBlock height = .ok (some b)) :
    ∃ k, (k, b) ∈ c.bdb := by
  unfold fetchBlock fetchBlockByIndexKey at h
  split at h
  · cases h
  · split at h
    · cases h; exact ⟨_, Store.mem_of_get _ ‹_›⟩
    · cases h

/-- A cold start on empty stores pushes the configured genesis block on the
opened stores. -/
theorem coldStart_eq {f : Faults} {st : SqlState} {g : Block} (hg : cfg.genesis = some g)
    (h : newChainWithContext cfg f [] st = .ok c) : c = (opened cfg [] st).extend cfg g := by
  simp only [newChainWithContext, loadBlocks, Store.iter, List.filter_nil,
    List.insertionSort, hg, genesis] at h
  split_ifs at h
  exact (pushBlock_ok h).2

end Chain

/-! ## The blocks of a cluster -/

namespace Cluster

/-- The height of a block on the clock of the genesis block `g`. -/
def heightOn (cfg : Config) (g b : Block) : Int :=
  (b.timestamp - g.timestamp) / cfg.rc.period

/-- A block the cluster knows: the genesis block or a block a node produced. -/
def Known (g : Block) (S : Cluster) (b : Block) : Prop :=
  b = g ∨ b ∈ S.produced

/-- What holds along every run of a cluster started on the genesis block `g`:
every node runs on the genesis clock and has started no turn before turn 0;
every block a node holds and every advised block is known; and every produced
block sits in its producer's slot, above genesis, no later than the last turn
its producer started, at a height no other produced block has. -/
structure Inv (cfg : Config) (g : Block) (S : Cluster) : Prop where
  clock : ∀ p, (S.nodes p).chain.rt.chainInitTime = g.timestamp
  started : ∀ p, 0 ≤ (S.nodes p).lastTurn
  holds : ∀ p, (S.nodes p).Holds (Known g S)
  net : ∀ m ∈ S.net, Known g S m.2
  slot : ∀ b ∈ S.produced, ∃ i, findPeer cfg.rc.peers b.producer = some i ∧
    heightOn cfg g b % cfg.rc.peers.length = i
  above : ∀ b ∈ S.produced, 0 < heightOn cfg g b ∧ heightOn cfg g b ≤ (S.nodes b.producer).lastTurn
  nodup : (S.produced.map (heightOn cfg g)).Nodup

variable {cfg : Config} {g : Block} {c₀ : NodeID → Chain} {S S' : Cluster}

theorem inv_init (hg : cfg.genesis = some g)
    (h₀ : ∀ p, ∃ f st, Chain.newChainWithContext (cfg.atPeer p) f [] st = .ok (c₀ p)) :
    Inv cfg g (init c₀) := by
  have hc : ∀ p, ∃ st, c₀ p = (Chain.opened (cfg.atPeer p) [] st).extend (cfg.atPeer p) g :=
    fun p => let ⟨_, st, h⟩ := h₀ p; ⟨st, Chain.coldStart_eq hg h⟩
  refine ⟨fun p => ?_, fun p => ?_, fun p => ?_, by simp [init], by simp [init], by simp [init],
    by simp [init]⟩ <;> obtain ⟨st, hp⟩ := hc p <;> simp only [init, hp]
  · simp [Node.init, Chain.opened, Runtime.init, Config.atPeer, hg]
  · simp [Node.lastTurn, Node.init, MainPC.inTurn, Chain.extend, Chain.opened, Runtime.init,
      Runtime.setHead]
  · refine ⟨fun e he => ?_, Node.nil_holds, Node.nil_holds, Node.nil_holds, by simp [Node.init]⟩
    simp only [Node.init, Chain.extend_bdb, Store.put, Chain.opened, List.filter_nil,
      List.mem_singleton] at he
    exact .inl (by rw [he])

/-- A height on the genesis clock determines the known block. -/
theorem Inv.known_eq (hI : S.Inv cfg g) {b b' : Block} (hb : Known g S b) (hb' : Known g S b')
    (hh : heightOn cfg g b = heightOn cfg g b') : b = b' := by
  have hg : heightOn cfg g g = 0 := by simp [heightOn]
  rcases hb with rfl | hb <;> rcases hb' with rfl | hb'
  · rfl
  · have := (hI.above b' hb').1; omega
  · have := (hI.above b hb).1; omega
  · exact List.inj_on_of_nodup_map hI.nodup hb hb' hh

/-- The block of a tick sits at the height of the turn on the genesis clock. -/
theorem heightOn_nextTickTarget {b : Block} {rt : Runtime} {p : NodeID}
    (ht : rt.chainInitTime = g.timestamp) (hb : b.timestamp = rt.nextTickTarget (cfg.atPeer p).rc) :
    heightOn cfg g b = rt.nextTurn := by
  simp only [heightOn, hb, Runtime.nextTickTarget, ht]
  rw [Int.add_comm, Int.add_sub_cancel]
  exact Int.mul_ediv_cancel _ (ne_of_gt cfg.rc.period_pos)

theorem isMyTurn_slot {rc : RuntimeConfig} {rt : Runtime} (h : rt.isMyTurn rc = true) :
    ∃ i, findPeer rc.peers rc.server = some i ∧ rt.nextTurn % rc.peers.length = i := by
  unfold Runtime.isMyTurn at h
  split at h
  · exact ⟨_, ‹_›, of_decide_eq_true h⟩
  · cases h

/-- A block a node produces sits in its producer's slot, one turn above the
last turn its producer had started. -/
theorem Inv.produced_slot (hsign : ∀ b, (cfg.crypto.packAndSign b).header = b.header)
    (hI : S.Inv cfg g) {p : NodeID} {a : Action} {s' : Node}
    (hs : (S.nodes p).step (cfg.atPeer p) a = some s') {b : Block} (hb : b ∈ s'.producedIn a) :
    b.producer = p ∧ (∃ i, findPeer cfg.rc.peers b.producer = some i ∧
      heightOn cfg g b % cfg.rc.peers.length = i) ∧
      heightOn cfg g b = (S.nodes p).lastTurn + 1 ∧ s'.lastTurn = heightOn cfg g b := by
  obtain rfl := Node.mem_producedIn hb
  obtain ⟨hturn, hlast, hlast', blk, rfl, hprod, hts⟩ := Node.tick_produced hs hb
  have hhead : ((cfg.atPeer p).crypto.packAndSign blk).header = blk.header := hsign blk
  have hp : ((cfg.atPeer p).crypto.packAndSign blk).producer = p := by
    simp only [Block.producer, hhead]; exact hprod
  have hh := heightOn_nextTickTarget (hI.clock p)
    (show ((cfg.atPeer p).crypto.packAndSign blk).timestamp = _ by
      simp only [Block.timestamp, hhead]; exact hts)
  obtain ⟨i, hi, hmod⟩ := isMyTurn_slot hturn
  exact ⟨hp, ⟨i, hp ▸ hi, hh ▸ hmod⟩, by omega, by omega⟩

/-- Every step of a cluster keeps the invariant. -/
theorem Inv.step (hsign : ∀ b, (cfg.crypto.packAndSign b).header = b.header) (hI : S.Inv cfg g)
    {a : ClusterAction} (h : S.step cfg a = some S') : S'.Inv cfg g := by
  obtain ⟨p, a', s', hs, hn, hcase⟩ := step_cases h
  have hnode : ∀ r, S'.nodes r = if r = p then s' else S.nodes r := fun r => by
    rw [hn, Function.update_apply]
  have hprod : S'.produced = S.produced ++ s'.producedIn a' := by
    rcases hcase with ⟨-, -, h⟩ | ⟨_, _, -, rfl, -, h⟩ | ⟨_, _, -, rfl, -, h⟩ <;>
      simp [h, Node.producedIn]
  have hknown : ∀ b, Known g S b → Known g S' b := fun b hb =>
    hb.imp_right fun hb => hprod ▸ List.mem_append_left _ hb
  have hlast : ∀ r, (S.nodes r).lastTurn ≤ (S'.nodes r).lastTurn := fun r => by
    rw [hnode r]
    split_ifs with hr
    · subst hr; exact Node.step_lastTurn hs
    · exact le_rfl
  have hin : ∀ b ∈ a'.input, Known g S' b := by
    rcases hcase with ⟨hi, -, -⟩ | ⟨k, b, hk, rfl, -, -⟩ | ⟨q, b, hq, rfl, -, -⟩
    · rw [hi]; exact Node.nil_holds
    · exact Node.singleton_holds (hknown _ (hI.net (p, b) (List.getElem?_mem hk)))
    · obtain ⟨k, hk⟩ := Chain.fetchBlock_mem hq
      exact Node.singleton_holds (hknown _ ((hI.holds q).1 (k, b) hk))
  have hnew := fun b (hb : b ∈ s'.producedIn a') => hI.produced_slot hsign hs hb
  refine ⟨fun r => ?_, fun r => (hI.started r).trans (hlast r), fun r => ?_, fun m hm => ?_,
    fun b hb => ?_, fun b hb => ?_, ?_⟩
  · rw [hnode r]
    split_ifs with hr
    · subst hr; rw [Node.step_clock hs]; exact hI.clock r
    · exact hI.clock r
  · rw [hnode r]
    split_ifs with hr
    · subst hr
      exact ((hI.holds r).mono hknown).step hin (fun b hb => .inr (hprod ▸ List.mem_append_right _ hb)) hs
    · exact (hI.holds r).mono hknown
  · rcases hcase with ⟨-, hnet, -⟩ | ⟨k, b, -, -, hnet, -⟩ | ⟨-, -, -, -, hnet, -⟩ <;> rw [hnet] at hm
    · rcases List.mem_append.mp hm with hm | hm
      · exact hknown _ (hI.net m hm)
      · exact hknown _ ((hI.holds p).2.1 _ (Node.mem_advises hm))
    · exact hknown _ (hI.net m (List.mem_of_mem_eraseIdx hm))
    · exact hknown _ (hI.net m hm)
  · rw [hprod] at hb
    rcases List.mem_append.mp hb with hb | hb
    · exact hI.slot b hb
    · exact (hnew b hb).2.1
  · rw [hprod] at hb
    rcases List.mem_append.mp hb with hb | hb
    · exact ⟨(hI.above b hb).1, (hI.above b hb).2.trans (hlast _)⟩
    · obtain ⟨hp, -, hh, hh'⟩ := hnew b hb
      refine ⟨by have := hI.started p; omega, ?_⟩
      rw [hp, hnode p, if_pos rfl, hh']
  · rw [hprod, List.map_append, List.nodup_append]
    refine ⟨hI.nodup, ?_, ?_⟩
    · rcases Node.producedIn_cases s' a' with he | ⟨b, he⟩ <;> simp [he]
    · intro x hx hy
      obtain ⟨b', hb', rfl⟩ := List.mem_map.mp hx
      obtain ⟨b, hb, hbh⟩ := List.mem_map.mp hy
      obtain ⟨hp, ⟨i, hi, hmod⟩, hh, -⟩ := hnew b hb
      obtain ⟨i', hi', hmod'⟩ := hI.slot b' hb'
      have hii : i' = i := by rw [hbh] at hmod; omega
      subst hii
      have hprod' : b'.producer = p := by
        have := (findPeer_getElem? hi').symm.trans (findPeer_getElem? hi)
        rw [Option.some.injEq] at this
        rw [this, hp]
      have := (hI.above b' hb').2
      rw [hprod'] at this
      omega

/-- The invariant holds on every reachable cluster. -/
theorem Inv.reachable (hsign : ∀ b, (cfg.crypto.packAndSign b).header = b.header)
    (hg : cfg.genesis = some g)
    (h₀ : ∀ p, ∃ f st, Chain.newChainWithContext (cfg.atPeer p) f [] st = .ok (c₀ p))
    (hS : S.Reachable cfg c₀) : S.Inv cfg g := by
  induction hS with
  | init => exact inv_init hg h₀
  | step _ _ h ih => exact ih.step hsign h

end Cluster

/-! ## Agreement -/

variable {cfg : Config} {g : Block} {c₀ : NodeID → Chain}

theorem main_chains_agree_at_every_height (hk : cfg.crypto.Sound)
    (hsign : ∀ b, (cfg.crypto.packAndSign b).header = b.header) (hg : cfg.genesis = some g)
    (h₀ : ∀ p, ∃ f st, Chain.newChainWithContext (cfg.atPeer p) f [] st = .ok (c₀ p))
    {S : Cluster} (hS : S.Reachable cfg c₀) {p q : NodeID} {x y : NodeInfo}
    (hx : x ∈ (S.nodes p).chain.rt.head.node) (hy : y ∈ (S.nodes q).chain.rt.head.node)
    (hxy : x.height = y.height) :
    x = y ∧ (S.nodes p).chain.bi x.hash = (S.nodes q).chain.bi x.hash := by
  have hI := Cluster.Inv.reachable hsign hg h₀ hS
  have hwf : ∀ r, (S.nodes r).chain.WellFormed cfg := fun r => by
    obtain ⟨f, st, h⟩ := h₀ r
    exact (((hS.node r).chain_reachable (.coldStart h)).wellFormed
      (show (cfg.atPeer r).crypto.Sound from hk)).of_atPeer
  -- a node of a main chain is indexed with a known block at its height
  have hblock : ∀ r, ∀ z ∈ (S.nodes r).chain.rt.head.node, ∃ rest b,
      (S.nodes r).chain.bi z.hash = some (z :: rest) ∧ b.hash = z.hash ∧
      Cluster.Known g S b ∧ Cluster.heightOn cfg g b = z.height := by
    intro r z hz
    obtain ⟨rest, hr⟩ := (hwf r).mem_head hz
    obtain ⟨z', rest', hn, -, b, hget, hbh, -, hht, -⟩ := (hwf r).node hr
    cases hn
    refine ⟨rest, b, hr, hbh, (hI.holds r).1 _ (Store.mem_of_get _ hget), ?_⟩
    rw [← hht]
    simp [Chain.heightOf, Runtime.getHeightFromTime, Cluster.heightOn, hI.clock r]
  obtain ⟨rx, b₁, hrx, hb₁, hk₁, hh₁⟩ := hblock p x hx
  obtain ⟨ry, b₂, hry, hb₂, hk₂, hh₂⟩ := hblock q y hy
  have hxyh : x.hash = y.hash := by
    rw [← hb₁, ← hb₂, hI.known_eq hk₁ hk₂ (by rw [hh₁, hh₂, hxy])]
  rw [← hxyh] at hry
  have hn := (hwf p).index_agree hk (hwf q) (by rw [hI.clock, hI.clock]) hrx hry
  obtain ⟨rfl, -⟩ := List.cons.inj hn
  exact ⟨rfl, by rw [hrx, hry, hn]⟩

/-- Only the blocks of the fork run verify. -/
theorem forkCrypto_sound : forkCrypto.Sound where
  genesis_parent b h := by
    simp only [forkCrypto, decide_eq_true_eq] at h
    subst h; rfl
  hash_ne_zero b h := by
    rcases h with h | h <;> simp only [forkCrypto, decide_eq_true_eq] at h
    · rcases h with rfl | rfl <;> decide
    · subst h; decide
  hash_inj b b' h h' hh := by
    rcases h with h | h <;> rcases h' with h' | h' <;>
      simp only [forkCrypto, decide_eq_true_eq] at h h' <;>
      rcases h with rfl | rfl <;> (try rcases h' with rfl | rfl) <;>
      first | rfl | exact absurd hh (by decide)

set_option maxRecDepth 4000 in
theorem fork_chains_agree_on_genesis :
    (forkCluster.nodes 0).chain.bi genesisBlock.hash =
      (forkCluster.nodes 2).chain.bi genesisBlock.hash :=
  (main_chains_agree_at_every_height forkCrypto_sound (fun _ => by rfl) (by rfl)
    (fun _ => ⟨Faults.none, SqlState.empty, by rfl⟩) (Cluster.Reachable.init.run forkConfig forkRun_eq)
    (show (⟨genesisBlock.hash, 0, 0⟩ : NodeInfo) ∈ (forkCluster.nodes 0).chain.rt.head.node by decide)
    (show (⟨genesisBlock.hash, 0, 0⟩ : NodeInfo) ∈ (forkCluster.nodes 2).chain.rt.head.node by decide)
    rfl).2

end SqlChain
