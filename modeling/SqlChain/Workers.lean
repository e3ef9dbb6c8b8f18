import SqlChain.Billing

/-!
# The workers of one chain node

`Start` runs two long-lived workers, `mainCycle` (with `syncHead`,
`runCurrentTurn` and `produceBlock`) and `processBlocks`, and the latter spawns
one stash-return goroutine per height notification.  A `Node` holds the chain
state, the shared context, the one-slot `heights` channel and the program point
of every worker.  The unbuffered `blocks` channel is a rendezvous: a send
happens in the same step as the receive of `processBlocks`.  Sends from RPC
handlers (`AdviseNewBlock`) are receives of an arbitrary block, and the
answers of peers, of the SQL state and of the block producers' RPC are inputs
of the actions.  A nil dereference or a zero divisor in `processBlocks`
panics the process, after which nothing runs.
-/

namespace SqlChain

/-- Where `mainCycle` is, with the values it holds there. -/
inductive MainPC
  /-- the top of the loop, before the cancellation check -/
  | loop
  /-- `syncHead` sending a fetched block -/
  | syncSend (b : Block)
  /-- after `syncHead`, at `nextTick` -/
  | afterSync
  /-- `produceBlock` sending the block it produced -/
  | produced (b : Block)
  /-- `produceBlock` waiting for `n` advise calls to return -/
  | advising (n : Nat)
  /-- the deferred function of `runCurrentTurn` -/
  | finishTurn
  /-- the deferred `c.heights <- h` -/
  | sendHeight (h : Int)
  | done
  deriving DecidableEq

/-- Where `processBlocks` is. -/
inductive IngestPC
  /-- in its `select` -/
  | select
  /-- past the height gate with a current block -/
  | checking (b : Block)
  /-- in its deferred `ccl(); wg.Wait()` -/
  | draining
  | done
  deriving DecidableEq

/-- An `AddTx` request sent by a billing round: the head count that triggered
it, the update, the nonce written into it and whether signing succeeded. -/
structure AddTxReq where
  count : Int
  update : UpdateBilling
  nonce : Nat
  signed : Bool
  deriving DecidableEq

/-- A stash-return goroutine `returnStash(stash)`: the stash it was given,
the index `i` of its loop, and whether it is still running. -/
structure Returner where
  stash : List Block
  next : Nat
  alive : Bool
  deriving DecidableEq

/-- One chain node: the chain state, the context, the `heights` buffer, the
program points, the stash, the stash-return goroutines in the order they were
spawned, the `AddTx` requests sent, and whether the process panicked. -/
structure Node where
  chain : Chain
  cancelled : Bool
  heights : List Int
  main : MainPC
  ingest : IngestPC
  stash : List Block
  returners : List Returner
  sent : List AddTxReq
  panicked : Bool

/-- The steps of a node, with the inputs the environment chooses. -/
inductive Action
  /-- a client query reaches the SQL state -/
  | query (tx : QueryAsTx) (ok : Bool)
  /-- `Stop` cancels the context -/
  | cancel
  /-- `mainCycle` at its loop top, with `syncHead` fetching nothing -/
  | loopTop
  /-- `syncHead` fetches `b` from a peer -/
  | sync (b : Block)
  /-- `nextTick` reports a positive delay and `mainCycle` sleeps -/
  | sleep
  /-- `nextTick` reports the turn is due and `runCurrentTurn` starts -/
  | tick
  /-- a pending send of `mainCycle` takes the `ctx.Done()` branch -/
  | abortSend
  /-- an advise call returns, or `wg.Wait` ends -/
  | advise
  /-- the deferred function of `runCurrentTurn` up to its height send -/
  | finish
  /-- the deferred height send completes -/
  | sendHeight
  /-- `processBlocks` reads a height -/
  | recvHeight
  /-- `processBlocks` receives the block `mainCycle` is sending -/
  | recvMain
  /-- `processBlocks` receives the next block of stash-return goroutine `i` -/
  | recvStash (i : Nat)
  /-- `processBlocks` receives `b` from an RPC handler -/
  | recvRemote (b : Block)
  /-- `CheckAndPushNewBlock` and the billing round after it, with the faults of
  the call, the nonce RPC's answer and whether signing succeeds -/
  | check (f : Faults) (nonce : Option Nat) (signOk : Bool)
  /-- `processBlocks` takes the `ctx.Done()` branch -/
  | stop
  /-- stash-return goroutine `i` takes the `cld.Done()` branch -/
  | abortStash (i : Nat)
  /-- `wg.Wait` in the deferred function of `processBlocks` ends -/
  | drained

/-- A stash-return goroutine after it sent its next block: its loop ends
after the last one. -/
def Returner.advance (r : Returner) : Returner :=
  ⟨r.stash, r.next + 1, decide (r.next + 1 < r.stash.length)⟩

namespace Chain

variable (cfg : Config)

/-- The block `produceBlock` packs at time `target`, unsigned. -/
def newBlock (c : Chain) (target : Int) (frs : List Request) (qts : List QueryAsTx) : Block :=
  ⟨⟨0x01000000, cfg.rc.server, (cfg.genesis.map Block.hash).getD Hash.zero,
      c.rt.head.head, target⟩,
    Hash.zero, 0, frs, qts, c.ai.acksBelow (c.heightOf cfg target)⟩

/-- `produceBlock` up to its send: commit the SQL state and, unless nothing was
committed, pack and sign a block on the current head. -/
def produceBlock (c : Chain) (target : Int) : Option Block × Chain :=
  let ((frs, qts), st) := c.st.commitEx
  let c := { c with st := st }
  if frs = [] ∧ qts = [] then (none, c)
  else (some (cfg.crypto.packAndSign (c.newBlock cfg target frs qts)), c)

/-- The deferred function of `runCurrentTurn` up to the height send: prune the
body cache, advance the turn and the ack index. -/
def finishTurn (c : Chain) : Chain :=
  let c := c.pruneBlockCache cfg
  let c := { c with rt := c.rt.setNextTurn }
  { c with ai := c.ai.advance (c.rt.getMinValidHeight cfg.rc) }

end Chain

namespace Node

variable (cfg : Config)

/-- A fresh node over a started chain: both workers at their loop tops. -/
def init (c : Chain) : Node :=
  ⟨c, false, [], .loop, .select, [], [], [], false⟩

/-- The `case block := <-c.blocks` branch of `processBlocks`: stash a block
above the current turn, drop one below it, and check the current one. -/
def receive (s : Node) (b : Block) : Node :=
  let h := s.chain.heightOf cfg b.timestamp
  if h > s.chain.rt.nextTurn - 1 then { s with stash := s.stash ++ [b] }
  else if h < s.chain.rt.nextTurn - 1 then s
  else { s with ingest := .checking b }

/-- The billing round of `processBlocks` after a successful check: when the
head count is a multiple of `updatePeriod`, bill the window, write the nonce,
sign and send `AddTx`.  A missing update is dereferenced and a zero period
divides by zero; both panic. -/
def billingRound (s : Node) (nonce : Option Nat) (signOk : Bool) : Node :=
  let head := s.chain.rt.head
  let count := BlockNode.count head.node
  if cfg.updatePeriod = 0 then { s with panicked := true }
  else if toUint64 count % cfg.updatePeriod = 0 then
    match (s.chain.billing cfg head.node).1 with
    | none => { s with panicked := true }
    | some ub => { s with sent := s.sent ++ [⟨count, ub, nonce.getD 0, signOk⟩] }
  else s

/-- Whether the context of the stash-return goroutines, `cld`, is done. -/
def stashCancelled (s : Node) : Bool :=
  s.cancelled || s.ingest = .draining || s.ingest = .done

/-! ### Steps of `mainCycle` -/

/-- The loop top: return when the context is done, otherwise run `syncHead`
(here fetching nothing). -/
def loopTop (s : Node) : Option Node :=
  match s.main with
  | .loop => some (if s.cancelled then { s with main := .done } else { s with main := .afterSync })
  | _ => none

/-- `syncHead` fetches `b` from a peer while the head is behind the turn. -/
def syncFetch (s : Node) (b : Block) : Option Node :=
  match s.main with
  | .loop =>
      if !s.cancelled ∧ s.chain.rt.head.height < s.chain.rt.nextTurn - 1 then
        some { s with main := .syncSend b }
      else none
  | _ => none

/-- `time.Sleep(d)` before the next turn. -/
def sleep (s : Node) : Option Node :=
  match s.main with
  | .afterSync => some { s with main := .loop }
  | _ => none

/-- `runCurrentTurn` up to its deferred function: produce when it is this
node's turn. -/
def tick (s : Node) : Option Node :=
  match s.main with
  | .afterSync =>
      if s.chain.rt.isMyTurn cfg.rc then
        match s.chain.produceBlock cfg (s.chain.rt.nextTickTarget cfg.rc) with
        | (some b, c) => some { s with chain := c, main := .produced b }
        | (none, c) => some { s with chain := c, main := .finishTurn }
      else some { s with main := .finishTurn }
  | _ => none

/-- The `ctx.Done()` branch of a pending send. -/
def abortSend (s : Node) : Option Node :=
  match s.main with
  | .syncSend _ => if s.cancelled then some { s with main := .afterSync } else none
  | .produced _ => if s.cancelled then some { s with main := .finishTurn } else none
  | _ => none

/-- An advise call returns; with none left, `wg.Wait` ends. -/
def advise (s : Node) : Option Node :=
  match s.main with
  | .advising 0 => some { s with main := .finishTurn }
  | .advising (n + 1) => some { s with main := .advising n }
  | _ => none

/-- The deferred function of `runCurrentTurn` up to its height send. -/
def finish (s : Node) : Option Node :=
  match s.main with
  | .finishTurn =>
      let c := s.chain.finishTurn cfg
      some { s with chain := c, main := .sendHeight c.rt.head.height }
  | _ => none

/-- The plain send `c.heights <- h`, possible only into an empty slot. -/
def sendHeight (s : Node) : Option Node :=
  match s.main with
  | .sendHeight h => if s.heights = [] then some { s with heights := [h], main := .loop } else none
  | _ => none

/-! ### Steps of `processBlocks` and of the stash-return goroutines -/

/-- The `case h := <-c.heights` branch: hand a non-empty stash to a new
stash-return goroutine. -/
def recvHeight (s : Node) : Option Node :=
  match s.ingest, s.heights with
  | .select, _ :: rest =>
      if s.stash = [] then some { s with heights := rest }
      else
        some { s with
          heights := rest
          returners := s.returners ++ [⟨s.stash, 0, true⟩]
          stash := [] }
  | _, _ => none

/-- Receive the block `mainCycle` is sending. -/
def recvMain (s : Node) : Option Node :=
  match s.ingest, s.main with
  | .select, .syncSend b => some ({ s with main := .afterSync }.receive cfg b)
  | .select, .produced b =>
      let n := (cfg.rc.peers.filter (· ≠ cfg.rc.server)).length
      some ({ s with main := .advising n }.receive cfg b)
  | _, _ => none

/-- Receive the next block of stash-return goroutine `i`. -/
def recvStash (s : Node) (i : Nat) : Option Node :=
  match s.ingest, s.returners[i]? with
  | .select, some r =>
      match r.alive, r.stash[r.next]? with
      | true, some b => some ({ s with returners := s.returners.set i r.advance }.receive cfg b)
      | _, _ => none
  | _, _ => none

/-- Receive `b` from an RPC handler. -/
def recvRemote (s : Node) (b : Block) : Option Node :=
  match s.ingest with
  | .select => some (s.receive cfg b)
  | _ => none

/-- `CheckAndPushNewBlock` on the gated block, then the billing round on
success. -/
def check (s : Node) (f : Faults) (nonce : Option Nat) (signOk : Bool) : Option Node :=
  match s.ingest with
  | .checking b =>
      match s.chain.checkAndPushNewBlock cfg f b with
      | (c, none) => some ({ s with chain := c, ingest := .select }.billingRound cfg nonce signOk)
      | (c, some _) => some { s with chain := c, ingest := .select }
  | _ => none

/-- The `ctx.Done()` branch of the select. -/
def stop (s : Node) : Option Node :=
  match s.ingest with
  | .select => if s.cancelled then some { s with ingest := .draining } else none
  | _ => none

/-- The `cld.Done()` branch of stash-return goroutine `i`. -/
def abortStash (s : Node) (i : Nat) : Option Node :=
  match s.returners[i]? with
  | some r =>
      if s.stashCancelled ∧ r.alive then
        some { s with returners := s.returners.set i { r with alive := false } }
      else none
  | none => none

/-- `wg.Wait` ends once every stash-return goroutine has returned. -/
def drained (s : Node) : Option Node :=
  match s.ingest with
  | .draining => if s.returners.all (!·.alive) then some { s with ingest := .done } else none
  | _ => none

/-- One step of a node.  `none` when the action is not enabled. -/
def step (a : Action) (s : Node) : Option Node :=
  if s.panicked then none else
  match a with
  | .query tx ok => some { s with chain := { s.chain with st := s.chain.st.query tx ok } }
  | .cancel => some { s with cancelled := true }
  | .loopTop => s.loopTop
  | .sync b => s.syncFetch b
  | .sleep => s.sleep
  | .tick => s.tick cfg
  | .abortSend => s.abortSend
  | .advise => s.advise
  | .finish => s.finish cfg
  | .sendHeight => s.sendHeight
  | .recvHeight => s.recvHeight
  | .recvMain => s.recvMain cfg
  | .recvStash i => s.recvStash cfg i
  | .recvRemote b => s.recvRemote cfg b
  | .check f nonce signOk => s.check cfg f nonce signOk
  | .stop => s.stop
  | .abortStash i => s.abortStash i
  | .drained => s.drained

/-! ### What each step does -/

section Spec

variable {cfg} {s s' : Node}

theorem loopTop_some (h : s.loopTop = some s') :
    s.main = .loop ∧
      s' = if s.cancelled then { s with main := .done } else { s with main := .afterSync } := by
  unfold loopTop at h
  split at h
  · exact ⟨‹_›, (Option.some.inj h).symm⟩
  · cases h

theorem syncFetch_some {b : Block} (h : s.syncFetch b = some s') :
    s.main = .loop ∧ s.cancelled = false ∧ s.chain.rt.head.height < s.chain.rt.nextTurn - 1 ∧
      s' = { s with main := .syncSend b } := by
  unfold syncFetch at h
  split at h
  · split_ifs at h with hc
    cases h
    exact ⟨‹_›, by simpa using hc.1, hc.2, rfl⟩
  · cases h

theorem sleep_some (h : s.sleep = some s') : s.main = .afterSync ∧ s' = { s with main := .loop } := by
  unfold sleep at h
  split at h
  · exact ⟨‹_›, (Option.some.inj h).symm⟩
  · cases h

theorem tick_some (h : s.tick cfg = some s') :
    s.main = .afterSync ∧
      ((s.chain.rt.isMyTurn cfg.rc = true ∧ ∃ b c,
          s.chain.produceBlock cfg (s.chain.rt.nextTickTarget cfg.rc) = (some b, c) ∧
          s' = { s with chain := c, main := .produced b }) ∨
        (s.chain.rt.isMyTurn cfg.rc = true ∧ ∃ c,
          s.chain.produceBlock cfg (s.chain.rt.nextTickTarget cfg.rc) = (none, c) ∧
          s' = { s with chain := c, main := .finishTurn }) ∨
        (s.chain.rt.isMyTurn cfg.rc = false ∧ s' = { s with main := .finishTurn })) := by
  unfold tick at h
  split at h
  · refine ⟨‹_›, ?_⟩
    split_ifs at h with ht
    · split at h <;> cases h
      · exact .inl ⟨ht, _, _, ‹_›, rfl⟩
      · exact .inr (.inl ⟨ht, _, ‹_›, rfl⟩)
    · cases h
      exact .inr (.inr ⟨by simpa using ht, rfl⟩)
  · cases h

theorem abortSend_some (h : s.abortSend = some s') :
    s.cancelled = true ∧
      ((∃ b, s.main = .syncSend b ∧ s' = { s with main := .afterSync }) ∨
        (∃ b, s.main = .produced b ∧ s' = { s with main := .finishTurn })) := by
  unfold abortSend at h
  split at h <;> (try split_ifs at h with hc) <;> cases h
  · exact ⟨hc, .inl ⟨_, ‹_›, rfl⟩⟩
  · exact ⟨hc, .inr ⟨_, ‹_›, rfl⟩⟩

theorem advise_some (h : s.advise = some s') :
    (s.main = .advising 0 ∧ s' = { s with main := .finishTurn }) ∨
      ∃ n, s.main = .advising (n + 1) ∧ s' = { s with main := .advising n } := by
  unfold advise at h
  split at h <;> cases h
  · exact .inl ⟨‹_›, rfl⟩
  · exact .inr ⟨_, ‹_›, rfl⟩

theorem finish_some (h : s.finish cfg = some s') :
    s.main = .finishTurn ∧
      s' = { s with chain := s.chain.finishTurn cfg
                    main := .sendHeight (s.chain.finishTurn cfg).rt.head.height } := by
  unfold finish at h
  split at h
  · exact ⟨‹_›, (Option.some.inj h).symm⟩
  · cases h

theorem sendHeight_some (h : s.sendHeight = some s') :
    ∃ hgt, s.main = .sendHeight hgt ∧ s.heights = [] ∧
      s' = { s with heights := [hgt], main := .loop } := by
  unfold sendHeight at h
  split at h
  · split_ifs at h with he
    cases h
    exact ⟨_, ‹_›, he, rfl⟩
  · cases h

theorem recvHeight_some (h : s.recvHeight = some s') :
    ∃ hgt rest, s.ingest = .select ∧ s.heights = hgt :: rest ∧
      s' = if s.stash = [] then { s with heights := rest }
        else { s with heights := rest, returners := s.returners ++ [⟨s.stash, 0, true⟩], stash := [] } := by
  unfold recvHeight at h
  split at h
  · exact ⟨_, _, ‹_›, ‹_›, by split_ifs at h ⊢ <;> exact (Option.some.inj h).symm⟩
  · cases h

theorem recvMain_some (h : s.recvMain cfg = some s') :
    s.ingest = .select ∧
      ((∃ b, s.main = .syncSend b ∧ s' = { s with main := .afterSync }.receive cfg b) ∨
        (∃ b, s.main = .produced b ∧ s' = { s with
          main := .advising (cfg.rc.peers.filter (· ≠ cfg.rc.server)).length }.receive cfg b)) := by
  unfold recvMain at h
  split at h <;> cases h
  · exact ⟨‹_›, .inl ⟨_, ‹_›, rfl⟩⟩
  · exact ⟨‹_›, .inr ⟨_, ‹_›, rfl⟩⟩

theorem recvStash_some {i : Nat} (h : s.recvStash cfg i = some s') :
    s.ingest = .select ∧ ∃ r b, s.returners[i]? = some r ∧ r.alive = true ∧
      r.stash[r.next]? = some b ∧
      s' = { s with returners := s.returners.set i r.advance }.receive cfg b := by
  unfold recvStash at h
  split at h
  · rename_i r hi hr
    split at h
    · cases h
      exact ⟨hi, r, _, hr, ‹_›, ‹_›, rfl⟩
    · cases h
  · cases h

theorem recvRemote_some {b : Block} (h : s.recvRemote cfg b = some s') :
    s.ingest = .select ∧ s' = s.receive cfg b := by
  unfold recvRemote at h
  split at h
  · exact ⟨‹_›, (Option.some.inj h).symm⟩
  · cases h

theorem check_some {f : Faults} {nonce : Option Nat} {signOk : Bool}
    (h : s.check cfg f nonce signOk = some s') :
    ∃ b c, s.ingest = .checking b ∧
      ((s.chain.checkAndPushNewBlock cfg f b = (c, none) ∧
          s' = { s with chain := c, ingest := .select }.billingRound cfg nonce signOk) ∨
        ∃ e, s.chain.checkAndPushNewBlock cfg f b = (c, some e) ∧
          s' = { s with chain := c, ingest := .select }) := by
  unfold check at h
  split at h
  · split at h <;> cases h
    · exact ⟨_, _, ‹_›, .inl ⟨‹_›, rfl⟩⟩
    · exact ⟨_, _, ‹_›, .inr ⟨_, ‹_›, rfl⟩⟩
  · cases h

theorem stop_some (h : s.stop = some s') :
    s.ingest = .select ∧ s.cancelled = true ∧ s' = { s with ingest := .draining } := by
  unfold stop at h
  split at h
  · split_ifs at h with hc
    cases h
    exact ⟨‹_›, hc, rfl⟩
  · cases h

theorem abortStash_some {i : Nat} (h : s.abortStash i = some s') :
    ∃ r, s.returners[i]? = some r ∧ s.stashCancelled = true ∧ r.alive = true ∧
      s' = { s with returners := s.returners.set i { r with alive := false } } := by
  unfold abortStash at h
  split at h
  · split_ifs at h with hc
    cases h
    exact ⟨_, ‹_›, hc.1, hc.2, rfl⟩
  · cases h

theorem drained_some (h : s.drained = some s') :
    s.ingest = .draining ∧ s.returners.all (!·.alive) = true ∧ s' = { s with ingest := .done } := by
  unfold drained at h
  split at h
  · split_ifs at h with ha
    cases h
    exact ⟨‹_›, ha, rfl⟩
  · cases h

end Spec

/-- Run a list of actions, failing on the first disabled one. -/
def run : List Action → Node → Option Node
  | [], s => some s
  | a :: as, s =>
      match s.step cfg a with
      | some s' => run as s'
      | none => none

/-- The nodes reachable from a started chain `c`. -/
inductive Reachable (c : Chain) : Node → Prop
  | init : Reachable c (init c)
  | step {s s' : Node} (a : Action) : Reachable c s → s.step cfg a = some s' → Reachable c s'

theorem Reachable.run {c : Chain} {s s' : Node} {as : List Action}
    (hs : Reachable cfg c s) (h : s.run cfg as = some s') : Reachable cfg c s' := by
  induction as generalizing s with
  | nil => cases h; exact hs
  | cons a as ih =>
    simp only [Node.run] at h
    split at h
    · exact ih (hs.step a ‹_›) h
    · cases h

end Node

end SqlChain
