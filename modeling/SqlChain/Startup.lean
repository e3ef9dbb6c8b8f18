import SqlChain.Agreement

/-!
# Starting a chain

`Start` spawns `processBlocks`, runs `sync` on its own goroutine, and only
then spawns `mainCycle` and registers the RPC service.  `sync` reads the clock
at the top of its outer loop, returns before genesis, breaks once the next turn
is past the height of the time it read, and otherwise calls `syncHead` until
the next turn passes that height.

Only the deferred function of `runCurrentTurn` moves the next turn
(`Node.step_nextTurn`), and `mainCycle` is not running yet.  So once `sync`
enters its inner loop it stays there, whatever the clock, the peers and the
ingest loop do (`Starting.run_keeps_inner`): a node started a period or more
after genesis never launches `mainCycle`.
-/

namespace SqlChain

namespace Node

variable {cfg : Config} {s s' : Node}

/-- A step moves the next turn only at the end of a turn, and by one. -/
theorem step_nextTurn {a : Action} (h : s.step cfg a = some s') :
    s'.chain.rt.nextTurn = s.chain.rt.nextTurn ∨
      a = .finish ∧ s'.chain.rt.nextTurn = s.chain.rt.nextTurn + 1 := by
  unfold Node.step at h
  split at h
  · cases h
  cases a
  case query | cancel => cases h; exact .inl rfl
  case loopTop => obtain ⟨-, rfl⟩ := loopTop_some h; exact .inl (by split <;> rfl)
  case sync => obtain ⟨-, -, -, rfl⟩ := syncFetch_some h; exact .inl rfl
  case sleep => obtain ⟨-, rfl⟩ := sleep_some h; exact .inl rfl
  case tick =>
    obtain ⟨-, ⟨-, _, c, hc, rfl⟩ | ⟨-, c, hc, rfl⟩ | ⟨-, rfl⟩⟩ := tick_some h
    · exact .inl (congrArg Runtime.nextTurn (produceBlock_rt hc))
    · exact .inl (congrArg Runtime.nextTurn (produceBlock_rt hc))
    · exact .inl rfl
  case abortSend =>
    obtain ⟨-, ⟨_, -, rfl⟩ | ⟨_, -, rfl⟩⟩ := abortSend_some h <;> exact .inl rfl
  case advise => obtain ⟨-, rfl⟩ | ⟨_, -, rfl⟩ := advise_some h <;> exact .inl rfl
  case finish =>
    obtain ⟨-, rfl⟩ := finish_some h
    exact .inr ⟨rfl, by simp [Chain.finishTurn, Runtime.setNextTurn]⟩
  case sendHeight => obtain ⟨_, -, -, rfl⟩ := sendHeight_some h; exact .inl rfl
  case recvHeight => obtain ⟨_, _, -, -, rfl⟩ := recvHeight_some h; exact .inl (by split <;> rfl)
  case recvMain =>
    obtain ⟨-, ⟨_, -, rfl⟩ | ⟨_, -, rfl⟩⟩ := recvMain_some h <;> exact .inl (by simp)
  case recvStash => obtain ⟨-, _, _, -, -, -, rfl⟩ := recvStash_some h; exact .inl (by simp)
  case recvRemote => obtain ⟨-, rfl⟩ := recvRemote_some h; exact .inl (by simp)
  case check =>
    obtain ⟨_, _, -, ⟨hc, rfl⟩ | ⟨_, hc, rfl⟩⟩ := check_some h
    · exact .inl (by simp [checkAndPushNewBlock_nextTurn hc])
    · exact .inl (checkAndPushNewBlock_nextTurn hc)
  case stop => obtain ⟨-, -, rfl⟩ := stop_some h; exact .inl rfl
  case abortStash => obtain ⟨_, -, -, -, rfl⟩ := abortStash_some h; exact .inl rfl
  case drained => obtain ⟨-, -, rfl⟩ := drained_some h; exact .inl rfl

end Node

/-- Where `Start` is once `processBlocks` runs: at the top of the outer loop of
`sync`, in its inner loop with the height it read, or past `sync`, having
spawned `mainCycle` and registered the service. -/
inductive StartPC
  | syncTop
  | syncInner (height : Int)
  | started
  deriving DecidableEq

/-- A node while `Start` runs: the node, whose `mainCycle` runs only once
`Start` is past `sync`, and where `Start` is. -/
structure Starting where
  node : Node
  pc : StartPC

/-- The steps of a node while `Start` runs, with the inputs the environment
chooses. -/
inductive StartAction
  /-- `c.rt.now()` at the top of the outer loop of `sync` returns `t` -/
  | now (t : Int)
  /-- the test of the inner loop, and the `syncHead` it runs, which hands the
  block a peer answered, if any, to `processBlocks` -/
  | syncHead (b : Option Block)
  /-- another worker, a client or an RPC handler takes step `a` -/
  | worker (a : Action)

namespace Starting

variable (cfg : Config)

/-- `Start` after spawning `processBlocks`, at the top of `sync`. -/
def init (c : Chain) : Starting := ⟨Node.init c, .syncTop⟩

/-- One step of a starting node.  `none` when the step is not enabled. -/
def step (a : StartAction) (s : Starting) : Option Starting :=
  match a, s.pc with
  | .now t, .syncTop =>
      let height := s.node.chain.heightOf cfg t
      if t < s.node.chain.rt.chainInitTime then some { s with pc := .started }
      else if s.node.chain.rt.nextTurn > height then some { s with pc := .started }
      else some { s with pc := .syncInner height }
  | .syncHead b, .syncInner height =>
      if s.node.chain.rt.nextTurn ≤ height then
        match b with
        | none => some s
        | some b =>
            if s.node.chain.rt.head.height < s.node.chain.rt.nextTurn - 1 then
              (s.node.step cfg (.recvRemote b)).map fun n => { s with node := n }
            else none
      else some { s with pc := .syncTop }
  | .worker a, pc =>
      if a.byMain ∧ pc ≠ .started then none
      else (s.node.step cfg a).map fun n => { s with node := n }
  | _, _ => none

/-- Run a list of steps, failing on the first disabled one. -/
def run : List StartAction → Starting → Option Starting
  | [], s => some s
  | a :: as, s =>
      match s.step cfg a with
      | some s' => run as s'
      | none => none

variable {cfg}

/-- Inside the inner loop of `sync` with the next turn at or below the height
it read, every step stays there. -/
theorem step_keeps_inner {s s' : Starting} {a : StartAction} {height : Int}
    (hpc : s.pc = .syncInner height) (ht : s.node.chain.rt.nextTurn ≤ height)
    (h : s.step cfg a = some s') :
    s'.pc = .syncInner height ∧ s'.node.chain.rt.nextTurn ≤ height := by
  cases a with
  | now t => simp only [step, hpc] at h; cases h
  | syncHead b =>
    simp only [step, hpc, if_pos ht] at h
    rcases b with _ | b
    · cases h; exact ⟨hpc, ht⟩
    · split_ifs at h
      obtain ⟨n, hn, rfl⟩ := Option.map_eq_some'.mp h
      rcases Node.step_nextTurn hn with hn' | ⟨hf, -⟩
      · exact ⟨rfl, hn' ▸ ht⟩
      · cases hf
  | worker a =>
    simp only [step, hpc] at h
    split_ifs at h with hm
    obtain ⟨n, hn, rfl⟩ := Option.map_eq_some'.mp h
    rcases Node.step_nextTurn hn with hn' | ⟨rfl, -⟩
    · exact ⟨rfl, hn' ▸ ht⟩
    · exact absurd ⟨rfl, by simp⟩ hm

/-- Once `sync` is in its inner loop with the next turn at or below the height
it read, no run of any length leaves that loop. -/
theorem run_keeps_inner {s s' : Starting} {height : Int} (as : List StartAction)
    (hpc : s.pc = .syncInner height) (ht : s.node.chain.rt.nextTurn ≤ height)
    (h : s.run cfg as = some s') :
    s'.pc = .syncInner height ∧ s'.node.chain.rt.nextTurn ≤ height := by
  induction as generalizing s with
  | nil => cases h; exact ⟨hpc, ht⟩
  | cons a as ih =>
    simp only [run] at h
    split at h
    · obtain ⟨hpc', ht'⟩ := step_keeps_inner hpc ht ‹_›
      exact ih hpc' ht' h
    · cases h

end Starting

/-- `P0` starts on its cold chain twenty seconds after genesis, two periods
in: the first clock read puts `sync` in its inner loop at height 2 with next
turn 1, and no behaviour of the clock, the peers, the ingest loop or the
clients ever lets `Start` launch `mainCycle`. -/
theorem sync_never_returns_after_genesis_period :
    Chain.newChainWithContext scenarioConfig Faults.none [] SqlState.empty = .ok coldChain ∧
      coldChain.rt.chainInitTime ≤ 20 ∧
      (Starting.init coldChain).step scenarioConfig (.now 20) =
        some ⟨Node.init coldChain, .syncInner 2⟩ ∧
      ∀ (as : List StartAction) (s : Starting),
        (Starting.init coldChain).run scenarioConfig (.now 20 :: as) = some s → s.pc ≠ .started := by
  refine ⟨rfl, by decide, rfl, fun as s h => ?_⟩
  have hpc := (Starting.run_keeps_inner as rfl (by decide) h).1
  rw [hpc]
  exact StartPC.noConfusion

end SqlChain
