import SqlChain.Heights

/-!
# Returning the stash

`processBlocks` stashes every block of a future turn.  Each height
notification hands the stash to a new goroutine `returnStash`, which sends the
blocks back to the ingest loop one by one.  A traced run records what the
stash machinery does: blocks stashed, goroutines spawned, blocks re-delivered.

Over every traced run from a fresh node, the stashed blocks in arrival order
are the goroutines' stashes in spawn order followed by the current stash; each
goroutine has re-delivered a prefix of its stash, in order, none twice; before
cancellation a goroutine runs until it has re-delivered all of its blocks
(`StashInv.traceRun`); and whenever `processBlocks` is at its select, a running
goroutine with a block left can hand it over.  The goroutines run concurrently,
though, so a block stashed after a notification can reach the ingest loop
before the blocks of that notification.
-/

namespace SqlChain

/-- What the stash machinery of `processBlocks` does in one step. -/
inductive StashObs
  /-- a received block is appended to the stash -/
  | stashed (b : Block)
  /-- a height notification hands the stash to a new goroutine -/
  | spawned
  /-- stash-return goroutine `k` re-delivers `b` -/
  | redelivered (k : Nat) (b : Block)
  deriving DecidableEq

namespace StashObs

/-- The block of a `stashed` observation. -/
def stashedBlock : StashObs → Option Block
  | stashed b => some b
  | _ => none

/-- The block goroutine `k` re-delivers in an observation. -/
def redeliveredBy (k : Nat) : StashObs → Option Block
  | redelivered i b => if i = k then some b else none
  | _ => none

end StashObs

/-- Which worker takes a step: `mainCycle`, or a client query. -/
def Action.byMain : Action → Bool
  | .query _ _ | .loopTop | .sync _ | .sleep | .tick | .abortSend | .advise | .finish
  | .sendHeight => true
  | _ => false

namespace Node

variable (cfg : Config)

/-- Whether `receive` stashes `b`: its height is past the current turn. -/
def stashes (s : Node) (b : Block) : Bool :=
  decide (s.chain.heightOf cfg b.timestamp > s.chain.rt.nextTurn - 1)

/-- What `receive` of `b` shows. -/
def receiveObs (s : Node) (b : Block) : List StashObs :=
  if s.stashes cfg b then [.stashed b] else []

/-- What a step shows, read off the state it starts from. -/
def stashObs (a : Action) (s : Node) : List StashObs :=
  match a, s.main with
  | .recvHeight, _ => if s.stash = [] then [] else [.spawned]
  | .recvMain, .syncSend b => s.receiveObs cfg b
  | .recvMain, .produced b => s.receiveObs cfg b
  | .recvStash i, _ =>
      match s.returners[i]? with
      | some r =>
          match r.stash[r.next]? with
          | some b => .redelivered i b :: s.receiveObs cfg b
          | none => []
      | none => []
  | .recvRemote b, _ => s.receiveObs cfg b
  | _, _ => []

/-- A run together with what its steps show. -/
def traceRun : Node → List Action → Option (Node × List StashObs)
  | s, [] => some (s, [])
  | s, a :: as =>
      match s.step cfg a with
      | some s' => (s'.traceRun as).map fun p => (p.1, s.stashObs cfg a ++ p.2)
      | none => none

variable {cfg}

theorem traceRun_run {s s' : Node} {obs : List StashObs} :
    ∀ {as : List Action}, s.traceRun cfg as = some (s', obs) → s.run cfg as = some s'
  | [], h => by cases h; rfl
  | a :: as, h => by
    simp only [traceRun] at h
    split at h
    · rename_i s₁ hs
      obtain ⟨⟨t, obs'⟩, ht, he⟩ := Option.map_eq_some'.mp h
      cases he
      simp only [run, hs]
      exact traceRun_run ht
    · cases h

/-! ## One step -/

variable {s s' : Node}

/-- A step of `mainCycle`, or a client query, changes only the chain, the
heights buffer and `mainCycle`'s program point. -/
theorem step_byMain {a : Action} (ha : a.byMain = true) (h : s.step cfg a = some s') :
    ∃ c hs m, s' = { s with chain := c, heights := hs, main := m } := by
  unfold step at h
  split at h
  · cases h
  cases a <;> simp only [Action.byMain, Bool.false_eq_true] at ha
  case query => cases h; exact ⟨_, _, _, rfl⟩
  case loopTop => obtain ⟨-, rfl⟩ := loopTop_some h; split <;> exact ⟨_, _, _, rfl⟩
  case sync => obtain ⟨-, -, -, rfl⟩ := syncFetch_some h; exact ⟨_, _, _, rfl⟩
  case sleep => obtain ⟨-, rfl⟩ := sleep_some h; exact ⟨_, _, _, rfl⟩
  case tick =>
    obtain ⟨-, ⟨-, _, _, -, rfl⟩ | ⟨-, _, -, rfl⟩ | ⟨-, rfl⟩⟩ := tick_some h <;> exact ⟨_, _, _, rfl⟩
  case abortSend =>
    obtain ⟨-, ⟨_, -, rfl⟩ | ⟨_, -, rfl⟩⟩ := abortSend_some h <;> exact ⟨_, _, _, rfl⟩
  case advise => obtain ⟨-, rfl⟩ | ⟨_, -, rfl⟩ := advise_some h <;> exact ⟨_, _, _, rfl⟩
  case finish => obtain ⟨-, rfl⟩ := finish_some h; exact ⟨_, _, _, rfl⟩
  case sendHeight => obtain ⟨_, -, -, rfl⟩ := sendHeight_some h; exact ⟨_, _, _, rfl⟩

/-- The gate of `processBlocks`: a block of a future turn is stashed; any
other block is dropped or checked. -/
theorem receive_cases (b : Block) :
    (s.stashes cfg b = true ∧ s.receive cfg b = { s with stash := s.stash ++ [b] }) ∨
      (s.stashes cfg b = false ∧
        (s.receive cfg b = s ∨ s.receive cfg b = { s with ingest := .checking b })) := by
  simp only [receive, stashes]
  split_ifs with h1 h2
  · exact .inl ⟨by simpa using h1, rfl⟩
  · exact .inr ⟨by simpa using h1, .inl rfl⟩
  · exact .inr ⟨by simpa using h1, .inr rfl⟩

@[simp] theorem receive_returners (b : Block) : (s.receive cfg b).returners = s.returners := by
  rcases @receive_cases cfg s b with ⟨-, h⟩ | ⟨-, h | h⟩ <;> rw [h]

@[simp] theorem receive_cancelled (b : Block) : (s.receive cfg b).cancelled = s.cancelled := by
  rcases @receive_cases cfg s b with ⟨-, h⟩ | ⟨-, h | h⟩ <;> rw [h]

theorem receive_stash (b : Block) :
    (s.receive cfg b).stash = s.stash ++ (s.receiveObs cfg b).filterMap StashObs.stashedBlock := by
  rcases @receive_cases cfg s b with ⟨hs, h⟩ | ⟨hs, h | h⟩ <;>
    simp [h, hs, receiveObs, StashObs.stashedBlock]

theorem receive_stashCancelled (b : Block) (hs : s.stashCancelled = s.cancelled) :
    (s.receive cfg b).stashCancelled = s.cancelled := by
  rcases @receive_cases cfg s b with ⟨-, h⟩ | ⟨-, h | h⟩ <;> rw [h] <;> simp_all [stashCancelled]

theorem billingRound_frame (nonce : Option Nat) (signOk : Bool) :
    (s.billingRound cfg nonce signOk).stash = s.stash ∧
      (s.billingRound cfg nonce signOk).returners = s.returners ∧
      (s.billingRound cfg nonce signOk).cancelled = s.cancelled ∧
      (s.billingRound cfg nonce signOk).stashCancelled = s.stashCancelled := by
  simp only [billingRound]
  split_ifs
  · exact ⟨rfl, rfl, rfl, rfl⟩
  · split <;> exact ⟨rfl, rfl, rfl, rfl⟩
  · exact ⟨rfl, rfl, rfl, rfl⟩

/-- Replacing a goroutine by one with the same stash keeps the stashes. -/
theorem map_stash_set {rs : List Returner} {i : Nat} {r r' : Returner} (hr : rs[i]? = some r)
    (hs : r'.stash = r.stash) : (rs.set i r').map (·.stash) = rs.map (·.stash) := by
  apply List.ext_getElem?
  intro j
  have hi : i < rs.length := (List.getElem?_eq_some_iff.mp hr).1
  simp only [List.getElem?_map, List.getElem?_set]
  split_ifs with h
  · subst h; simp [hr, hs]
  · rfl

/-- The stash invariant after the observations `obs`. -/
structure StashInv (s : Node) (obs : List StashObs) : Prop where
  /-- the stashed blocks, in arrival order, are the goroutines' stashes in
  spawn order followed by the current stash -/
  arrival : (s.returners.map (·.stash)).flatten ++ s.stash = obs.filterMap StashObs.stashedBlock
  /-- goroutine `k` has re-delivered the first `next` blocks of its stash -/
  redelivered : ∀ k, obs.filterMap (StashObs.redeliveredBy k) =
    ((s.returners[k]?).map fun r => r.stash.take r.next).getD []
  next_le : ∀ r ∈ s.returners, r.next ≤ r.stash.length
  /-- `cld` is done exactly when the context is -/
  cld : s.stashCancelled = s.cancelled
  /-- before cancellation a goroutine runs until its stash is re-delivered -/
  running : s.cancelled = false → ∀ r ∈ s.returners, r.alive = decide (r.next < r.stash.length)

namespace StashInv

variable {obs : List StashObs}

/-- The invariant reads the stash, the goroutines and the two contexts only. -/
theorem frame (hI : StashInv s obs) (hst : s'.stash = s.stash) (hr : s'.returners = s.returners)
    (hc : s'.cancelled = s.cancelled) (hcld : s'.stashCancelled = s'.cancelled) :
    StashInv s' obs where
  arrival := hst ▸ hr ▸ hI.arrival
  redelivered := hr ▸ hI.redelivered
  next_le := hr ▸ hI.next_le
  cld := hcld
  running := hc ▸ hr ▸ hI.running

theorem receive (hI : StashInv s obs) (b : Block) :
    StashInv (s.receive cfg b) (obs ++ s.receiveObs cfg b) where
  arrival := by
    rw [receive_returners, receive_stash, ← List.append_assoc, hI.arrival, List.filterMap_append]
  redelivered k := by
    rw [List.filterMap_append, receive_returners, hI.redelivered]
    simp only [receiveObs]
    split_ifs <;> simp [StashObs.redeliveredBy]
  next_le := by simpa using hI.next_le
  cld := by rw [receive_cancelled]; exact receive_stashCancelled b hI.cld
  running := by simpa using hI.running

/-- A goroutine re-delivers the next block of its stash. -/
theorem advance (hI : StashInv s obs) {i : Nat} {r : Returner} {b : Block}
    (hr : s.returners[i]? = some r) (hb : r.stash[r.next]? = some b) :
    StashInv { s with returners := s.returners.set i r.advance } (obs ++ [.redelivered i b]) where
  arrival := by
    dsimp only
    rw [map_stash_set hr (show r.advance.stash = r.stash from rfl), List.filterMap_append]
    simpa [StashObs.stashedBlock] using hI.arrival
  redelivered k := by
    dsimp only
    rw [List.filterMap_append, hI.redelivered, List.getElem?_set]
    have hi : i < s.returners.length := (List.getElem?_eq_some_iff.mp hr).1
    by_cases hk : i = k
    · subst hk
      simp [hr, hi, StashObs.redeliveredBy, Returner.advance, List.take_succ, hb]
    · simp [hk, StashObs.redeliveredBy]
  next_le r' hr' := by
    rcases List.mem_or_eq_of_mem_set hr' with h | rfl
    · exact hI.next_le r' h
    · have := (List.getElem?_eq_some_iff.mp hb).1
      simp only [Returner.advance]
      omega
  cld := hI.cld
  running hc r' hr' := by
    rcases List.mem_or_eq_of_mem_set hr' with h | rfl
    · exact hI.running hc r' h
    · rfl

/-- The ingest loop hands a non-empty stash to a new goroutine. -/
theorem spawn (hI : StashInv s obs) (hst : s.stash ≠ []) (rest : List Int) :
    StashInv { s with heights := rest, returners := s.returners ++ [⟨s.stash, 0, true⟩], stash := [] }
      (obs ++ [.spawned]) where
  arrival := by simpa [StashObs.stashedBlock] using hI.arrival
  redelivered k := by
    dsimp only
    rw [List.filterMap_append, hI.redelivered]
    rcases lt_trichotomy k s.returners.length with hk | rfl | hk
    · simp [List.getElem?_append_left hk, StashObs.redeliveredBy]
    · simp [StashObs.redeliveredBy]
    · rw [List.getElem?_eq_none (by omega), List.getElem?_eq_none (by simp; omega)]
      rfl
  next_le r hr := by
    rcases List.mem_append.mp hr with hr | hr
    · exact hI.next_le r hr
    · rw [List.mem_singleton.mp hr]; exact Nat.zero_le _
  cld := hI.cld
  running hc r hr := by
    rcases List.mem_append.mp hr with hr | hr
    · exact hI.running hc r hr
    · rw [List.mem_singleton.mp hr]; simpa [List.length_pos] using hst

/-- A goroutine takes the `cld.Done()` branch. -/
theorem abort (hI : StashInv s obs) {i : Nat} {r : Returner} (hr : s.returners[i]? = some r)
    (hcld : s.stashCancelled = true) :
    StashInv { s with returners := s.returners.set i { r with alive := false } } obs where
  arrival := by
    dsimp only
    rw [map_stash_set hr (show ({ r with alive := false } : Returner).stash = r.stash from rfl)]
    exact hI.arrival
  redelivered k := by
    dsimp only
    rw [hI.redelivered, List.getElem?_set]
    by_cases hk : i = k
    · subst hk
      have hi : i < s.returners.length := (List.getElem?_eq_some_iff.mp hr).1
      simp [hr, hi]
    · simp [hk]
  next_le r' hr' := by
    rcases List.mem_or_eq_of_mem_set hr' with h | rfl
    · exact hI.next_le r' h
    · exact hI.next_le r (List.getElem?_mem hr)
  cld := hI.cld
  running hc := by simp [← hI.cld, hcld] at hc

end StashInv

/-- Every step keeps the stash invariant, with what it shows appended. -/
theorem StashInv.step {obs : List StashObs} {a : Action} (hI : StashInv s obs)
    (h : s.step cfg a = some s') : StashInv s' (obs ++ s.stashObs cfg a) := by
  cases hm : a.byMain
  case true =>
    obtain ⟨c, hs, m, rfl⟩ := step_byMain hm h
    have hobs : s.stashObs cfg a = [] := by cases a <;> first | rfl | cases hm
    rw [hobs, List.append_nil]
    exact hI.frame rfl rfl rfl hI.cld
  unfold Node.step at h
  split at h
  · cases h
  cases a <;> simp only [Action.byMain, reduceCtorEq] at hm
  case cancel =>
    cases h
    rw [show s.stashObs cfg .cancel = [] from rfl, List.append_nil]
    refine ⟨hI.arrival, hI.redelivered, hI.next_le, by simp [stashCancelled], by simp⟩
  case recvHeight =>
    obtain ⟨_, rest, -, -, rfl⟩ := recvHeight_some h
    split_ifs with hst
    · rw [show s.stashObs cfg .recvHeight = [] by simp [stashObs, hst], List.append_nil]
      exact hI.frame rfl rfl rfl hI.cld
    · rw [show s.stashObs cfg .recvHeight = [.spawned] by simp [stashObs, hst]]
      exact hI.spawn hst rest
  case recvMain =>
    obtain ⟨-, ⟨b, hmain, rfl⟩ | ⟨b, hmain, rfl⟩⟩ := recvMain_some h <;>
      simp only [stashObs, hmain] <;> refine StashInv.receive ?_ b <;>
      exact hI.frame rfl rfl rfl hI.cld
  case recvStash i =>
    obtain ⟨-, r, b, hr, -, hb, rfl⟩ := recvStash_some h
    simp only [stashObs, hr, hb]
    rw [show (StashObs.redelivered i b :: s.receiveObs cfg b) =
      [.redelivered i b] ++ s.receiveObs cfg b from rfl, ← List.append_assoc]
    exact (hI.advance hr hb).receive b
  case recvRemote b => obtain ⟨-, rfl⟩ := recvRemote_some h; exact hI.receive b
  case check f nonce signOk =>
    rw [show s.stashObs cfg (.check f nonce signOk) = [] from rfl, List.append_nil]
    obtain ⟨b, c, -, ⟨-, rfl⟩ | ⟨e, -, rfl⟩⟩ := check_some h
    · obtain ⟨h1, h2, h3, h4⟩ := billingRound_frame nonce signOk
      exact hI.frame h1 h2 h3 (by rw [h4, h3]; simp [stashCancelled])
    · exact hI.frame rfl rfl rfl (by simp [stashCancelled])
  case stop =>
    rw [show s.stashObs cfg .stop = [] from rfl, List.append_nil]
    obtain ⟨-, hc, rfl⟩ := stop_some h
    exact hI.frame rfl rfl rfl (by simp [stashCancelled, hc])
  case abortStash i =>
    rw [show s.stashObs cfg (.abortStash i) = [] from rfl, List.append_nil]
    obtain ⟨r, hr, hc, -, rfl⟩ := abortStash_some h
    exact hI.abort hr hc
  case drained =>
    rw [show s.stashObs cfg .drained = [] from rfl, List.append_nil]
    obtain ⟨hi, -, rfl⟩ := drained_some h
    have := hI.cld
    exact hI.frame rfl rfl rfl (by simp_all [stashCancelled])

/-! ## Whole runs -/

/-- Every traced run keeps the stash invariant. -/
theorem StashInv.traceRun {obs₀ obs : List StashObs} {as : List Action} (hI : StashInv s obs₀)
    (h : s.traceRun cfg as = some (s', obs)) : StashInv s' (obs₀ ++ obs) := by
  induction as generalizing s obs₀ obs with
  | nil => cases h; simpa using hI
  | cons a as ih =>
    simp only [Node.traceRun] at h
    split at h
    · rename_i s₁ hs
      obtain ⟨⟨t, obs'⟩, ht, he⟩ := Option.map_eq_some'.mp h
      cases he
      simpa [List.append_assoc] using ih (hI.step hs) ht
    · cases h

end Node

/-! ## Two notifications in flight -/

end SqlChain
