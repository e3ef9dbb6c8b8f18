import SqlChain.Heights

/-!
# Cancellation

Every channel operation of the workers selects on the context too, except the
height send in the deferred function of `runCurrentTurn`, which is a plain
send on a one-slot channel.  Once `processBlocks` has returned, nothing reads
that channel again, so a `mainCycle` that reaches the send with the slot full
never returns and `Stop` waits for it forever.
-/

namespace SqlChain

namespace Node

variable {cfg : Config}

/-- While the height slot is full and `processBlocks` has returned, no step
moves a `mainCycle` blocked on its height send. -/
theorem step_keeps_blockedSend {s s' : Node} {a : Action} {h : Int}
    (hm : s.main = .sendHeight h) (hh : s.heights ≠ []) (hi : s.ingest = .done)
    (hs : s.step cfg a = some s') :
    s'.main = .sendHeight h ∧ s'.heights ≠ [] ∧ s'.ingest = .done := by
  unfold step at hs
  split at hs
  · cases hs
  cases a <;> simp only [loopTop, syncFetch, sleep, tick, abortSend, advise, finish, sendHeight,
    recvHeight, recvMain, recvStash, recvRemote, check, stop, drained, hm, hi,
    Option.some.injEq, reduceCtorEq] at hs
  case query => subst hs; exact ⟨rfl, hh, rfl⟩
  case cancel => subst hs; exact ⟨rfl, hh, rfl⟩
  case sendHeight => simp [hh] at hs
  case abortStash i =>
    simp only [abortStash] at hs
    split at hs
    · split at hs
      · cases hs; exact ⟨hm, hh, hi⟩
      · cases hs
    · cases hs

/-- Every continuation of such a node leaves `mainCycle` on the send. -/
theorem run_keeps_blockedSend {s s' : Node} {h : Int} (as : List Action)
    (hm : s.main = .sendHeight h) (hh : s.heights ≠ []) (hi : s.ingest = .done)
    (hs : s.run cfg as = some s') : s'.main = .sendHeight h := by
  induction as generalizing s with
  | nil => cases hs; exact hm
  | cons a as ih =>
    simp only [run] at hs
    split at hs
    · obtain ⟨hm', hh', hi'⟩ := step_keeps_blockedSend hm hh hi ‹_›
      exact ih hm' hh' hi' hs
    · cases hs

end Node

/-! ## Stopping with a full height slot -/

/-- `P0` passes two turns while `processBlocks` reads no height, `Stop`
cancels the context, and `processBlocks` returns. -/
def stopRun : List Action :=
  [.loopTop, .tick, .finish, .sendHeight, .loopTop, .tick, .finish, .cancel, .stop, .drained]

/-- The node after `stopRun`. -/
def stopNode : Node :=
  ((Node.init coldChain).run scenarioConfig stopRun).getD (Node.init coldChain)

theorem stopRun_eq : (Node.init coldChain).run scenarioConfig stopRun = some stopNode := rfl

theorem heightSend_blocks_after_cancel :
    ∃ s, Node.Reachable scenarioConfig coldChain s ∧ s.cancelled = true ∧
      ∀ as s', s.run scenarioConfig as = some s' → s'.main ≠ .done :=
  ⟨stopNode, Node.Reachable.init.run scenarioConfig stopRun_eq, rfl, fun as _ hs => by
    rw [Node.run_keeps_blockedSend as (show stopNode.main = .sendHeight 0 from rfl)
      (by decide) rfl hs]
    simp⟩

end SqlChain
