import SqlChain.BillingLaw

/-!
# Pushing acknowledged queries

`VerifyAndPushAckedQuery` rejects an ack whose response time is past the
query TTL or whose signature does not verify, and hands the rest to
`pushAckedQuery`.  That registers the ack in the ack index and only then puts
it into the query store `tdb`.  The registration changes the ack index in
place, so when the `Put` fails the call returns its error with the ack already
registered, and the next block the node produces carries it
(`verifyAndPushAckedQuery_error`).

The query store is read by no other modelled function: it is passed beside
the chain.
-/

namespace SqlChain

/-- The query store `tdb`, with its ack entries as key and decoded ack. -/
abbrev QueryStore := List (List UInt8 × AckHeader)

/-- `tdb.Put`, replacing an entry with the same key. -/
def QueryStore.put (s : QueryStore) (k : List UInt8) (a : AckHeader) : QueryStore :=
  (k, a) :: s.filter (·.1 ≠ k)

/-- Modelled from the spec (§4.3): `queryTimeIsExpired`, whether the height of
`t` is below the minimum valid height. -/
def Runtime.queryTimeIsExpired (cfg : RuntimeConfig) (rt : Runtime) (t : Int) : Bool :=
  decide (rt.getHeightFromTime cfg t < rt.getMinValidHeight cfg)

/-- The errors of `VerifyAndPushAckedQuery`. -/
inductive AckPushError
  | queryExpired
  | verifyFailed
  | register (e : AckError)
  | storageFailed
  deriving DecidableEq, Repr

namespace Chain

variable (cfg : Config)

/-- `register`: the ack index with `a` registered in the bucket of its
request's height. -/
def register (c : Chain) (a : AckHeader) : Except AckError AckIndex :=
  c.ai.register (c.heightOf cfg a.requestTimestamp) a

/-- `pushAckedQuery`: register the ack, then put it into the query store under
`QACK`, the height of its response and its hash.  The registration changes the
ack index in place, so the state after the call is returned with its error. -/
def pushAckedQuery (f : Faults) (c : Chain) (tdb : QueryStore) (a : AckHeader) :
    (Chain × QueryStore) × Option AckPushError :=
  let tdbKey := metaAckIndex ++ heightToKey (c.heightOf cfg a.responseTimestamp) ++ a.hash.bytes
  match c.register cfg a with
  | .error e => ((c, tdb), some (.register e))
  | .ok ai =>
      if f.putFails then (({ c with ai := ai }, tdb), some .storageFailed)
      else (({ c with ai := ai }, tdb.put tdbKey a), none)

/-- `VerifyAndPushAckedQuery`, with whether the ack's signature verifies. -/
def verifyAndPushAckedQuery (f : Faults) (verified : Bool) (c : Chain) (tdb : QueryStore)
    (a : AckHeader) : (Chain × QueryStore) × Option AckPushError :=
  if c.rt.queryTimeIsExpired cfg.rc a.responseTimestamp then ((c, tdb), some .queryExpired)
  else if !verified then ((c, tdb), some .verifyFailed)
  else c.pushAckedQuery cfg f tdb a

variable {cfg}

/-- A failed `VerifyAndPushAckedQuery` leaves the query store as it was, and
the chain too, except when the query store's `Put` fails: the ack is then
registered in the ack index. -/
theorem verifyAndPushAckedQuery_error {f : Faults} {verified : Bool} {c c' : Chain}
    {tdb tdb' : QueryStore} {a : AckHeader} {e : AckPushError}
    (h : c.verifyAndPushAckedQuery cfg f verified tdb a = ((c', tdb'), some e)) :
    tdb' = tdb ∧
      (c' = c ∨ e = .storageFailed ∧ f.putFails = true ∧
        ∃ ai, c.register cfg a = .ok ai ∧ c' = { c with ai := ai }) := by
  unfold verifyAndPushAckedQuery at h
  by_cases hx : c.rt.queryTimeIsExpired cfg.rc a.responseTimestamp
  · rw [if_pos hx] at h; cases h; exact ⟨rfl, .inl rfl⟩
  rw [if_neg hx] at h
  by_cases hv : (!verified) = true
  · rw [if_pos hv] at h; cases h; exact ⟨rfl, .inl rfl⟩
  rw [if_neg hv] at h
  unfold pushAckedQuery at h
  split at h
  · cases h; exact ⟨rfl, .inl rfl⟩
  · split_ifs at h with hf
    · cases h; exact ⟨rfl, .inr ⟨rfl, hf, _, ‹_›, rfl⟩⟩
    · cases h

end Chain

/-! ## An ack registered by a failed call -/

/-- User 5's ack of the response `mixedBlock` carries. -/
def lostAck : AckHeader := ⟨Hash.ofByte 30, Hash.ofByte 3, 10, 12⟩

/-- After `P0` has pushed `mixedBlock`, whose response awaits its ack, the
ack arrives and the query store's `Put` fails: the call reports the storage
error, and the ack index now offers the ack to the next block. -/
theorem put_failure_registers_ack :
    ∃ (s : Node) (c' : Chain), Node.Reachable scenarioConfig coldChain s ∧
      s.chain.verifyAndPushAckedQuery scenarioConfig ⟨true, false⟩ true [] lostAck =
        ((c', []), some .storageFailed) ∧
      s.chain.ai.acksBelow s.chain.rt.nextTurn = [] ∧
      c'.ai.acksBelow c'.rt.nextTurn = [lostAck] :=
  ⟨mixedNode, _, Node.Reachable.init.run scenarioConfig mixedRun_eq, rfl, by decide, by decide⟩

end SqlChain
