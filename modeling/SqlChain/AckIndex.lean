import SqlChain.Types
import Mathlib.Data.List.Sort

/-!
# The acknowledgement index

`ackindex.go` is not part of the sources; the index of responses awaiting
acknowledgement and of registered acknowledgements is modelled from §4.3 of the
specification.  Entries are kept with the height of their bucket, and heights
below the barrier set by the last `advance` are expired.
-/

namespace SqlChain

/-- Modelled from the spec (§4.3): `ackIndex`, the bucketed responses and
acknowledgements with the barrier below which buckets are dropped. -/
structure AckIndex where
  barrier : Int
  responses : List (Int × ResponseHeader)
  acks : List (Int × AckHeader)
  deriving DecidableEq

inductive AckError
  | queryExpired
  | responseNotFound
  deriving DecidableEq, Repr

namespace AckIndex

variable (ai : AckIndex)

/-- Modelled from the spec (§4.3): the empty index, `newAckIndex`. -/
def empty : AckIndex := ⟨0, [], []⟩

/-- Modelled from the spec (§4.3): `addResponse`, recording a response in
bucket `h`. -/
def addResponse (h : Int) (r : ResponseHeader) : Except AckError AckIndex :=
  if h < ai.barrier then .error .queryExpired
  else .ok { ai with responses := (h, r) :: ai.responses }

/-- Modelled from the spec (§4.3): `register`, recording an acknowledgement
of a response already seen in bucket `h`. -/
def register (h : Int) (a : AckHeader) : Except AckError AckIndex :=
  if h < ai.barrier then .error .queryExpired
  else if ai.responses.any (fun e => e.1 = h ∧ e.2.hash = a.responseHash) then
    .ok { ai with acks := (h, a) :: ai.acks }
  else .error .responseNotFound

/-- Modelled from the spec (§4.3): `remove`, deleting an acknowledgement and
its response from bucket `h` once a block includes it. -/
def remove (h : Int) (a : AckHeader) : Except AckError AckIndex :=
  if h < ai.barrier then .error .queryExpired
  else .ok { ai with
    responses := ai.responses.filter (fun e => ¬(e.1 = h ∧ e.2.hash = a.responseHash))
    acks := ai.acks.filter (fun e => e ≠ (h, a)) }

/-- Modelled from the spec (§4.3): `acks`, the registered acknowledgements in
buckets below `h`, by height and then by hash. -/
def acksBelow (h : Int) : List AckHeader :=
  ((ai.acks.filter (·.1 < h)).insertionSort
    (fun x y => x.1 < y.1 ∨ x.1 = y.1 ∧ x.2.hash.bytes ≤ y.2.hash.bytes)).map (·.2)

/-- Modelled from the spec (§4.3): `advance`, dropping every bucket below
`minValid`. -/
def advance (minValid : Int) : AckIndex :=
  ⟨minValid, ai.responses.filter (minValid ≤ ·.1), ai.acks.filter (minValid ≤ ·.1)⟩

end AckIndex

end SqlChain
