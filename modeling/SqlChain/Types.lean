import Mathlib.Data.List.Basic
import Mathlib.Algebra.Group.Nat.Basic
import Mathlib.Algebra.Group.Int

/-!
# Data model of a SQL-chain

Blocks, their headers and bodies, and the requests, responses and
acknowledgements they carry, with the fields that `chain.go` reads.  Times are
nanosecond instants and heights and counts are the code's `int32` values, both
as integers; byte strings are lists of bytes.
-/

namespace SqlChain

/-- A 32-byte digest, `hash.Hash`. -/
@[ext] structure Hash where
  bytes : List UInt8
  size : bytes.length = 32
  deriving DecidableEq

/-- The all-zero hash, the parent hash a genesis block carries. -/
def Hash.zero : Hash := ⟨List.replicate 32 0, List.length_replicate _ _⟩

/-- The hash whose last byte is `b` and whose other bytes are zero. -/
def Hash.ofByte (b : UInt8) : Hash := ⟨List.replicate 31 0 ++ [b], by simp⟩

/-- A miner identity, `proto.NodeID`. -/
abbrev NodeID := Nat

/-- A signer's public key. -/
abbrev PublicKey := Nat

/-- An account address, `proto.AccountAddress`. -/
abbrev AccountAddress := Nat

inductive QueryType
  | readQuery
  | writeQuery
  deriving DecidableEq, Repr

/-- A signed query request: its signer, its type and its statements. -/
structure Request where
  signee : PublicKey
  queryType : QueryType
  queries : List String
  deriving DecidableEq

/-- A signed response header, as billing and the ack index read it. -/
structure ResponseHeader where
  hash : Hash
  requestTimestamp : Int
  responseAccount : AccountAddress
  rowCount : UInt64
  affectedRows : Int
  deriving DecidableEq

/-- A query transaction of a block: a request with its response header. -/
structure QueryAsTx where
  request : Request
  response : ResponseHeader
  deriving DecidableEq

/-- A signed acknowledgement of a response. -/
structure AckHeader where
  hash : Hash
  responseHash : Hash
  requestTimestamp : Int
  responseTimestamp : Int
  deriving DecidableEq

/-- The signed part of a block header. -/
structure Header where
  version : Nat
  producer : NodeID
  genesisHash : Hash
  parentHash : Hash
  timestamp : Int
  deriving DecidableEq

/-- A block: its header, the hash and signer set by `PackAndSignBlock`, and its
body of failed requests, query transactions and acknowledgements. -/
structure Block where
  header : Header
  hash : Hash
  signee : PublicKey
  failedReqs : List Request
  queryTxs : List QueryAsTx
  acks : List AckHeader
  deriving DecidableEq

namespace Block

variable (b : Block)

def producer : NodeID := b.header.producer

def parentHash : Hash := b.header.parentHash

def timestamp : Int := b.header.timestamp

end Block

end SqlChain
