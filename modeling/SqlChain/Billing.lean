import SqlChain.Chain
import Mathlib.Data.List.AList

/-!
# Billing

`billing` walks back at most `updatePeriod` nodes from a head node, reading each
cached body or fetching it by height, and accumulates per-user costs and
per-user, per-miner incomes in Go maps of `uint64`.  A Go map is Mathlib's
`AList`, whose keys are distinct by construction; its entry order stands for
Go's unspecified iteration order.
-/

namespace SqlChain

/-- `uint64(x)` of a signed value. -/
def toUint64 (x : Int) : UInt64 := UInt64.ofNat (x % 2 ^ 64).toNat

/-- A Go map keyed by account addresses.  Its entries are listed in one of the
iteration orders Go allows. -/
abbrev GoMap (V : Type) := AList fun _ : AccountAddress => V

/-- A Go `map[proto.AccountAddress]uint64`. -/
abbrev U64Map := GoMap UInt64

namespace U64Map

/-- `m[k]`, zero when absent. -/
def get (m : U64Map) (k : AccountAddress) : UInt64 := (m.lookup k).getD 0

/-- `m[k] += v` in `uint64` arithmetic. -/
def addTo (m : U64Map) (k : AccountAddress) (v : UInt64) : U64Map :=
  m.insert k (m.get k + v)

end U64Map

/-- The two maps of `billing`: `usersMap` and `minersMap`. -/
structure BillingMaps where
  users : U64Map
  miners : GoMap U64Map

namespace BillingMaps

variable (m : BillingMaps)

/-- `minersMap[u]`, the empty map when absent. -/
def minersOf (u : AccountAddress) : U64Map := (m.miners.lookup u).getD ∅

/-- `minersMap[u] = v`. -/
def setMiners (u : AccountAddress) (v : U64Map) : BillingMaps :=
  { m with miners := m.miners.insert u v }

/-- `minersMap[u][k] += v; usersMap[u] += v`. -/
def credit (u k : AccountAddress) (v : UInt64) : BillingMaps :=
  ⟨m.users.addTo u v, m.miners.insert u ((m.minersOf u).addTo k v)⟩

end BillingMaps

/-- Why `billing` returns early. -/
inductive BillingError
  | fetch (e : ChainError)
  | nilBlock
  | userAddr
  | minerAddr
  | receiver
  deriving DecidableEq, Repr

/-- A miner's income under one user, `types.MinerIncome`. -/
structure MinerIncome where
  miner : AccountAddress
  income : UInt64
  deriving DecidableEq

/-- A user's cost with the incomes of its miners, `types.UserCost`. -/
structure UserCost where
  user : AccountAddress
  cost : UInt64
  miners : List MinerIncome
  deriving DecidableEq

/-- The header of `types.UpdateBilling` as `billing` builds it. -/
structure UpdateBilling where
  receiver : AccountAddress
  users : List UserCost
  deriving DecidableEq

namespace Chain

variable (cfg : Config) (pubKeyHash : PublicKey → Option AccountAddress)

/-- The credit of one query transaction: a read's row count, a write's affected
rows, to the responding miner under the request's signer. -/
def creditQueryTx (m : BillingMaps) (tx : QueryAsTx) : Except BillingError BillingMaps :=
  match pubKeyHash tx.request.signee with
  | none => .error .userAddr
  | some userAddr =>
      let minerAddr := tx.response.responseAccount
      let m := if userAddr ∈ m.miners then m else m.setMiners userAddr ∅
      if tx.request.queryType = .readQuery then
        .ok (m.credit userAddr minerAddr tx.response.rowCount)
      else .ok (m.credit userAddr minerAddr (toUint64 tx.response.affectedRows))

/-- The credit of one failed request: its query count, to the block's signer
under the request's signer.  The source tests the (user, miner) pair and, when
it is absent, replaces the user's whole miner map. -/
def creditFailedReq (signee : PublicKey) (m : BillingMaps) (req : Request) :
    Except BillingError BillingMaps :=
  match pubKeyHash signee, pubKeyHash req.signee with
  | none, _ => .error .minerAddr
  | some _, none => .error .userAddr
  | some minerAddr, some userAddr =>
      let m := if minerAddr ∈ m.minersOf userAddr then m else m.setMiners userAddr ∅
      .ok (m.credit userAddr minerAddr (UInt64.ofNat req.queries.length))

/-- The credits of one block: its query transactions, then its failed
requests. -/
def creditBlock (m : BillingMaps) (b : Block) : Except BillingError BillingMaps := do
  let m ← b.queryTxs.foldlM (creditQueryTx pubKeyHash) m
  b.failedReqs.foldlM (creditFailedReq pubKeyHash b.signee) m

/-- The body `billing` reads for a node: the cached one, or `FetchBlock` at the
node's height. -/
def billingBody (c : Chain) (n : NodeInfo) : Except BillingError Block :=
  match c.cache n.hash with
  | some b => .ok b
  | none =>
      match c.fetchBlock n.height with
      | .ok (some b) => .ok b
      | .ok none => .error .nilBlock
      | .error e => .error (.fetch e)

/-- The loop of `billing` over at most `k` nodes of the parent walk. -/
def billingLoop (c : Chain) : Nat → BlockNode → BillingMaps → Except BillingError BillingMaps
  | 0, _, m => .ok m
  | _, [], m => .ok m
  | k + 1, n :: rest, m => do
      let b ← c.billingBody n
      let m ← creditBlock pubKeyHash m b
      c.billingLoop k rest m

/-- The users of the update: one entry per key of `usersMap`, with the
incomes of `minersMap` under it. -/
def billingUsers (m : BillingMaps) : List UserCost :=
  m.users.entries.map fun e => ⟨e.1, e.2, (m.minersOf e.1).entries.map fun x => ⟨x.1, x.2⟩⟩

/-- `billing`: the update and the error it returns; a failure of the receiver
address still returns the update, with a zero receiver. -/
def billing (c : Chain) (node : BlockNode) : Option UpdateBilling × Option BillingError :=
  match c.billingLoop cfg.crypto.pubKeyHash cfg.updatePeriod node ⟨∅, ∅⟩ with
  | .error e => (none, some e)
  | .ok m =>
      match cfg.dbAccount with
      | some r => (some ⟨r, billingUsers m⟩, none)
      | none => (some ⟨0, billingUsers m⟩, some .receiver)

end Chain

end SqlChain
