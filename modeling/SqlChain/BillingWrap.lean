import SqlChain.ErrorPaths

/-!
# Billing in `uint64`

`billing` converts each credit with `uint64(...)` and adds it into `uint64`
map entries.  Against the integers the spec names (a read's row count, a
write's signed affected rows, a failed request's query count), a user's cost
is therefore the exact integer sum of the user's credits reduced modulo
`2 ^ 64` (`costOf_windowCredits_toNat`): it equals the exact sum exactly when
that sum lies in `[0, 2 ^ 64)` (`costOf_windowCredits_eq_exact_iff`).  A
negative affected-row count is charged near `2 ^ 64`, and row counts past
`2 ^ 64` wrap.
-/

namespace SqlChain

/-! ## `uint64` arithmetic through `toNat` -/

theorem uint64_toNat_add (a b : UInt64) : (a + b).toNat = (a.toNat + b.toNat) % 2 ^ 64 := by
  simp [UInt64.toNat, UInt64.add_def, BitVec.toNat_add]

@[simp] theorem uint64_toNat_ofNat (n : Nat) : (UInt64.ofNat n).toNat = n % 2 ^ 64 := by
  simp [UInt64.toNat, UInt64.ofNat, BitVec.toNat_ofNat]

@[simp] theorem toUint64_toNat (x : Int) : (toUint64 x).toNat = (x % 2 ^ 64).toNat := by
  have h : (x % 2 ^ 64).toNat < 2 ^ 64 := by omega
  simp only [toUint64, uint64_toNat_ofNat, Nat.mod_eq_of_lt h]

theorem toUint64_natCast (n : Nat) : toUint64 n = UInt64.ofNat n :=
  UInt64.toNat.inj (by simp only [toUint64_toNat, uint64_toNat_ofNat]; omega)

theorem toUint64_toNat_cast (v : UInt64) : toUint64 v.toNat = v :=
  UInt64.toNat.inj (by have := v.toNat_lt_size; simp only [toUint64_toNat, UInt64.size] at *; omega)

/-! ## The credits as the spec counts them -/

/-- Modelled from the spec (§4.7): a credit with the amount the spec names,
as an integer. -/
structure ExactCredit where
  user : AccountAddress
  miner : AccountAddress
  amount : Int
  deriving DecidableEq

/-- The credit `billing` adds for an exact one: its amount through
`uint64(...)`. -/
def ExactCredit.toCredit (e : ExactCredit) : Credit := ⟨e.user, e.miner, toUint64 e.amount⟩

section Exact

variable (pubKeyHash : PublicKey → Option AccountAddress)

/-- Modelled from the spec (§4.7): a query transaction credits the responding
miner with a read's row count or a write's affected rows. -/
def exactQueryTxCredit (tx : QueryAsTx) : Option ExactCredit :=
  (pubKeyHash tx.request.signee).map fun u =>
    ⟨u, tx.response.responseAccount,
      if tx.request.queryType = .readQuery then tx.response.rowCount.toNat
      else tx.response.affectedRows⟩

/-- Modelled from the spec (§4.7): a failed request credits the block's signer
with its query count. -/
def exactFailedReqCredit (signee : PublicKey) (req : Request) : Option ExactCredit :=
  (pubKeyHash signee).bind fun k =>
    (pubKeyHash req.signee).map fun u => ⟨u, k, req.queries.length⟩

/-- The exact credits of a block, in the order `billing` reads them. -/
def exactBlockCredits (b : Block) : List ExactCredit :=
  b.queryTxs.filterMap (exactQueryTxCredit pubKeyHash) ++
    b.failedReqs.filterMap (exactFailedReqCredit pubKeyHash b.signee)

/-- The exact credits of a window of blocks. -/
def exactWindowCredits (bs : List Block) : List ExactCredit :=
  bs.flatMap (exactBlockCredits pubKeyHash)

/-- Modelled from the spec (§4.7): a user's cost as the exact integer sum of
the user's credits. -/
def exactCostOf (cs : List ExactCredit) (u : AccountAddress) : Int :=
  ((cs.filter (·.user = u)).map (·.amount)).sum

theorem queryTxCredit_eq (tx : QueryAsTx) :
    queryTxCredit pubKeyHash tx = (exactQueryTxCredit pubKeyHash tx).map ExactCredit.toCredit := by
  simp only [queryTxCredit, exactQueryTxCredit, Option.map_map, Function.comp_def,
    ExactCredit.toCredit]
  split_ifs <;> simp only [toUint64_toNat_cast]

theorem failedReqCredit_eq (signee : PublicKey) (req : Request) :
    failedReqCredit pubKeyHash signee req =
      (exactFailedReqCredit pubKeyHash signee req).map ExactCredit.toCredit := by
  simp only [failedReqCredit, exactFailedReqCredit, Option.map_bind, Option.map_map,
    Function.comp_def, ExactCredit.toCredit, toUint64_natCast]

/-- `billing`'s credits are the exact ones through `uint64(...)`. -/
theorem windowCredits_eq (bs : List Block) :
    windowCredits pubKeyHash bs = (exactWindowCredits pubKeyHash bs).map ExactCredit.toCredit := by
  simp only [windowCredits, exactWindowCredits, List.map_flatMap]
  congr 1; funext b
  simp only [blockCredits, exactBlockCredits, List.map_append, List.map_filterMap,
    funext (queryTxCredit_eq pubKeyHash), funext (failedReqCredit_eq pubKeyHash b.signee)]

end Exact

/-- Adding two residues modulo `2 ^ 64` and reducing gives the residue of the
sum. -/
theorem toNat_emod_add_emod (a b : Int) :
    ((a % 2 ^ 64).toNat + (b % 2 ^ 64).toNat) % 2 ^ 64 = ((a + b) % 2 ^ 64).toNat := by
  rw [← Int.toNat_add (Int.emod_nonneg _ (by decide)) (Int.emod_nonneg _ (by decide))]
  omega

/-- The `uint64` sum of a user's converted credits is the exact sum modulo
`2 ^ 64`. -/
theorem costOf_toCredit_toNat (cs : List ExactCredit) (u : AccountAddress) :
    (costOf (cs.map ExactCredit.toCredit) u).toNat = (exactCostOf cs u % 2 ^ 64).toNat := by
  induction cs with
  | nil => rfl
  | cons e cs ih =>
    simp only [costOf, exactCostOf, List.map_cons, List.filter_cons, ExactCredit.toCredit] at ih ⊢
    split_ifs
    · simp only [List.map_cons, List.sum_cons, uint64_toNat_add, ih, toUint64_toNat,
        toNat_emod_add_emod]
    · exact ih

/-- A user's cost over a window is the exact integer sum of the user's credits
modulo `2 ^ 64`. -/
theorem costOf_windowCredits_toNat (pubKeyHash : PublicKey → Option AccountAddress)
    (bs : List Block) (u : AccountAddress) :
    (costOf (windowCredits pubKeyHash bs) u).toNat =
      (exactCostOf (exactWindowCredits pubKeyHash bs) u % 2 ^ 64).toNat := by
  rw [windowCredits_eq, costOf_toCredit_toNat]

/-- A user's cost over a window is the exact sum of the user's credits exactly
when that sum is neither negative nor past `2 ^ 64 - 1`. -/
theorem costOf_windowCredits_eq_exact_iff (pubKeyHash : PublicKey → Option AccountAddress)
    (bs : List Block) (u : AccountAddress) :
    ((costOf (windowCredits pubKeyHash bs) u).toNat : Int) =
        exactCostOf (exactWindowCredits pubKeyHash bs) u ↔
      0 ≤ exactCostOf (exactWindowCredits pubKeyHash bs) u ∧
        exactCostOf (exactWindowCredits pubKeyHash bs) u < 2 ^ 64 := by
  rw [costOf_windowCredits_toNat]
  omega

/-! ## A negative count charged, a large sum wrapped -/

/-- `P1`'s block of turn 1: a write by user 5 whose response reports `-1`
affected rows, and two reads by user 6 of `2 ^ 63` rows each, all answered by
miner 2. -/
def wrapBlock : Block :=
  ⟨⟨1, 1, Hash.zero, Hash.ofByte 1, 10⟩, Hash.ofByte 9, 1, [],
    [⟨⟨5, .writeQuery, ["update"]⟩, ⟨Hash.ofByte 3, 10, 2, 0, -1⟩⟩,
      ⟨⟨6, .readQuery, ["select"]⟩, ⟨Hash.ofByte 4, 10, 2, 2 ^ 63, 0⟩⟩,
      ⟨⟨6, .readQuery, ["select"]⟩, ⟨Hash.ofByte 5, 10, 2, 2 ^ 63, 0⟩⟩], []⟩

/-- `P0` passes turn 0, then pushes `wrapBlock` and bills it. -/
def wrapRun : List Action :=
  [.loopTop, .tick, .finish, .sendHeight, .recvHeight, .recvRemote wrapBlock,
    .check Faults.none none true]

/-- `P0` bills the window of `wrapBlock` alone.  User 5's credits sum to `-1`
and the update charges `uint64(-1)`; user 6's sum to `2 ^ 64` and the update
charges nothing. -/
theorem billing_wraps_negative_and_large_counts :
    ∃ s : Node, Node.Reachable scenarioConfig coldChain s ∧
      (s.chain.rt.head.node.take scenarioConfig.updatePeriod).mapM s.chain.billingBody =
        .ok [wrapBlock] ∧
      exactCostOf (exactWindowCredits toyCrypto.pubKeyHash [wrapBlock]) 5 = -1 ∧
      exactCostOf (exactWindowCredits toyCrypto.pubKeyHash [wrapBlock]) 6 = 2 ^ 64 ∧
      s.sent.map (·.update) =
        [⟨100, [⟨6, 0, [⟨2, 0⟩]⟩, ⟨5, toUint64 (-1), [⟨2, toUint64 (-1)⟩]⟩]⟩] :=
  ⟨_, .of_run scenarioConfig coldChain wrapRun rfl, rfl, by decide, by decide, by decide⟩

end SqlChain
