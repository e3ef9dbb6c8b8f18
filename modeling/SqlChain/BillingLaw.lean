import SqlChain.Heights
import Mathlib.Data.UInt

/-!
# The billing law

The update `billing` returns against the credits of its window.  A credit is
an amount a user owes a miner: the row count of a read or the affected rows of
a write to the responding miner, and the query count of a failed request to
the block's signer.

The users of the update are the keys of `usersMap` and the miners of a user
are the keys of its `minersMap` entry, so neither repeats, and a user's cost is
the `uint64` sum of the user's credits.
A miner's income under a user is not always the sum of the pair's credits: the
failed-request branch tests the (user, miner) pair and, when the block's
signer is new to the user, gives the user a fresh miner map, which drops the
incomes already counted under that user.
-/

namespace SqlChain

/-- One credit of the billing law: an amount a user owes a miner. -/
structure Credit where
  user : AccountAddress
  miner : AccountAddress
  amount : UInt64
  deriving DecidableEq

section Credits

variable (pubKeyHash : PublicKey → Option AccountAddress)

/-- The credit of a query transaction: to the responding miner, a read's row
count or a write's affected rows. -/
def queryTxCredit (tx : QueryAsTx) : Option Credit :=
  (pubKeyHash tx.request.signee).map fun u =>
    ⟨u, tx.response.responseAccount,
      if tx.request.queryType = .readQuery then tx.response.rowCount
      else toUint64 tx.response.affectedRows⟩

/-- The credit of a failed request: its query count, to the block's signer. -/
def failedReqCredit (signee : PublicKey) (req : Request) : Option Credit :=
  (pubKeyHash signee).bind fun k =>
    (pubKeyHash req.signee).map fun u => ⟨u, k, UInt64.ofNat req.queries.length⟩

/-- The credits of a block, in the order `billing` reads them. -/
def blockCredits (b : Block) : List Credit :=
  b.queryTxs.filterMap (queryTxCredit pubKeyHash) ++
    b.failedReqs.filterMap (failedReqCredit pubKeyHash b.signee)

/-- The credits of a window of blocks. -/
def windowCredits (bs : List Block) : List Credit :=
  bs.flatMap (blockCredits pubKeyHash)

/-- The `uint64` sum of a user's credits. -/
def costOf (cs : List Credit) (u : AccountAddress) : UInt64 :=
  ((cs.filter (·.user = u)).map (·.amount)).sum

/-- The `uint64` sum of the credits of a (user, miner) pair. -/
def incomeOf (cs : List Credit) (u k : AccountAddress) : UInt64 :=
  ((cs.filter fun cr => cr.user = u ∧ cr.miner = k).map (·.amount)).sum

end Credits

namespace U64Map

@[simp] theorem get_empty (u : AccountAddress) : get ∅ u = 0 := rfl

theorem get_addTo (m : U64Map) (k u : AccountAddress) (v : UInt64) :
    (m.addTo k v).get u = if u = k then m.get u + v else m.get u := by
  unfold addTo get
  split_ifs with h
  · subst h; simp [AList.lookup_insert]
  · simp [AList.lookup_insert_ne h]

theorem get_of_mem_entries {m : U64Map} {e : Σ _ : AccountAddress, UInt64}
    (h : e ∈ m.entries) : m.get e.1 = e.2 := by
  obtain ⟨k, v⟩ := e
  have hl : m.lookup k = some v := AList.mem_lookup_iff.mpr h
  simp [get, hl]

end U64Map

/-- `usersMap` after crediting `cs` in order. -/
def addCredits (m : U64Map) (cs : List Credit) : U64Map :=
  cs.foldl (fun m cr => m.addTo cr.user cr.amount) m

theorem addCredits_append (m : U64Map) (cs cs' : List Credit) :
    addCredits m (cs ++ cs') = addCredits (addCredits m cs) cs' :=
  List.foldl_append _ _ _ _

theorem get_addCredits (m : U64Map) (cs : List Credit) (u : AccountAddress) :
    (addCredits m cs).get u = m.get u + costOf cs u := by
  induction cs generalizing m with
  | nil => simp [addCredits, costOf]
  | cons cr cs ih =>
    rw [addCredits, List.foldl_cons, ← addCredits, ih, U64Map.get_addTo]
    by_cases h : u = cr.user
    · simp [costOf, List.filter_cons, h, add_assoc]
    · simp [costOf, List.filter_cons, h, Ne.symm h]

theorem mem_addCredits {m : U64Map} {cs : List Credit} {u : AccountAddress} :
    u ∈ addCredits m cs ↔ u ∈ m ∨ ∃ cr ∈ cs, cr.user = u := by
  induction cs generalizing m with
  | nil => simp [addCredits]
  | cons cr cs ih =>
    rw [addCredits, List.foldl_cons, ← addCredits, ih, U64Map.addTo, AList.mem_insert]
    simp only [List.mem_cons, exists_eq_or_imp]
    tauto

namespace BillingMaps

@[simp] theorem credit_users (m : BillingMaps) (u k : AccountAddress) (v : UInt64) :
    (m.credit u k v).users = m.users.addTo u v := rfl

@[simp] theorem setMiners_users (m : BillingMaps) (u : AccountAddress) (v : U64Map) :
    (m.setMiners u v).users = m.users := rfl

/-- The fresh miner map of a user leaves `usersMap` as it is. -/
@[simp] theorem ite_setMiners_users (p : Prop) [Decidable p] (m : BillingMaps) (u : AccountAddress)
    (v : U64Map) : (if p then m else m.setMiners u v).users = m.users := by
  split <;> rfl

end BillingMaps

/-! ## `usersMap` along the loop -/

/-- A bind of `Except` succeeds when both of its parts do. -/
theorem except_bind_eq_ok {ε α β : Type} {x : Except ε α} {f : α → Except ε β} {r : β} :
    x >>= f = .ok r ↔ ∃ a, x = .ok a ∧ f a = .ok r := by
  cases x <;> simp [bind, Except.bind]

namespace Chain

variable {pubKeyHash : PublicKey → Option AccountAddress}

theorem creditQueryTx_users {m m' : BillingMaps} {tx : QueryAsTx}
    (h : creditQueryTx pubKeyHash m tx = .ok m') :
    ∃ cr, queryTxCredit pubKeyHash tx = some cr ∧ m'.users = m.users.addTo cr.user cr.amount := by
  unfold creditQueryTx at h
  cases hu : pubKeyHash tx.request.signee with
  | none => rw [hu] at h; cases h
  | some u =>
    rw [hu] at h
    refine ⟨_, by simp only [queryTxCredit, hu]; rfl, ?_⟩
    split_ifs at h <;> cases h <;> simp [*]

theorem creditFailedReq_users {signee : PublicKey} {m m' : BillingMaps} {req : Request}
    (h : creditFailedReq pubKeyHash signee m req = .ok m') :
    ∃ cr, failedReqCredit pubKeyHash signee req = some cr ∧
      m'.users = m.users.addTo cr.user cr.amount := by
  unfold creditFailedReq at h
  cases hk : pubKeyHash signee with
  | none => rw [hk] at h; cases h
  | some k =>
    cases hu : pubKeyHash req.signee with
    | none => rw [hk, hu] at h; cases h
    | some u =>
      simp only [hk, hu, Except.ok.injEq] at h
      refine ⟨_, by simp only [failedReqCredit, hk, hu]; rfl, ?_⟩
      subst h
      simp

/-- A fold whose every step credits one amount to `usersMap`. -/
theorem users_of_foldlM {α : Type} {f : BillingMaps → α → Except BillingError BillingMaps}
    {g : α → Option Credit}
    (hf : ∀ m a m', f m a = .ok m' → ∃ cr, g a = some cr ∧ m'.users = m.users.addTo cr.user cr.amount) :
    ∀ {l : List α} {m m' : BillingMaps}, l.foldlM f m = .ok m' →
      m'.users = addCredits m.users (l.filterMap g)
  | [], _, _, h => by cases h; rfl
  | a :: l, m, m', h => by
    obtain ⟨m₁, hm, h⟩ := except_bind_eq_ok.mp h
    obtain ⟨cr, hg, hu⟩ := hf m a m₁ hm
    rw [users_of_foldlM hf h, hu, List.filterMap_cons_some hg]
    rfl

theorem creditBlock_users {m m' : BillingMaps} {b : Block}
    (h : creditBlock pubKeyHash m b = .ok m') :
    m'.users = addCredits m.users (blockCredits pubKeyHash b) := by
  obtain ⟨m₁, hq, h⟩ := except_bind_eq_ok.mp h
  rw [users_of_foldlM (fun _ _ _ h => creditFailedReq_users h) h,
    users_of_foldlM (fun _ _ _ h => creditQueryTx_users h) hq, blockCredits, addCredits_append]

/-- The loop of `billing` credits the window of the bodies it read. -/
theorem billingLoop_users {c : Chain} :
    ∀ {k : Nat} {node : BlockNode} {m m' : BillingMaps}, c.billingLoop pubKeyHash k node m = .ok m' →
      ∃ bs, (node.take k).mapM c.billingBody = .ok bs ∧
        m'.users = addCredits m.users (windowCredits pubKeyHash bs)
  | 0, _, _, _, h => ⟨[], rfl, by simp only [billingLoop, Except.ok.injEq] at h; subst h; rfl⟩
  | _ + 1, [], _, _, h => ⟨[], rfl, by simp only [billingLoop, Except.ok.injEq] at h; subst h; rfl⟩
  | k + 1, n :: rest, m, m', h => by
    simp only [billingLoop] at h
    obtain ⟨b, hb, h⟩ := except_bind_eq_ok.mp h
    obtain ⟨m₁, hc, h⟩ := except_bind_eq_ok.mp h
    obtain ⟨bs, hbs, hu⟩ := billingLoop_users h
    refine ⟨b :: bs, ?_, ?_⟩
    · rw [List.take_succ_cons, List.mapM_cons, hb, hbs]
      rfl
    · rw [hu, creditBlock_users hc, ← addCredits_append]
      rfl

end Chain

/-! ## The update -/

variable {cfg : Config}

/-- The users of the update are the keys of `usersMap`, each listed once, and
each with the `uint64` sum of its credits over the window; the miners of a
user are listed at most once. -/
theorem billing_lists_users_once_with_window_costs {c : Chain} {node : BlockNode}
    {ub : UpdateBilling} {e : Option BillingError} (h : c.billing cfg node = (some ub, e)) :
    ∃ bs, (node.take cfg.updatePeriod).mapM c.billingBody = .ok bs ∧
      (ub.users.map (·.user)).Nodup ∧
      (∀ u, u ∈ ub.users.map (·.user) ↔
        ∃ cr ∈ windowCredits cfg.crypto.pubKeyHash bs, cr.user = u) ∧
      ∀ uc ∈ ub.users, (uc.miners.map (·.miner)).Nodup ∧
        uc.cost = costOf (windowCredits cfg.crypto.pubKeyHash bs) uc.user := by
  unfold Chain.billing at h
  split at h
  · cases h
  rename_i m hm
  obtain ⟨bs, hbs, hu⟩ := Chain.billingLoop_users hm
  have hub : ub.users = Chain.billingUsers m := by
    split at h <;> cases h <;> rfl
  have hkeys : ub.users.map (·.user) = m.users.keys := by
    simp [hub, Chain.billingUsers, AList.keys, List.keys]
  refine ⟨bs, hbs, hkeys ▸ m.users.keys_nodup, fun u => ?_, ?_⟩
  · rw [hkeys, ← AList.mem_keys, hu, mem_addCredits]
    simp
  · intro uc huc
    rw [hub, Chain.billingUsers, List.mem_map] at huc
    obtain ⟨x, hx, rfl⟩ := huc
    refine ⟨?_, ?_⟩
    · simpa [AList.keys, List.keys] using (m.minersOf x.1).keys_nodup
    · simp only
      rw [← U64Map.get_of_mem_entries hx, hu, get_addCredits, U64Map.get_empty, zero_add]

/-! ## A user billed by two miners -/

/-- `P1`'s block of turn 1: a read of ten rows by user 5 answered by miner 2,
and a failed request of one query by user 5. -/
def mixedBlock : Block :=
  ⟨⟨1, 1, Hash.zero, Hash.ofByte 1, 10⟩, Hash.ofByte 9, 1, [⟨5, .writeQuery, ["q"]⟩],
    [⟨⟨5, .readQuery, []⟩, ⟨Hash.ofByte 3, 10, 2, 10, 0⟩⟩], []⟩

/-- `P0` passes turn 0, then pushes `mixedBlock` and bills it. -/
def mixedRun : List Action :=
  [.loopTop, .tick, .finish, .sendHeight, .recvHeight, .recvRemote mixedBlock,
    .check Faults.none none true]

/-- The node after `mixedRun`. -/
def mixedNode : Node :=
  ((Node.init coldChain).run scenarioConfig mixedRun).getD (Node.init coldChain)

theorem mixedRun_eq : (Node.init coldChain).run scenarioConfig mixedRun = some mixedNode := rfl

theorem billing_lists_users_once_mixed :
    mixedNode.chain.billing scenarioConfig mixedNode.chain.rt.head.node =
        (some ⟨100, [⟨5, 11, [⟨1, 1⟩]⟩]⟩, none) ∧
      ∃ bs, (mixedNode.chain.rt.head.node.take 1).mapM mixedNode.chain.billingBody = .ok bs ∧
        (([⟨5, 11, [⟨1, 1⟩]⟩] : List UserCost).map (·.user)).Nodup ∧
        (∀ u, u ∈ ([⟨5, 11, [⟨1, 1⟩]⟩] : List UserCost).map (·.user) ↔
          ∃ cr ∈ windowCredits toyCrypto.pubKeyHash bs, cr.user = u) ∧
        ∀ uc ∈ ([⟨5, 11, [⟨1, 1⟩]⟩] : List UserCost), (uc.miners.map (·.miner)).Nodup ∧
          uc.cost = costOf (windowCredits toyCrypto.pubKeyHash bs) uc.user :=
  have h : mixedNode.chain.billing scenarioConfig mixedNode.chain.rt.head.node =
      (some ⟨100, [⟨5, 11, [⟨1, 1⟩]⟩]⟩, none) := by decide
  ⟨h, billing_lists_users_once_with_window_costs h⟩

/-- The window of `mixedNode`'s head owes miner 2 ten rows under user 5, but
the failed request, signed by miner 1, which is new to user 5, replaced the
user's miner map: the update lists miner 1 alone, while the cost still counts
all eleven. -/
theorem failedReq_drops_query_income :
    ∃ s, Node.Reachable scenarioConfig coldChain s ∧
      s.chain.rt.head.head = mixedBlock.hash ∧
      incomeOf (blockCredits toyCrypto.pubKeyHash mixedBlock) 5 2 = 10 ∧
      s.sent.map (·.update) = [⟨100, [⟨5, 11, [⟨1, 1⟩]⟩]⟩] :=
  ⟨mixedNode, Node.Reachable.init.run scenarioConfig mixedRun_eq, by decide, by decide, by decide⟩

end SqlChain
