import BulletinChain.RustSdk.Transaction
import BulletinChain.Theorems.Boost

namespace Bulletin

open Machine Except Access

variable {T : Config}

namespace Deed

variable (scope : AuthorizationScope T)

-- What a deed takes from the budget of the scope. A renewal is a transaction too, and its bytes are
-- counted elsewhere.
def uses : Deed T → Quota
  | .stored s size => if s = scope then ⟨1, size⟩ else ⟨0, 0⟩
  | .renewed s _   => if s = scope then ⟨1, 0⟩ else ⟨0, 0⟩
  | _              => ⟨0, 0⟩

def grants : Deed T → Bool
  | .granted _ s _ _ _ => s = scope
  | _                  => false

def refreshes : Deed T → Bool
  | .refreshed _ s => s = scope
  | _              => false

end Deed

-- What a history takes from the budget of a scope.
def usedOf (scope : AuthorizationScope T) (log : List (Nat × Deed T)) : Quota where
  transactions := (log.map (·.2.uses scope |>.transactions)).sum
  bytes        := (log.map (·.2.uses scope |>.bytes)).sum

theorem usedOf_concat (scope : AuthorizationScope T) (log : List (Nat × Deed T)) (x : Nat × Deed T) :
    (usedOf scope (log ++ [x])).transactions =
        (usedOf scope log).transactions + (x.2.uses scope).transactions ∧
      (usedOf scope (log ++ [x])).bytes = (usedOf scope log).bytes + (x.2.uses scope).bytes := by
  simp [usedOf]

-- What is left of a cap after a use of it, and after a raise.

theorem le_sub_saturatingAdd {n cap count used : Nat} (h : n ≤ cap - count + used) (top k : Nat) :
    n ≤ cap - saturatingAdd top count k + (used + k) := by
  have := Nat.min_le_left (count + k) top
  simp only [saturatingAdd]
  omega

theorem le_saturatingAdd_sub {n cap count used top : Nat} (h : n ≤ cap - count + used)
    (hc : cap ≤ top) (k : Nat) : n ≤ saturatingAdd top cap k - count + used := by
  have : cap ≤ saturatingAdd top cap k := le_saturatingAdd hc
  omega

namespace Access

variable {g g' : Access T} {who : T.AccountId} {d : Deed T}

-- The account has an authorization that ends at block `t`, with a budget of at least `n` transactions
-- and `b` bytes before what was used.
structure Affords (g : Access T) (who : T.AccountId) (t n b : Nat) (used : Quota)
    (a : Authorization) : Prop where
  lookup       : g.authorizations.lookup (.account who) = some a
  expiration   : a.expiration = t
  inRange      : a.extent.InRange
  transactions : n ≤ a.extent.transactionsAllowance - a.extent.transactions + used.transactions
  bytes        : b ≤ a.extent.bytesAllowance - a.extent.bytes + used.bytes

-- Until then it has one after every deed that does not refresh it. A grant only adds to it.
theorem Affords.does {now t n b : Nat} {log : List (Nat × Deed T)}
    (h : g.Affords who t n b (usedOf (.account who) log) a) (ht : now < t) (hd : Deed.Does now g d g')
    (hr : ¬d.refreshes (.account who)) :
    ∃ a', g'.Affords who t n b (usedOf (.account who) (log ++ [(now, d)])) a' := by
  have hu := usedOf_concat (.account who) log (now, d)
  generalize usedOf (.account who) (log ++ [(now, d)]) = used' at hu
  obtain ⟨ut, ub⟩ := used'
  have ha : g.active now (.account who) = some a :=
    active_eq_some.mpr ⟨h.lookup, by simp [Authorization.expired, h.expiration, ht]⟩
  have hm := hd.moves (.account who)
  generalize hx : g'.authorizations.lookup (.account who) = x at hm
  obtain ⟨hl, he, hi, hn, hb⟩ := h
  cases hm
  case aside hs =>
    refine ⟨a, hx.trans hl, he, hi, ?_, ?_⟩
    · exact hn.trans (Nat.add_le_add_left (hu.left ▸ Nat.le_add_right ..) _)
    · exact hb.trans (Nat.add_le_add_left (hu.right ▸ Nat.le_add_right ..) _)
  case stored a₁ size h₁ =>
    cases h₁.symm.trans ha
    simp only [Deed.uses, if_pos] at hu
    refine ⟨_, hx, he, hi.stored size, ?_, ?_⟩
    · exact hu.left ▸ le_sub_saturatingAdd hn _ 1
    · exact hu.right ▸ le_sub_saturatingAdd hb _ size
  case renewed a₁ size h₁ _ =>
    cases h₁.symm.trans ha
    simp only [Deed.uses, if_pos] at hu
    refine ⟨_, hx, he, ⟨saturatingAdd_le, hi.transactionsAllowance, hi.bytes, hi.bytesAllowance⟩, ?_, ?_⟩
    · exact hu.left ▸ le_sub_saturatingAdd hn _ 1
    · exact hu.right ▸ hb
  case opened hn =>
    rw [hn] at ha
    contradiction
  case added a₁ transactions bytes _ h₁ =>
    cases h₁.symm.trans ha
    simp only [Deed.uses, Nat.add_zero] at hu
    refine ⟨_, hx, he, ⟨hi.transactions, saturatingAdd_le, hi.bytes, saturatingAdd_le⟩, ?_, ?_⟩
    · exact hu.left ▸ le_saturatingAdd_sub hn hi.transactionsAllowance _
    · exact hu.right ▸ le_saturatingAdd_sub hb hi.bytesAllowance _
  case refreshed => exact absurd (decide_eq_true rfl) hr
  case removed a₁ h₁ h₂ =>
    cases h₁.symm.trans hl
    simp [Authorization.expired, he] at h₂
    omega

-- Without grants and refreshes an authorization ends when it did before.
theorem ends_does {t : Authorization → Prop} {now : Nat}
    (h : ∀ a, g.authorizations.lookup (.account who) = some a → t a)
    (ht : ∀ a a', a'.expiration = a.expiration → t a → t a') (hd : Deed.Does now g d g')
    (hg : ¬d.grants (.account who)) (hr : ¬d.refreshes (.account who)) :
    ∀ a, g'.authorizations.lookup (.account who) = some a → t a := by
  intro a' ha
  have hm := hd.moves (.account who)
  rw [ha] at hm
  generalize hx : some a' = x at hm
  cases hm
  case aside => exact h a' hx.symm
  case stored a _ h₁ => cases hx; exact ht a _ rfl (h a (active_eq_some.mp h₁).left)
  case renewed a _ h₁ _ => cases hx; exact ht a _ rfl (h a (active_eq_some.mp h₁).left)
  case opened | added => exact absurd (decide_eq_true rfl) hg
  case refreshed => exact absurd (decide_eq_true rfl) hr
  case removed => cases hx

end Access

namespace Chain

variable {guard : Chain T → Action T → Prop} {c c' : Chain T} {as : List (Action T)} {who : T.AccountId}

theorem runs_blockNumber_le (r : Runs Chain.step guard c as c') :
    c.state.blockNumber ≤ c'.state.blockNumber :=
  runs_history (I := fun now _ _ => c.state.blockNumber ≤ now) le_rfl (fun h _ => h)
    (fun h _ => Nat.le_succ_of_le h) r

-- What is left of a budget after a run, until the authorization ends.
theorem runs_affords (h : c.state.access.Affords who t n b ⟨0, 0⟩ a) (r : Runs Chain.step guard c as c')
    (hr : ∀ x ∈ c.history as, ¬x.2.refreshes (.account who)) (ht : c'.state.blockNumber < t) :
    ∃ a', c'.state.access.Affords who t n b (usedOf (.account who) (c.history as)) a' := by
  let I (now : Nat) (g : Access T) (log : List (Nat × Deed T)) : Prop :=
    (∀ x ∈ log, ¬x.2.refreshes (.account who)) → now < t →
      ∃ a', g.Affords who t n b (usedOf (.account who) log) a'
  refine runs_history (I := I) (fun _ _ => ⟨a, h⟩) ?_ (fun h _ hr ht => h hr (Nat.lt_of_succ_lt ht)) r hr ht
  intro now g d g' log hi hd hr ht
  obtain ⟨a', ha⟩ := hi (fun x hx => hr x (List.mem_append_left _ hx)) ht
  exact ha.does ht hd (hr (now, d) (List.mem_append_right _ (List.mem_singleton_self _)))

-- An authorization that ends by the time of the last block, and is neither added to nor refreshed, is of
-- no use then.
theorem runs_ended (h : ∀ a, c.state.authorizations.lookup (.account who) = some a →
      a.expiration ≤ c'.state.blockNumber) (r : Runs Chain.step guard c as c')
    (hq : ∀ x ∈ c.history as, ¬x.2.grants (.account who) ∧ ¬x.2.refreshes (.account who)) :
    c'.state.activeAuthorization (.account who) = none := by
  let I (_ : Nat) (g : Access T) (log : List (Nat × Deed T)) : Prop :=
    (∀ x ∈ log, ¬x.2.grants (.account who) ∧ ¬x.2.refreshes (.account who)) →
      ∀ a, g.authorizations.lookup (.account who) = some a → a.expiration ≤ c'.state.blockNumber
  have hi : I c'.state.blockNumber c'.state.access (c.history as) := by
    refine runs_history (I := I) (fun _ => h) ?_ (fun h _ => h) r
    intro now g d g' log hi hd hq
    have hx := hq (now, d) (List.mem_append_right _ (List.mem_singleton_self _))
    exact ends_does (hi fun x hx => hq x (List.mem_append_left _ hx)) (fun _ _ he ht => he ▸ ht) hd
      hx.left hx.right
  cases ha : c'.state.activeAuthorization (.account who)
  case none => rfl
  case some a =>
    have hl := State.lookup_of_active ha
    simpa [Authorization.expired, Nat.not_lt.mpr (hi hq a hl.left)] using hl.right

end Chain

-- An authorization that is overdrawn by a store stays so, or ends, unless there is a grant.
theorem BoostStrategy.Lawful.runs_overdrawn {B : BoostStrategy} (hB : B.Lawful)
    {guard : Chain T → Action T → Prop} {c c' : Chain T} {as : List (Action T)} {who : T.AccountId}
    (r : Runs Chain.step guard c as c') (ha : c.state.activeAuthorization (.account who) = some a)
    (hr : a.extent.InRange) (ho : (a.extent.stored size).Overdrawn)
    (hg : ∀ x ∈ c.history as, ¬x.2.grants (.account who)) :
    AllowanceBasedPriority.priority B c'.state (.authorized who (.account who)) size = some 0 := by
  have hw : c.state.access.Within (.account who) a.extent := by
    intro a' ha'
    cases (State.lookup_of_active ha).left.symm.trans ha'
    exact ⟨.refl _, hr⟩
  have hw := Chain.runs_within hw r fun x hx _ _ _ _ he =>
    hg x hx (he ▸ decide_eq_true rfl)
  rw [AllowanceBasedPriority.priority_account, State.accountAuthorizationExtent]
  obtain he | ⟨a', ha', he⟩ := c'.state.authorizationExtent_cases (.account who)
  case inl =>
    rw [he]
    exact hB.overdrawn (AuthorizationExtent.default_inRange.stored size) (.inr (.inr rfl))
  case inr =>
    obtain ⟨ht, hr'⟩ := hw a' ha'
    rw [he]
    exact hB.overdrawn (hr'.stored size) ((ht.stored size).overdrawn ho)

namespace Verdict

variable {s : State T} {who : T.AccountId} {call : TransactionStorage.Call T}

-- A store of a content that has no authorization of its own is decided by that of the signer.
theorem storageSigned_account (hc : call.content = some (data, hashing)) (hs : dataSizeOk T data.len)
    (hf : s.HasRoom) (hp : s.activeAuthorization (.preimage (T.hash hashing data.bytes)) = none) :
    storageSigned s who call = storeWith s (.account who) data.len := by
  have hr : sizeAndRoom s data.len = ok () := sizeAndRoom_eq_ok.mpr ⟨hs, hf⟩
  have hn : storeWith s (.preimage (T.hash hashing data.bytes)) data.len = error .payment := by
    rw [storeWith, hp]
    rfl
  cases call
  case store | storeWithCidConfig =>
    cases hc
    simp only [storageSigned, storeSigned, hr, hn, orElse]
    rfl
  all_goals cases hc

theorem admission_store (hc : call.content = some (data, hashing)) (hs : dataSizeOk T data.len)
    (hf : s.HasRoom) (hp : s.activeAuthorization (.preimage (T.hash hashing data.bytes)) = none) :
    ((Extrinsic.signed who (.transactionStorage call)).admission s).1 =
      match s.activeAuthorization (.account who) with
      | some _ => ok (.authorized who (.account who))
      | none   => error .payment := by
  rw [Extrinsic.admission_signed, tree_storage, storageSigned_account hc hs hf hp, storeWith]
  cases s.activeAuthorization (.account who) <;> rfl

end Verdict

namespace RustSdk

def StoredAuthorization.of (a : Authorization) : StoredAuthorization :=
  ⟨a.extent.transactions, a.extent.transactionsAllowance, a.extent.bytes, a.extent.extra.bytesPermanent,
    a.extent.bytesAllowance, a.expiration⟩

theorem inRange_of_valid {a : Authorization} (h : Authorization.codec.Valid a) : a.extent.InRange := by
  obtain ⟨⟨ht, hta, hb, _, hba⟩, _⟩ := h
  exact ⟨Nat.le_pred_of_lt ht, Nat.le_pred_of_lt hta, Nat.le_pred_of_lt hb, Nat.le_pred_of_lt hba⟩

-- The names of the fields are not in the bytes.
theorem StoredAuthorization.read_encode {a : Authorization} (h : Authorization.codec.Valid a) :
    codec.read (Authorization.codec.encode a) = some (of a) := by
  have he : Authorization.codec.encode a = codec.encode (of a) := by
    simp [Authorization.codec, AuthorizationExtent.codec, codec, Scale.Codec.iso, Scale.Codec.pair, of]
  have hv : codec.Valid (of a) := by
    simpa [Authorization.codec, AuthorizationExtent.codec, codec, Scale.Codec.iso, Scale.Codec.pair,
      of, and_assoc] using h
  rw [he, Scale.Codec.read_encode hv]

-- The client is connected to a node whose latest block is the last one of the chain.
structure OnlineClient.Reads (api : OnlineClient T) (c : Chain T) (who : T.AccountId) : Prop where
  valid : ∀ a, c.state.authorizations.lookup (.account who) = some a → Authorization.codec.Valid a
  raw   : ∃ key block, api.addressBytes (.account who) = ok key ∧ api.atLatest = ok block ∧
    block.number = c.state.blockNumber ∧
    block.fetchRaw key =
      ok ((c.state.authorizations.lookup (.account who)).map Authorization.codec.encode)

namespace TransactionClient

variable {api : OnlineClient T} {c : Chain T} {who : T.AccountId} {n b : Nat}

theorem queryAccountAuthorization_eq (h : api.Reads c who) :
    queryAccountAuthorization api who = ok ((c.state.activeAuthorization (.account who)).map fun a =>
      (a.extent.transactionsAllowance - a.extent.transactions,
        a.extent.bytesAllowance - a.extent.bytes)) := by
  obtain ⟨key, block, hk, hb, hn, hf⟩ := h.raw
  refine bind_eq_ok.mpr ⟨key, mapError_eq_ok.mpr hk, ?_⟩
  refine bind_eq_ok.mpr ⟨block, mapError_eq_ok.mpr hb, ?_⟩
  refine bind_eq_ok.mpr ⟨_, mapError_eq_ok.mpr hf, ?_⟩
  simp only [State.activeAuthorization_eq]
  cases hl : c.state.authorizations.lookup (.account who)
  case none => rfl
  case some a =>
    refine bind_eq_ok.mpr ⟨_, okOr_eq_ok.mpr (StoredAuthorization.read_encode (h.valid a hl)), ?_⟩
    by_cases he : a.expiration ≤ c.state.blockNumber
    · simp [StoredAuthorization.of, Authorization.expired, hn, he]
      rfl
    · simp [StoredAuthorization.of, Authorization.expired, hn, he]
      rfl

theorem checkAuthorizationForStore_eq (h : api.Reads c who) :
    checkAuthorizationForStore api who n b = match c.state.activeAuthorization (.account who) with
      | some a => AuthorizationManager.checkAuthorization
        ⟨a.extent.transactionsAllowance - a.extent.transactions,
          a.extent.bytesAllowance - a.extent.bytes⟩ b n
      | none   => error (.authorizationNotFound (api.display who)) := by
  rw [checkAuthorizationForStore, queryAccountAuthorization_eq h]
  cases c.state.activeAuthorization (.account who) <;> rfl

theorem checkAuthorization_eq_ok {available : Available} :
    AuthorizationManager.checkAuthorization available b n = ok u ↔
      n ≤ available.transactions ∧ b ≤ available.maxSize := by
  simp [AuthorizationManager.checkAuthorization, bind_eq_ok, ensure_eq_ok]

-- A check that passes, or that fails for what it asks for.

theorem checkAuthorizationForStore_eq_ok (h : api.Reads c who) :
    checkAuthorizationForStore api who n b = ok u ↔
      ∃ a, c.state.activeAuthorization (.account who) = some a ∧
        n ≤ a.extent.transactionsAllowance - a.extent.transactions ∧
        b ≤ a.extent.bytesAllowance - a.extent.bytes := by
  rw [checkAuthorizationForStore_eq h]
  cases c.state.activeAuthorization (.account who)
  case none   => simp
  case some a => simpa using checkAuthorization_eq_ok

theorem checkAuthorizationForStore_notFound (h : api.Reads c who)
    (he : checkAuthorizationForStore api who n b = error (.authorizationNotFound w)) :
    c.state.activeAuthorization (.account who) = none := by
  rw [checkAuthorizationForStore_eq h] at he
  cases ha : c.state.activeAuthorization (.account who)
  case none => rfl
  case some a =>
    rw [ha] at he
    simp only [AuthorizationManager.checkAuthorization, ensure] at he
    split at he
    case isFalse => cases he
    case isTrue =>
      rw [ok_bind] at he
      split at he <;> cases he

theorem checkAuthorizationForStore_insufficient (h : api.Reads c who)
    (he : checkAuthorizationForStore api who n b = error (.insufficientAuthorization need available)) :
    ∃ a, c.state.activeAuthorization (.account who) = some a ∧
      ¬(n ≤ a.extent.transactionsAllowance - a.extent.transactions ∧
        b ≤ a.extent.bytesAllowance - a.extent.bytes) := by
  have hn := (checkAuthorizationForStore_eq_ok (n := n) (b := b) (u := ()) h).not.mp (by simp [he])
  rw [checkAuthorizationForStore_eq h] at he
  cases ha : c.state.activeAuthorization (.account who)
  case none =>
    rw [ha] at he
    cases he
  case some a => exact ⟨a, rfl, fun hb => hn ⟨a, ha, hb⟩⟩

-- A store that is one too many, or too long, for an extent is out of budget ever after.
theorem overdrawn_of_insufficient {a : Authorization} {size : Nat}
    (ht : a.extent.transactionsAllowance < u32Max) (hb : a.extent.bytesAllowance < u64Max)
    (h : ¬(1 ≤ a.extent.transactionsAllowance - a.extent.transactions ∧
      size ≤ a.extent.bytesAllowance - a.extent.bytes)) : (a.extent.stored size).Overdrawn := by
  rw [AuthorizationExtent.Overdrawn, AuthorizationExtent.stored, ← or_assoc]
  refine .inl ?_
  by_contra hn
  rw [not_or, saturatingAdd_not_gt_iff hb, saturatingAdd_not_gt_iff ht] at hn
  omega

theorem inBudget_of_affords {g : Access T} {used : Quota} {size : Nat} (h : g.Affords who t n b used a)
    (hs : 0 < size) (ht : used.transactions + 1 ≤ n) (hb : used.bytes + size ≤ b) :
    (a.extent.stored size).inBudget := by
  have hn := h.transactions
  have hm := h.bytes
  have h₁ : saturatingAdd u32Max a.extent.transactions 1 ≤ a.extent.transactionsAllowance :=
    (Nat.min_le_left ..).trans (by omega)
  have h₂ : saturatingAdd u64Max a.extent.bytes size ≤ a.extent.bytesAllowance :=
    (Nat.min_le_left ..).trans (by omega)
  rw [AuthorizationExtent.inBudget_iff, AuthorizationExtent.Overdrawn, not_or, not_or]
  exact ⟨Nat.not_lt.mpr h₂, Nat.not_lt.mpr h₁, by simp only [AuthorizationExtent.stored]; omega⟩

end TransactionClient

open TransactionClient

-- What the check before a store foretells, whatever happens on the chain in between. If it passes for
-- some transactions and bytes then each store of the account within them is admitted and boosted, until
-- the authorization ends. If there is too little for a store then it is not boosted, unless there is a
-- grant. And what has no authorization, or one that has ended when the store is included, is refused,
-- although the check passes for one that ends with the next block.
theorem preflight_foretells {guard : Chain T → Action T → Prop} {api : OnlineClient T} {c c' : Chain T}
    {as : List (Action T)} {who : T.AccountId} {call : TransactionStorage.Call T}
    (ha : api.Reads c who) (r : Runs Chain.step guard c as c')
    (hc : call.content = some (data, hashing)) (hs : dataSizeOk T data.len) (hf : c'.state.HasRoom)
    (hp : c'.state.activeAuthorization (.preimage (T.hash hashing data.bytes)) = none) :
    let check := checkAuthorizationForStore api who
    let used := usedOf (.account who) (c.history as)
    let admission := ((Extrinsic.signed who (.transactionStorage call)).admission c'.state).1
    let boost (B : BoostStrategy) :=
      AllowanceBasedPriority.priority B c'.state (.authorized who (.account who)) data.len
    let auth := c.state.authorizations.lookup (.account who)
    (∀ n b, check n b = ok () → (∀ a ∈ auth, c'.state.blockNumber < a.expiration) →
      (∀ x ∈ c.history as, ¬x.2.refreshes (.account who)) →
      used.transactions + 1 ≤ n → used.bytes + data.len ≤ b →
      admission = ok (.authorized who (.account who)) ∧
        boost FlatBoost.boost = some allowancePriorityBoost) ∧
    (∀ need available, check 1 data.len = error (.insufficientAuthorization need available) →
      (∀ a ∈ auth, a.extent.transactionsAllowance < u32Max ∧ a.extent.bytesAllowance < u64Max) →
      (∀ x ∈ c.history as, ¬x.2.grants (.account who)) →
      boost FlatBoost.boost = some 0 ∧ boost ProportionalBoost.boost = some 0) ∧
    ((∃ w, check 1 data.len = error (.authorizationNotFound w)) ∨
        (∀ a ∈ auth, a.expiration ≤ c'.state.blockNumber) →
      (∀ x ∈ c.history as, ¬x.2.grants (.account who) ∧ ¬x.2.refreshes (.account who)) →
      admission = error .payment) := by
  intro check used admission boost auth
  have hv (e : AuthorizationExtent) (B : BoostStrategy)
      (he : c'.state.accountAuthorizationExtent who = e) : boost B = B (e.stored data.len) :=
    he ▸ AllowanceBasedPriority.priority_account who who data.len
  refine ⟨fun n b h ht hr hn hb => ?_, fun need available h hm hg => ?_, fun h hq => ?_⟩
  · obtain ⟨a, hl, h₁, h₂⟩ := (checkAuthorizationForStore_eq_ok ha).mp h
    have hl := (State.lookup_of_active hl).left
    have hw : c.state.access.Affords who a.expiration n b ⟨0, 0⟩ a :=
      ⟨hl, rfl, inRange_of_valid (ha.valid a hl), h₁, h₂⟩
    obtain ⟨a', hw⟩ := Chain.runs_affords hw r hr (ht a hl)
    have hl' : c'.state.activeAuthorization (.account who) = some a' := by
      refine active_eq_some.mpr ⟨hw.lookup, ?_⟩
      simpa [Authorization.expired, hw.expiration] using ht a hl
    constructor
    · rw [show admission = _ from Verdict.admission_store hc hs hf hp, hl']
    · rw [hv _ _ (State.authorizationExtent_of_active hl'), FlatBoost.boost,
        if_pos (inBudget_of_affords hw (dataSizeOk_iff.mp hs).left hn hb)]
  · obtain ⟨a, hl, hn⟩ := checkAuthorizationForStore_insufficient ha h
    have hk := (State.lookup_of_active hl).left
    have ho := overdrawn_of_insufficient (hm a hk).left (hm a hk).right hn
    have hi := inRange_of_valid (ha.valid a hk)
    exact ⟨BoostStrategy.flat_lawful.runs_overdrawn r hl hi ho hg,
      BoostStrategy.proportional_lawful.runs_overdrawn r hl hi ho hg⟩
  · have he : ∀ a ∈ auth, a.expiration ≤ c'.state.blockNumber := by
      cases h
      case inl h =>
        obtain ⟨w, h⟩ := h
        have hn := checkAuthorizationForStore_notFound ha h
        intro a hl
        have hb := Chain.runs_blockNumber_le r
        rw [State.activeAuthorization_eq, show c.state.authorizations.lookup _ = _ from hl] at hn
        simp [Authorization.expired] at hn
        exact hn.trans hb
      case inr h => exact h
    rw [show admission = _ from Verdict.admission_store hc hs hf hp, Chain.runs_ended he r hq]

-- Account 7 has a budget of three bytes at genesis, and stores three in the first block.
theorem preflight_foretells_storing :
    let g : GenesisConfig .mock := ⟨3, [], [((7 : Nat), 2, 3)], []⟩
    let raw := (g.build.authorizations.lookup (.account (7 : Nat))).map Authorization.codec.encode
    let api : OnlineClient .mock := {
      addressBytes _             := ok []
      atLatest                   := ok ⟨0, fun _ => ok raw⟩
      bestBlock                  := ok none
      signAndSubmitThenWatch _ _ := fun _ => ok []
      display _                  := ""
      decodeError _              := "" }
    let call : TransactionStorage.Call .mock := .store ⟨[1, 2, 3], by decide⟩
    ∃ c' : Chain .mock, Runs Chain.step (fun _ _ => true) g.chain [.onInitialize [] 0] c' ∧
      checkAuthorizationForStore api (7 : Nat) 1 3 = ok () ∧
      ((Extrinsic.signed (7 : Nat) (.transactionStorage call)).admission c'.state).1 =
        ok (.authorized (7 : Nat) (.account (7 : Nat))) := by
  intro g raw api call
  obtain ⟨c', r, hf⟩ := Runs.exists_of_any Chain.step (fun _ _ => true) g.chain [.onInitialize [] 0]
    (fun c' => c'.state.HasRoom ∧ (c'.state.activeAuthorization
      (.preimage (Config.mock.hash .blake2b256 [1, 2, 3]))).isNone ∧ c'.state.blockNumber = 1)
    (by decide +kernel)
  have hl : g.build.authorizations.lookup (.account (7 : Nat)) =
      some (State.freshAuthorization 2 3 Config.mock.authorizationPeriod) := rfl
  have ha : api.Reads g.chain (7 : Nat) := by
    refine ⟨fun a ha => ?_, [], _, rfl, rfl, rfl, rfl⟩
    cases hl.symm.trans ha
    have h₀ : 0 < 256 ^ 8 := by decide
    have h₂ : 2 < 256 ^ 4 := by decide
    exact ⟨⟨Nat.zero_lt_of_lt h₂, h₂, h₀, h₀, (by decide : 3 < 256 ^ 8)⟩, (by decide : 10 < 256 ^ 4)⟩
  have hk : checkAuthorizationForStore api (7 : Nat) 1 3 = ok () := by
    rw [checkAuthorizationForStore_eq_ok ha]
    exact ⟨_, rfl, by decide, by decide⟩
  have hc : call.content = some (⟨[1, 2, 3], by decide⟩, .blake2b256) := rfl
  have h := (preflight_foretells ha r hc (by decide) hf.left
    (Option.isNone_iff_eq_none.mp hf.right.left)).left 1 3 hk
  refine ⟨c', r, hk, (h (fun a ha => ?_) ?_ ?_ ?_).left⟩
  · cases hl.symm.trans ha
    rw [hf.right.right]
    decide
  all_goals decide +kernel

end RustSdk
end Bulletin
