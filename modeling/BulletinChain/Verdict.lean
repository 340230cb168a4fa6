import BulletinChain.Runtime.Extension

namespace Bulletin

open Machine Except

variable {T : Config}

-- What the checks before a dispatch are for, apart from the context they run in: whether a call may go
-- ahead in a state and, if so, which authorization pays for it.

-- What admitting a call consumes.
inductive Charge (T : Config)
  | nothing
  | store (scope : AuthorizationScope T) (a : Authorization) (size : Nat)
  | renew (scope : AuthorizationScope T) (a : Authorization) (size : Nat)

structure Verdict (T : Config) where
  -- The scope that the origin is rewritten with.
  scope  : Option (AuthorizationScope T)
  charge : Charge T

namespace State

def withAuthorization (s : State T) (scope : AuthorizationScope T) (a : Authorization) : State T :=
  { s with authorizations := s.authorizations.insert scope a }

-- `get_active_authorization`
def activeAuthorization (s : State T) (scope : AuthorizationScope T) : Option Authorization :=
  (s.authorizations.lookup scope).filter (!·.expired s.blockNumber)

-- An active authorization with room for `size` more permanent bytes, on a chain that has room too.
def renewable (s : State T) (scope : AuthorizationScope T) (size : Nat) :
    Except InvalidTransaction Authorization := do
  let a ← okOr (s.activeAuthorization scope) .payment
  ensure (saturatingAdd u64Max a.extent.extra.bytesPermanent size ≤ a.extent.bytesAllowance)
    .permanentAllowanceExceeded
  ensure (saturatingAdd u64Max s.permanentStorageUsed size ≤ T.maxPermanentStorageSize)
    .chainPermanentCapReached
  return a

end State

namespace Charge

def apply (s : State T) : Charge T → State T
  | nothing            => s
  | store scope a size => s.withAuthorization scope (TransactionStorage.charged a size)
  | renew scope a size =>
    s.withAuthorization scope (DataRenewal.charged a size)
      |>.updatePermanentStorageUsed (saturatingAdd u64Max · size)

end Charge

namespace Verdict

def free : Verdict T :=
  ⟨none, .nothing⟩

def sizeAndRoom (s : State T) (size : Nat) : Except InvalidTransaction Unit := do
  ensure (dataSizeOk T size) .badDataSize
  ensure (¬s.blockTransactionsFull) .exhaustsResources

def storeWith (s : State T) (scope : AuthorizationScope T) (size : Nat) :
    Except InvalidTransaction (Verdict T) := do
  let a ← okOr (s.activeAuthorization scope) .payment
  return ⟨some scope, .store scope a size⟩

def renewWith (s : State T) (scope : AuthorizationScope T) (size : Nat) :
    Except InvalidTransaction (Verdict T) := do
  let a ← s.renewable scope size
  return ⟨some scope, .renew scope a size⟩

-- The scope of the content is preferred to that of the signer.
def orElse (x y : Except InvalidTransaction (Verdict T)) : Except InvalidTransaction (Verdict T) :=
  match x with
  | ok v    => ok v
  | error _ => y

def storeSigned (s : State T) (who : T.AccountId) (size : Nat) (contentHash : T.ContentHash) :
    Except InvalidTransaction (Verdict T) := do
  sizeAndRoom s size
  orElse (storeWith s (.preimage contentHash) size) (storeWith s (.account who) size)

def storeUnsigned (s : State T) (size : Nat) (contentHash : T.ContentHash) :
    Except InvalidTransaction (Verdict T) := do
  sizeAndRoom s size
  storeWith s (.preimage contentHash) size

def storageSigned (s : State T) (who : T.AccountId) :
    TransactionStorage.Call T → Except InvalidTransaction (Verdict T)
  | .store data                  => storeSigned s who data.len (T.hash .blake2b256 data.bytes)
  | .storeWithCidConfig cid data => storeSigned s who data.len (T.hash cid.hashing data.bytes)
  | .authorizeAccount .. | .authorizePreimage .. | .refreshAccountAuthorization ..
  | .refreshPreimageAuthorization .. => do
    ensure (s.ensureAuthorizer (.signed who)).isSome .badSigner
    return free
  | .addAuthorizer .. | .removeAuthorizer .. => return free
  | _ => throw .call

def expired (s : State T) (scope : AuthorizationScope T) : Except InvalidTransaction Unit := do
  let a ← okOr (s.authorizations.lookup scope) .authorizationNotFound
  ensure (a.expired s.blockNumber) .authorizationNotExpired

def inactive (s : State T) (who : T.AccountId) : Except InvalidTransaction Unit := do
  let budget ← okOr (s.allowedAuthorizers.lookup who) .authorizerNotFound
  ensure (budget.isInactive s.blockNumber) .authorizationNotExhausted

def storageUnsigned (s : State T) :
    TransactionStorage.Call T → Except InvalidTransaction (Verdict T)
  | .store data                  => storeUnsigned s data.len (T.hash .blake2b256 data.bytes)
  | .storeWithCidConfig cid data => storeUnsigned s data.len (T.hash cid.hashing data.bytes)
  | .removeExpiredAccountAuthorization who => do
    expired s (.account who)
    return free
  | .removeExpiredPreimageAuthorization contentHash => do
    expired s (.preimage contentHash)
    return free
  | .removeExhaustedAuthorizer who => do
    inactive s who
    return free
  | .applyBlockInherents _ => return free
  | _                      => throw .call

def resolved (s : State T) (entry : TransactionRef T) :
    Except InvalidTransaction (TransactionInfo T) :=
  okOr (s.resolveTransactionRef entry) .renewedNotFound

def notRegistered (s : State T) (contentHash : T.ContentHash) : Except InvalidTransaction Unit :=
  ensure (s.renewals.lookup contentHash).isNone .renewalAlreadyEnabled

def mayDisable (s : State T) (who : T.AccountId) (contentHash : T.ContentHash) :
    Except InvalidTransaction Unit := do
  let renewalData ← okOr (s.renewals.lookup contentHash) .autoRenewalNotEnabled
  ensure (renewalData.account = who) .notAutoRenewalOwner
  ensure (¬renewalData.paid) .cannotDisablePrepaidAutoRenewal

def renewalSigned (s : State T) (who : T.AccountId) :
    DataRenewal.Call T → Except InvalidTransaction (Verdict T)
  | .renew entry => do
    let info ← resolved s entry
    notRegistered s info.contentHash
    renewWith s (.account who) info.size
  | .forceRenew entry => do
    let info ← resolved s entry
    sizeAndRoom s info.size
    orElse (renewWith s (.preimage info.contentHash) info.size)
      (renewWith s (.account who) info.size)
  | .enableAutoRenew contentHash => do
    notRegistered s contentHash
    let info ← resolved s (.contentHash contentHash)
    renewWith s (.account who) info.size
  | .disableAutoRenew contentHash => do
    mayDisable s who contentHash
    return ⟨some (.account who), .nothing⟩
  | .processPendingRenewals => throw .call

def renewalUnsigned (s : State T) :
    DataRenewal.Call T → Except InvalidTransaction (Verdict T)
  | .forceRenew entry => do
    let info ← resolved s entry
    sizeAndRoom s info.size
    renewWith s (.preimage info.contentHash) info.size
  | .processPendingRenewals => return free
  | _ => throw .call

-- The two pallets' verdicts on a node of a call tree.

def storageLeaf (s : State T) (who : T.AccountId) (depth : Nat) (call : TransactionStorage.Call T) :
    Except InvalidTransaction (Verdict T) := do
  ensure (¬(0 < depth ∧ call.isStore)) .call
  storageSigned s who call

def renewalLeaf (s : State T) (who : T.AccountId) (depth : Nat) (call : DataRenewal.Call T) :
    Except InvalidTransaction (Verdict T) := do
  ensure (¬0 < depth) .call
  renewalSigned s who call

-- `none` if neither claims the node.
def leaf (s : State T) (who : T.AccountId) (depth : Nat) :
    RuntimeCall T → Except InvalidTransaction (Option (Verdict T))
  | .transactionStorage call => (storageLeaf s who depth call).map some
  | .dataRenewal call        => (renewalLeaf s who depth call).map some
  | _                        => ok none

-- The verdict on the inner calls of a wrapper, with `left` levels to go.
def inner (s : State T) (who : T.AccountId) (left : Nat) (call : RuntimeCall T) :
    Except InvalidTransaction Unit := do
  match ← leaf s who (maxWrapperDepth - left) call with
  | some _ => return
  | none   =>
    match left with
    | 0        => throw .call
    | left + 1 =>
      match call.inspectWrapper with
      | some innerCalls => innerCalls.forM (inner s who left)
      | none            => return

def tree (s : State T) (who : T.AccountId) (call : RuntimeCall T) :
    Except InvalidTransaction (Verdict T) := do
  match ← leaf s who 0 call with
  | some v => return v
  | none   =>
    match call.inspectWrapper with
    | some innerCalls => innerCalls.forM (inner s who (maxWrapperDepth - 1))
    | none            => pure ()
    return free

-- The origin that the call of a signed extrinsic is dispatched with.
def origin (v : Verdict T) (who : T.AccountId) : Origin T :=
  match v.scope with
  | some scope => .authorized who scope
  | none       => .signed who

end Verdict

-- A check carries out a verdict: it fails as the verdict does, leaving the state alone, and otherwise
-- returns what `post` says and consumes the charge of the verdict if the context says so.
def CarriesOut (check : Check.Of T α) (context : CheckContext) (s : State T)
    (verdict : Except InvalidTransaction (Verdict T)) (post : Verdict T → α → Prop) : Prop :=
  match verdict with
  | error e => check s = (error e, s)
  | ok v    => ∃ a, post v a ∧
    check s = (ok a, if context.consumeAuthorization then v.charge.apply s else s)

namespace CarriesOut

variable {s : State T} {context : CheckContext} {verdict : Except InvalidTransaction (Verdict T)}
  {α β : Type} {post : Verdict T → α → Prop}

theorem fail : CarriesOut (throw e : Check.Of T α) context s (error e) post :=
  rfl

-- A verdict that charges nothing needs no more than the value to return.
theorem free {scope : Option (AuthorizationScope T)} (h : post ⟨scope, .nothing⟩ a) :
    CarriesOut (pure a : Check.Of T α) context s (ok ⟨scope, .nothing⟩) post :=
  ⟨a, h, by cases context <;> rfl⟩

theorem reading_bind {f : State T → Except InvalidTransaction α} {g : α → Check.Of T β}
    {v : α → Except InvalidTransaction (Verdict T)}
    {post : Verdict T → β → Prop} (h : ∀ a, f s = ok a → CarriesOut (g a) context s (v a) post) :
    CarriesOut (Check.reading f >>= g) context s (f s >>= v) post := by
  cases hf : f s
  case error => simp [CarriesOut, Check.bind_apply, Check.reading_apply, hf]
  case ok a  =>
    have h := h a hf
    simpa only [CarriesOut, Check.bind_apply, Check.reading_apply, hf, ok_bind] using h

theorem succeeds_iff {check : Check.Of T α} (h : CarriesOut check context s verdict post) :
    check.Succeeds s ↔ ∃ v, verdict = ok v := by
  cases verdict
  case error =>
    simp only [CarriesOut] at h
    simp [Check.Succeeds, h, Except.isOk, Except.toBool]
  case ok v =>
    have ⟨a, _, h⟩ := h
    simp [Check.Succeeds, h, Except.isOk, Except.toBool]

theorem mono {check : Check.Of T α} {post' : Verdict T → α → Prop}
    (h : CarriesOut check context s verdict post) (hp : ∀ v a, post v a → post' v a) :
    CarriesOut check context s verdict post' := by
  cases verdict
  case error => exact h
  case ok v  =>
    have ⟨a, ha, hc⟩ := h
    exact ⟨a, hp v a ha, hc⟩

theorem andThen {check : Check.Of T α} {g : α → Check.Of T β} {post' : Verdict T → β → Prop}
    (h : CarriesOut check context s verdict post)
    (hg : ∀ v a s', post v a → ∃ b, post' v b ∧ g a s' = (ok b, s')) :
    CarriesOut (check >>= g) context s verdict post' := by
  cases verdict
  case error =>
    simp only [CarriesOut] at h
    simp [CarriesOut, Check.bind_apply, h]
  case ok v =>
    have ⟨a, ha, hc⟩ := h
    have ⟨b, hb, hs⟩ := hg v a (if context.consumeAuthorization then v.charge.apply s else s) ha
    exact ⟨b, hb, by simp [Check.bind_apply, hc, hs]⟩

theorem map {check : Check.Of T α} {g : α → β} {post' : Verdict T → β → Prop}
    (h : CarriesOut check context s verdict post) (hp : ∀ v a, post v a → post' v (g a)) :
    CarriesOut (check >>= fun a => pure (g a)) context s verdict post' :=
  h.andThen fun v a _ ha => ⟨g a, hp v a ha, rfl⟩

-- Attempt one check and fall back to another. The failed attempt leaves no trace.
theorem orElse {x y : Check.Of T Unit} {vx vy : Except InvalidTransaction (Verdict T)} {a b : α}
    (hx : CarriesOut x context s vx fun v _ => post v a)
    (hy : CarriesOut y context s vy fun v _ => post v b) :
    CarriesOut (do
      match ← x.isOk with
      | true  => return a
      | false =>
        y
        return b) context s (Verdict.orElse vx vy) post := by
  cases vx
  case error =>
    have hy : CarriesOut (y >>= fun _ => pure b) context s vy post := hy.map fun _ _ h => h
    simp only [CarriesOut] at hx
    simpa only [CarriesOut, Verdict.orElse, Check.bind_apply, Check.isOk, hx] using hy
  case ok v =>
    obtain ⟨_, hp, hc⟩ := hx
    exact ⟨a, hp, by simp [Check.bind_apply, Check.isOk, hc, Check.pure_apply]⟩

end CarriesOut
end Bulletin
