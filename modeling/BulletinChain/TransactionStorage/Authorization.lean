import BulletinChain.State
import BulletinChain.Lib.Except

namespace Bulletin

open Machine Except

namespace Authorization

def expired (a : Authorization) (now : Nat) : Bool :=
  a.expiration ≤ now

end Authorization

namespace AuthorizerBudget

def isExhausted (b : AuthorizerBudget) : Bool :=
  b.quota.any fun q => q.transactions = 0 || q.bytes = 0

def isExpired (b : AuthorizerBudget) (now : Nat) : Bool :=
  b.validUntil.any (· ≤ now)

def isInactive (b : AuthorizerBudget) (now : Nat) : Bool :=
  b.isExhausted || b.isExpired now

-- No quota is unlimited. Both axes are checked before either is lowered.
def tryConsume (b : AuthorizerBudget) (transactions bytes : Nat) : Option AuthorizerBudget :=
  match b.quota with
  | none   => some b
  | some q => do
    let newTx    ← checkedSub q.transactions transactions
    let newBytes ← checkedSub q.bytes bytes
    return { b with quota := some ⟨newTx, newBytes⟩ }

end AuthorizerBudget

namespace State

variable {T : Config}

def ensureAllowedAuthorizers (s : State T) (who : T.AccountId) :
    Option (Option (AuthorizationOrigin T)) :=
  match s.allowedAuthorizers.lookup who with
  | some b => if b.isExpired s.blockNumber then none else some (some ⟨who, b.validUntil, b.feeless⟩)
  | none   => none

-- `T::Authorizer::ensure_origin`: the origins that may authorize, with the budget they draw on.
def ensureAuthorizer (s : State T) : Origin T → Option (Option (AuthorizationOrigin T))
  | .root       => some none
  | .xcm l      => if T.isXcmAuthorizer l then some none else none
  | .signed who => if T.isListedAuthorizer who then some none else s.ensureAllowedAuthorizers who
  | _           => none

-- `T::AuthorizerRegistrarOrigin::ensure_origin`
def ensureRegistrar : Origin T → Except DispatchError Unit
  | .root => ok ()
  | _     => error .badOrigin

def incProviders (s : State T) (who : T.AccountId) : State T :=
  { s with providers := fun w => if w = who then s.providers w + 1 else s.providers w }

def decProviders (s : State T) (who : T.AccountId) : State T :=
  { s with providers := fun w => if w = who then s.providers w - 1 else s.providers w }

def authorizationAdded (s : State T) : AuthorizationScope T → State T
  | .account who => s.incProviders who
  | .preimage _  => s

def authorizationRemoved (s : State T) : AuthorizationScope T → State T
  | .account who => s.decProviders who
  | .preimage _  => s

-- A missing entry is a no-op.
def consumeAuthorizerBudget (s : State T) (who : T.AccountId) (transactions bytes : Nat) :
    Except DispatchError (State T) :=
  match s.allowedAuthorizers.lookup who with
  | none        => ok s
  | some budget =>
    match budget.tryConsume transactions bytes with
    | none   => error .insufficientAuthorizerBudget
    | some b => ok { s with allowedAuthorizers := s.allowedAuthorizers.insert who b }

-- Only an authorizer with a budget draws on one.
def consumeBudgetOf (s : State T) (auth : Option (AuthorizationOrigin T))
    (transactions bytes : Nat) : Except DispatchError (State T) :=
  match auth with
  | some ctx => s.consumeAuthorizerBudget ctx.authorizer transactions bytes
  | none     => ok s

def clampExpiration (expiration : Nat) (auth : Option (AuthorizationOrigin T)) : Nat :=
  match auth.bind (·.validUntil) with
  | some vu => min expiration vu
  | none    => expiration

-- An authorization created from nothing, or in place of an expired one.
def freshAuthorization (transactionsAllowance bytesAllowance expiration : Nat) : Authorization where
  extent     := ⟨0, transactionsAllowance, 0, ⟨0⟩, bytesAllowance⟩
  expiration := expiration

-- The entry that a grant leaves in place of an existing one.
def regrant (scope : AuthorizationScope T) (now transactionsAllowance bytesAllowance expiration : Nat)
    (a : Authorization) : Authorization :=
  if a.expired now then
    freshAuthorization transactionsAllowance bytesAllowance expiration
  else
    match scope with
    | .account _ => { a with extent := { a.extent with
        bytesAllowance        := saturatingAdd u64Max a.extent.bytesAllowance bytesAllowance
        transactionsAllowance := saturatingAdd u32Max a.extent.transactionsAllowance transactionsAllowance } }
    | .preimage _ => { a with extent := { a.extent with
        bytesAllowance        := bytesAllowance
        transactionsAllowance := transactionsAllowance } }

def authorize (s : State T) (scope : AuthorizationScope T)
    (transactionsAllowance bytesAllowance : Nat) (auth : Option (AuthorizationOrigin T)) :
    Except DispatchError (State T) := do
  let now := s.blockNumber
  let expiration := clampExpiration (saturatingAdd maxBlockNumber now T.authorizationPeriod) auth
  let s ← s.consumeBudgetOf auth transactionsAllowance bytesAllowance
  match s.authorizations.lookup scope with
  | some a =>
    let a := regrant scope now transactionsAllowance bytesAllowance expiration a
    return { s with authorizations := s.authorizations.insert scope a }
  | none =>
    let a := freshAuthorization transactionsAllowance bytesAllowance expiration
    return { s with authorizations := s.authorizations.insert scope a }.authorizationAdded scope

def refreshAuthorization (s : State T) (scope : AuthorizationScope T)
    (auth : Option (AuthorizationOrigin T)) : Except DispatchError (State T) := do
  let expiration :=
    clampExpiration (saturatingAdd maxBlockNumber s.blockNumber T.authorizationPeriod) auth
  match s.authorizations.lookup scope with
  | some a =>
    return { s with authorizations := s.authorizations.insert scope { a with expiration } }
  | none => throw .authorizationNotFound

def removeExpiredAuthorization (s : State T) (scope : AuthorizationScope T) :
    Except DispatchError (State T) := do
  let a ← okOr (s.authorizations.lookup scope) .authorizationNotFound
  ensure (a.expired s.blockNumber) .authorizationNotExpired
  return { s with authorizations := s.authorizations.erase scope }.authorizationRemoved scope

def accountHasActiveAuthorization (s : State T) (who : T.AccountId) : Bool :=
  (s.authorizations.lookup (.account who)).any fun a => !a.expired s.blockNumber

-- Whether the grants and the refreshes of an origin are exempt from fees. The free authorizers are not.
def isFeelessAuthorizer (s : State T) (origin : Origin T) : Bool :=
  match s.ensureAuthorizer origin with
  | some (some ctx) => ctx.feeless &&
    (s.allowedAuthorizers.lookup ctx.authorizer).any fun b => !b.isInactive s.blockNumber
  | _ => false

-- The management calls, each with its origin check and its event.

def authorizeAccount (s : State T) (origin : Origin T) (who : T.AccountId)
    (transactions bytes : Nat) : Except DispatchError (State T) := do
  let authorizer ← okOr (s.ensureAuthorizer origin) .badOrigin
  ensure (0 < bytes) .badDataSize
  let s ← s.authorize (.account who) transactions bytes authorizer
  return s.deposit (.accountAuthorized who transactions bytes)

def authorizePreimage (s : State T) (origin : Origin T) (contentHash : T.ContentHash)
    (maxSize : Nat) : Except DispatchError (State T) := do
  let authorizer ← okOr (s.ensureAuthorizer origin) .badOrigin
  ensure (0 < maxSize) .badDataSize
  let s ← s.authorize (.preimage contentHash) 1 maxSize authorizer
  return s.deposit (.preimageAuthorized contentHash maxSize)

def removeExpiredAccountAuthorization (s : State T) (who : T.AccountId) :
    Except DispatchError (State T) := do
  let s ← s.removeExpiredAuthorization (.account who)
  return s.deposit (.expiredAccountAuthorizationRemoved who)

def removeExpiredPreimageAuthorization (s : State T) (contentHash : T.ContentHash) :
    Except DispatchError (State T) := do
  let s ← s.removeExpiredAuthorization (.preimage contentHash)
  return s.deposit (.expiredPreimageAuthorizationRemoved contentHash)

def refreshAccountAuthorization (s : State T) (origin : Origin T) (who : T.AccountId) :
    Except DispatchError (State T) := do
  let authorizer ← okOr (s.ensureAuthorizer origin) .badOrigin
  let s ← s.refreshAuthorization (.account who) authorizer
  return s.deposit (.accountAuthorizationRefreshed who)

def refreshPreimageAuthorization (s : State T) (origin : Origin T) (contentHash : T.ContentHash) :
    Except DispatchError (State T) := do
  let authorizer ← okOr (s.ensureAuthorizer origin) .badOrigin
  let s ← s.refreshAuthorization (.preimage contentHash) authorizer
  return s.deposit (.preimageAuthorizationRefreshed contentHash)

def addAuthorizer (s : State T) (origin : Origin T) (who : T.AccountId) (budget : AuthorizerBudget) :
    Except DispatchError (State T) := do
  ensureRegistrar origin
  ensure (¬budget.isExpired s.blockNumber) .invalidValidUntil
  let isNew := (s.allowedAuthorizers.lookup who).isNone
  let s := { s with allowedAuthorizers := s.allowedAuthorizers.insert who budget }
  let s := if isNew then s.incProviders who else s
  return s.deposit (.authorizerAdded who)

def removeAuthorizer (s : State T) (origin : Origin T) (who : T.AccountId) :
    Except DispatchError (State T) := do
  ensureRegistrar origin
  match s.allowedAuthorizers.lookup who with
  | some _ =>
    let s := { s with allowedAuthorizers := s.allowedAuthorizers.erase who }
    return s.decProviders who |>.deposit (.authorizerRemoved who)
  | none => return s

def removeExhaustedAuthorizer (s : State T) (who : T.AccountId) :
    Except DispatchError (State T) := do
  let budget ← okOr (s.allowedAuthorizers.lookup who) .authorizerNotFound
  ensure (budget.isInactive s.blockNumber) .authorizerBudgetNotExhausted
  let s := { s with allowedAuthorizers := s.allowedAuthorizers.erase who }
  return s.decProviders who |>.deposit (.exhaustedAuthorizerRemoved who)

end State
end Bulletin
