import BulletinChain.TransactionStorage.Authorization
import BulletinChain.TransactionStorage.Proof

namespace Bulletin

open Machine Except

variable {T : Config}

namespace TransactionStorage

inductive Call (T : Config)
  | store (data : Data)
  | authorizeAccount (who : T.AccountId) (transactions bytes : Nat)
  | authorizePreimage (contentHash : T.ContentHash) (maxSize : Nat)
  | removeExpiredAccountAuthorization (who : T.AccountId)
  | removeExpiredPreimageAuthorization (contentHash : T.ContentHash)
  | refreshAccountAuthorization (who : T.AccountId)
  | refreshPreimageAuthorization (contentHash : T.ContentHash)
  | storeWithCidConfig (cid : CidConfig) (data : Data)
  | applyBlockInherents (proof : Option (TransactionStorageProof T))
  | addAuthorizer (who : T.AccountId) (budget : AuthorizerBudget)
  | removeAuthorizer (who : T.AccountId)
  | removeExhaustedAuthorizer (who : T.AccountId)

namespace Call

def isInherent : Call T → Bool
  | applyBlockInherents _ => true
  | _                     => false

-- The two calls that must be an extrinsic of their own.
def isStore : Call T → Bool
  | store _ | storeWithCidConfig _ _ => true
  | _                                => false

-- The data that a call stores, and the hashing of its content hash.
def content : Call T → Option (Data × HashingAlgorithm)
  | store data                  => some (data, .blake2b256)
  | storeWithCidConfig cid data => some (data, cid.hashing)
  | _                           => none

end Call
end TransactionStorage

def ensureNone : Origin T → Except DispatchError Unit
  | .none => ok ()
  | _     => error .badOrigin

def ensureAuthorized : Origin T → Except DispatchError (AuthorizedCaller T)
  | .authorized who scope => ok (.signed who scope)
  | .root                 => ok .root
  | .none                 => ok .unsigned
  | _                     => error .badOrigin

namespace State

def store (s : State T) (origin : Origin T) (data : Data) : Except DispatchError (State T) := do
  let _caller ← ensureAuthorized origin
  s.doStore data .blake2b256 rawCodec

def storeWithCidConfig (s : State T) (origin : Origin T) (cid : CidConfig) (data : Data) :
    Except DispatchError (State T) := do
  let _caller ← ensureAuthorized origin
  s.doStore data cid.hashing cid.codec

def applyBlockInherents (s : State T) (origin : Origin T)
    (proof : Option (TransactionStorageProof T)) : Except DispatchError (State T) := do
  ensureNone origin
  match proof with
  | some proof => s.doCheckProof proof
  | none       => return s

end State

-- The checks that come before a dispatch. In the validate context they must leave no trace, in the
-- pre-dispatch context they consume the authorization they find.

abbrev Check.Of (T : Config) := Check (State T) InvalidTransaction

namespace TransactionStorage

def charged (a : Authorization) (size : Nat) : Authorization :=
  { a with extent := { a.extent with
    bytes        := saturatingAdd u64Max a.extent.bytes size
    transactions := saturatingAdd u32Max a.extent.transactions 1 } }

def checkAuthorization (scope : AuthorizationScope T) (size : Nat) (consume : Bool) :
    Check.Of T Unit := fun s =>
  match s.authorizations.lookup scope with
  | none   => (error .payment, s)
  | some a =>
    if a.expired s.blockNumber then
      (error .payment, s)
    else if consume then
      (ok (), { s with authorizations := s.authorizations.insert scope (charged a size) })
    else
      (ok (), s)

def checkAuthorizationExpired (scope : AuthorizationScope T) : Check.Of T Unit :=
  .reading fun s => do
    let a ← okOr (s.authorizations.lookup scope) .authorizationNotFound
    ensure (a.expired s.blockNumber) .authorizationNotExpired

-- The guards of every call that appends an entry.
def checkSizeAndRoom (size : Nat) : Check.Of T Unit :=
  .reading fun s => do
    ensure (dataSizeOk T size) .badDataSize
    ensure (¬s.blockTransactionsFull) .exhaustsResources

-- `context.want_valid_transaction().then(..)`
def wanted (context : CheckContext) (v : ValidTransaction) : Option ValidTransaction :=
  if context.wantValidTransaction then some v else none

def checkStoreUnsigned (size : Nat) (contentHash : T.ContentHash) (context : CheckContext) :
    Check.Of T (Option ValidTransaction) := do
  checkSizeAndRoom size
  checkAuthorization (.preimage contentHash) size context.consumeAuthorization
  return wanted context (T.storeTxParams.provides (T.encodeContentHash contentHash))

def checkUnsigned (call : Call T) (context : CheckContext) :
    Check.Of T (Option ValidTransaction) :=
  match call with
  | .store data                  => checkStoreUnsigned data.len (T.hash .blake2b256 data.bytes) context
  | .storeWithCidConfig cid data => checkStoreUnsigned data.len (T.hash cid.hashing data.bytes) context
  | .removeExpiredAccountAuthorization who => do
    checkAuthorizationExpired (.account who)
    return wanted context
      (T.removeExpiredAccountAuthorizationTxParams.provides (T.encodeAccountId who))
  | .removeExpiredPreimageAuthorization contentHash => do
    checkAuthorizationExpired (.preimage contentHash)
    return wanted context
      (T.removeExpiredPreimageAuthorizationTxParams.provides (T.encodeContentHash contentHash))
  | .removeExhaustedAuthorizer who => do
    .reading fun s => do
      let budget ← okOr (s.allowedAuthorizers.lookup who) .authorizerNotFound
      ensure (budget.isInactive s.blockNumber) .authorizationNotExhausted
    return wanted context (T.removeExhaustedAuthorizerTxParams.provides (T.encodeAccountId who))
  | .applyBlockInherents _ => return none
  | _                      => throw .call

abbrev Validation (T : Config) := Option ValidTransaction × Option (AuthorizationScope T)

-- The metadata of a signed store: its tag and the scope it is charged to.
def storeValidation (who : T.AccountId) (contentHash : T.ContentHash) (context : CheckContext)
    (usedPreimageAuth : Bool) : Validation T :=
  if context.wantValidTransaction then
    if usedPreimageAuth then
      (some (T.storeTxParams.provides (T.encodeContentHash contentHash)),
        some (.preimage contentHash))
    else
      (some (T.storeTxParams.provides (T.encodeAccountId who ++ T.encodeContentHash contentHash)),
        some (.account who))
  else
    (none, none)

-- The part of `check_signed` for the two store calls: a preimage authorization is preferred, so that
-- anyone can store content that was authorized, without drawing on their own account.
def checkStoreSigned (who : T.AccountId) (size : Nat) (contentHash : T.ContentHash)
    (context : CheckContext) : Check.Of T (Validation T) := do
  checkSizeAndRoom size
  let consume := context.consumeAuthorization
  let usedPreimageAuth ← (checkAuthorization (.preimage contentHash) size consume).isOk
  match usedPreimageAuth with
  | true  => return storeValidation who contentHash context true
  | false =>
    checkAuthorization (.account who) size consume
    return storeValidation who contentHash context false

def checkSigned (who : T.AccountId) (call : Call T) (context : CheckContext) :
    Check.Of T (Validation T) :=
  match call with
  | .store data                  => checkStoreSigned who data.len (T.hash .blake2b256 data.bytes) context
  | .storeWithCidConfig cid data => checkStoreSigned who data.len (T.hash cid.hashing data.bytes) context
  | .authorizeAccount .. | .authorizePreimage .. | .refreshAccountAuthorization ..
  | .refreshPreimageAuthorization .. => do
    .reading fun s => ensure (s.ensureAuthorizer (.signed who)).isSome .badSigner
    return (wanted context T.authorizeTxParams.untagged, none)
  | .addAuthorizer .. | .removeAuthorizer .. => return (wanted context .default, none)
  | _ => throw .call

def validateUnsigned (call : Call T) : Check.Of T ValidTransaction :=
  if call.isInherent then
    return .default
  else do
    let v ← checkUnsigned call .validate
    .reading fun _ => okOr v .impossible

def preDispatch (call : Call T) : Check.Of T Unit :=
  if call.isInherent then
    return
  else do
    let _ ← checkUnsigned call .preDispatch

def validateSigned (who : T.AccountId) (call : Call T) :
    Check.Of T (ValidTransaction × Option (AuthorizationScope T)) := do
  let (v, scope) ← checkSigned who call .validate
  let v ← .reading fun _ => okOr v .impossible
  return (v, scope)

-- What the runtime API answers for a `store` of data of the given length.
def canStore (s : State T) (who : T.AccountId) (dataLen : Nat) : Bool :=
  dataSizeOk T dataLen && s.accountHasActiveAuthorization who

def preDispatchSigned (who : T.AccountId) (call : Call T) : Check.Of T Unit := do
  let _ ← checkSigned who call .preDispatch

def dispatch (s : State T) (origin : Origin T) : Call T → Except DispatchError (State T)
  | .store data                               => s.store origin data
  | .authorizeAccount who transactions bytes  => s.authorizeAccount origin who transactions bytes
  | .authorizePreimage contentHash maxSize    => s.authorizePreimage origin contentHash maxSize
  | .removeExpiredAccountAuthorization who    => s.removeExpiredAccountAuthorization who
  | .removeExpiredPreimageAuthorization h     => s.removeExpiredPreimageAuthorization h
  | .refreshAccountAuthorization who          => s.refreshAccountAuthorization origin who
  | .refreshPreimageAuthorization contentHash => s.refreshPreimageAuthorization origin contentHash
  | .storeWithCidConfig cid data              => s.storeWithCidConfig origin cid data
  | .applyBlockInherents proof                => s.applyBlockInherents origin proof
  | .addAuthorizer who budget                 => s.addAuthorizer origin who budget
  | .removeAuthorizer who                     => s.removeAuthorizer origin who
  | .removeExhaustedAuthorizer who            => s.removeExhaustedAuthorizer who

end TransactionStorage
end Bulletin
