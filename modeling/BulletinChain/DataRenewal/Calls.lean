import BulletinChain.DataRenewal.Accounting

namespace Bulletin

open Machine Except

variable {T : Config}

namespace DataRenewal

inductive Call (T : Config)
  | renew (entry : TransactionRef T)
  | forceRenew (entry : TransactionRef T)
  | enableAutoRenew (contentHash : T.ContentHash)
  | disableAutoRenew (contentHash : T.ContentHash)
  | processPendingRenewals

def Call.isInherent : Call T → Bool
  | processPendingRenewals => true
  | _                      => false

end DataRenewal

namespace State

def doRenew (s : State T) (info : TransactionInfo T) : Except DispatchError (Nat × State T) := do
  let extrinsicIndex ← okOr s.extrinsicIndex .badContext
  okOr (BlockTransactionsMut.renew s info extrinsicIndex .renew) .tooManyTransactions

-- `let AuthorizedCaller::Signed { who, .. } = ensure_authorized(origin)? else ..`
def ensureAuthorizedSigner (origin : Origin T) : Except DispatchError T.AccountId := do
  match ← ensureAuthorized origin with
  | .signed who _ => return who
  | _             => throw .badOrigin

def renew (s : State T) (origin : Origin T) (entry : TransactionRef T) :
    Except DispatchError (State T) := do
  let who ← ensureAuthorizedSigner origin
  let info ← okOr (s.resolveTransactionRef entry) .renewedNotFound
  ensure (s.renewals.lookup info.contentHash).isNone .renewalAlreadyEnabled
  let s := { s with renewals := s.renewals.insert info.contentHash ⟨who, false, true⟩ }
  return s.deposit (.renewalEnabled info.contentHash who false)

def forceRenew (s : State T) (origin : Origin T) (entry : TransactionRef T) :
    Except DispatchError (State T) := do
  let _caller ← ensureAuthorized origin
  let info ← okOr (s.resolveTransactionRef entry) .renewedNotFound
  ensure (dataSizeOk T info.size) .badDataSize
  let (newIndex, s) ← s.doRenew info
  return s.deposit (.renewed newIndex info.contentHash)

def enableAutoRenew (s : State T) (origin : Origin T) (contentHash : T.ContentHash) :
    Except DispatchError (State T) := do
  let who ← ensureAuthorizedSigner origin
  ensure (s.renewals.lookup contentHash).isNone .renewalAlreadyEnabled
  let (block, index) ← okOr (s.lookupByContentHash contentHash) .renewedNotFound
  let _info ← okOr (s.transactionInfo block index) .renewedNotFound
  let s := { s with renewals := s.renewals.insert contentHash ⟨who, true, true⟩ }
  return s.deposit (.renewalEnabled contentHash who true)

-- Root skips the checks of the owner and of the prepayment.
def mayDisable (renewalData : RenewalData T) : AuthorizedCaller T → Except DispatchError Unit
  | .signed who _ => do
    ensure (renewalData.account = who) .notAutoRenewalOwner
    ensure (¬renewalData.paid) .cannotDisablePrepaidAutoRenewal
  | .root     => ok ()
  | .unsigned => error .badOrigin

def disableAutoRenew (s : State T) (origin : Origin T) (contentHash : T.ContentHash) :
    Except DispatchError (State T) := do
  let caller ← ensureAuthorized origin
  let renewalData ← okOr (s.renewals.lookup contentHash) .autoRenewalNotEnabled
  mayDisable renewalData caller
  let s := { s with renewals := s.renewals.erase contentHash }
  return s.deposit (.autoRenewalDisabled contentHash renewalData.account)

def processPendingRenewals (s : State T) (origin : Origin T) : Except DispatchError (State T) := do
  ensureNone origin
  return s.doProcessPendingRenewals

end State

namespace DataRenewal

def dispatch (s : State T) (origin : Origin T) : Call T → Except DispatchError (State T)
  | .renew entry                  => s.renew origin entry
  | .forceRenew entry             => s.forceRenew origin entry
  | .enableAutoRenew contentHash  => s.enableAutoRenew origin contentHash
  | .disableAutoRenew contentHash => s.disableAutoRenew origin contentHash
  | .processPendingRenewals       => s.processPendingRenewals origin

abbrev RenewalValidation (T : Config) := ValidTransaction × Option (AuthorizationScope T)

def resolve (entry : TransactionRef T) : Check.Of T (TransactionInfo T) :=
  .reading fun s => okOr (s.resolveTransactionRef entry) .renewedNotFound

def checkNotRegistered (contentHash : T.ContentHash) : Check.Of T Unit :=
  .reading fun s => ensure (s.renewals.lookup contentHash).isNone .renewalAlreadyEnabled

-- The pool metadata of a check, which is only built in the validate context.
def metadata (context : CheckContext) (v : ValidTransaction) : ValidTransaction :=
  if context.wantValidTransaction then v else .default

def accountTag (who : T.AccountId) (contentHash : T.ContentHash) : ValidTransaction :=
  T.renewTxParams.provides (T.encodeAccountId who ++ T.encodeContentHash contentHash)

def preimageTag (contentHash : T.ContentHash) : ValidTransaction :=
  T.renewTxParams.provides (T.encodeContentHash contentHash)

def checkRenewUnsigned (entry : TransactionRef T) (context : CheckContext) :
    Check.Of T (Option ValidTransaction) := do
  let info ← resolve entry
  TransactionStorage.checkSizeAndRoom info.size
  checkRenewAuthorization (.preimage info.contentHash) info.size context.consumeAuthorization
  return TransactionStorage.wanted context (preimageTag info.contentHash)

def checkRenewalSigned (who : T.AccountId) (call : Call T) (context : CheckContext) :
    Check.Of T (RenewalValidation T) :=
  let consume := context.consumeAuthorization
  match call with
  | .renew entry => do
    let info ← resolve entry
    checkNotRegistered info.contentHash
    checkRenewAuthorization (.account who) info.size consume
    return (metadata context (accountTag who info.contentHash), some (.account who))
  | .forceRenew entry => do
    let info ← resolve entry
    let scope ← authorizeRenew who info.contentHash info.size consume
    let valid := match scope with
      | .preimage hash => preimageTag hash
      | .account _     => accountTag who info.contentHash
    return (metadata context valid, some scope)
  | .enableAutoRenew contentHash => do
    checkNotRegistered contentHash
    -- the index first and then the entry, with one error for both
    let info ← resolve (.contentHash contentHash)
    checkRenewAuthorization (.account who) info.size consume
    return (metadata context (accountTag who info.contentHash), some (.account who))
  | .disableAutoRenew contentHash => do
    .reading fun s => do
      let renewalData ← okOr (s.renewals.lookup contentHash) .autoRenewalNotEnabled
      ensure (renewalData.account = who) .notAutoRenewalOwner
      ensure (¬renewalData.paid) .cannotDisablePrepaidAutoRenewal
    return (metadata context T.renewTxParams.untagged, some (.account who))
  | .processPendingRenewals => throw .call

def validateRenewalSigned (who : T.AccountId) (call : Call T) : Check.Of T (RenewalValidation T) :=
  checkRenewalSigned who call .validate

def preDispatchRenewalSigned (who : T.AccountId) (call : Call T) : Check.Of T Unit := do
  let _ ← checkRenewalSigned who call .preDispatch

def validateUnsigned (call : Call T) : Check.Of T ValidTransaction :=
  match call with
  | .processPendingRenewals => return .default
  | .forceRenew entry       => do
    let v ← checkRenewUnsigned entry .validate
    .reading fun _ => okOr v .call
  | _                       => throw .call

def preDispatch (call : Call T) : Check.Of T Unit :=
  match call with
  | .processPendingRenewals => return
  | .forceRenew entry       => do
    let _ ← checkRenewUnsigned entry .preDispatch
  | _                       => throw .call

end DataRenewal
end Bulletin
