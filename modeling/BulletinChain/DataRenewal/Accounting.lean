import BulletinChain.TransactionStorage.Calls

namespace Bulletin

open Machine Except

variable {T : Config}

def permanentStorageNearCapPercent : Nat := 80

namespace State

-- The threshold divides first, as `cap * 80` could overflow. Its event marks a rising edge only.
def updatePermanentStorageUsed (s : State T) (f : Nat → Nat) : State T :=
  let old := s.permanentStorageUsed
  let new := f old
  let cap := T.maxPermanentStorageSize
  let threshold := min (cap / 100 * permanentStorageNearCapPercent) u64Max
  let s := { s with permanentStorageUsed := new }.deposit (.permanentStorageUsedUpdated new)
  if old < threshold ∧ threshold ≤ new then
    s.deposit (.permanentStorageNearCap new cap)
  else
    s

end State

namespace DataRenewal

-- The authorization after a renewal: the bytes count as permanent, and use up one transaction.
def charged (a : Authorization) (size : Nat) : Authorization :=
  { a with extent := { a.extent with
    extra        := ⟨saturatingAdd u64Max a.extent.extra.bytesPermanent size⟩
    transactions := saturatingAdd u32Max a.extent.transactions 1 } }

def checkRenewAuthorization (scope : AuthorizationScope T) (size : Nat) (consume : Bool) :
    Check.Of T Unit := fun s =>
  match s.authorizations.lookup scope with
  | none   => (error .payment, s)
  | some a =>
    if a.expired s.blockNumber then
      (error .payment, s)
    else if a.extent.bytesAllowance < saturatingAdd u64Max a.extent.extra.bytesPermanent size then
      (error .permanentAllowanceExceeded, s)
    else if T.maxPermanentStorageSize < saturatingAdd u64Max s.permanentStorageUsed size then
      (error .chainPermanentCapReached, s)
    else if consume then
      let s := { s with authorizations := s.authorizations.insert scope (charged a size) }
      (ok (), s.updatePermanentStorageUsed (saturatingAdd u64Max · size))
    else
      (ok (), s)

def authorizeRenew (who : T.AccountId) (contentHash : T.ContentHash) (size : Nat) (consume : Bool) :
    Check.Of T (AuthorizationScope T) := do
  TransactionStorage.checkSizeAndRoom size
  let usedPreimageAuth ← (checkRenewAuthorization (.preimage contentHash) size consume).isOk
  match usedPreimageAuth with
  | true  => return .preimage contentHash
  | false =>
    checkRenewAuthorization (.account who) size consume
    return .account who

def canRenew (s : State T) (who : T.AccountId) (entry : TransactionRef T) : Bool :=
  match s.resolveTransactionRef entry with
  | none      => false
  | some info =>
    dataSizeOk T info.size &&
      (checkRenewAuthorization (.account who) info.size false).Succeeds s

end DataRenewal

namespace State

-- `handle_obsolete`: what leaves the retention window frees permanent capacity, and the latest copy
-- of a registered content is queued for renewal.
def handleObsolete (s : State T) (items : List (TransactionInfo T × Bool)) : State T :=
  let renewedSum := items.filter (·.1.kind.isRenew)
    |>.foldl (fun acc item => saturatingAdd u64Max acc item.1.size) 0
  let s := if 0 < renewedSum then s.updatePermanentStorageUsed (· - renewedSum) else s
  let pending := items.foldl (queue s) s.pendingRenewals
  if pending.val ≠ [] then { s with pendingRenewals := pending } else s
where
  queue (s : State T) (pending : BoundedVec (Pending T) T.maxBlockTransactions)
      (item : TransactionInfo T × Bool) : BoundedVec (Pending T) T.maxBlockTransactions :=
    let (txInfo, isLatest) := item
    if ¬isLatest then
      pending
    else
      match s.renewals.lookup txInfo.contentHash with
      | some renewalData => pending.pushOrDrop (txInfo.contentHash, txInfo, renewalData)
      | none             => pending

-- The charge for a pending renewal, unless it was prepaid: whether it is paid for now.
def chargePending (s : State T) (txInfo : TransactionInfo T) (renewalData : RenewalData T) :
    Bool × State T :=
  if renewalData.paid then
    (true, s)
  else
    let scope := .account renewalData.account
    let (result, s) := DataRenewal.checkRenewAuthorization scope txInfo.size true s
    (result.isOk, s)

-- A one-shot registration is done, and a recurring one was prepaid for its first cycle only.
def settlePending (s : State T) (contentHash : T.ContentHash) (renewalData : RenewalData T) :
    State T :=
  if ¬renewalData.recurring then
    { s with renewals := s.renewals.erase contentHash }
  else if renewalData.paid then
    match s.renewals.lookup contentHash with
    | some data => { s with renewals := s.renewals.insert contentHash { data with paid := false } }
    | none      => s
  else
    s

-- One iteration of the drain.
def renewPending (extrinsicIndex : Nat) (s : State T) : Pending T → State T
  | (contentHash, txInfo, renewalData) =>
    let (charged, s) := s.chargePending txInfo renewalData
    let renewed := if charged then BlockTransactionsMut.renew s txInfo extrinsicIndex .renew else none
    match renewed with
    | some (newIndex, s) =>
      s.settlePending contentHash renewalData
        |>.deposit (.dataRenewed newIndex contentHash renewalData.account)
    | none =>
      let s := if charged then s.updatePermanentStorageUsed (· - txInfo.size) else s
      let s := { s with renewals := s.renewals.erase contentHash }
      s.deposit (.renewalFailed contentHash renewalData.account)

-- Without an extrinsic to index the renewals with, all of them fail.
def failPending (s : State T) : Pending T → State T
  | (contentHash, _, renewalData) =>
    { s with renewals := s.renewals.erase contentHash }.deposit
      (.renewalFailed contentHash renewalData.account)

def doProcessPendingRenewals (s : State T) : State T :=
  let pending := s.pendingRenewals.val
  let s := { s with pendingRenewals := .empty }
  match s.extrinsicIndex with
  | some extrinsicIndex => pending.foldl (renewPending extrinsicIndex) s
  | none                => pending.foldl failPending s

theorem doProcessPendingRenewals_of_some {s : State T} (hx : s.extrinsicIndex = some x) :
    s.doProcessPendingRenewals =
      s.pendingRenewals.val.foldl (renewPending x) { s with pendingRenewals := .empty } := by
  simp only [doProcessPendingRenewals, hx]

theorem doProcessPendingRenewals_of_none {s : State T} (hx : s.extrinsicIndex = none) :
    s.doProcessPendingRenewals =
      s.pendingRenewals.val.foldl failPending { s with pendingRenewals := .empty } := by
  simp only [doProcessPendingRenewals, hx]

end State
end Bulletin
