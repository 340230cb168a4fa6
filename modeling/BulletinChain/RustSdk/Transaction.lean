import BulletinChain.Migrations.Layout
import BulletinChain.RustSdk.Client
import BulletinChain.Runtime.Call

namespace Bulletin

open Machine Except

variable {T : Config}

namespace RustSdk

-- The variants of `Error` that reads and submissions end with.
inductive SubmissionError
  | authorizationNotFound (who : String)
  | insufficientAuthorization (need available : Nat)
  | storageFailed (message : String)
  | networkError (message : String)
  | renewalFailed (message : String)
  | transactionFailed (message : String)

-- The values of `Authorizations`, decoded by position and not by name.
structure StoredAuthorization where
  transactions          : Nat
  transactionsAllowance : Nat
  bytes                 : Nat
  -- `bytes_permanent` before the split, `extra` after it.
  extra                 : Nat
  bytesAllowance        : Nat
  expiration            : Nat

def StoredAuthorization.codec : Scale.Codec StoredAuthorization :=
  (u32.pair (u32.pair (u64.pair (u64.pair (u64.pair u32))))).iso
    (fun (transactions, transactionsAllowance, bytes, extra, bytesAllowance, expiration) =>
      ⟨transactions, transactionsAllowance, bytes, extra, bytesAllowance, expiration⟩)
    (fun a => (a.transactions, a.transactionsAllowance, a.bytes, a.extra, a.bytesAllowance,
      a.expiration)) fun _ => rfl

-- The scope and the expiration of `Authorization` are not read by the check.
structure Available where
  transactions : Nat
  maxSize      : Nat

def AuthorizationManager.checkAuthorization (available : Available)
    (requiredSize numTransactions : Nat) : Except SubmissionError Unit := do
  ensure (¬available.transactions < numTransactions)
    (.insufficientAuthorization numTransactions available.transactions)
  ensure (¬available.maxSize < requiredSize)
    (.insufficientAuthorization requiredSize available.maxSize)

-- A block that a transaction is in, with the answers to what is asked about it: the number of the block
-- and, from `wait_for_success`, whether the dispatch succeeded.
structure InBlock where
  blockHash     : String
  extrinsicHash : String
  blockNumber   : Option Nat
  success       : Except String Unit

inductive TxStatus
  | validated
  | broadcasted
  | inBestBlock (inBlock : InBlock)
  | inFinalizedBlock (inBlock : InBlock)
  | noLongerInBestBlock
  | invalid (message : String)
  | dropped (message : String)
  | error (message : String)

-- All that the node tells about one transaction until the stream ends.
abbrev TxProgress := List (Except String TxStatus)

-- The extrinsic index is never reported.
inductive TransactionStatusEvent
  | validated
  | broadcasted
  | inBestBlock (blockHash : String) (blockNumber : Option Nat)
  | finalized (blockHash : String) (blockNumber : Option Nat)
  | noLongerInBestBlock
  | invalid (error : String)
  | dropped (error : String)

structure SubmitResult where
  blockHash     : String
  extrinsicHash : String

def SubmitResult.of (inBlock : InBlock) : SubmitResult :=
  ⟨inBlock.blockHash, inBlock.extrinsicHash⟩

structure LatestBlock where
  number   : Nat
  fetchRaw : List UInt8 → Except String (Option (List UInt8))

structure BestBlock (T : Config) where
  accountNonce : T.AccountId → Except String Nat

-- The connection of a client, with the answers of the node.
structure OnlineClient (T : Config) where
  addressBytes           : AuthorizationScope T → Except String (List UInt8)
  atLatest               : Except String LatestBlock
  -- The first item of `subscribe_best`.
  bestBlock              : Except String (Option (Except String (BestBlock T)))
  signAndSubmitThenWatch : RuntimeCall T → T.AccountId → Nat → Except String TxProgress
  display                : T.AccountId → String
  -- What `StoredAuthorization::decode` says of bytes that are not one.
  decodeError            : List UInt8 → String

structure StoreReceipt where
  blockHash     : String
  extrinsicHash : String
  dataSize      : Nat

structure AuthorizationReceipt (T : Config) where
  account      : T.AccountId
  transactions : Nat
  bytes        : Nat
  blockHash    : String

structure PreimageAuthorizationReceipt (T : Config) where
  contentHash : T.ContentHash
  maxSize     : Nat
  blockHash   : String

structure RenewReceipt (T : Config) where
  entry     : TransactionRef T
  blockHash : String

namespace TransactionClient

-- The nonce is that of the best block, and not of the finalized one.
def submitAtBestBlock (api : OnlineClient T) (tx : RuntimeCall T) (signer : T.AccountId)
    (makeError : String → SubmissionError) : Except SubmissionError TxProgress := do
  let next ← api.bestBlock.mapError makeError
  let bestBlock ← okOr next (makeError "Best block stream ended")
  let bestBlock ← bestBlock.mapError makeError
  let nonce ← (bestBlock.accountNonce signer).mapError makeError
  (api.signAndSubmitThenWatch tx signer nonce).mapError makeError

def waitForSuccess (makeError : String → SubmissionError) (inBlock : InBlock) :
    Except SubmissionError Unit :=
  inBlock.success.mapError fun e => makeError s!"Transaction failed: {e}"

-- The loop of `submit_and_watch`, from the last block that the transaction was seen in. Beside the
-- result are the events for the callback.
def watch (waitFor : WaitFor) (makeError : String → SubmissionError) :
    Option SubmitResult → TxProgress →
      Except SubmissionError SubmitResult × List TransactionStatusEvent
  | result, [] =>
    (okOr result (makeError "Transaction stream ended without block inclusion"), [])
  | _, error e :: _ => (error (makeError s!"Status error: {e}"), [])
  | result, ok status :: progress =>
    match status with
    | .validated =>
      let (r, events) := watch waitFor makeError result progress
      (r, .validated :: events)
    | .broadcasted =>
      let (r, events) := watch waitFor makeError result progress
      (r, .broadcasted :: events)
    | .inBestBlock inBlock =>
      let event := .inBestBlock inBlock.blockHash inBlock.blockNumber
      match waitFor with
      | .inBlock => (waitForSuccess makeError inBlock *> ok (.of inBlock), [event])
      | .finalized =>
        let (r, events) := watch waitFor makeError (some (.of inBlock)) progress
        (r, event :: events)
    | .inFinalizedBlock inBlock =>
      (waitForSuccess makeError inBlock *> ok (.of inBlock),
        [.finalized inBlock.blockHash inBlock.blockNumber])
    | .noLongerInBestBlock =>
      let (r, events) := watch waitFor makeError result progress
      (r, .noLongerInBestBlock :: events)
    | .invalid message => (error (makeError s!"Transaction invalid: {message}"), [.invalid message])
    | .dropped message => (error (makeError s!"Transaction dropped: {message}"), [.dropped message])
    | .error message   => (error (makeError s!"Transaction error: {message}"), [])

def submitAndWatch (api : OnlineClient T) (tx : RuntimeCall T) (signer : T.AccountId)
    (waitFor : WaitFor) (makeError : String → SubmissionError) :
    Except SubmissionError SubmitResult := do
  let progress ← submitAtBestBlock api tx signer makeError
  (watch waitFor makeError none progress).1

def queryAccountAuthorization (api : OnlineClient T) (who : T.AccountId) :
    Except SubmissionError (Option (Nat × Nat)) := do
  let key ← (api.addressBytes (.account who)).mapError fun e =>
    .networkError s!"Failed to encode storage key: {e}"
  let latestBlock ← api.atLatest.mapError fun e =>
    .networkError s!"Failed to get latest block: {e}"
  let maybeAuth ← (latestBlock.fetchRaw key).mapError fun e =>
    .networkError s!"Failed to query authorization: {e}"
  match maybeAuth with
  | none       => return none
  | some bytes =>
    let e := api.decodeError bytes
    let auth ← okOr (StoredAuthorization.codec.read bytes)
      (.networkError s!"Failed to decode authorization: {e}")
    if auth.expiration ≤ latestBlock.number then
      return none
    let transactionsRemaining := auth.transactionsAllowance - auth.transactions
    let bytesRemaining := auth.bytesAllowance - auth.bytes
    return some (transactionsRemaining, bytesRemaining)

def checkAuthorizationForStore (api : OnlineClient T) (who : T.AccountId)
    (requiredTransactions requiredBytes : Nat) : Except SubmissionError Unit := do
  match ← queryAccountAuthorization api who with
  | some (transactions, bytes) =>
    AuthorizationManager.checkAuthorization ⟨transactions, bytes⟩ requiredBytes requiredTransactions
  | none => throw (.authorizationNotFound (api.display who))

def storeWithProgress (api : OnlineClient T) (data : Data) (signer : T.AccountId)
    (waitFor : WaitFor) : Except SubmissionError StoreReceipt := do
  let dataSize := data.len
  checkAuthorizationForStore api signer 1 dataSize
  let result ← submitAndWatch api (.transactionStorage (.store data)) signer waitFor fun e =>
    .storageFailed s!"Store failed: {e}"
  return ⟨result.blockHash, result.extrinsicHash, dataSize⟩

def authorizeAccount (api : OnlineClient T) (who : T.AccountId) (transactions bytes : Nat)
    (signer : T.AccountId) (waitFor : WaitFor) : Except SubmissionError (AuthorizationReceipt T) := do
  let tx := .transactionStorage (.authorizeAccount who transactions bytes)
  let result ← submitAndWatch api tx signer waitFor fun e =>
    .transactionFailed s!"Authorization failed: {e}"
  return ⟨who, transactions, bytes, result.blockHash⟩

def authorizePreimage (api : OnlineClient T) (contentHash : T.ContentHash) (maxSize : Nat)
    (signer : T.AccountId) (waitFor : WaitFor) :
    Except SubmissionError (PreimageAuthorizationReceipt T) := do
  let tx := .transactionStorage (.authorizePreimage contentHash maxSize)
  let result ← submitAndWatch api tx signer waitFor fun e =>
    .transactionFailed s!"Authorization failed: {e}"
  return ⟨contentHash, maxSize, result.blockHash⟩

def renew (api : OnlineClient T) (entry : TransactionRef T) (signer : T.AccountId)
    (waitFor : WaitFor) : Except SubmissionError (RenewReceipt T) := do
  let result ← submitAndWatch api (.dataRenewal (.renew entry)) signer waitFor fun e =>
    .renewalFailed s!"Renew failed: {e}"
  return ⟨entry, result.blockHash⟩

def forceRenew (api : OnlineClient T) (entry : TransactionRef T) (signer : T.AccountId)
    (waitFor : WaitFor) : Except SubmissionError (RenewReceipt T) := do
  let result ← submitAndWatch api (.dataRenewal (.forceRenew entry)) signer waitFor fun e =>
    .renewalFailed s!"Force renew failed: {e}"
  return ⟨entry, result.blockHash⟩

end TransactionClient
end RustSdk
end Bulletin
