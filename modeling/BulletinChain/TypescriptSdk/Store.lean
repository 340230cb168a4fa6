import BulletinChain.TypescriptSdk.Dag

namespace Bulletin

open Except

variable {T : Config}

namespace TypescriptSdk

-- The transactions and the bytes.
def estimateAuthorization (dataSize chunkSize : Nat) (createManifest : Bool) : Nat × Nat :=
  -- `Math.ceil(dataSize / chunkSize)`
  let numChunks := (dataSize + (chunkSize - 1)) / chunkSize
  let transactions := numChunks
  let bytes := dataSize
  if createManifest then
    (transactions + 1, bytes + (numChunks * 50 + 1000))
  else
    (transactions, bytes)

-- The extent of an authorization. Older chains have no allowances.
structure Extent where
  transactions          : Nat
  transactionsAllowance : Option Nat
  bytes                 : Nat
  bytesAllowance        : Option Nat

-- What is read of the signer's authorization: `none` if the client has no queries, and `error` if the
-- query failed.
abbrev Queried := Option (Except Unit (Option Extent))

-- The warning, if there is one. The conversion of the bytes to a number is exact below 2^53, and above
-- they are more than is ever required.
def checkAccountAuthorization (auth : Queried) (requiredTransactions requiredBytes : Nat) :
    Option String :=
  match auth with
  | some (ok (some extent)) =>
    let availableTransactions := match extent.transactionsAllowance with
      | some txAllowance => txAllowance - extent.transactions
      | none             => extent.transactions
    let availableBytes := match extent.bytesAllowance with
      | some bytesAllowance => bytesAllowance - extent.bytes
      | none                => extent.bytes
    if availableTransactions < requiredTransactions ∨ availableBytes < requiredBytes then
      some (s!"Boost budget exhausted (need {requiredTransactions} transactions / {requiredBytes} bytes, " ++
        s!"have {availableTransactions} / {availableBytes}) - the store will proceed at lower priority")
    else
      none
  | _ => none

structure AsyncClientConfig extends ClientConfig where
  chunkingThreshold : Nat

variable (T) in
def BulletinPreparer.prepareStore (config : AsyncClientConfig) (data : List UInt8) (cidCodec : CidCodec)
    (options : StoreOptions) : Except Thrown (List UInt8 × CID) := do
  ensure (data.length ≠ 0) (.bulletinError "Data cannot be empty" (.chunker .emptyData))
  let size := data.length
  let limit := config.chunkingThreshold
  ensure (¬config.chunkingThreshold < data.length)
    (.bulletinError (s!"Data size {size} exceeds single-transaction limit of {limit} bytes. " ++
      "Use prepareStoreChunked() for large data.") (.chunker .dataTooLarge))
  return (data, calculateCid T data cidCodec options.hashingAlgorithm)

-- What `storeWithOptions` goes on to submit.
inductive StorePlan
  | single (tx : PapiTransaction) (cid : CID)
  | chunked (prepared : Prepared CID)

namespace AsyncBulletinClient

def willChunk (config : AsyncClientConfig) (dataSize : Nat)
    (chunkerConfig : Option PartialChunkerConfig) : Bool :=
  chunkerConfig.isSome ∨ config.chunkingThreshold < dataSize

-- The configuration of the chunker, given or not.
def resolvedConfig (config : AsyncClientConfig) (chunkerConfig : Option PartialChunkerConfig) :
    ChunkerConfig :=
  BulletinPreparer.chunkerConfig config.toClientConfig (chunkerConfig.getD ⟨none, none⟩)

def required (config : AsyncClientConfig) (dataSize : Nat)
    (chunkerConfig : Option PartialChunkerConfig) : Nat × Nat :=
  let resolved := resolvedConfig config chunkerConfig
  if willChunk config dataSize chunkerConfig then
    estimateAuthorization dataSize resolved.chunkSize resolved.createManifest
  else
    (1, dataSize)

variable (T) in
-- `storeWithOptions` up to the first submission, with its warning. A codec is only given by the user.
def storeWithOptions (lib : Libraries) (config : AsyncClientConfig) (auth : Queried) (data : List UInt8)
    (userCodec : Option CidCodec) (options : StoreOptions)
    (chunkerConfig : Option PartialChunkerConfig) : Except Thrown (Option String × StorePlan) := do
  ensure (data.length ≠ 0) (.bulletinError "Data cannot be empty" (.chunker .emptyData))
  let (transactions, bytes) := required config data.length chunkerConfig
  let warning := checkAccountAuthorization auth transactions bytes
  if willChunk config data.length chunkerConfig then
    ensure (userCodec = none ∨ userCodec = some rawCodec)
      (.bulletinError ("withCodec() cannot be used with chunked uploads. " ++
        "Chunks always use Raw (0x55) and the manifest always uses DagPb (0x70).") .invalidConfig)
    let prepared ← BulletinPreparer.prepareStoreChunked T lib config.toClientConfig data
      (chunkerConfig.getD ⟨none, none⟩) options
    return (warning, .chunked prepared)
  else
    let cidCodec := userCodec.getD rawCodec
    let (_, cid) ← BulletinPreparer.prepareStore T config data cidCodec options
    return (warning, .single (createStoreTx data cidCodec options.hashingAlgorithm) cid)

end AsyncBulletinClient
end TypescriptSdk
end Bulletin
