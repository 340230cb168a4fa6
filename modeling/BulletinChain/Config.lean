import BulletinChain.Primitives

namespace Bulletin

-- What the pallets call in the host and in the SDK. None of it is defined in this repository, so a
-- statement that depends on one of these functions says what it assumes of it.
structure Host where
  AccountId        : Type
  ContentHash      : Type
  ChunkRoot        : Type
  TrieProof        : Type
  MultiSigner      : Type
  MultiSignature   : Type
  Location         : Type
  [accountIdEq     : DecidableEq AccountId]
  [contentHashEq   : DecidableEq ContentHash]
  encodeAccountId   : AccountId → List UInt8
  encodeContentHash : ContentHash → List UInt8
  -- `sp_io::hashing`: the 32-byte hash of a byte string.
  hash             : HashingAlgorithm → List UInt8 → ContentHash
  -- `CidGeneric::<32>::new_v1`, over the `Multihash::wrap` of a code and a digest.
  cidV1            : CidCodec → Nat → ContentHash → Option (List UInt8)
  -- `sp_io::trie::blake2_256_ordered_root`
  orderedRoot      : List (List UInt8) → ChunkRoot
  -- `sp_io::trie::blake2_256_verify_proof`, with the key `encode_index` of a chunk index.
  verifyProof      : ChunkRoot → TrieProof → Nat → List UInt8 → Bool
  -- `sp_transaction_storage_proof::random_chunk`
  randomChunk      : List UInt8 → Nat → Nat
  intoAccount      : MultiSigner → AccountId
  verifySignature  : MultiSignature → ContentHash → AccountId → Bool
  genesisHash      : ContentHash

-- `DEFAULT_MAX_TRANSACTION_SIZE` and `DEFAULT_MAX_BLOCK_TRANSACTIONS`, which both runtimes wire.
def defaultMaxTransactionSize : Nat := 2 * 1024 * 1024
def defaultMaxBlockTransactions : Nat := 512

-- The configuration of the storage, the renewal and the promotion pallet. The last fields are what
-- `integrity_test` asserts and what the types `u32` and `u64` of the constants imply.
structure Config extends Host where
  maxBlockTransactions    : Nat
  maxTransactionSize      : Nat
  authorizationPeriod     : Nat
  maxPermanentStorageSize : Nat
  submitTimestampTolerance : Nat
  -- The signers and the locations that the runtime lets authorize without a budget.
  isListedAuthorizer      : AccountId → Bool
  isXcmAuthorizer         : Location → Bool
  storeTxParams           : ValidTransactionParams
  authorizeTxParams       : ValidTransactionParams
  removeExpiredAccountAuthorizationTxParams  : ValidTransactionParams
  removeExpiredPreimageAuthorizationTxParams : ValidTransactionParams
  removeExhaustedAuthorizerTxParams          : ValidTransactionParams
  renewTxParams           : ValidTransactionParams
  promoteTxParams         : ValidTransactionParams
  maxBlockTransactions_pos    : 0 < maxBlockTransactions
  maxBlockTransactions_le     : maxBlockTransactions ≤ Machine.u32Max
  maxTransactionSize_pos      : 0 < maxTransactionSize
  maxTransactionSize_le       : maxTransactionSize ≤ Machine.u32Max
  authorizationPeriod_pos     : 0 < authorizationPeriod
  authorizationPeriod_le      : authorizationPeriod ≤ maxBlockNumber
  maxPermanentStorageSize_le  : maxPermanentStorageSize ≤ Machine.u64Max

-- A runtime to try the pallets on, with hosts that are as simple as their contracts allow: the hash of
-- some data is the data, and the root of some chunks is the chunks.
def Config.mock : Config where
  AccountId               := Nat
  ContentHash             := List UInt8
  ChunkRoot               := List (List UInt8)
  TrieProof               := Unit
  MultiSigner             := Nat
  MultiSignature          := Unit
  Location                := Nat
  encodeAccountId who     := [who.toUInt8]
  encodeContentHash hash  := hash
  hash _ data             := data
  cidV1 _ _ hash          := some hash
  orderedRoot chunks      := chunks
  verifyProof root _ i c  := root[i]? = some c
  randomChunk seed total  := seed.length % total
  intoAccount signer      := signer
  verifySignature _ _ _   := true
  genesisHash             := []
  maxBlockTransactions    := defaultMaxBlockTransactions
  maxTransactionSize      := defaultMaxTransactionSize
  authorizationPeriod     := 10
  maxPermanentStorageSize := 1000
  submitTimestampTolerance := 1000
  isListedAuthorizer who  := who = 0
  isXcmAuthorizer _       := false
  storeTxParams           := ⟨"Store", 2, 10⟩
  authorizeTxParams       := ⟨"Authorize", 2, 10⟩
  removeExpiredAccountAuthorizationTxParams  := ⟨"RemoveExpiredAccount", 3, 10⟩
  removeExpiredPreimageAuthorizationTxParams := ⟨"RemoveExpiredPreimage", 3, 10⟩
  removeExhaustedAuthorizerTxParams          := ⟨"RemoveExhausted", 3, 10⟩
  renewTxParams           := ⟨"Renew", 2, 10⟩
  promoteTxParams         := ⟨"Promote", 0, 5⟩
  maxBlockTransactions_pos   := by decide
  maxBlockTransactions_le    := by decide
  maxTransactionSize_pos     := by decide
  maxTransactionSize_le      := by decide
  authorizationPeriod_pos    := by decide
  authorizationPeriod_le     := by decide
  maxPermanentStorageSize_le := by decide

-- The content that is stored on it is an argument of a call.
theorem length_blob_lt : ([1, 2, 3] : List UInt8).length < 2 ^ 32 := by
  decide

instance (T : Config) : DecidableEq T.AccountId :=
  T.accountIdEq

instance (T : Config) : DecidableEq T.ContentHash :=
  T.contentHashEq

variable (T : Config)

inductive TransactionRef
  | position (block index : Nat)
  | contentHash (hash : T.ContentHash)

inductive AuthorizationScope
  | account (who : T.AccountId)
  | preimage (hash : T.ContentHash)
deriving DecidableEq

structure TransactionInfo where
  chunkRoot      : T.ChunkRoot
  contentHash    : T.ContentHash
  hashing        : HashingAlgorithm
  cidCodec       : CidCodec
  size           : Nat
  extrinsicIndex : Nat
  blockChunks    : Nat
  kind           : EntryKind

structure PermanentExtent where
  bytesPermanent : Nat
deriving DecidableEq

structure AuthorizationExtent where
  transactions          : Nat
  transactionsAllowance : Nat
  bytes                 : Nat
  extra                 : PermanentExtent
  bytesAllowance        : Nat
deriving DecidableEq

structure Authorization where
  extent     : AuthorizationExtent
  expiration : Nat
deriving DecidableEq

structure Quota where
  transactions : Nat
  bytes        : Nat
deriving DecidableEq

structure AuthorizerBudget where
  quota      : Option Quota
  validUntil : Option Nat
  feeless    : Bool
deriving DecidableEq

structure AuthorizationOrigin where
  authorizer : T.AccountId
  validUntil : Option Nat
  feeless    : Bool

structure RenewalData where
  account   : T.AccountId
  recurring : Bool
  paid      : Bool
deriving DecidableEq

-- The caller of a dispatch. `authorized` is the origin of the storage pallet, set by its transaction
-- extension, and `systemAuthorized` the one of `frame_system`, set for calls with an authorize hook.
inductive Origin
  | root
  | none
  | signed (who : T.AccountId)
  | authorized (who : T.AccountId) (scope : AuthorizationScope T)
  | systemAuthorized
  | xcm (location : T.Location)

inductive AuthorizedCaller
  | signed (who : T.AccountId) (scope : AuthorizationScope T)
  | root
  | unsigned

structure TransactionStorageProof where
  chunk : List UInt8
  proof : T.TrieProof

-- What the runtime asks the host to index: the trailing bytes of an extrinsic, or a known content.
inductive IndexOperation
  | index (extrinsic size : Nat) (contentHash : T.ContentHash)
  | renew (extrinsic : Nat) (contentHash : T.ContentHash)

inductive DispatchError
  | badOrigin
  | badContext
  | badDataSize
  | tooManyTransactions
  | renewedNotFound
  | unexpectedProof
  | invalidProof
  | missingStateData
  | doubleCheck
  | authorizationNotFound
  | authorizationNotExpired
  | invalidContentHash
  | authorizerNotFound
  | authorizerBudgetNotExhausted
  | invalidValidUntil
  | insufficientAuthorizerBudget
  | renewalAlreadyEnabled
  | autoRenewalNotEnabled
  | notAutoRenewalOwner
  | cannotDisablePrepaidAutoRenewal
deriving DecidableEq

inductive Event
  | stored (index : Nat) (contentHash : T.ContentHash) (cid : Option (List UInt8))
  | proofChecked
  | accountAuthorized (who : T.AccountId) (transactions bytes : Nat)
  | accountAuthorizationRefreshed (who : T.AccountId)
  | preimageAuthorized (contentHash : T.ContentHash) (maxSize : Nat)
  | preimageAuthorizationRefreshed (contentHash : T.ContentHash)
  | expiredAccountAuthorizationRemoved (who : T.AccountId)
  | expiredPreimageAuthorizationRemoved (contentHash : T.ContentHash)
  | authorizerAdded (who : T.AccountId)
  | authorizerRemoved (who : T.AccountId)
  | exhaustedAuthorizerRemoved (who : T.AccountId)
  | renewed (index : Nat) (contentHash : T.ContentHash)
  | renewalEnabled (contentHash : T.ContentHash) (who : T.AccountId) (recurring : Bool)
  | autoRenewalDisabled (contentHash : T.ContentHash) (who : T.AccountId)
  | dataRenewed (index : Nat) (contentHash : T.ContentHash) (account : T.AccountId)
  | renewalFailed (contentHash : T.ContentHash) (account : T.AccountId)
  | permanentStorageUsedUpdated (used : Nat)
  | permanentStorageNearCap (used cap : Nat)
deriving DecidableEq

end Bulletin
