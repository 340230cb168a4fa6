import BulletinChain.Runtime.Call

namespace Bulletin

open Scale

-- The encodings of the types that are not defined in this repository.
structure Codec (T : Config) where
  encodeMultiSigner    : T.MultiSigner → List UInt8
  encodeMultiSignature : T.MultiSignature → List UInt8
  encodeTrieProof      : T.TrieProof → List UInt8
  encodeWeight         : Weight → List UInt8

variable {T : Config}

def encodeOption (encode : α → List UInt8) : Option α → List UInt8
  | none   => [0]
  | some a => 1 :: encode a

def HashingAlgorithm.encode : HashingAlgorithm → List UInt8
  | blake2b256 => [0]
  | sha2256    => [1]
  | keccak256  => [2]

def CidConfig.encode (c : CidConfig) : List UInt8 :=
  littleEndian 8 c.codec ++ c.hashing.encode

def TransactionRef.encode : TransactionRef T → List UInt8
  | position block index => 0 :: (littleEndian 4 block ++ littleEndian 4 index)
  | contentHash hash     => 1 :: T.encodeContentHash hash

def Quota.encode (q : Quota) : List UInt8 :=
  littleEndian 4 q.transactions ++ littleEndian 8 q.bytes

def AuthorizerBudget.encode (b : AuthorizerBudget) : List UInt8 :=
  encodeOption Quota.encode b.quota ++ encodeOption (littleEndian 4) b.validUntil ++
    [if b.feeless then 1 else 0]

-- A call is its index in the pallet, followed by its fields. The data of a call is its last field.

def TransactionStorage.Call.encode (codec : Codec T) : Call T → List UInt8
  | store data                              => 0 :: encodeBytes data.bytes
  | authorizeAccount who transactions bytes =>
    3 :: (T.encodeAccountId who ++ littleEndian 4 transactions ++ littleEndian 8 bytes)
  | authorizePreimage hash maxSize          =>
    4 :: (T.encodeContentHash hash ++ littleEndian 8 maxSize)
  | removeExpiredAccountAuthorization who   => 5 :: T.encodeAccountId who
  | removeExpiredPreimageAuthorization hash => 6 :: T.encodeContentHash hash
  | refreshAccountAuthorization who         => 7 :: T.encodeAccountId who
  | refreshPreimageAuthorization hash       => 8 :: T.encodeContentHash hash
  | storeWithCidConfig cid data             => 9 :: (cid.encode ++ encodeBytes data.bytes)
  | applyBlockInherents proof               =>
    14 :: encodeOption (fun p => encodeBytes p.chunk ++ codec.encodeTrieProof p.proof) proof
  | addAuthorizer who budget                => 15 :: (T.encodeAccountId who ++ budget.encode)
  | removeAuthorizer who                    => 16 :: T.encodeAccountId who
  | removeExhaustedAuthorizer who           => 17 :: T.encodeAccountId who

def DataRenewal.Call.encode : Call T → List UInt8
  | renew entry            => 0 :: entry.encode
  | forceRenew entry       => 1 :: entry.encode
  | enableAutoRenew hash   => 2 :: T.encodeContentHash hash
  | disableAutoRenew hash  => 3 :: T.encodeContentHash hash
  | processPendingRenewals => [4]

def HopPromotion.Call.encode (codec : Codec T) : Call T → List UInt8
  | promote signer signature ts data =>
    0 :: (codec.encodeMultiSigner signer ++ codec.encodeMultiSignature signature ++
      littleEndian 8 ts ++ encodeBytes data.bytes)
  | promoteV2 signer signature ts recipientsHash data =>
    1 :: (codec.encodeMultiSigner signer ++ codec.encodeMultiSignature signature ++
      littleEndian 8 ts ++ T.encodeContentHash recipientsHash ++ encodeBytes data.bytes)

-- The encoding of the calls of a runtime. Those of the three pallets start with the index of the pallet,
-- which both runtimes give the same. The utility and the sudo pallet are not defined in this repository:
-- what a wrapper puts before the calls that it wraps is left open. The calls are its last field, unless
-- a weight follows them.
structure CallCodec (T : Config) extends Codec T where
  encode              : RuntimeCall T → List UInt8
  transactionStorage  : ∀ call, encode (.transactionStorage call) = 40 :: call.encode toCodec
  hopPromotion        : ∀ call, encode (.hopPromotion call) = 41 :: call.encode toCodec
  dataRenewal         : ∀ call, encode (.dataRenewal call) = 42 :: call.encode
  batch               : ∀ calls, calls.flatMap encode <:+ encode (.batch calls)
  batchAll            : ∀ calls, calls.flatMap encode <:+ encode (.batchAll calls)
  forceBatch          : ∀ calls, calls.flatMap encode <:+ encode (.forceBatch calls)
  asDerivative        : ∀ index call, encode call <:+ encode (.asDerivative index call)
  dispatchAs          : ∀ asOrigin call, encode call <:+ encode (.dispatchAs asOrigin call)
  dispatchAsFallible  : ∀ asOrigin call, encode call <:+ encode (.dispatchAsFallible asOrigin call)
  withWeight          : ∀ call weight,
    encode call ++ encodeWeight weight <:+ encode (.withWeight call weight)
  ifElse              : ∀ main fallback,
    encode main ++ encode fallback <:+ encode (.ifElse main fallback)
  «sudo»              : ∀ call, encode call <:+ encode (.sudo call)
  sudoUncheckedWeight : ∀ call weight,
    encode call ++ encodeWeight weight <:+ encode (.sudoUncheckedWeight call weight)
  sudoAs              : ∀ who call, encode call <:+ encode (.sudoAs who call)

end Bulletin
