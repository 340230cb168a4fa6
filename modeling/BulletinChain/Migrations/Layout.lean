import BulletinChain.Lib.Codec
import BulletinChain.Lib.KeyWalk
import BulletinChain.Migrations
import Mathlib.Data.List.Lex

namespace Bulletin

open Scale Machine

-- How the storage of a runtime is laid out. Accounts, chunk roots and content hashes are arrays of
-- bytes, and the keys of a map are hashed.
structure Wire (T : Config) where
  accountId     : Scale.Codec T.AccountId
  chunkRoot     : Scale.Codec T.ChunkRoot
  contentHash   : Scale.Codec T.ContentHash
  blake2128     : List UInt8 → List UInt8
  isAccountId   : accountId.IsArray 32
  isChunkRoot   : chunkRoot.IsArray 32
  isContentHash : contentHash.IsArray 32

-- The layout before version 1.
structure OldTransactionInfo (T : Config) where
  chunkRoot   : T.ChunkRoot
  contentHash : T.ContentHash
  size        : Nat
  blockChunks : Nat

-- The layout of version 2 is that of version 1.
abbrev V2TransactionInfo := V1TransactionInfo

-- The layout of version 4.
structure V4AuthorizerBudget where
  quota               : Option Quota
  authorizationPeriod : Option Nat
  validUntil          : Option Nat

variable {T : Config}

def u32 : Scale.Codec Nat := .uint 4
def u64 : Scale.Codec Nat := .uint 8
def bool : Scale.Codec Bool := .enum [false, true] (by decide)

def HashingAlgorithm.codec : Scale.Codec HashingAlgorithm :=
  .enum [blake2b256, sha2256, keccak256] (by decide)

def EntryKind.codec : Scale.Codec EntryKind :=
  .enum [store, renew] (by decide)

def Quota.codec : Scale.Codec Quota :=
  (u32.pair u64).iso (fun (transactions, bytes) => ⟨transactions, bytes⟩)
    (fun q => (q.transactions, q.bytes)) fun _ => rfl

def AuthorizerBudget.codec : Scale.Codec AuthorizerBudget :=
  (Quota.codec.option.pair (u32.option.pair bool)).iso
    (fun (quota, validUntil, feeless) => ⟨quota, validUntil, feeless⟩)
    (fun b => (b.quota, b.validUntil, b.feeless)) fun _ => rfl

def V4AuthorizerBudget.codec : Scale.Codec V4AuthorizerBudget :=
  (Quota.codec.option.pair (u32.option.pair u32.option)).iso
    (fun (quota, authorizationPeriod, validUntil) => ⟨quota, authorizationPeriod, validUntil⟩)
    (fun b => (b.quota, b.authorizationPeriod, b.validUntil)) fun _ => rfl

def AuthorizationExtent.codec : Scale.Codec AuthorizationExtent :=
  (u32.pair (u32.pair (u64.pair (u64.pair u64)))).iso
    (fun (transactions, transactionsAllowance, bytes, bytesPermanent, bytesAllowance) =>
      ⟨transactions, transactionsAllowance, bytes, ⟨bytesPermanent⟩, bytesAllowance⟩)
    (fun e => (e.transactions, e.transactionsAllowance, e.bytes, e.extra.bytesPermanent,
      e.bytesAllowance)) fun _ => rfl

def Authorization.codec : Scale.Codec Authorization :=
  (AuthorizationExtent.codec.pair u32).iso (fun (extent, expiration) => ⟨extent, expiration⟩)
    (fun a => (a.extent, a.expiration)) fun _ => rfl

def V1Authorization.codec : Scale.Codec V1Authorization :=
  ((u32.pair u64).pair u32).iso
    (fun ((transactions, bytes), expiration) => ⟨⟨transactions, bytes⟩, expiration⟩)
    (fun a => ((a.extent.transactions, a.extent.bytes), a.expiration)) fun _ => rfl

namespace Wire

def oldTransactionInfo (W : Wire T) : Scale.Codec (OldTransactionInfo T) :=
  (W.chunkRoot.pair (W.contentHash.pair (u32.pair u32))).iso
    (fun (chunkRoot, contentHash, size, blockChunks) => ⟨chunkRoot, contentHash, size, blockChunks⟩)
    (fun i => (i.chunkRoot, i.contentHash, i.size, i.blockChunks)) fun _ => rfl

def v1TransactionInfo (W : Wire T) : Scale.Codec (V1TransactionInfo T) :=
  (W.chunkRoot.pair (W.contentHash.pair
      (HashingAlgorithm.codec.pair (u64.pair (u32.pair u32))))).iso
    (fun (chunkRoot, contentHash, hashing, cidCodec, size, blockChunks) =>
      ⟨chunkRoot, contentHash, hashing, cidCodec, size, blockChunks⟩)
    (fun i => (i.chunkRoot, i.contentHash, i.hashing, i.cidCodec, i.size, i.blockChunks)) fun _ => rfl

def transactionInfo (W : Wire T) : Scale.Codec (TransactionInfo T) :=
  (W.chunkRoot.pair (W.contentHash.pair (HashingAlgorithm.codec.pair
      (u64.pair (u32.pair (u32.pair (u32.pair EntryKind.codec))))))).iso
    (fun (chunkRoot, contentHash, hashing, cidCodec, size, extrinsicIndex, blockChunks, kind) =>
      ⟨chunkRoot, contentHash, hashing, cidCodec, size, extrinsicIndex, blockChunks, kind⟩)
    (fun i => (i.chunkRoot, i.contentHash, i.hashing, i.cidCodec, i.size, i.extrinsicIndex,
      i.blockChunks, i.kind)) fun _ => rfl

def renewalData (W : Wire T) : Scale.Codec (RenewalData T) :=
  (W.accountId.pair (bool.pair bool)).iso
    (fun (account, recurring, paid) => ⟨account, recurring, paid⟩)
    (fun d => (d.account, d.recurring, d.paid)) fun _ => rfl

theorem oldTransactionInfo_sized (W : Wire T) : W.oldTransactionInfo.Sized 72 :=
  (W.isChunkRoot.sized.pair <| W.isContentHash.sized.pair <|
    (Scale.Codec.Sized.uint 4).pair (.uint 4)).iso _

theorem oldTransactionInfo_total (W : Wire T) : W.oldTransactionInfo.Total 72 :=
  (Scale.Codec.Total.pair W.isChunkRoot.sized W.isChunkRoot.total <|
    .pair W.isContentHash.sized W.isContentHash.total <| .pair (.uint 4) (.uint 4) (.uint 4)).iso _

theorem v1TransactionInfo_sized (W : Wire T) : W.v1TransactionInfo.Sized 81 :=
  (W.isChunkRoot.sized.pair <| W.isContentHash.sized.pair <| (Scale.Codec.Sized.enum _).pair <|
    (Scale.Codec.Sized.uint 8).pair <| (Scale.Codec.Sized.uint 4).pair (.uint 4)).iso _

theorem transactionInfo_sized (W : Wire T) : W.transactionInfo.Sized 86 :=
  (W.isChunkRoot.sized.pair <| W.isContentHash.sized.pair <| (Scale.Codec.Sized.enum _).pair <|
    (Scale.Codec.Sized.uint 8).pair <| (Scale.Codec.Sized.uint 4).pair <|
    (Scale.Codec.Sized.uint 4).pair <| (Scale.Codec.Sized.uint 4).pair (.enum _)).iso _

end Wire

theorem maxBlockTransactions_lt (T : Config) : T.maxBlockTransactions < 2 ^ 32 :=
  T.maxBlockTransactions_le.trans_lt (by decide)

-- A value of `Transactions`, in the layout of its entries.
abbrev entriesCodec (T : Config) (c : Scale.Codec α) :
    Scale.Codec (BoundedVec α T.maxBlockTransactions) :=
  c.boundedVec T.maxBlockTransactions (maxBlockTransactions_lt T)

-- The bytes of a list that is not empty and of which every field is in range.
structure IsList (T : Config) (c : Scale.Codec α) (raw : List UInt8)
    (l : BoundedVec α T.maxBlockTransactions) : Prop where
  nonempty : l.val ≠ []
  valid    : ∀ e ∈ l.val, c.Valid e
  encoded  : raw = (entriesCodec T c).encode l

namespace IsList

variable {c : Scale.Codec α} {d : Scale.Codec β} {l : BoundedVec α T.maxBlockTransactions}

theorem read (h : IsList T c raw l) : (entriesCodec T c).read raw = some l :=
  h.encoded ▸ Scale.Codec.read_encode h.valid

-- A list does not read as one of longer entries.
theorem read_eq_none (h : IsList T c raw l) (hc : c.Sized m) (hd : d.Sized n) (hl : m < n) :
    (entriesCodec T d).read raw = none :=
  h.encoded ▸ Scale.Codec.reread_eq_none hc hd hl h.nonempty

end IsList

-- `Transactions` as the trie holds it. Its keys are in the order of their `Blake2_128Concat` hashes.
abbrev RawTransactions := Finmap fun _ : UInt32 => List UInt8

namespace Wire

def hashedKeyFor (W : Wire T) (block : UInt32) : List UInt8 :=
  let encoded := littleEndian 4 block.toNat
  W.blake2128 encoded ++ encoded

theorem hashedKeyFor_injective (W : Wire T) : Function.Injective W.hashedKeyFor := by
  intro a b h
  have h : u32.encode a.toNat = u32.encode b.toNat := (List.append_inj' h (by simp)).right
  have ha := Scale.Codec.read_encode (c := u32) a.toNat_lt
  have hb := Scale.Codec.read_encode (c := u32) b.toNat_lt
  rw [h, hb] at ha
  exact UInt32.toNat_inj.mp (Option.some.inj ha).symm

def order (W : Wire T) : KeyOrder UInt32 (List Nat) where
  rank block := (W.hashedKeyFor block).map UInt8.toNat
  injective  := (List.map_injective_iff.mpr fun _ _ => UInt8.toNat_inj.mp).comp W.hashedKeyFor_injective

end Wire

-- A runtime to try the migrations on: the one to try the pallets on, with arrays for its hashes and
-- accounts. The digest of a key is the key from its last byte to its first.

abbrev Bytes32 := List.Vector UInt8 32

def Bytes32.pad (bs : List UInt8) : Bytes32 :=
  ⟨(bs ++ List.replicate 32 0).take 32, by simp⟩

def Config.arrays : Config :=
  { Config.mock with
    AccountId             := Bytes32
    ContentHash           := Bytes32
    ChunkRoot             := Bytes32
    MultiSigner           := Bytes32
    accountIdEq           := inferInstance
    contentHashEq         := inferInstance
    encodeAccountId who   := who.toList
    encodeContentHash h   := h.toList
    hash _ data           := .pad data
    cidV1 _ _ h           := some h.toList
    orderedRoot chunks    := .pad chunks.flatten
    verifyProof _ _ _ _   := true
    intoAccount signer    := signer
    verifySignature _ _ _ := true
    genesisHash           := .pad []
    isListedAuthorizer _  := false }

def Wire.arrays : Wire .arrays where
  accountId     := Scale.Codec.byte.vector 32
  chunkRoot     := Scale.Codec.byte.vector 32
  contentHash   := Scale.Codec.byte.vector 32
  blake2128     := List.reverse
  isAccountId   := Scale.Codec.isArray_vector 32
  isChunkRoot   := Scale.Codec.isArray_vector 32
  isContentHash := Scale.Codec.isArray_vector 32

end Bulletin
