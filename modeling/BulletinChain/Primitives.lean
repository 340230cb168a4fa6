import BulletinChain.Lib.Saturating
import BulletinChain.Lib.Scale

namespace Bulletin

-- The largest block number of the runtimes, which use `u32`.
abbrev maxBlockNumber : Nat := Machine.u32Max

inductive EntryKind
  | store
  | renew
deriving DecidableEq

def EntryKind.isRenew : EntryKind → Bool
  | store => false
  | renew => true

inductive HashingAlgorithm
  | blake2b256
  | sha2256
  | keccak256
deriving DecidableEq

def HashingAlgorithm.multihashCode : HashingAlgorithm → Nat
  | blake2b256 => 0xb220
  | sha2256    => 0x12
  | keccak256  => 0x1b

abbrev CidCodec := Nat

def rawCodec : CidCodec := 0x55

structure CidConfig where
  codec   : CidCodec
  hashing : HashingAlgorithm

-- The bytes of a call argument. A `Vec<u8>` of the 32-bit runtime is shorter than `2 ^ 32`, so that
-- `data.len() as u32` loses nothing.
structure Data where
  bytes     : List UInt8
  length_lt : bytes.length < 2 ^ 32

def Data.len (d : Data) : Nat :=
  d.bytes.length

inductive InvalidTransaction
  | call
  | payment
  | stale
  | badProof
  | exhaustsResources
  | badSigner
  | custom (code : Nat)
deriving DecidableEq

-- The codes below 13 are one namespace, shared by the storage and the renewal pallet.
namespace InvalidTransaction

def impossible : InvalidTransaction := custom 0
def badDataSize : InvalidTransaction := custom 1
def renewedNotFound : InvalidTransaction := custom 2
def authorizationNotFound : InvalidTransaction := custom 3
def authorizationNotExpired : InvalidTransaction := custom 4
def permanentAllowanceExceeded : InvalidTransaction := custom 5
def chainPermanentCapReached : InvalidTransaction := custom 6
def authorizerNotFound : InvalidTransaction := custom 7
def authorizationNotExhausted : InvalidTransaction := custom 8
def autoRenewalNotEnabled : InvalidTransaction := custom 9
def notAutoRenewalOwner : InvalidTransaction := custom 10
def renewalAlreadyEnabled : InvalidTransaction := custom 11
def cannotDisablePrepaidAutoRenewal : InvalidTransaction := custom 12
def noRecipients : InvalidTransaction := custom 100

end InvalidTransaction

structure ValidTransaction where
  priority  : Nat
  requires  : List (List UInt8)
  provides  : List (List UInt8)
  longevity : Nat
  propagate : Bool

namespace ValidTransaction

def default : ValidTransaction where
  priority  := 0
  requires  := []
  provides  := []
  longevity := Machine.u64Max
  propagate := true

def combineWith (v w : ValidTransaction) : ValidTransaction where
  priority  := Machine.saturatingAdd Machine.u64Max v.priority w.priority
  requires  := v.requires ++ w.requires
  provides  := v.provides ++ w.provides
  longevity := min v.longevity w.longevity
  propagate := v.propagate && w.propagate

end ValidTransaction

structure ValidTransactionParams where
  tagPrefix : String
  priority  : Nat
  longevity : Nat

namespace ValidTransactionParams

-- The tag is the encoding of the pair of the tag's family and the subject.
def provides (p : ValidTransactionParams) (subject : List UInt8) : ValidTransaction where
  priority  := p.priority
  requires  := []
  provides  := [Scale.encodeString p.tagPrefix ++ subject]
  longevity := p.longevity
  propagate := true

def untagged (p : ValidTransactionParams) : ValidTransaction :=
  { ValidTransaction.default with priority := p.priority, longevity := p.longevity }

end ValidTransactionParams

inductive CheckContext
  | validate
  | preDispatch
deriving DecidableEq

namespace CheckContext

def consumeAuthorization : CheckContext → Bool
  | validate    => false
  | preDispatch => true

def wantValidTransaction : CheckContext → Bool
  | validate    => true
  | preDispatch => false

end CheckContext

inductive TransactionSource
  | inBlock
  | local
  | external
deriving DecidableEq

end Bulletin
