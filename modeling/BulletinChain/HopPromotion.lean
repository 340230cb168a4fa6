import BulletinChain.TransactionStorage.Calls

namespace Bulletin

open Machine Except

variable {T : Config}

namespace HopPromotion

inductive Call (T : Config)
  | promote (signer : T.MultiSigner) (signature : T.MultiSignature) (submitTimestamp : Nat)
      (data : Data)
  | promoteV2 (signer : T.MultiSigner) (signature : T.MultiSignature) (submitTimestamp : Nat)
      (recipientsHash : T.ContentHash) (data : Data)

def hopSubmitContext : List UInt8 := "hop-submit-v1:".toUTF8.toList

def hopSubmitContextV2 : List UInt8 := "hop-submit-v2:".toUTF8.toList

variable (T) in
-- The hash of the encoding of an empty list of recipients, the single byte 0.
def emptyRecipientsHash : T.ContentHash :=
  T.hash .blake2b256 [0]

def signingPayload (dataHash : T.ContentHash) (submitTimestamp : Nat) : T.ContentHash :=
  T.hash .blake2b256 <|
    hopSubmitContext ++ T.encodeContentHash dataHash ++ Scale.littleEndian 8 submitTimestamp

def signingPayloadV2 (dataHash : T.ContentHash) (submitTimestamp : Nat)
    (genesisHash recipientsHash : T.ContentHash) : T.ContentHash :=
  T.hash .blake2b256 <|
    hopSubmitContextV2 ++ T.encodeContentHash dataHash ++ Scale.littleEndian 8 submitTimestamp ++
      T.encodeContentHash genesisHash ++ T.encodeContentHash recipientsHash

def canAccountPromote (s : State T) (who : T.AccountId) : Bool :=
  s.accountHasActiveAuthorization who

def absDiff (a b : Nat) : Nat :=
  (a - b) + (b - a)

-- The checks before the signature that both versions make.
def authorizeCommon (source : TransactionSource) (submitTimestamp : Nat) (data : Data) :
    Check.Of T Unit := do
  .reading fun _ => ensure (source ≠ .external) .call
  TransactionStorage.checkSizeAndRoom data.len
  .reading fun s => ensure (absDiff s.timestamp submitTimestamp ≤ T.submitTimestampTolerance) .stale

def authorizeSigner (signer : T.MultiSigner) (signature : T.MultiSignature)
    (payload : T.ContentHash) : Check.Of T Unit :=
  .reading fun s => do
    let accountId := T.intoAccount signer
    ensure (canAccountPromote s accountId) .badSigner
    ensure (T.verifySignature signature payload accountId) .badProof

def promoteValidity (dataHash : T.ContentHash) : ValidTransaction :=
  { T.promoteTxParams.provides (T.encodeContentHash dataHash) with propagate := false }

def authorizePromote (source : TransactionSource) (signer : T.MultiSigner)
    (signature : T.MultiSignature) (submitTimestamp : Nat) (data : Data) :
    Check.Of T ValidTransaction := do
  authorizeCommon source submitTimestamp data
  let dataHash := T.hash .blake2b256 data.bytes
  authorizeSigner signer signature (signingPayload dataHash submitTimestamp)
  return promoteValidity dataHash

def authorizePromoteV2 (source : TransactionSource) (signer : T.MultiSigner)
    (signature : T.MultiSignature) (submitTimestamp : Nat) (recipientsHash : T.ContentHash)
    (data : Data) : Check.Of T ValidTransaction := do
  authorizeCommon source submitTimestamp data
  .reading fun _ => ensure (recipientsHash ≠ emptyRecipientsHash T) .noRecipients
  let dataHash := T.hash .blake2b256 data.bytes
  authorizeSigner signer signature
    (signingPayloadV2 dataHash submitTimestamp T.genesisHash recipientsHash)
  return promoteValidity dataHash

def authorize (source : TransactionSource) : Call T → Check.Of T ValidTransaction
  | .promote signer signature ts data      => authorizePromote source signer signature ts data
  | .promoteV2 signer signature ts hr data => authorizePromoteV2 source signer signature ts hr data

def ensureSystemAuthorized : Origin T → Except DispatchError Unit
  | .systemAuthorized => ok ()
  | _                 => error .badOrigin

def Call.data : Call T → Data
  | .promote _ _ _ data | .promoteV2 _ _ _ _ data => data

-- The two calls have the same body: the arguments before the data are for the authorize hook.
def dispatch (s : State T) (origin : Origin T) (call : Call T) : Except DispatchError (State T) := do
  ensureSystemAuthorized origin
  s.doStore call.data .blake2b256 rawCodec

end HopPromotion
end Bulletin
