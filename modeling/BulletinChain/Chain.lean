import BulletinChain.Hooks
import BulletinChain.Runtime.Extension

namespace Bulletin

open ValidateAuthorizedCalls

variable {T : Config}

-- `pre_dispatch` of an unsigned extrinsic. Other pallets' inherents pass, and neither the wrappers nor
-- the promotion calls have an unsigned validator.
def RuntimeCall.preDispatch : RuntimeCall T → Check.Of T Unit
  | .transactionStorage call => TransactionStorage.preDispatch call
  | .dataRenewal call        => DataRenewal.preDispatch call
  | .other _                 => return
  | _                        => throw .call

-- The effect of a wrapper is that of its inner calls, each of which is a dispatch of its own.
def RuntimeCall.dispatch (s : State T) (origin : Origin T) :
    RuntimeCall T → Except DispatchError (State T)
  | .transactionStorage call => TransactionStorage.dispatch s origin call
  | .hopPromotion call       => HopPromotion.dispatch s origin call
  | .dataRenewal call        => DataRenewal.dispatch s origin call
  | _                        => .ok s

inductive Extrinsic (T : Config)
  | signed (who : T.AccountId) (call : RuntimeCall T)
  | unsigned (call : RuntimeCall T)
  | general (call : HopPromotion.Call T)

namespace Extrinsic

-- The storage layer of a dispatch drops the writes of one that fails, and only those.
def dispatched (s : State T) (origin : Origin T) (call : RuntimeCall T) : State T :=
  match call.dispatch s origin with
  | .ok s'   => s'
  | .error _ => s

-- What precedes the dispatch: the origin to dispatch with, unless the extrinsic is not valid.
def admission : Extrinsic T → Check.Of T (Origin T)
  | signed who call => do
    let (_, val, origin) ← validate (.signed who) call
    prepare val call
    return origin
  | unsigned call => do
    call.preDispatch
    return .none
  | general call => do
    let _ ← HopPromotion.authorize .inBlock call
    return .systemAuthorized

def call : Extrinsic T → RuntimeCall T
  | signed _ call | unsigned call => call
  | general call                  => .hopPromotion call

-- A block with an invalid extrinsic is not a block: `none`.
def apply (s : State T) (x : Extrinsic T) : Option (State T) :=
  match x.admission s with
  | (.error _, _)   => none
  | (.ok origin, s) =>
    let s := dispatched s origin x.call
    some { s with extrinsicIndex := s.extrinsicIndex.map (· + 1) }

end Extrinsic

-- The origins that a dispatch can have outside the extensions: that of Root or of a signer for the
-- inner call of a wrapper, and that of a message from another chain. Root can dispatch a call without an
-- origin or with that of the storage pallet too, by `dispatch_as`; such calls are left out.
def Origin.isPlain : Origin T → Bool
  | .root | .signed _ | .xcm _ => true
  | _                          => false

inductive Action (T : Config)
  | onInitialize (parentHash : List UInt8) (moment : Nat)
  | extrinsic (x : Extrinsic T)
  | dispatch (origin : Origin T) (call : RuntimeCall T)
  | setRetentionPeriod (period : Nat)
  | onFinalize

structure Chain (T : Config) where
  state   : State T
  inBlock : Bool

namespace Chain

def initialized (s : State T) (parentHash : List UInt8) (moment : Nat) : State T :=
  let n := s.blockNumber + 1
  let s := { s with
    blockNumber     := n
    parentHash      := parentHash
    timestamp       := moment
    extrinsicIndex  := some 0
    indexOperations := []
    events          := [] }
  s.onInitialize n

def finalized (s : State T) : Option (State T) :=
  { s with extrinsicIndex := none }.onFinalize s.blockNumber

def step (c : Chain T) : Action T → Option (Chain T)
  | .onInitialize parentHash moment =>
    if ¬c.inBlock ∧ c.state.blockNumber < maxBlockNumber then
      some ⟨initialized c.state parentHash moment, true⟩
    else
      none
  | .extrinsic x =>
    if c.inBlock then (x.apply c.state).map (⟨·, true⟩) else none
  | .dispatch origin call =>
    if c.inBlock ∧ origin.isPlain then some ⟨Extrinsic.dispatched c.state origin call, true⟩ else none
  | .setRetentionPeriod period =>
    some { c with state := { c.state with retentionPeriod := period } }
  | .onFinalize =>
    if c.inBlock then (finalized c.state).map (⟨·, false⟩) else none

end Chain

structure GenesisConfig (T : Config) where
  retentionPeriod        : Nat
  allowedAuthorizers     : List (T.AccountId × Nat × Nat)
  accountAuthorizations  : List (T.AccountId × Nat × Nat)
  preimageAuthorizations : List (T.ContentHash × Nat)

namespace GenesisConfig

def empty (retentionPeriod : Nat) : State T where
  blockNumber              := 0
  retentionPeriod
  transactions             := ∅
  blockTransactions        := .empty
  transactionByContentHash := ∅
  renewals                 := ∅
  pendingRenewals          := .empty
  permanentStorageUsed     := 0
  authorizations           := ∅
  allowedAuthorizers       := ∅
  providers _              := 0
  proofChecked             := false
  parentHash               := []
  extrinsicIndex           := none
  timestamp                := 0
  indexOperations          := []
  events                   := []

def buildAccount (s : State T) : T.AccountId × Nat × Nat → State T
  | (who, transactions, bytes) =>
    let a := State.freshAuthorization transactions bytes T.authorizationPeriod
    { s with authorizations := s.authorizations.insert (.account who) a }.authorizationAdded
      (.account who)

def buildPreimage (s : State T) : T.ContentHash × Nat → State T
  | (contentHash, maxSize) =>
    let a := State.freshAuthorization 1 maxSize T.authorizationPeriod
    { s with authorizations := s.authorizations.insert (.preimage contentHash) a }

def buildAuthorizer (s : State T) : T.AccountId × Nat × Nat → State T
  | (who, transactions, bytes) =>
    let isNew := (s.allowedAuthorizers.lookup who).isNone
    let budget := ⟨some ⟨transactions, bytes⟩, none, true⟩
    let s := { s with allowedAuthorizers := s.allowedAuthorizers.insert who budget }
    if isNew then s.incProviders who else s

def build (g : GenesisConfig T) : State T :=
  let s := g.accountAuthorizations.foldl buildAccount (empty g.retentionPeriod)
  let s := g.preimageAuthorizations.foldl buildPreimage s
  g.allowedAuthorizers.foldl buildAuthorizer s

def chain (g : GenesisConfig T) : Chain T :=
  ⟨g.build, false⟩

end GenesisConfig
end Bulletin
