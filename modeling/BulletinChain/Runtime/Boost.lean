import BulletinChain.Runtime.Call

namespace Bulletin

open Machine

variable {T : Config}

-- `ALLOWANCE_PRIORITY_BOOST`
def allowancePriorityBoost : Nat := 1000000000

namespace AuthorizationExtent

def default : AuthorizationExtent :=
  ⟨0, 0, 0, ⟨0⟩, 0⟩

-- Whether an extent that already counts the transaction is in budget on both axes.
def inBudget (extent : AuthorizationExtent) : Bool :=
  if extent.bytesAllowance = 0 then
    false
  else
    extent.bytes ≤ extent.bytesAllowance && extent.transactions ≤ extent.transactionsAllowance

end AuthorizationExtent

-- The bonus for an extent that already counts the transaction: `none` if the arithmetic panics.
abbrev BoostStrategy := AuthorizationExtent → Option Nat

def ProportionalBoost.boost : BoostStrategy := fun extent => do
  if ¬extent.inBudget then
    return 0
  let bytesRem := extent.bytesAllowance - extent.bytes
  let bytesShare ← checkedDiv (← checkedMul u128Max allowancePriorityBoost bytesRem)
    extent.bytesAllowance
  let txShare ←
    if extent.transactionsAllowance = 0 then
      pure 0
    else do
      let txRem := extent.transactionsAllowance - extent.transactions
      checkedDiv (← checkedMul u128Max allowancePriorityBoost txRem) extent.transactionsAllowance
  -- `as u64` keeps the low bits.
  return min bytesShare txShare % 2 ^ 64

def FlatBoost.boost : BoostStrategy := fun extent =>
  if extent.inBudget then some allowancePriorityBoost else some 0

namespace State

-- An expired authorization counts as a missing one.
def authorizationExtent (s : State T) (scope : AuthorizationScope T) : AuthorizationExtent :=
  match s.authorizations.lookup scope with
  | none               => .default
  | some authorization =>
    if authorization.expired s.blockNumber then .default else authorization.extent

def accountAuthorizationExtent (s : State T) (who : T.AccountId) : AuthorizationExtent :=
  s.authorizationExtent (.account who)

end State

namespace AllowanceBasedPriority

-- The boost of a store of that many bytes with the origin that the extensions before this one left.
def priority (B : BoostStrategy) (s : State T) (origin : Origin T) (thisTxBytes : Nat) : Option Nat :=
  match origin with
  | .authorized who (.account _) =>
    let extent := s.accountAuthorizationExtent who
    B { extent with
      bytes        := saturatingAdd u64Max extent.bytes thisTxBytes
      transactions := saturatingAdd u32Max extent.transactions 1 }
  | _ => some 0

-- Only the two calls that store are boosted, and the origin is passed on as it is.
def validate (B : BoostStrategy) (s : State T) (origin : Origin T) (call : RuntimeCall T) :
    Option (ValidTransaction × Origin T) :=
  match call with
  | .transactionStorage (.store data) | .transactionStorage (.storeWithCidConfig _ data) => do
    let priority ← priority B s origin data.len
    return ({ ValidTransaction.default with priority }, origin)
  | _ => some (.default, origin)

end AllowanceBasedPriority
end Bulletin
