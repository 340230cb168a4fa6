import BulletinChain.DataRenewal.Calls
import BulletinChain.HopPromotion

namespace Bulletin

variable {T : Config}

structure Weight where
  refTime   : Nat
  proofSize : Nat

-- The calls of the runtimes: those of the three pallets, the wrappers of the utility and the sudo
-- pallet, and all others, which do not touch the state of the three pallets.
inductive RuntimeCall (T : Config)
  | transactionStorage (call : TransactionStorage.Call T)
  | hopPromotion (call : HopPromotion.Call T)
  | dataRenewal (call : DataRenewal.Call T)
  | batch (calls : List (RuntimeCall T))
  | asDerivative (index : Nat) (call : RuntimeCall T)
  | batchAll (calls : List (RuntimeCall T))
  | dispatchAs (asOrigin : Origin T) (call : RuntimeCall T)
  | forceBatch (calls : List (RuntimeCall T))
  | withWeight (call : RuntimeCall T) (weight : Weight)
  | ifElse (main fallback : RuntimeCall T)
  | dispatchAsFallible (asOrigin : Origin T) (call : RuntimeCall T)
  | sudo (call : RuntimeCall T)
  | sudoUncheckedWeight (call : RuntimeCall T) (weight : Weight)
  | sudoAs (who : T.AccountId) (call : RuntimeCall T)
  | other (encoded : List UInt8)

namespace RuntimeCall

-- `utility_inner_calls`. An `if_else` runs one of its branches, but both are inspected.
def utilityInnerCalls : RuntimeCall T → List (RuntimeCall T)
  | batch calls | batchAll calls | forceBatch calls => calls
  | asDerivative _ call | dispatchAs _ call | withWeight call _ | dispatchAsFallible _ call => [call]
  | ifElse main fallback => [main, fallback]
  | _ => []

-- `inspect_wrapper` of the runtimes. The sudo pallet is left out on purpose: its key may store
-- without an authorization.
def inspectWrapper (call : RuntimeCall T) : Option (List (RuntimeCall T)) :=
  match call.utilityInnerCalls with
  | []    => none
  | inner => some inner

def isInherent : RuntimeCall T → Bool
  | transactionStorage call => call.isInherent
  | dataRenewal call        => call.isInherent
  | _                       => false

end RuntimeCall
end Bulletin
