import BulletinChain.Chain

namespace Bulletin

variable {T : Config}

-- `ProvideInherent::create_inherent` of the two pallets.

-- The node puts a proof into the inherent data if it has one to give.
def TransactionStorage.createInherent (proof : Option (TransactionStorageProof T)) : Option (Call T) :=
  proof.map fun proof => .applyBlockInherents (some proof)

def DataRenewal.createInherent (s : State T) : Option (Call T) :=
  if s.pendingRenewals.val.isEmpty then none else some .processPendingRenewals

-- The inherents that the runtime creates for a block that has been opened, in the order of the
-- pallets. Those of other pallets are left out.
def createInherents (s : State T) (proof : Option (TransactionStorageProof T)) :
    List (RuntimeCall T) :=
  (TransactionStorage.createInherent proof).toList.map .transactionStorage ++
    (DataRenewal.createInherent s).toList.map .dataRenewal

-- The class of the inherents is mandatory: a block in which one of them fails is not a block.
def Chain.mandatory (c : Chain T) (call : RuntimeCall T) : Option (Chain T) :=
  match call.dispatch c.state .none with
  | .ok _    => c.step (.extrinsic (.unsigned call))
  | .error _ => none

end Bulletin
