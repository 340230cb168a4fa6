import BulletinChain.Config
import BulletinChain.Lib.BoundedVec
import BulletinChain.Lib.FiniteMap

namespace Bulletin

variable (T : Config)

abbrev Entries := BoundedVec (TransactionInfo T) T.maxBlockTransactions

abbrev Pending := T.ContentHash × TransactionInfo T × RenewalData T

-- The storage that says what the chain retains: the entries of the sealed blocks and of the current
-- one, the content hash index, the renewal registrations and the count of renewed bytes.
@[ext]
structure Ledger where
  blockNumber              : Nat
  retentionPeriod          : Nat
  transactions             : Finmap fun _ : Nat => Entries T
  blockTransactions        : Entries T
  transactionByContentHash : Finmap fun _ : T.ContentHash => Nat × Nat
  renewals                 : Finmap fun _ : T.ContentHash => RenewalData T
  pendingRenewals          : BoundedVec (Pending T) T.maxBlockTransactions
  permanentStorageUsed     : Nat

-- The rest: who may use the chain, and what the runtime knows of the block it executes.
@[ext]
structure State extends Ledger T where
  authorizations     : Finmap fun _ : AuthorizationScope T => Authorization
  allowedAuthorizers : Finmap fun _ : T.AccountId => AuthorizerBudget
  providers          : T.AccountId → Nat
  proofChecked       : Bool
  parentHash         : List UInt8
  extrinsicIndex     : Option Nat
  timestamp          : Nat
  indexOperations    : List (IndexOperation T)
  events             : List (Event T)

variable {T}

namespace State

def deposit (s : State T) (e : Event T) : State T :=
  { s with events := s.events ++ [e] }

@[simp]
theorem deposit_toLedger (s : State T) (e : Event T) : (s.deposit e).toLedger = s.toLedger :=
  rfl

@[simp]
theorem deposit_authorizations (s : State T) (e : Event T) :
    (s.deposit e).authorizations = s.authorizations :=
  rfl

@[simp]
theorem deposit_extrinsicIndex (s : State T) (e : Event T) :
    (s.deposit e).extrinsicIndex = s.extrinsicIndex :=
  rfl

@[simp]
theorem deposit_events (s : State T) (e : Event T) : (s.deposit e).events = s.events ++ [e] :=
  rfl

end State
end Bulletin
