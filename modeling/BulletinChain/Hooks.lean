import BulletinChain.DataRenewal.Accounting

namespace Bulletin

open Machine

variable {T : Config}

namespace State

-- The sweep of `on_initialize` over the entries of the obsolete block. An entry is the latest of its
-- content when the index still points into the obsolete block. The index entry then goes, so that
-- of several copies in one block only the first is the latest.
def sweepEntry (obsolete : Nat)
    (acc : (Finmap fun _ : T.ContentHash => Nat × Nat) ×
      BoundedVec (TransactionInfo T × Bool) T.maxBlockTransactions)
    (txInfo : TransactionInfo T) :
    (Finmap fun _ : T.ContentHash => Nat × Nat) ×
      BoundedVec (TransactionInfo T × Bool) T.maxBlockTransactions :=
  let (index, pairs) := acc
  let isLatest := (index.lookup txInfo.contentHash).any (·.1 = obsolete)
  let index := if isLatest then index.erase txInfo.contentHash else index
  (index, pairs.pushOrDrop (txInfo, isLatest))

-- `on_initialize` of the storage pallet, which drops the block one past the retention period: the
-- proof of the block at the period itself is still to be checked. `handleObsolete` is what the
-- runtime wires as `OnObsoleteTransactions`.
def storageOnInitialize (handleObsolete : State T → List (TransactionInfo T × Bool) → State T)
    (s : State T) (n : Nat) : State T :=
  let obsolete := n - saturatingAdd maxBlockNumber s.retentionPeriod 1
  if 0 < obsolete then
    match s.transactions.lookup obsolete with
    | some transactions =>
      let s := { s with transactions := s.transactions.erase obsolete }
      let (index, pairs) :=
        transactions.val.foldl (sweepEntry obsolete) (s.transactionByContentHash, .empty)
      handleObsolete { s with transactionByContentHash := index } pairs.val
    | none => s
  else
    s

-- Both runtimes wire the renewal pallet.
def onInitialize (s : State T) (n : Nat) : State T :=
  s.storageOnInitialize handleObsolete n

def proofOk (s : State T) (n : Nat) : Bool :=
  s.proofChecked ||
    let targetNumber := n - s.retentionPeriod
    targetNumber = 0 || (s.transactions.lookup targetNumber).isNone

-- A hook whose assertion fails panics, and there is no block: `none`.

def storageOnFinalize (s : State T) (n : Nat) : Option (State T) :=
  let s' := { s with proofChecked := false }
  if s.proofOk n then
    some { s' with toLedger := s'.toLedger.sealBlock n }
  else
    none

def renewalOnFinalize (s : State T) : Option (State T) :=
  if s.pendingRenewals.val = [] then some s else none

def onFinalize (s : State T) (n : Nat) : Option (State T) := do
  let s ← s.storageOnFinalize n
  s.renewalOnFinalize

end State
end Bulletin
