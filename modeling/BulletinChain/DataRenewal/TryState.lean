import BulletinChain.DataRenewal.Accounting
import BulletinChain.TransactionStorage.TryState

namespace Bulletin

open Machine Except

variable {T : Config}

namespace DataRenewal

-- What the checks are compiled for. On a live chain the count may have drifted before the pallet was
-- there, so that only the tests insist on it: `try-runtime` logs a warning.
inductive Build
  | test
  | tryRuntime
deriving DecidableEq

def renewedSum (transactions : List (Σ _ : Nat, Entries T)) : Nat :=
  transactions.foldl (fun acc item =>
    (item.2.val.filter (·.kind.isRenew)).foldl (fun inner t => saturatingAdd u64Max inner t.size) acc) 0

def addPrepaid (s : State T) (prepaidSum : Nat) (item : Σ _ : T.ContentHash, RenewalData T) :
    Except TryRuntimeError Nat :=
  if ¬item.2.paid then
    return prepaidSum
  else do
    let (block, index) ← okOr (s.lookupByContentHash item.1)
      "paid Renewals registration has no on-chain target"
    let info ← okOr (s.transactionInfo block index)
      "paid Renewals registration target has no TransactionInfo"
    return saturatingAdd u64Max prepaidSum info.size

def doTryState (build : Build) (s : State T) (transactions : s.transactions.Iteration)
    (renewals : s.renewals.Iteration) : Except TryRuntimeError Unit := do
  let used := s.permanentStorageUsed
  let renewedSum := renewedSum transactions.items
  let prepaidSum ← renewals.items.foldlM (addPrepaid s) 0
  let expected := saturatingAdd u64Max renewedSum prepaidSum
  ensure (build = .test → used = expected)
    "PermanentStorageUsed != Σ renewed sizes + Σ paid registration sizes"
  ensure (used ≤ T.maxPermanentStorageSize)
    "PermanentStorageUsed exceeds MaxPermanentStorageSize"

end DataRenewal
end Bulletin
