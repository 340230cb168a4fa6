import BulletinChain.TransactionStorage.Authorization
import BulletinChain.TransactionStorage.Entries

namespace Bulletin

open Machine Except

variable {T : Config}

-- `TryRuntimeError`, in the variant that the pallets use.
abbrev TryRuntimeError := String

namespace TransactionStorage

-- The checks iterate over whole maps, in an order that they do not choose.

-- One entry of a list: the chunks up to it, if it counts them.
def countChunks (cumulativeChunks : Nat) (tx : TransactionInfo T) : Except TryRuntimeError Nat := do
  let expectedChunks := numChunks tx.size
  let cumulativeChunks := saturatingAdd u32Max cumulativeChunks expectedChunks
  ensure (tx.blockChunks = cumulativeChunks) "tx.block_chunks is not cumulative"
  return cumulativeChunks

def checkTransactionsIntegrity (transactions : List (Σ _ : Nat, Entries T)) :
    Except TryRuntimeError Unit :=
  transactions.forM fun item => do
    let cumulativeChunks ← item.2.val.foldlM countChunks 0
    let total := totalChunks item.2.val
    ensure (total = cumulativeChunks) "total_chunks mismatch with cumulative block_chunks"

def checkNoStaleTransactions (period n : Nat) (transactions : List (Σ _ : Nat, Entries T)) :
    Except TryRuntimeError Unit :=
  let oldestValid := n - period
  transactions.forM fun item => do
    ensure (oldestValid ≤ item.1) "Stale transaction entry found beyond retention period"
    ensure (item.1 ≤ n) "Transaction entry exists for a future block"

def checkAuthorizationsIntegrity
    (authorizations : List (Σ _ : AuthorizationScope T, Authorization)) :
    Except TryRuntimeError Unit :=
  authorizations.forM fun item =>
    ensure (0 < item.2.extent.bytesAllowance) "Stored authorization has zero bytes_allowance"

def doTryState (s : State T) (transactions : s.transactions.Iteration)
    (authorizations : s.authorizations.Iteration) (n : Nat) : Except TryRuntimeError Unit := do
  ensure (s.retentionPeriod ≠ 0) "RetentionPeriod must not be zero"
  checkTransactionsIntegrity transactions.items
  checkNoStaleTransactions s.retentionPeriod n transactions.items
  checkAuthorizationsIntegrity authorizations.items

end TransactionStorage
end Bulletin
