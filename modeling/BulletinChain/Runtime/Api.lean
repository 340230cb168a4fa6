import BulletinChain.Chain

namespace Bulletin

variable {T : Config}

-- What nodes ask the runtime for. `can_store`, `can_renew` and `can_account_promote` are with the pallets
-- that answer them.

structure IndexedTransactionInfo (T : Config) where
  contentHash    : T.ContentHash
  size           : Nat
  hashing        : HashingAlgorithm
  cidCodec       : CidCodec
  extrinsicIndex : Nat

namespace TransactionStorageApi

def indexedTransactions (s : State T) (block : Nat) : List (IndexedTransactionInfo T) :=
  (s.transactions.lookup block).elim [] fun txs => txs.val.map fun tx =>
    { contentHash    := tx.contentHash
      size           := tx.size
      hashing        := tx.hashing
      cidCodec       := tx.cidCodec
      extrinsicIndex := tx.extrinsicIndex }

end TransactionStorageApi

namespace HopRuntimeApi

variable (T) in
def maxPromotionSize : Nat :=
  T.maxTransactionSize

def isPromotedOnChain (s : State T) (contentHash : T.ContentHash) : Bool :=
  s.containsTransaction contentHash

end HopRuntimeApi
end Bulletin
