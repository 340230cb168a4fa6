import BulletinChain.State
import BulletinChain.Lib.Chunks
import BulletinChain.Lib.Except

namespace Bulletin

open Machine Except

variable {T : Config}

def chunkSize : Nat := 256

-- `num_chunks` of `sp_transaction_storage_proof`.
def numChunks (size : Nat) : Nat :=
  (size + (chunkSize - 1)) / chunkSize

theorem numChunks_pos (h : 0 < size) : 0 < numChunks size := by
  simp only [numChunks, chunkSize]
  omega

theorem numChunks_mono (h : a ≤ b) : numChunks a ≤ numChunks b :=
  Nat.div_le_div_right <| Nat.add_le_add_right h _

def totalChunks (txs : List (TransactionInfo T)) : Nat :=
  txs.getLast?.elim 0 (·.blockChunks)

variable (T) in
def dataSizeOk (size : Nat) : Bool :=
  0 < size && size ≤ T.maxTransactionSize

theorem dataSizeOk_iff : dataSizeOk T size ↔ 0 < size ∧ size ≤ T.maxTransactionSize := by
  simp [dataSizeOk]

-- `CidData`, and its construction from the data.
structure CidData (T : Config) where
  contentHash : T.ContentHash
  hashing     : HashingAlgorithm
  codec       : CidCodec

def CidData.toBytes (c : CidData T) : Option (List UInt8) :=
  T.cidV1 c.codec c.hashing.multihashCode c.contentHash

variable (T) in
def calculateCid (data : Data) (config : CidConfig) : Option (CidData T) :=
  let cidData : CidData T := ⟨T.hash config.hashing data.bytes, config.hashing, config.codec⟩
  cidData.toBytes.map fun _ => cidData

namespace BlockTransactionsMut

-- The entry as `push` appends it: with the number of chunks of the block up to its own last one.
def counted (l : Ledger T) (entry : TransactionInfo T) : TransactionInfo T :=
  { entry with
    blockChunks :=
      saturatingAdd u32Max (totalChunks l.blockTransactions.val) (numChunks entry.size) }

def push (l : Ledger T) (entry : TransactionInfo T) : Option (Nat × Ledger T) := do
  let entry := counted l entry
  let newIndex := l.blockTransactions.val.length
  let entries ← l.blockTransactions.tryPush entry
  return (newIndex, { l with
    blockTransactions        := entries
    transactionByContentHash :=
      l.transactionByContentHash.insert entry.contentHash (l.blockNumber, newIndex) })

def store (s : State T) (entry : TransactionInfo T) : Option (Nat × State T) := do
  let (newIndex, l) ← push s.toLedger entry
  let operation := .index entry.extrinsicIndex entry.size entry.contentHash
  return (newIndex, { s with toLedger := l, indexOperations := s.indexOperations ++ [operation] })

def renew (s : State T) (info : TransactionInfo T) (extrinsicIndex : Nat) (kind : EntryKind) :
    Option (Nat × State T) := do
  let (newIndex, l) ← push s.toLedger { info with extrinsicIndex, kind }
  let operation := .renew extrinsicIndex info.contentHash
  return (newIndex, { s with toLedger := l, indexOperations := s.indexOperations ++ [operation] })

end BlockTransactionsMut

namespace Ledger

-- What `push` leaves behind when the block has room.
def appended (l : Ledger T) (entry : TransactionInfo T)
    (h : l.blockTransactions.val.length < T.maxBlockTransactions) : Ledger T :=
  { l with
    blockTransactions        :=
      ⟨l.blockTransactions.val ++ [BlockTransactionsMut.counted l entry],
        l.blockTransactions.length_concat_le _ h⟩
    transactionByContentHash := l.transactionByContentHash.insert
      entry.contentHash (l.blockNumber, l.blockTransactions.val.length) }

theorem push_eq_some {l l' : Ledger T} {e : TransactionInfo T} :
    BlockTransactionsMut.push l e = some (i, l') ↔
      ∃ h, i = l.blockTransactions.val.length ∧ l' = l.appended e h := by
  by_cases h : l.blockTransactions.val.length < T.maxBlockTransactions
  · simp only [BlockTransactionsMut.push, BoundedVec.tryPush, h, appended]
    simp [BlockTransactionsMut.counted, eq_comm]
  · simp [BlockTransactionsMut.push, BoundedVec.tryPush, h]

-- The reads that the two pallets share.

def blockTransactionsFull (l : Ledger T) : Bool :=
  T.maxBlockTransactions ≤ l.blockTransactions.val.length

def lookupByContentHash (l : Ledger T) (hash : T.ContentHash) : Option (Nat × Nat) :=
  l.transactionByContentHash.lookup hash

def containsTransaction (l : Ledger T) (hash : T.ContentHash) : Bool :=
  (l.lookupByContentHash hash).isSome

def transactionInfo (l : Ledger T) (block index : Nat) : Option (TransactionInfo T) := do
  let transactions ← l.transactions.lookup block
  transactions.val[index]?

def resolveTransactionRef (l : Ledger T) : TransactionRef T → Option (TransactionInfo T)
  | .position block index => l.transactionInfo block index
  | .contentHash hash     => do
    let (block, index) ← l.lookupByContentHash hash
    l.transactionInfo block index

-- Moves the entries of block `n` into `transactions`, if they have chunks.
def sealBlock (l : Ledger T) (n : Nat) : Ledger T :=
  let entries := l.blockTransactions
  let l := { l with blockTransactions := .empty }
  if totalChunks entries.val ≠ 0 then
    { l with transactions := l.transactions.insert n entries }
  else
    l

end Ledger

namespace State

def doStore (s : State T) (data : Data) (hashing : HashingAlgorithm) (cidCodec : CidCodec) :
    Except DispatchError (State T) := do
  let dataLen := data.len
  ensure (dataSizeOk T dataLen) .badDataSize
  let cid ← okOr (calculateCid T data ⟨cidCodec, hashing⟩) .invalidContentHash
  let chunks := data.bytes.chunksOf chunkSize
  let root := T.orderedRoot chunks
  let extrinsicIndex ← okOr s.extrinsicIndex .badContext
  let (index, s) ← okOr (BlockTransactionsMut.store s {
    chunkRoot   := root
    size        := dataLen
    contentHash := cid.contentHash
    hashing
    cidCodec
    extrinsicIndex
    blockChunks := 0
    kind        := .store }) .tooManyTransactions
  return s.deposit (.stored index cid.contentHash cid.toBytes)

end State
end Bulletin
