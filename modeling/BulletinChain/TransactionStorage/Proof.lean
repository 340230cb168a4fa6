import BulletinChain.TransactionStorage.Entries
import BulletinChain.Lib.BinarySearch

namespace Bulletin

open Except

variable {T : Config}

-- The entry that owns a chunk of the block, and the index of the chunk in it. The source subtracts
-- without a check: the index is `none` where a subtraction would underflow.
structure ChunkChoice (T : Config) where
  txInfo       : TransactionInfo T
  txChunkIndex : Option Nat

def chooseChunk (infos : List (TransactionInfo T)) (selected : Nat) :
    Except DispatchError (ChunkChoice T) := do
  let txIndex :=
    List.insertionPoint <| infos.binarySearchByKey selected fun info => info.blockChunks - 1
  let txInfo ← okOr infos[txIndex]? .missingStateData
  ensure (txInfo.blockChunks ≠ 0) .badDataSize
  let txChunkIndex := do
    let prevChunks ← Machine.checkedSub txInfo.blockChunks (numChunks txInfo.size)
    Machine.checkedSub selected prevChunks
  return { txInfo, txChunkIndex }

def verifyChunkProof (proof : TransactionStorageProof T) (randomHash : List UInt8)
    (infos : List (TransactionInfo T)) : Except DispatchError Unit := do
  let total := totalChunks infos
  ensure (total ≠ 0) .unexpectedProof
  let selected := T.randomChunk randomHash total
  let choice ← chooseChunk infos selected
  let accepted := choice.txChunkIndex.any fun i =>
    T.verifyProof choice.txInfo.chunkRoot proof.proof i proof.chunk
  ensure accepted .invalidProof

namespace State

def doCheckProof (s : State T) (proof : TransactionStorageProof T) :
    Except DispatchError (State T) := do
  ensure (¬s.proofChecked) .doubleCheck
  let targetNumber := s.blockNumber - s.retentionPeriod
  ensure (targetNumber ≠ 0) .unexpectedProof
  let transactions ← okOr (s.transactions.lookup targetNumber) .missingStateData
  verifyChunkProof proof s.parentHash transactions.val
  return { s with proofChecked := true }.deposit .proofChecked

end State
end Bulletin
