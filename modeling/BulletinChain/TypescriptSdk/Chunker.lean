import BulletinChain.Lib.Chunks
import BulletinChain.Lib.Except

namespace Bulletin

open Except

namespace TypescriptSdk

def maxChunkSize : Nat := 2 * 1024 * 1024
def maxFileSize : Nat := 64 * 1024 * 1024

-- The codes of the modelled functions.
inductive ErrorCode
  | emptyData
  | dataTooLarge
  | chunkTooLarge
  | invalidChunkSize
  | missingChunk
deriving DecidableEq

structure BulletinError where
  message : String
  code    : ErrorCode
deriving DecidableEq

structure ChunkerConfig where
  chunkSize      : Nat
  createManifest : Bool

structure Chunk where
  data        : List UInt8
  index       : Nat
  totalChunks : Nat
deriving DecidableEq

-- A chunker whose configuration the constructor has accepted.
structure FixedSizeChunker where
  config        : ChunkerConfig
  chunkSize_pos : 0 < config.chunkSize
  chunkSize_le  : config.chunkSize ≤ maxChunkSize

-- `data.subarray(start, end)`
def subarray (data : List UInt8) (start stop : Nat) : List UInt8 :=
  (data.drop start).take (stop - start)

namespace FixedSizeChunker

def new (config : ChunkerConfig) : Except BulletinError FixedSizeChunker :=
  let size := config.chunkSize
  if hp : config.chunkSize ≤ 0 then
    error ⟨"Chunk size must be greater than 0", .invalidChunkSize⟩
  else if hm : config.chunkSize > maxChunkSize then
    error ⟨s!"Chunk size {size} exceeds maximum allowed size of {maxChunkSize}", .chunkTooLarge⟩
  else
    ok ⟨config, Nat.not_le.mp hp, Nat.not_lt.mp hm⟩

-- `Math.ceil(dataSize / chunkSize)`. The quotient of two numbers of these sizes is farther from the
-- next integer than a double is from the quotient.
def numChunks (c : FixedSizeChunker) (dataSize : Nat) : Nat :=
  if dataSize = 0 then 0 else (dataSize + (c.config.chunkSize - 1)) / c.config.chunkSize

def chunkList (c : FixedSizeChunker) (data : List UInt8) : List Chunk :=
  let totalChunks := c.numChunks data.length
  (List.range totalChunks).map fun i =>
    let start := i * c.config.chunkSize
    let stop := min (start + c.config.chunkSize) data.length
    let chunkData := subarray data start stop
    ⟨chunkData, i, totalChunks⟩

def chunk (c : FixedSizeChunker) (data : List UInt8) : Except BulletinError (List Chunk) := do
  let size := data.length
  ensure (data.length ≠ 0) ⟨"Data cannot be empty", .emptyData⟩
  ensure (¬data.length > maxFileSize)
    ⟨s!"Data size {size} exceeds maximum allowed size of {maxFileSize} (64 MiB)", .dataTooLarge⟩
  return c.chunkList data

end FixedSizeChunker

-- The loop over the sorted chunks, from position `i` on.
def checkIndices : Nat → List Chunk → Except BulletinError Unit
  | _, []      => ok ()
  | i, c :: cs => do
    ensure (c.index = i) ⟨s!"Missing chunk at index {i}", .missingChunk⟩
    checkIndices (i + 1) cs

-- `result.set(data, offset)`
def write (result data : List UInt8) (offset : Nat) : List UInt8 :=
  result.take offset ++ data ++ result.drop (offset + data.length)

def concatenate (sorted : List Chunk) : List UInt8 :=
  let totalSize := sorted.foldl (fun sum chunk => sum + chunk.data.length) 0
  let result := List.replicate totalSize 0
  let (result, _) := sorted.foldl (fun (result, offset) chunk =>
    (write result chunk.data offset, offset + chunk.data.length)) (result, 0)
  result

-- `sort` is stable.
def reassembleChunks (chunks : List Chunk) : Except BulletinError (List UInt8) := do
  ensure (chunks.length ≠ 0) ⟨"No chunks to reassemble", .emptyData⟩
  let sorted := chunks.mergeSort fun a b => a.index ≤ b.index
  checkIndices 0 sorted
  return concatenate sorted

end TypescriptSdk
end Bulletin
