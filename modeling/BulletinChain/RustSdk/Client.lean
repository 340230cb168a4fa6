import BulletinChain.RustSdk.Dag

namespace Bulletin

open Machine Except

variable {T : Config}

namespace RustSdk

def maxChunkSize : Nat := 2 * 1024 * 1024
def maxFileSize : Nat := 64 * 1024 * 1024
def defaultChunkSize : Nat := 1024 * 1024

structure ChunkerConfig where
  chunkSize      : Nat
  maxParallel    : Nat
  createManifest : Bool

inductive WaitFor
  | inBlock
  | finalized

structure StoreOptions where
  cidCodec      : CidCodec
  hashAlgorithm : HashingAlgorithm
  waitFor       : WaitFor

def StoreOptions.default : StoreOptions :=
  ⟨.raw, .blake2b256, .inBlock⟩

-- A chunker whose configuration `new` has accepted.
structure FixedSizeChunker where
  config        : ChunkerConfig
  chunkSize_pos : 0 < config.chunkSize
  chunkSize_le  : config.chunkSize ≤ maxChunkSize

namespace FixedSizeChunker

def new (config : ChunkerConfig) : Except Error FixedSizeChunker :=
  if hp : config.chunkSize = 0 then
    error (.invalidChunkSize "Chunk size cannot be zero")
  else if hm : maxChunkSize < config.chunkSize then
    error (.chunkTooLarge config.chunkSize)
  else
    ok ⟨config, Nat.pos_of_ne_zero hp, Nat.not_lt.mp hm⟩

-- `data_size.div_ceil(chunk_size)`
def numChunks (c : FixedSizeChunker) (dataSize : Nat) : Nat :=
  if dataSize = 0 then 0 else (dataSize + (c.config.chunkSize - 1)) / c.config.chunkSize

def chunkList (c : FixedSizeChunker) (data : List UInt8) : List Chunk :=
  let totalChunks := c.numChunks data.length
  (data.chunksOf c.config.chunkSize).zipIdx.map fun (chunkData, index) =>
    ⟨chunkData, index, totalChunks⟩

theorem map_data_chunkList (c : FixedSizeChunker) (data : List UInt8) :
    (c.chunkList data).map (·.data) = data.chunksOf c.config.chunkSize := by
  simp only [chunkList, List.map_map]
  exact List.zipIdx_map_fst 0 _

theorem sum_chunkList (c : FixedSizeChunker) (data : List UInt8) :
    ((c.chunkList data).map (·.data.length)).sum = data.length := by
  have h := congrArg List.length (List.flatten_chunksOf c.chunkSize_pos data)
  rw [← map_data_chunkList, List.length_flatten, List.map_map] at h
  exact h

def chunk (c : FixedSizeChunker) (data : List UInt8) : Except Error Chunks :=
  if data.isEmpty then
    error .emptyData
  else if hm : maxFileSize < data.length then
    error (.fileTooLarge data.length)
  else
    ok ⟨c.chunkList data, by
      rw [c.sum_chunkList]
      exact Nat.lt_of_le_of_lt (Nat.not_lt.mp hm) (by decide)⟩

end FixedSizeChunker

structure StorageOperation where
  data      : List UInt8
  cidConfig : CidConfig
  waitFor   : WaitFor

namespace StorageOperation

def new (data : List UInt8) (options : StoreOptions) : Except Error StorageOperation :=
  let cidConfig : CidConfig := ⟨options.cidCodec.code, options.hashAlgorithm⟩
  ok ⟨data, cidConfig, options.waitFor⟩

variable (T) in
def calculateCid (op : StorageOperation) : Except Error (CidData T) :=
  okOr (RustSdk.calculateCid T op.data op.cidConfig)
    (.cidCalculationFailed "Failed to calculate CID: CidError")

def size (op : StorageOperation) : Nat :=
  op.data.length

def validate (op : StorageOperation) : Except Error Unit := do
  ensure (¬op.data.isEmpty) .emptyData
  ensure (¬maxChunkSize < op.data.length) (.chunkTooLarge op.data.length)

end StorageOperation

structure BatchStorageOperation where
  operations : List StorageOperation
  waitFor    : WaitFor

namespace BatchStorageOperation

def fromChunks (chunkData : List (List UInt8)) (options : StoreOptions) :
    Except Error BatchStorageOperation := do
  let cidConfig : CidConfig := ⟨options.cidCodec.code, options.hashAlgorithm⟩
  let operations ← chunkData.foldlM (fun operations data => do
    let op : StorageOperation := ⟨data, cidConfig, options.waitFor⟩
    op.validate
    return operations ++ [op]) []
  return ⟨operations, options.waitFor⟩

def len (b : BatchStorageOperation) : Nat :=
  b.operations.length

def totalSize (b : BatchStorageOperation) : Nat :=
  (b.operations.map (·.size)).sum

variable (T) in
def calculateCids (b : BatchStorageOperation) : Except Error (List (CidData T)) :=
  b.operations.mapM (·.calculateCid T)

end BatchStorageOperation

namespace AuthorizationManager

def calculateRequirements (totalSize numChunks : Nat) (includeManifest : Bool) : Nat × Nat :=
  -- `u32::try_from(num_chunks).unwrap_or(u32::MAX)`
  let transactions := min numChunks u32Max
  if includeManifest then
    let manifestEstimate := saturatingAdd u64Max (min (numChunks * 10) u64Max) 1000
    (saturatingAdd u32Max transactions 1, saturatingAdd u64Max totalSize manifestEstimate)
  else
    (transactions, totalSize)

def estimateAuthorization (dataSize : Nat) (createManifest : Bool) : Nat × Nat :=
  let numChunks :=
    if dataSize = 0 then 1 else (dataSize + (defaultChunkSize - 1)) / defaultChunkSize
  calculateRequirements dataSize numChunks createManifest

end AuthorizationManager

structure ClientConfig where
  defaultChunkSize : Nat
  maxParallel      : Nat
  createManifest   : Bool

def ClientConfig.default : ClientConfig :=
  ⟨1024 * 1024, 8, true⟩

structure BulletinClient where
  config : ClientConfig

namespace BulletinClient

def prepareStore (_client : BulletinClient) (data : List UInt8) (options : StoreOptions) :
    Except Error StorageOperation := do
  let op ← StorageOperation.new data options
  op.validate
  return op

-- The given configuration, or that of the client.
def chunkerConfig (client : BulletinClient) (config : Option ChunkerConfig) : ChunkerConfig :=
  config.getD {
    chunkSize      := client.config.defaultChunkSize
    maxParallel    := client.config.maxParallel
    createManifest := client.config.createManifest }

variable (T) in
-- The manifest of the chunks. Its root is only serialized to be reported, if someone listens.
def prepareManifest (chunks : Chunks) (options : StoreOptions) (progressCallback : Bool) :
    Except Error (List UInt8) := do
  let manifest ← UnixFsDagBuilder.build T chunks options.hashAlgorithm
  if progressCallback then
    let _cidBytes ← okOr manifest.rootCid.toBytes
      (.dagEncodingFailed "Failed to convert manifest CID to bytes")
  return manifest.dagBytes

variable (T) in
def prepareStoreChunked (client : BulletinClient) (data : List UInt8)
    (config : Option ChunkerConfig) (options : StoreOptions) (progressCallback : Bool) :
    Except Error (BatchStorageOperation × Option (List UInt8)) := do
  ensure (¬data.isEmpty) .emptyData
  let chunkerConfig := client.chunkerConfig config
  let chunker ← FixedSizeChunker.new chunkerConfig
  let chunks ← chunker.chunk data
  let manifestData ←
    if chunkerConfig.createManifest then
      some <$> prepareManifest T chunks options progressCallback
    else
      pure none
  let batch ← BatchStorageOperation.fromChunks (chunks.list.map (·.data)) options
  return (batch, manifestData)

def estimateAuthorization (client : BulletinClient) (dataSize : Nat) : Nat × Nat :=
  AuthorizationManager.estimateAuthorization dataSize client.config.createManifest

end BulletinClient
end RustSdk
end Bulletin
