import BulletinChain.TransactionStorage.Entries

namespace Bulletin

open Except

variable {T : Config}

namespace RustSdk

-- The errors of the modelled functions.
inductive Error
  | chunkTooLarge (size : Nat)
  | fileTooLarge (size : Nat)
  | emptyData
  | dagEncodingFailed (message : String)
  | cidCalculationFailed (message : String)
  | invalidChunkSize (message : String)

inductive CidCodec
  | raw
  | dagPb
  | dagCbor
  | custom (code : Nat)

def CidCodec.code : CidCodec → Nat
  | raw         => 0x55
  | dagPb       => 0x70
  | dagCbor     => 0x71
  | custom code => code

-- The SDK takes `calculate_cid` from the pallet, for data of any length.
variable (T) in
def calculateCid (data : List UInt8) (config : CidConfig) : Option (CidData T) :=
  let cidData : CidData T := ⟨T.hash config.hashing data, config.hashing, config.codec⟩
  cidData.toBytes.map fun _ => cidData

theorem calculateCid_bytes (data : Data) (config : CidConfig) :
    calculateCid T data.bytes config = Bulletin.calculateCid T data config :=
  rfl

structure Chunk where
  data        : List UInt8
  index       : Nat
  totalChunks : Nat

-- The chunks of a `&[Chunk]` are in memory together, so that their lengths add up to a `u64`.
structure Chunks where
  list   : List Chunk
  sum_lt : (list.map (·.data.length)).sum < 2 ^ 64

structure DagManifest (T : Config) where
  rootCid   : CidData T
  chunkCids : List (CidData T)
  totalSize : Nat
  dagBytes  : List UInt8

def maxManifestChunks : Nat := 1000000

-- The source pushes to a buffer, which is passed on here.
def encodeVarint (value : Nat) (buf : List UInt8) : List UInt8 :=
  let byte := value &&& 0x7F
  let value' := value >>> 7
  if value' ≠ 0 then
    encodeVarint value' (buf ++ [UInt8.ofNat (byte ||| 0x80)])
  else
    buf ++ [UInt8.ofNat byte]
termination_by value
decreasing_by
  simp only [Nat.shiftRight_eq_div_pow] at *
  omega

namespace UnixFsDagBuilder

-- `(field << 3) | wire_type`
def key (field wireType : Nat) : UInt8 :=
  UInt8.ofNat (field <<< 3 ||| wireType)

def encodeUnixfsFileData (blockSizes : List Nat) (totalSize : Nat) : List UInt8 :=
  let buf := []
  let buf := buf ++ [key 1 0]
  let buf := buf ++ [2]
  let buf := buf ++ [key 3 0]
  let buf := encodeVarint totalSize buf
  blockSizes.foldl (fun buf size => encodeVarint size (buf ++ [key 4 0])) buf

def encodeDagLink (cidBytes : List UInt8) (name : String) (tsize : Nat) : List UInt8 :=
  let buf := []
  let buf := buf ++ [key 1 2]
  let buf := encodeVarint cidBytes.length buf
  let buf := buf ++ cidBytes
  let nameBytes := name.toUTF8.toList
  let buf :=
    if ¬nameBytes.isEmpty then
      encodeVarint nameBytes.length (buf ++ [key 2 2]) ++ nameBytes
    else
      buf
  let buf := buf ++ [key 3 0]
  encodeVarint tsize buf

def encodeDagNode (links : List (List UInt8)) (data : List UInt8) : List UInt8 :=
  let buf := []
  let buf := links.foldl (fun buf link =>
    encodeVarint link.length (buf ++ [key 2 2]) ++ link) buf
  if ¬data.isEmpty then
    encodeVarint data.length (buf ++ [key 1 2]) ++ data
  else
    buf

-- What the first loop of `build` collects.
structure Collected (T : Config) where
  chunkCids  : List (CidData T)
  blockSizes : List Nat
  totalSize  : Nat

def collect (cidConfig : CidConfig) (acc : Collected T) (chunk : Chunk) :
    Except Error (Collected T) := do
  let cidData ← okOr (calculateCid T chunk.data cidConfig)
    (.dagEncodingFailed "Failed to calculate chunk CID: CidError")
  let chunkSize := chunk.data.length
  return {
    chunkCids  := acc.chunkCids ++ [cidData]
    blockSizes := acc.blockSizes ++ [chunkSize]
    totalSize  := acc.totalSize + chunkSize }

-- The second loop.
def link (acc : List (List UInt8)) : CidData T × Chunk → Except Error (List (List UInt8))
  | (cidData, chunk) => do
    let cidBytes ← okOr cidData.toBytes (.dagEncodingFailed "Failed to serialize CID")
    return acc ++ [encodeDagLink cidBytes "" chunk.data.length]

variable (T) in
def build (chunks : Chunks) (hashAlgo : HashingAlgorithm) : Except Error (DagManifest T) := do
  let count := chunks.list.length
  ensure (count ≠ 0) .emptyData
  ensure (¬maxManifestChunks < count) <| .dagEncodingFailed <|
    s!"Too many chunks ({count}) for single manifest. Maximum is {maxManifestChunks}. " ++
      "Consider using hierarchical DAG structure for files this large."
  let cidConfig : CidConfig := ⟨CidCodec.raw.code, hashAlgo⟩
  let collected ← chunks.list.foldlM (collect cidConfig) ⟨[], [], 0⟩
  let unixfsData := encodeUnixfsFileData collected.blockSizes collected.totalSize
  let links ← (collected.chunkCids.zip chunks.list).foldlM link []
  let dagBytes := encodeDagNode links unixfsData
  let rootConfig : CidConfig := ⟨CidCodec.dagPb.code, hashAlgo⟩
  let rootCid ← okOr (calculateCid T dagBytes rootConfig)
    (.dagEncodingFailed "Failed to calculate root CID: CidError")
  return ⟨rootCid, collected.chunkCids, collected.totalSize, dagBytes⟩

end UnixFsDagBuilder
end RustSdk
end Bulletin
