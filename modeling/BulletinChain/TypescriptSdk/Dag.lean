import BulletinChain.Config
import BulletinChain.Lib.DagPb
import BulletinChain.TypescriptSdk.Submission

namespace Bulletin

open Except DagPb

variable {T : Config}

namespace TypescriptSdk

-- A `CID` of version 1, with the code and the digest of its multihash.
structure CID where
  code     : CidCodec
  hashCode : Nat
  digest   : List UInt8
deriving DecidableEq

def CID.bytes (c : CID) : List UInt8 :=
  Cid.v1 c.code c.hashCode c.digest

-- The three hash functions are those of the runtime.
variable (T) in
def getContentHash (data : List UInt8) (hashAlgorithm : HashingAlgorithm) : List UInt8 :=
  T.encodeContentHash (T.hash hashAlgorithm data)

variable (T) in
def calculateCid (data : List UInt8) (cidCodec : CidCodec) (hashAlgorithm : HashingAlgorithm) : CID :=
  ⟨cidCodec, hashAlgorithm.multihashCode, getContentHash T data hashAlgorithm⟩

-- The nodes of `@ipld/dag-pb`. A name is given by its bytes.
structure DagLink where
  hash  : CID
  name  : Option (List UInt8)
  tsize : Option Nat

structure DagNode where
  links : List DagLink
  data  : Option (List UInt8)

-- The part of `UnixFS` that the SDK uses.
structure UnixFS where
  type       : DataType
  data       : Option (List UInt8)
  blockSizes : List Nat

def DagLink.message (l : DagLink) : PBLink :=
  ⟨some l.hash.bytes, l.name, l.tsize⟩

def DagNode.message (n : DagNode) : PBNode :=
  ⟨n.links.map (·.message), n.data⟩

namespace UnixFS

def fileSize (u : UnixFS) : Nat :=
  match u.type with
  | .directory | .hamtShard => 0
  | _                       => u.blockSizes.sum + u.data.elim 0 List.length

def message (u : UnixFS) : UnixFs where
  type       := u.type
  data       := u.data.filter (¬·.isEmpty)
  filesize   := match u.type with
    | .directory | .hamtShard => none
    | _                       => some u.fileSize
  blocksizes := u.blockSizes
  hashType   := none
  fanout     := none

end UnixFS

def DataType.text : DataType → String
  | .raw       => "raw"
  | .directory => "directory"
  | .file      => "file"
  | .metadata  => "metadata"
  | .symlink   => "symlink"
  | .hamtShard => "hamt-sharded-directory"

-- The numbers that the decoders read are integers of a double, those of a CID are shorter still.

def CID.Valid (c : CID) : Prop :=
  c.code < 2 ^ 31 ∧ c.hashCode < 2 ^ 31 ∧ c.digest.length < 2 ^ 31

structure DagNode.Valid (n : DagNode) : Prop where
  message : n.message.Valid
  hash    : ∀ l ∈ n.links, l.hash.Valid
  tsize   : ∀ l ∈ n.links, ∀ t ∈ l.tsize, t < 2 ^ 53

-- What the SDK uses of `@ipld/dag-pb` and `ipfs-unixfs`. They write the canonical encoding of a
-- message, and they read it.
structure Libraries where
  encode    : DagNode → List UInt8
  decode    : List UInt8 → Except Thrown DagNode
  marshal   : UnixFS → List UInt8
  unmarshal : List UInt8 → Except Thrown UnixFS
  encode_eq : ∀ n, encode n = n.message.encode
  decode_encode : ∀ {n}, n.Valid → decode n.message.encode = ok n
  marshal_eq : ∀ u, marshal u = u.message.encode
  unmarshal_encode : ∀ {u : UnixFs}, u.Valid → unmarshal u.encode = ok ⟨u.type, u.data, u.blocksizes⟩

structure DagManifest where
  rootCid   : CID
  chunkCids : List CID
  totalSize : Nat
  dagBytes  : List UInt8

namespace Thrown

def ofBulletinError (e : BulletinError) : Thrown :=
  bulletinError e.message (.chunker e.code)

def ofError (message : String) : Thrown :=
  ⟨"Error", message, none, none⟩

-- The text of an error in a template literal.
def text (err : Thrown) : String :=
  err.name ++ ": " ++ err.message

end Thrown

-- The chunks come with the CIDs that they have been given.
abbrev LinkedChunk := Chunk × Option CID

namespace UnixFsDagBuilder

variable (T) in
def build (lib : Libraries) (chunks : List LinkedChunk) (hashAlgorithm : HashingAlgorithm) :
    Except Thrown DagManifest := do
  ensure (chunks.length ≠ 0)
    (.bulletinError "Cannot build DAG from empty chunks" (.chunker .emptyData))
  let chunkCids ← chunks.mapM fun (chunk, cid) =>
    let index := chunk.index
    okOr cid (.bulletinError s!"Chunk at index {index} does not have a CID" .dagEncodingFailed)
  let totalSize := chunks.foldl (fun sum (chunk, _) => sum + chunk.data.length) 0
  let blockSizes := chunks.map (·.1.data.length)
  let fileData : UnixFS := ⟨.file, none, blockSizes⟩
  -- `prepare` sorts the links by their names, which are all empty.
  let dagNode : DagNode := {
    data  := some (lib.marshal fileData)
    links := (chunks.zip chunkCids).map fun link => ⟨link.2, some [], some link.1.1.data.length⟩ }
  let dagBytes := lib.encode dagNode
  let rootCid := calculateCid T dagBytes dagPbCodec hashAlgorithm
  return ⟨rootCid, chunkCids, totalSize, dagBytes⟩

-- The body of the `try` of `parse`.
def read (lib : Libraries) (dagBytes : List UInt8) : Except Thrown (List CID × Nat) := do
  let dagNode ← lib.decode dagBytes
  let data ← okOr dagNode.data (.ofError "DAG node has no data")
  let unixfs ← lib.unmarshal data
  match unixfs.type with
  | .file => return (dagNode.links.map (·.hash), unixfs.fileSize)
  | type  =>
    let type := DataType.text type
    error (.ofError s!"Expected file type, got {type}")

def parse (lib : Libraries) (dagBytes : List UInt8) : Except Thrown (List CID × Nat) :=
  (read lib dagBytes).mapError fun err =>
    let text := err.text
    .bulletinError s!"Failed to decode DAG-PB manifest: {text}" .dagEncodingFailed

end UnixFsDagBuilder

structure ClientConfig where
  defaultChunkSize : Nat
  createManifest   : Bool

structure PartialChunkerConfig where
  chunkSize      : Option Nat
  createManifest : Option Bool

-- The options, with their defaults resolved.
structure StoreOptions where
  hashingAlgorithm : HashingAlgorithm
  waitFor          : WaitFor

namespace BulletinPreparer

def chunkerConfig (client : ClientConfig) (config : PartialChunkerConfig) : ChunkerConfig where
  chunkSize      := config.chunkSize.getD client.defaultChunkSize
  createManifest := config.createManifest.getD client.createManifest

variable (T) in
def prepareManifest (lib : Libraries) (chunkerConfig : ChunkerConfig) (chunks : List (PreparedChunk CID))
    (hashAlgorithm : HashingAlgorithm) : Except Thrown (Option (List UInt8 × CID)) :=
  if chunkerConfig.createManifest then do
    let dagManifest ← UnixFsDagBuilder.build T lib
      (chunks.map fun chunk => (chunk.toChunk, some chunk.cid)) hashAlgorithm
    return some (dagManifest.dagBytes, dagManifest.rootCid)
  else
    return none

variable (T) in
def prepareStoreChunked (lib : Libraries) (client : ClientConfig) (data : List UInt8)
    (config : PartialChunkerConfig) (options : StoreOptions) : Except Thrown (Prepared CID) := do
  ensure (data.length ≠ 0) (.bulletinError "Data cannot be empty" (.chunker .emptyData))
  let chunkerConfig := chunkerConfig client config
  let hashAlgorithm := options.hashingAlgorithm
  let chunker ← (FixedSizeChunker.new chunkerConfig).mapError .ofBulletinError
  let chunks ← (chunker.chunk data).mapError .ofBulletinError
  let chunks : List (PreparedChunk CID) := chunks.map fun chunk =>
    ⟨chunk, calculateCid T chunk.data rawCodec hashAlgorithm⟩
  let manifest ← prepareManifest T lib chunkerConfig chunks hashAlgorithm
  return ⟨data.length, chunks, manifest, hashAlgorithm, options.waitFor⟩

end BulletinPreparer
end TypescriptSdk
end Bulletin
