import BulletinChain.Theorems.Manifest
import BulletinChain.Theorems.Reassembly
import BulletinChain.TypescriptSdk.Dag

namespace Bulletin

open Except Protobuf DagPb

variable {T : Config}

namespace TypescriptSdk

open RustSdk.UnixFsDagBuilder (fileData fileData_valid length_fileData fileDataLength_le
  length_varint_le_ten)

theorem CID.length_bytes_lt {c : CID} (h : c.Valid) : c.bytes.length < 2 ^ 32 := by
  obtain ⟨hc, hm, hd⟩ := h
  have h₁ := length_varint_le_ten (Nat.lt_trans hc (by decide))
  have h₂ := length_varint_le_ten (Nat.lt_trans hm (by decide))
  have h₃ := length_varint_le_ten (Nat.lt_trans hd (by decide))
  rw [CID.bytes, Cid.length_v1]
  omega

theorem calculateCid_valid (hc : T.CidV1) (data : List UInt8) (h : codec < 2 ^ 31) :
    (calculateCid T data codec hashAlgorithm).Valid := by
  refine ⟨h, ?_, ?_⟩
  · change hashAlgorithm.multihashCode < _
    cases hashAlgorithm <;> decide
  · rw [calculateCid, getContentHash, hc.length_contentHash]
    decide

-- The node of a file that consists of some blocks, which have a CID and a size. The two SDKs differ in
-- the name of a link: one leaves it out, the other one writes that it is empty.
def fileNode (name : Option (List UInt8)) (blocks : List (CID × Nat)) : DagNode where
  links := blocks.map fun b => ⟨b.1, name, some b.2⟩
  data  := some (fileData (blocks.map (·.2))).encode

-- What a client can hold: as many blocks as an array, of a size that is an integer of a double.
structure Blocks (blocks : List (CID × Nat)) : Prop where
  valid     : ∀ b ∈ blocks, b.1.Valid
  length_lt : blocks.length < 2 ^ 32
  sum_lt    : (blocks.map (·.2)).sum < 2 ^ 53

theorem Blocks.size_lt {blocks : List (CID × Nat)} (h : Blocks blocks) (hb : b ∈ blocks) :
    b.2 < 2 ^ 53 :=
  Nat.lt_of_le_of_lt (List.le_sum_of_mem (List.mem_map_of_mem hb)) h.sum_lt

theorem length_link_lt {hash : CID} (hh : hash.Valid) (ht : t < 2 ^ 53)
    (hn : ∀ bs ∈ name, bs = []) : (DagLink.mk hash name (some t)).message.encode.length < 2 ^ 64 := by
  have hb := CID.length_bytes_lt hh
  have hl := length_varint_le_ten (Nat.lt_trans hb (by decide))
  have hk (k : Nat) (h : k < 128) : (varint k).length = 1 :=
    RustSdk.UnixFsDagBuilder.length_varint_of_lt h
  have ht := length_varint_le_ten (Nat.lt_trans ht (by decide))
  cases name <;>
    simp only [DagLink.message, PBLink.encode, PBLink.fields, Option.toList_some, Option.toList_none,
      List.map_cons, List.map_nil, List.append_nil, List.nil_append, List.cons_append,
      List.flatMap_cons, List.flatMap_nil, Field.encode, List.length_append, hk (8 * 1 + 2) (by decide),
      hk (8 * 2 + 2) (by decide), hk (8 * 3) (by decide)]
  case none => omega
  case some bs =>
    rw [hn bs rfl, List.length_nil, hk 0 (by decide)]
    omega

theorem fileNode_valid {blocks : List (CID × Nat)} (h : Blocks blocks) (hn : ∀ bs ∈ name, bs = []) :
    (fileNode name blocks).Valid := by
  have hl {l} (hm : l ∈ (fileNode name blocks).links) :
      ∃ b ∈ blocks, l = ⟨b.1, name, some b.2⟩ := by
    obtain ⟨b, hb, rfl⟩ := List.mem_map.mp hm
    exact ⟨b, hb, rfl⟩
  have hlink {b : CID × Nat} (hb : b ∈ blocks) : ∀ t ∈ some b.2, t < 2 ^ 53 := by
    rintro _ ⟨⟩
    exact h.size_lt hb
  constructor
  case hash =>
    intro l hm
    obtain ⟨b, hb, rfl⟩ := hl hm
    exact h.valid b hb
  case tsize =>
    intro l hm
    obtain ⟨b, hb, rfl⟩ := hl hm
    exact hlink hb
  case message =>
    constructor
    case links =>
      intro m hm
      obtain ⟨l, hx, rfl⟩ := List.mem_map.mp hm
      obtain ⟨b, hb, rfl⟩ := hl hx
      constructor
      case hash =>
        rintro _ ⟨⟩
        exact Nat.lt_trans (CID.length_bytes_lt (h.valid b hb)) (by decide)
      case name =>
        intro bs hbs
        rw [hn bs hbs]
        decide
      case tsize => exact fun t ht => Nat.lt_trans (hlink hb t ht) (by decide)
    case length =>
      intro m hm
      obtain ⟨l, hx, rfl⟩ := List.mem_map.mp hm
      obtain ⟨b, hb, rfl⟩ := hl hx
      exact length_link_lt (h.valid b hb) (h.size_lt hb) hn
    case data =>
      rintro _ ⟨⟩
      have hs := h.sum_lt
      have hf := fileDataLength_le (Nat.lt_trans hs (by decide))
      have hc := h.length_lt
      rw [List.length_map] at hf
      rw [length_fileData]
      omega

namespace UnixFsDagBuilder

theorem parse_fileNode (lib : Libraries) (name : Option (List UInt8)) {blocks : List (CID × Nat)}
    (h : Blocks blocks) (hn : ∀ bs ∈ name, bs = []) :
    parse lib (fileNode name blocks).message.encode =
      ok (blocks.map (·.1), (blocks.map (·.2)).sum) := by
  have hu : (fileData (blocks.map (·.2))).Valid := fileData_valid (Nat.lt_trans h.sum_lt (by decide))
  rw [parse, mapError_eq_ok, read, lib.decode_encode (fileNode_valid h hn)]
  simp only [ok_bind, fileNode, okOr, Option.elim_some, lib.unmarshal_encode hu]
  simp [fileData, UnixFS.fileSize, Function.comp_def, pure, Except.pure]

variable (T) in
def manifestOf (hashAlgorithm : HashingAlgorithm) (blocks : List (CID × Nat)) : DagManifest where
  rootCid   := calculateCid T (fileNode (some []) blocks).message.encode dagPbCodec hashAlgorithm
  chunkCids := blocks.map (·.1)
  totalSize := (blocks.map (·.2)).sum
  dagBytes  := (fileNode (some []) blocks).message.encode

def blocksOf (chunks : List (Chunk × CID)) : List (CID × Nat) :=
  chunks.map fun c => (c.2, c.1.data.length)

theorem mapM_okOr {f : LinkedChunk → Thrown} {chunks : List LinkedChunk} :
    (chunks.mapM fun c => okOr c.2 (f c)) = ok cids ↔
      ∃ cs : List (Chunk × CID), chunks = cs.map (fun c => (c.1, some c.2)) ∧ cids = cs.map (·.2) := by
  induction chunks generalizing cids
  case nil =>
    constructor
    case mp =>
      intro h
      cases pure_eq_ok.mp h
      exact ⟨[], rfl, rfl⟩
    case mpr =>
      rintro ⟨cs, hc, rfl⟩
      rw [List.map_eq_nil_iff.mp hc.symm]
      rfl
  case cons c chunks hi =>
    simp only [List.mapM_cons, bind_eq_ok, okOr_eq_ok, hi, pure_eq_ok]
    constructor
    case mp =>
      rintro ⟨cid, hc, _, ⟨cs, rfl, rfl⟩, rfl⟩
      exact ⟨(c.1, cid) :: cs, by simp [← hc], rfl⟩
    case mpr =>
      rintro ⟨cs, hc, rfl⟩
      cases cs
      case nil => cases hc
      case cons d cs =>
        obtain ⟨rfl, rfl⟩ := List.cons.inj hc
        exact ⟨d.2, rfl, _, ⟨cs, rfl, rfl⟩, rfl⟩

theorem foldl_totalSize (chunks : List LinkedChunk) (n : Nat) :
    chunks.foldl (fun sum (chunk, _) => sum + chunk.data.length) n =
      n + (chunks.map (·.1.data.length)).sum := by
  induction chunks generalizing n
  case nil => simp
  case cons c chunks hi =>
    rw [List.foldl_cons, hi, List.map_cons, List.sum_cons, Nat.add_assoc]

-- `build` accepts some chunks if all of them have a CID.
theorem build_eq_ok (lib : Libraries) {chunks : List LinkedChunk} {m : DagManifest} :
    build T lib chunks hashAlgorithm = ok m ↔ ∃ cs : List (Chunk × CID), cs ≠ [] ∧
      chunks = cs.map (fun c => (c.1, some c.2)) ∧ m = manifestOf T hashAlgorithm (blocksOf cs) := by
  have hm (sizes : List Nat) : (UnixFS.message ⟨.file, none, sizes⟩) = fileData sizes := by
    simp [UnixFS.message, UnixFS.fileSize, fileData]
  have hn (cs : List (Chunk × CID)) : cs.map (fun c => (c.1, some c.2)) = [] ↔ cs = [] :=
    List.map_eq_nil_iff
  simp only [build, bind_eq_ok, ensure_eq_ok, mapM_okOr, pure_eq_ok, foldl_totalSize, lib.marshal_eq,
    lib.encode_eq, hm, List.length_eq_zero_iff, ne_eq]
  have he (cs : List (Chunk × CID)) : DagManifest.mk
      (calculateCid T (fileNode (some []) (blocksOf cs)).message.encode dagPbCodec hashAlgorithm)
      (cs.map (·.2)) (0 + ((cs.map fun c => (c.1, some c.2)).map (·.1.data.length)).sum)
      (fileNode (some []) (blocksOf cs)).message.encode = manifestOf T hashAlgorithm (blocksOf cs) := by
    simp [manifestOf, blocksOf, Function.comp_def]
  have hf (cs : List (Chunk × CID)) : fileNode (some []) (blocksOf cs) = {
      links := ((cs.map fun c => (c.1, some c.2)).zip (cs.map (·.2))).map fun link =>
        ⟨link.2, some [], some link.1.1.data.length⟩
      data  := some (fileData ((cs.map fun c => (c.1, some c.2)).map (·.1.data.length))).encode } := by
    simp [fileNode, blocksOf, Function.comp_def, List.zip_map']
  constructor
  case mp =>
    rintro ⟨_, hne, _, ⟨cs, rfl, rfl⟩, rfl⟩
    rw [← hf, he]
    exact ⟨cs, (hn cs).not.mp hne, rfl, rfl⟩
  case mpr =>
    rintro ⟨cs, hne, rfl, rfl⟩
    refine ⟨(), (hn cs).not.mpr hne, _, ⟨cs, rfl, rfl⟩, ?_⟩
    rw [← hf, he]

end UnixFsDagBuilder

-- The CID that the bytes of the other SDK's are read as.
def CID.ofCidData (c : CidData T) : CID :=
  ⟨c.codec, c.hashing.multihashCode, T.encodeContentHash c.contentHash⟩

open RustSdk.UnixFsDagBuilder in
theorem nodeOf_eq (hc : T.CidV1) (chunks : List RustSdk.Chunk) : nodeOf T hashAlgo chunks =
    (fileNode none (chunks.map fun c =>
      (calculateCid T c.data rawCodec hashAlgo, c.data.length))).message := by
  simp only [nodeOf, fileNode, DagNode.message, List.map_map, Function.comp_def, PBNode.mk.injEq,
    and_true]
  refine List.map_congr_left fun c _ => ?_
  rw [linkOf, RustSdk.toBytes_eq hc]
  rfl

theorem blocks_calculated (hc : T.CidV1) {pieces : List (List UInt8)} (hl : pieces.length < 2 ^ 32)
    (hs : (pieces.map List.length).sum < 2 ^ 53) :
    Blocks (pieces.map fun piece => (calculateCid T piece rawCodec hashAlgorithm, piece.length)) where
  valid := by
    intro b hb
    obtain ⟨piece, _, rfl⟩ := List.mem_map.mp hb
    exact calculateCid_valid hc piece (by decide)
  length_lt := by rwa [List.length_map]
  sum_lt := by rwa [List.map_map]

-- A manifest of either SDK is read as the CIDs of the chunks that it was built from, in their order, and
-- the sum of their lengths, as long as that is an integer of a double. The Rust SDK calculates the CIDs,
-- the other one is given them.
theorem manifests_read (hc : T.CidV1) (lib : Libraries) :
    (∀ {chunks : RustSdk.Chunks} {hashAlgo m}, RustSdk.UnixFsDagBuilder.build T chunks hashAlgo = ok m →
      let cids := chunks.list.map fun c => calculateCid T c.data rawCodec hashAlgo
      let size := (chunks.list.map (·.data.length)).sum
      m.chunkCids.map .ofCidData = cids ∧ m.totalSize = size ∧
        (size < 2 ^ 53 → UnixFsDagBuilder.parse lib m.dagBytes = ok (cids, size))) ∧
    ∀ {chunks : List LinkedChunk} {hashAlgorithm m},
      UnixFsDagBuilder.build T lib chunks hashAlgorithm = ok m →
      let size := (chunks.map (·.1.data.length)).sum
      ∃ cids, chunks.map (·.2) = cids.map some ∧ m.chunkCids = cids ∧ m.totalSize = size ∧
        ((∀ cid ∈ cids, cid.Valid) → chunks.length < 2 ^ 32 → size < 2 ^ 53 →
          UnixFsDagBuilder.parse lib m.dagBytes = ok (cids, size)) := by
  constructor
  case left =>
    intro chunks hashAlgo m h cids size
    obtain ⟨_, hm, rfl⟩ := (RustSdk.UnixFsDagBuilder.build_eq_ok hc).mp h
    refine ⟨?_, rfl, fun hs => ?_⟩
    · simp only [RustSdk.UnixFsDagBuilder.manifestOf, List.map_map]
      rfl
    have hb : Blocks ((chunks.list.map (·.data)).map fun piece =>
        (calculateCid T piece rawCodec hashAlgo, piece.length)) := by
      refine blocks_calculated hc ?_ ?_
      · rw [List.length_map]
        exact Nat.lt_of_le_of_lt hm (by decide)
      · rwa [List.map_map]
    have hp := UnixFsDagBuilder.parse_fileNode lib none hb (by simp)
    simp only [List.map_map, Function.comp_def] at hp
    simp only [RustSdk.UnixFsDagBuilder.manifestOf, nodeOf_eq hc]
    exact hp
  case right =>
    intro chunks hashAlgorithm m h size
    obtain ⟨cs, _, rfl, rfl⟩ := (UnixFsDagBuilder.build_eq_ok lib).mp h
    have hz : ((UnixFsDagBuilder.blocksOf cs).map (·.2)).sum = size := by
      simp [size, UnixFsDagBuilder.blocksOf, Function.comp_def]
    have hk : (UnixFsDagBuilder.blocksOf cs).map (·.1) = cs.map (·.2) := by
      simp [UnixFsDagBuilder.blocksOf]
    refine ⟨(UnixFsDagBuilder.blocksOf cs).map (·.1), by simp [hk], rfl, hz, fun hv hl hs => ?_⟩
    rw [← hz]
    refine UnixFsDagBuilder.parse_fileNode lib _ ⟨fun b hb => ?_, ?_, hz ▸ hs⟩ (by simp)
    · exact hv b.1 (List.mem_map_of_mem hb)
    · rw [List.length_map] at hl
      rwa [UnixFsDagBuilder.blocksOf, List.length_map]

-- What is prepared for an upload.

variable {chunker : FixedSizeChunker} {data : List UInt8}

theorem FixedSizeChunker.new_eq_ok_iff {config : ChunkerConfig} :
    new config = ok chunker ↔ chunker.config = config := by
  obtain ⟨_, hp, hm⟩ := chunker
  constructor
  case mp =>
    intro h
    simp only [new] at h
    split at h
    case isTrue => cases h
    case isFalse =>
      split at h <;> cases h
      rfl
  case mpr =>
    rintro rfl
    exact new_eq_ok hp hm

theorem FixedSizeChunker.chunk_eq_ok_iff : chunker.chunk data = ok chunks ↔
    data ≠ [] ∧ data.length ≤ maxFileSize ∧ chunks = chunker.chunkList data := by
  simp only [chunk, bind_eq_ok, ensure_eq_ok, pure_eq_ok, exists_and_left, exists_const, Nat.not_lt,
    ne_eq, List.length_eq_zero_iff]
  rw [@eq_comm _ chunks]

theorem FixedSizeChunker.map_length_chunkList : (chunker.chunkList data).map (·.data.length) =
    (data.chunksOf chunker.config.chunkSize).map List.length := by
  rw [← map_data_chunkList, List.map_map]
  rfl

theorem FixedSizeChunker.sum_chunkList :
    ((chunker.chunkList data).map (·.data.length)).sum = data.length := by
  have h := congrArg List.length (List.flatten_chunksOf chunker.chunkSize_pos data)
  rwa [List.length_flatten, ← map_length_chunkList] at h

namespace BulletinPreparer

variable (T) in
def manifestFor (chunkerConfig : ChunkerConfig) (chunks : List (PreparedChunk CID))
    (hashAlgorithm : HashingAlgorithm) : Option (List UInt8 × CID) :=
  let m := UnixFsDagBuilder.manifestOf T hashAlgorithm (chunks.map fun c => (c.cid, c.data.length))
  if chunkerConfig.createManifest then some (m.dagBytes, m.rootCid) else none

variable (T) in
def preparedOf (chunker : FixedSizeChunker) (data : List UInt8) (options : StoreOptions) :
    Prepared CID :=
  let chunks := (chunker.chunkList data).map fun c =>
    PreparedChunk.mk c (calculateCid T c.data rawCodec options.hashingAlgorithm)
  { totalSize     := data.length
    chunks
    manifest      := manifestFor T chunker.config chunks options.hashingAlgorithm
    hashAlgorithm := options.hashingAlgorithm
    waitFor       := options.waitFor }

theorem chunkList_ne_nil (h : data ≠ []) : chunker.chunkList data ≠ [] := by
  rw [← List.length_pos_iff, FixedSizeChunker.length_chunkList,
    List.lt_length_chunksOf chunker.chunkSize_pos, Nat.zero_mul]
  exact List.length_pos_iff.mpr h

theorem cid_of_mem {c : PreparedChunk CID} (h : c ∈ (preparedOf T chunker data options).chunks) :
    c.cid = calculateCid T c.data rawCodec options.hashingAlgorithm := by
  obtain ⟨_, _, rfl⟩ := List.mem_map.mp h
  rfl

theorem prepareManifest_eq (lib : Libraries) {chunks : List (PreparedChunk CID)} (hn : chunks ≠ []) :
    prepareManifest T lib config chunks hashAlgorithm = ok (manifestFor T config chunks hashAlgorithm) := by
  have hb : UnixFsDagBuilder.build T lib (chunks.map fun c => (c.toChunk, some c.cid)) hashAlgorithm =
      ok (UnixFsDagBuilder.manifestOf T hashAlgorithm (chunks.map fun c => (c.cid, c.data.length))) := by
    refine (UnixFsDagBuilder.build_eq_ok lib).mpr
      ⟨chunks.map fun c => (c.toChunk, c.cid), ?_, ?_, ?_⟩
    · simpa using hn
    · simp
    · simp [UnixFsDagBuilder.blocksOf, Function.comp_def]
  rw [prepareManifest, manifestFor, hb]
  split <;> rfl

theorem prepareStoreChunked_eq_ok (lib : Libraries) {client : ClientConfig}
    {config : PartialChunkerConfig} :
    prepareStoreChunked T lib client data config options = ok p ↔
      ∃ chunker : FixedSizeChunker, chunker.config = chunkerConfig client config ∧ data ≠ [] ∧
        data.length ≤ maxFileSize ∧ p = preparedOf T chunker data options := by
  simp only [prepareStoreChunked, bind_eq_ok, ensure_eq_ok, mapError_eq_ok,
    FixedSizeChunker.new_eq_ok_iff, FixedSizeChunker.chunk_eq_ok_iff, ne_eq, List.length_eq_zero_iff]
  constructor
  case mp =>
    rintro ⟨_, hn, chunker, hc, _, ⟨_, hl, rfl⟩, manifest, hp, h⟩
    rw [prepareManifest_eq lib (mt List.map_eq_nil_iff.mp (chunkList_ne_nil hn))] at hp
    cases hp
    cases h
    exact ⟨chunker, hc, hn, hl, by rw [preparedOf, hc]⟩
  case mpr =>
    rintro ⟨chunker, hc, hn, hl, rfl⟩
    refine ⟨(), hn, chunker, hc, _, ⟨hn, hl, rfl⟩, _, prepareManifest_eq lib ?_, ?_⟩
    · exact mt List.map_eq_nil_iff.mp (chunkList_ne_nil hn)
    · rw [preparedOf, hc]
      rfl

end BulletinPreparer

-- The libraries as the formats define them.

def DagLink.ofMessage (l : PBLink) : Option DagLink := do
  let bytes ← l.hash
  let ((code, hashCode, digest), _) ← Cid.decodeV1 bytes
  return ⟨⟨code, hashCode, digest⟩, l.name, l.tsize⟩

def DagNode.ofMessage (n : PBNode) : Option DagNode := do
  let links ← n.links.mapM DagLink.ofMessage
  return ⟨links, n.data⟩

theorem DagLink.ofMessage_message {l : DagLink} (h : l.hash.Valid) : ofMessage l.message = some l := by
  obtain ⟨⟨code, hashCode, digest⟩, name, tsize⟩ := l
  obtain ⟨hc, hm, hd⟩ := h
  have hv := Cid.decodeV1_v1 (Nat.lt_trans hc (by decide)) (Nat.lt_trans hm (by decide))
    (Nat.lt_trans hd (by decide)) []
  rw [List.append_nil] at hv
  simp only [ofMessage, message, CID.bytes, Option.bind_eq_bind, Option.bind_some, hv]
  rfl

theorem DagNode.ofMessage_message {n : DagNode} (h : ∀ l ∈ n.links, l.hash.Valid) :
    ofMessage n.message = some n := by
  obtain ⟨links, data⟩ := n
  have hl : (links.map (·.message)).mapM DagLink.ofMessage = some links := by
    induction links
    case nil => rfl
    case cons l links hi =>
      obtain ⟨hl, hs⟩ := List.forall_mem_cons.mp h
      rw [List.map_cons, List.mapM_cons, DagLink.ofMessage_message hl, hi hs]
      rfl
  simp only [ofMessage, message, hl]
  rfl

def Libraries.standard : Libraries where
  encode n         := n.message.encode
  decode bs        := okOr (PBNode.decode bs >>= DagNode.ofMessage) (.ofError "Invalid DAG-PB")
  marshal u        := u.message.encode
  unmarshal bs     := okOr ((UnixFs.decode bs).map fun u => ⟨u.type, u.data, u.blocksizes⟩)
    (.ofError "Invalid UnixFS")
  encode_eq _      := rfl
  decode_encode h  := okOr_eq_ok.mpr <| Option.bind_eq_some_iff.mpr
    ⟨_, PBNode.decode_encode h.message, DagNode.ofMessage_message h.hash⟩
  marshal_eq _     := rfl
  unmarshal_encode h := okOr_eq_ok.mpr <| Option.map_eq_some_iff.mpr ⟨_, UnixFs.decode_encode h, rfl⟩

theorem manifests_read_published : ∃ m,
    RustSdk.UnixFsDagBuilder.build .published RustSdk.twoChunks .blake2b256 = ok m ∧
    UnixFsDagBuilder.parse .standard m.dagBytes = ok (RustSdk.twoChunks.list.map fun c =>
      calculateCid .published c.data rawCodec .blake2b256, 3) := by
  have h : RustSdk.UnixFsDagBuilder.build .published RustSdk.twoChunks .blake2b256 =
      ok (RustSdk.UnixFsDagBuilder.manifestOf .published .blake2b256 RustSdk.twoChunks.list) :=
    (RustSdk.UnixFsDagBuilder.build_eq_ok Config.published_cidV1).mpr ⟨by decide, by decide, rfl⟩
  obtain ⟨_, _, hp⟩ := (manifests_read Config.published_cidV1 .standard).left h
  exact ⟨_, h, hp (by decide)⟩

end TypescriptSdk
end Bulletin
