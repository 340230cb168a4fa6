import BulletinChain.RustSdk.Dag
import BulletinChain.Lib.DagPb
import BulletinChain.Migrations.Layout

namespace Bulletin

open Except Protobuf DagPb

variable {T : Config}

-- What the manifests assume of the hosts: a content hash is an array of 32 bytes, and `CidGeneric`
-- serializes to the bytes of a CID of version 1.
structure Config.CidV1 (T : Config) : Prop where
  length_contentHash    : ∀ h, (T.encodeContentHash h).length = 32
  contentHash_injective : Function.Injective T.encodeContentHash
  cidV1                 : ∀ codec code h,
    T.cidV1 codec code h = some (Cid.v1 codec code (T.encodeContentHash h))

namespace RustSdk

-- The CID of some data, and its bytes.

variable (T) in
def cidOf (config : CidConfig) (data : List UInt8) : CidData T :=
  ⟨T.hash config.hashing data, config.hashing, config.codec⟩

def cidBytes (c : CidData T) : List UInt8 :=
  Cid.v1 c.codec c.hashing.multihashCode (T.encodeContentHash c.contentHash)

theorem toBytes_eq (hc : T.CidV1) (c : CidData T) : c.toBytes = some (cidBytes c) :=
  hc.cidV1 ..

theorem calculateCid_eq (hc : T.CidV1) (data : List UInt8) (config : CidConfig) :
    calculateCid T data config = some (cidOf T config data) := by
  simp only [calculateCid, toBytes_eq hc, Option.map_some]
  rfl

theorem multihashCode_injective : Function.Injective HashingAlgorithm.multihashCode := by
  intro a b h
  cases a <;> cases b <;> first | rfl | contradiction

theorem cidBytes_injective (hc : T.CidV1) : Function.Injective (cidBytes (T := T)) := by
  intro c d h
  have ⟨hcodec, hcode, hd⟩ := Cid.v1_inj h
  obtain ⟨_, _, _⟩ := c
  obtain ⟨_, _, _⟩ := d
  simp only [CidData.mk.injEq]
  exact ⟨hc.contentHash_injective hd, multihashCode_injective hcode, hcodec⟩

-- The encoders write the canonical encoding of what they are given.

theorem encodeVarint_eq (value : Nat) (buf : List UInt8) :
    encodeVarint value buf = buf ++ varint value := by
  induction value using Nat.strongRecOn generalizing buf
  case ind value hi =>
    have hb : value &&& 0x7F = value % 128 := Nat.and_two_pow_sub_one_eq_mod value 7
    have hs : value >>> 7 = value / 128 := Nat.shiftRight_eq_div_pow value 7
    rw [encodeVarint, hb, hs]
    by_cases h : value < 128
    · rw [if_neg (by omega), varint_of_lt h, Nat.mod_eq_of_lt h]
    · have h := Nat.not_lt.mp h
      have ho : value % 128 ||| 0x80 = value % 128 + 128 := by
        have := Nat.two_pow_add_eq_or_of_lt (Nat.mod_lt value (by decide : 0 < 2 ^ 7)) 1
        rw [Nat.or_comm, ← this]
        omega
      rw [if_pos (by omega), hi _ (by omega), ho, varint_of_le h, List.append_assoc]
      rfl

namespace UnixFsDagBuilder

theorem key_eq (field wireType : Nat) (hk : 8 * field + wireType < 128) (hw : wireType < 8) :
    [key field wireType] = varint (8 * field + wireType) := by
  have ho : field <<< 3 ||| wireType = 8 * field + wireType := by
    rw [Nat.shiftLeft_eq, Nat.mul_comm]
    exact (Nat.two_pow_add_eq_or_of_lt hw field).symm
  rw [key, ho, varint_of_lt hk]

-- The metadata of a file with blocks of the given sizes.
def fileData (blockSizes : List Nat) : UnixFs where
  type       := .file
  data       := none
  filesize   := some blockSizes.sum
  blocksizes := blockSizes
  hashType   := none
  fanout     := none

theorem encodeUnixfsFileData_eq (blockSizes : List Nat) :
    encodeUnixfsFileData blockSizes blockSizes.sum = (fileData blockSizes).encode := by
  have hf (sizes : List Nat) (buf : List UInt8) :
      sizes.foldl (fun buf size => encodeVarint size (buf ++ [key 4 0])) buf =
        buf ++ (sizes.map fun size => (⟨4, .varint size⟩ : Field)).flatMap Field.encode := by
    induction sizes generalizing buf
    case nil             => simp
    case cons n sizes hi =>
      rw [List.foldl_cons, hi, encodeVarint_eq, key_eq 4 0 (by decide) (by decide)]
      simp [Field.encode]
  rw [encodeUnixfsFileData, hf, encodeVarint_eq, UnixFs.encode]
  simp [UnixFs.fields, fileData, Field.encode, DataType.number, ← key_eq 1 0 (by decide) (by decide),
    ← key_eq 3 0 (by decide) (by decide), varint_of_lt (n := 2) (by decide)]

theorem encodeDagLink_eq (cidBytes : List UInt8) (tsize : Nat) :
    encodeDagLink cidBytes "" tsize = PBLink.encode ⟨some cidBytes, none, some tsize⟩ := by
  simp only [encodeDagLink, encodeVarint_eq, PBLink.encode, PBLink.fields]
  simp [Field.encode, ← key_eq 1 2 (by decide) (by decide), ← key_eq 3 0 (by decide) (by decide)]

theorem encodeDagNode_eq (links : List PBLink) (hd : data ≠ []) :
    encodeDagNode (links.map PBLink.encode) data = PBNode.encode ⟨links, some data⟩ := by
  have hf (links : List PBLink) (buf : List UInt8) :
      (links.map PBLink.encode).foldl (fun buf link =>
          encodeVarint link.length (buf ++ [key 2 2]) ++ link) buf =
        buf ++ (links.map fun l => (⟨2, .bytes l.encode⟩ : Field)).flatMap Field.encode := by
    induction links generalizing buf
    case nil             => simp
    case cons l links hi =>
      rw [List.map_cons, List.foldl_cons, hi, encodeVarint_eq, key_eq 2 2 (by decide) (by decide)]
      simp [Field.encode]
  simp only [encodeDagNode, hf]
  simp only [encodeVarint_eq, PBNode.encode, PBNode.fields, List.flatMap_append]
  simp [hd, Field.encode, ← key_eq 1 2 (by decide) (by decide)]

-- What `build` makes of some chunks.

variable (T) in
def linkOf (hashAlgo : HashingAlgorithm) (chunk : Chunk) : PBLink where
  hash  := (cidOf T ⟨CidCodec.raw.code, hashAlgo⟩ chunk.data).toBytes
  name  := none
  tsize := some chunk.data.length

variable (T) in
def nodeOf (hashAlgo : HashingAlgorithm) (chunks : List Chunk) : PBNode where
  links := chunks.map (linkOf T hashAlgo)
  data  := some (fileData (chunks.map (·.data.length))).encode

variable (T) in
def manifestOf (hashAlgo : HashingAlgorithm) (chunks : List Chunk) : DagManifest T where
  rootCid   := cidOf T ⟨CidCodec.dagPb.code, hashAlgo⟩ (nodeOf T hashAlgo chunks).encode
  chunkCids := chunks.map (cidOf T ⟨CidCodec.raw.code, hashAlgo⟩ ·.data)
  totalSize := (chunks.map (·.data.length)).sum
  dagBytes  := (nodeOf T hashAlgo chunks).encode

theorem foldlM_collect (hc : T.CidV1) (config : CidConfig) (chunks : List Chunk) (acc : Collected T) :
    chunks.foldlM (collect config) acc = ok {
      chunkCids  := acc.chunkCids ++ chunks.map (cidOf T config ·.data)
      blockSizes := acc.blockSizes ++ chunks.map (·.data.length)
      totalSize  := acc.totalSize + (chunks.map (·.data.length)).sum } := by
  induction chunks generalizing acc
  case nil              => simp [pure, Except.pure]
  case cons c chunks hi =>
    rw [List.foldlM_cons, collect, calculateCid_eq hc]
    simp only [okOr, Option.elim_some, ok_bind, pure, Except.pure]
    rw [hi]
    simp [Nat.add_assoc]

theorem foldlM_link (hc : T.CidV1) (hashAlgo : HashingAlgorithm) (chunks : List Chunk)
    (acc : List (List UInt8)) :
    ((chunks.map (cidOf T ⟨CidCodec.raw.code, hashAlgo⟩ ·.data)).zip chunks).foldlM link acc =
      ok (acc ++ (chunks.map (linkOf T hashAlgo)).map PBLink.encode) := by
  induction chunks generalizing acc
  case nil              => simp [pure, Except.pure]
  case cons c chunks hi =>
    rw [List.map_cons, List.zip_cons_cons, List.foldlM_cons, link, toBytes_eq hc]
    simp only [okOr, Option.elim_some, ok_bind, pure, Except.pure, encodeDagLink_eq]
    rw [hi]
    simp [linkOf, toBytes_eq hc]

theorem encode_fileData_ne_nil (sizes : List Nat) : (fileData sizes).encode ≠ [] := by
  rw [← List.length_pos_iff, UnixFs.encode, UnixFs.fields, List.flatMap_cons, List.length_append]
  exact Nat.add_pos_left (length_encode_pos _) _

theorem build_eq_ok (hc : T.CidV1) {chunks : Chunks} {m : DagManifest T} :
    build T chunks hashAlgo = ok m ↔ chunks.list ≠ [] ∧ chunks.list.length ≤ maxManifestChunks ∧
      m = manifestOf T hashAlgo chunks.list := by
  simp only [build, bind_eq_ok, ensure_eq_ok, foldlM_collect hc, pure_eq_ok, Except.ok.injEq,
    exists_eq_left', List.nil_append, Nat.zero_add]
  simp only [foldlM_link hc, Except.ok.injEq, exists_eq_left', List.nil_append,
    encodeUnixfsFileData_eq, encodeDagNode_eq _ (encode_fileData_ne_nil _), calculateCid_eq hc,
    okOr_eq_ok, Option.some.injEq]
  simp [manifestOf, nodeOf, eq_comm]

-- How long the parts of a manifest are.

def cidLength : HashingAlgorithm → Nat
  | .blake2b256          => 38
  | .sha2256 | .keccak256 => 36

def fileDataLength (sizes : List Nat) : Nat :=
  3 + (varint sizes.sum).length + (sizes.map fun size => 1 + (varint size).length).sum

def nodeLength (hashAlgo : HashingAlgorithm) (sizes : List Nat) : Nat :=
  (sizes.map fun size => cidLength hashAlgo + 5 + (varint size).length).sum +
    (1 + (varint (fileDataLength sizes)).length + fileDataLength sizes)

theorem length_varint_of_lt (h : n < 128) : (varint n).length = 1 := by
  rw [varint_of_lt h, List.length_singleton]

theorem length_varint_le_ten (h : n < 2 ^ 64) : (varint n).length ≤ 10 :=
  length_varint_le (Nat.lt_trans h (by decide))

theorem length_cidBytes (hc : T.CidV1) (data : List UInt8) :
    (cidBytes (cidOf T ⟨CidCodec.raw.code, hashAlgo⟩ data)).length = cidLength hashAlgo := by
  have hm : (varint hashAlgo.multihashCode).length + 35 = cidLength hashAlgo := by
    cases hashAlgo
    case blake2b256 => rw [length_varint_eq (k := 2) (by decide) (by decide)]; rfl
    case sha2256    => rw [length_varint_of_lt (by decide)]; rfl
    case keccak256  => rw [length_varint_of_lt (by decide)]; rfl
  rw [cidBytes, Cid.length_v1, hc.length_contentHash, length_varint_of_lt (n := 32) (by decide)]
  simp only [cidOf, length_varint_of_lt (show CidCodec.raw.code < 128 by decide)]
  omega

theorem cidLength_le (hashAlgo : HashingAlgorithm) : cidLength hashAlgo ≤ 38 := by
  cases hashAlgo <;> decide

theorem length_linkOf (hc : T.CidV1) (chunk : Chunk) :
    (linkOf T hashAlgo chunk).encode.length =
      cidLength hashAlgo + 3 + (varint chunk.data.length).length := by
  have hl := cidLength_le hashAlgo
  simp only [PBLink.encode, PBLink.fields, linkOf, toBytes_eq hc, Option.toList_some,
    Option.toList_none, List.map_cons, List.map_nil, List.append_nil, List.singleton_append,
    List.flatMap_cons, List.flatMap_nil, Field.encode, List.length_append, length_cidBytes hc,
    length_varint_of_lt (show 8 * 1 + 2 < 128 by decide),
    length_varint_of_lt (show 8 * 3 < 128 by decide),
    length_varint_of_lt (show cidLength hashAlgo < 128 by omega)]
  omega

theorem length_fileData (sizes : List Nat) :
    (fileData sizes).encode.length = fileDataLength sizes := by
  have hs : ((sizes.map fun size => (⟨4, .varint size⟩ : Field)).flatMap Field.encode).length =
      (sizes.map fun size => 1 + (varint size).length).sum := by
    simp [List.length_flatMap, Field.encode, Function.comp_def,
      length_varint_of_lt (show 8 * 4 < 128 by decide)]
  simp only [UnixFs.encode, UnixFs.fields, fileData, DataType.number, Option.toList_none,
    Option.toList_some, List.map_nil, List.map_cons, List.nil_append, List.append_nil,
    List.singleton_append, List.flatMap_cons, Field.encode, List.length_append, hs,
    length_varint_of_lt (show 8 * 1 < 128 by decide), length_varint_of_lt (show 2 < 128 by decide),
    length_varint_of_lt (show 8 * 3 < 128 by decide), fileDataLength]
  omega

theorem length_nodeOf (hc : T.CidV1) {chunks : List Chunk}
    (hl : ∀ c ∈ chunks, c.data.length < 2 ^ 64) :
    (nodeOf T hashAlgo chunks).encode.length = nodeLength hashAlgo (chunks.map (·.data.length)) := by
  have hs : (((chunks.map (linkOf T hashAlgo)).map
      fun l => (⟨2, .bytes l.encode⟩ : Field)).flatMap Field.encode).length =
      ((chunks.map (·.data.length)).map
        fun size => cidLength hashAlgo + 5 + (varint size).length).sum := by
    induction chunks
    case nil              => rfl
    case cons c chunks hi =>
      have ⟨hc', hl⟩ := List.forall_mem_cons.mp hl
      have hlink : (linkOf T hashAlgo c).encode.length = _ := length_linkOf hc c
      have hcid := cidLength_le hashAlgo
      have hten := length_varint_le_ten hc'
      simp only [List.map_cons, List.flatMap_cons, List.length_append, List.sum_cons, hi hl,
        Field.encode, length_varint_of_lt (show 8 * 2 + 2 < 128 by decide), hlink]
      rw [length_varint_of_lt (by omega)]
      omega
  simp only [PBNode.encode, PBNode.fields, nodeOf, List.flatMap_append, List.length_append, hs,
    Option.toList_some, List.map_cons, List.map_nil, List.flatMap_cons, List.flatMap_nil,
    List.append_nil, Field.encode, length_fileData, nodeLength,
    length_varint_of_lt (show 8 * 1 + 2 < 128 by decide)]

-- The parts are short enough to be read back.

theorem length_lt_of_mem {chunks : Chunks} (h : c ∈ chunks.list) : c.data.length < 2 ^ 64 := by
  have hm : c.data.length ∈ chunks.list.map (·.data.length) := List.mem_map.mpr ⟨c, h, rfl⟩
  exact Nat.lt_of_le_of_lt (List.le_sum_of_mem hm) chunks.sum_lt

theorem sum_map_le {sizes : List Nat} {f : Nat → Nat} (h : ∀ n ∈ sizes, f n ≤ b) :
    (sizes.map f).sum ≤ sizes.length * b := by
  rw [← List.length_map f]
  refine List.sum_le_card_nsmul _ _ fun m hm => ?_
  have ⟨n, hn, hm⟩ := List.mem_map.mp hm
  exact hm ▸ h n hn

theorem fileDataLength_le {sizes : List Nat} (hs : sizes.sum < 2 ^ 64) :
    fileDataLength sizes ≤ 13 + 11 * sizes.length := by
  have hm : (sizes.map fun size => 1 + (varint size).length).sum ≤ sizes.length * 11 := by
    refine sum_map_le fun n hn => ?_
    have hl := length_varint_le_ten (Nat.lt_of_le_of_lt (List.le_sum_of_mem hn) hs)
    omega
  have hl := length_varint_le_ten hs
  rw [fileDataLength]
  omega

theorem fileData_valid {sizes : List Nat} (hs : sizes.sum < 2 ^ 64) : (fileData sizes).Valid where
  data         := nofun
  filesize _ h := Option.some.inj h ▸ hs
  blocksizes _ h := Nat.lt_of_le_of_lt (List.le_sum_of_mem h) hs
  hashType     := nofun
  fanout       := nofun

theorem nodeOf_valid (hc : T.CidV1) {chunks : Chunks} (hm : chunks.list.length ≤ maxManifestChunks) :
    (nodeOf T hashAlgo chunks.list).Valid := by
  have hl := cidLength_le hashAlgo
  constructor
  case links =>
    intro l h
    have ⟨c, hmem, h⟩ := List.mem_map.mp h
    subst h
    constructor
    case hash =>
      intro bs hb
      rw [linkOf, toBytes_eq hc] at hb
      rw [← Option.some.inj hb, length_cidBytes hc]
      omega
    case name  => exact nofun
    case tsize => exact fun n hn => Option.some.inj hn ▸ length_lt_of_mem hmem
  case length =>
    intro l h
    have ⟨c, hmem, h⟩ := List.mem_map.mp h
    have hten := length_varint_le_ten (length_lt_of_mem hmem)
    rw [← h, length_linkOf hc]
    omega
  case data =>
    intro bs hb
    have hf := fileDataLength_le chunks.sum_lt
    rw [← Option.some.inj hb, length_fileData]
    rw [List.length_map] at hf
    simp only [maxManifestChunks] at hm
    omega

theorem decode_dagBytes (hc : T.CidV1) {chunks : Chunks} {m : DagManifest T}
    (h : build T chunks hashAlgo = ok m) :
    PBNode.decode m.dagBytes = some (nodeOf T hashAlgo chunks.list) := by
  have ⟨_, hm, h⟩ := (build_eq_ok hc).mp h
  rw [h]
  exact PBNode.decode_encode (nodeOf_valid hc hm)

theorem number_nodeOf (chunks : List Chunk) : (nodeOf T hashAlgo chunks).fields.map (·.number) =
    List.replicate chunks.length 2 ++ [1] := by
  simp [PBNode.fields, nodeOf, Function.comp_def]

theorem nodeOf_inj (hc : T.CidV1) (h : nodeOf T hashAlgo chunks = nodeOf T hashAlgo' chunks') :
    chunks.map (cidOf T ⟨CidCodec.raw.code, hashAlgo⟩ ·.data) =
        chunks'.map (cidOf T ⟨CidCodec.raw.code, hashAlgo'⟩ ·.data) ∧
      chunks.map (·.data.length) = chunks'.map (·.data.length) := by
  have hl : chunks.map (linkOf T hashAlgo) = chunks'.map (linkOf T hashAlgo') := congrArg (·.links) h
  have hb := congrArg (List.map (·.hash)) hl
  have ht := congrArg (List.map (·.tsize)) hl
  simp only [List.map_map, Function.comp_def, linkOf, toBytes_eq hc] at hb ht
  have hi := List.map_injective_iff.mpr ((Option.some_injective _).comp (cidBytes_injective hc))
  have hj : Function.Injective (List.map (some : Nat → Option Nat)) :=
    List.map_injective_iff.mpr (Option.some_injective _)
  refine ⟨hi ?_, hj ?_⟩
  · rw [List.map_map, List.map_map]
    exact hb
  · rw [List.map_map, List.map_map]
    exact ht

end UnixFsDagBuilder

open UnixFsDagBuilder

-- A manifest is read back as the links of its chunks, in their order and before the metadata of the
-- file. Hence two lists of chunks with the same manifest have the same CIDs and lengths.
theorem manifest_round_trip (hc : T.CidV1) :
    (∀ (chunks : Chunks) hashAlgo, 1 ≤ chunks.list.length →
      chunks.list.length ≤ maxManifestChunks →
      ∃ m node data, build T chunks hashAlgo = ok m ∧
        (Decode.fields m.dagBytes).map (·.map (·.number)) =
          some (List.replicate chunks.list.length 2 ++ [1]) ∧
        PBNode.decode m.dagBytes = some node ∧
        node.links = (chunks.list.map fun c => {
          hash  := (calculateCid T c.data ⟨rawCodec, hashAlgo⟩).bind (·.toBytes)
          name  := none
          tsize := some c.data.length }) ∧
        (∀ l ∈ node.links, l.hash.isSome) ∧
        node.data = some data ∧
        UnixFs.decode data = some {
          type       := .file
          data       := none
          filesize   := some (chunks.list.map (·.data.length)).sum
          blocksizes := chunks.list.map (·.data.length)
          hashType   := none
          fanout     := none }) ∧
    (∀ (chunks chunks' : Chunks) hashAlgo hashAlgo' (m m' : DagManifest T),
      build T chunks hashAlgo = ok m → build T chunks' hashAlgo' = ok m' →
      m.dagBytes = m'.dagBytes → m.chunkCids = m'.chunkCids ∧
        chunks.list.map (·.data.length) = chunks'.list.map (·.data.length)) ∧
    ∀ value < 2 ^ 64, ∀ rest, Decode.varint (encodeVarint value [] ++ rest) = some (value, rest) := by
  refine ⟨fun chunks hashAlgo hp hm => ?_, fun chunks chunks' hashAlgo hashAlgo' m m' h h' he => ?_,
    fun value hv rest => ?_⟩
  · have hb : build T chunks hashAlgo = ok (manifestOf T hashAlgo chunks.list) :=
      (build_eq_ok hc).mpr ⟨List.length_pos_iff.mp hp, hm, rfl⟩
    refine ⟨_, nodeOf T hashAlgo chunks.list, _, hb, ?_, decode_dagBytes hc hb, ?_, ?_, rfl,
      UnixFs.decode_encode (fileData_valid chunks.sum_lt)⟩
    · rw [manifestOf, PBNode.encode, fields_encode (nodeOf_valid hc hm).fields, Option.map_some,
        number_nodeOf]
    · simp only [calculateCid_eq hc]
      rfl
    · intro l hl
      obtain ⟨c, _, hl⟩ := List.mem_map.mp hl
      rw [← hl, linkOf, toBytes_eq hc, Option.isSome_some]
  · have hd := decode_dagBytes hc h
    rw [he, decode_dagBytes hc h'] at hd
    obtain ⟨_, _, hm⟩ := (build_eq_ok hc).mp h
    obtain ⟨_, _, hm'⟩ := (build_eq_ok hc).mp h'
    rw [hm, hm']
    exact nodeOf_inj hc (Option.some.inj hd).symm
  · rw [encodeVarint_eq, List.nil_append, varint_varint hv]

end RustSdk

open RustSdk UnixFsDagBuilder

-- The runtime with arrays for its hashes, and with CIDs of version 1.
def Config.published : Config :=
  { Config.arrays with cidV1 codec code h := some (Cid.v1 codec code h.toList) }

theorem Config.published_cidV1 : Config.published.CidV1 where
  length_contentHash h    := h.property
  contentHash_injective _ _ := Subtype.ext
  cidV1 _ _ _             := rfl

def RustSdk.twoChunks : Chunks where
  list   := [⟨[1, 2], 0, 2⟩, ⟨[3], 1, 2⟩]
  sum_lt := by decide

theorem manifest_round_trip_two : ∃ m node data,
    build .published twoChunks .sha2256 = ok m ∧
    PBNode.decode m.dagBytes = some node ∧ node.links.map (·.tsize) = [some 2, some 1] ∧
    node.data = some data ∧
    (UnixFs.decode data).map (·.filesize) = some (some 3) := by
  have ⟨m, node, data, hb, _, hn, hl, _, hd, hu⟩ :=
    (manifest_round_trip Config.published_cidV1).left twoChunks .sha2256 (by decide) (by decide)
  refine ⟨m, node, data, hb, hn, ?_, hd, ?_⟩
  · rw [hl]
    rfl
  · rw [hu]
    rfl

end Bulletin
