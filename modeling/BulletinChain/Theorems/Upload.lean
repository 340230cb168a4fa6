import BulletinChain.RustSdk.Client
import BulletinChain.Runtime.Boost
import BulletinChain.Theorems.Manifest

namespace Bulletin

open Machine Except Protobuf DagPb

variable {T : Config}

namespace RustSdk

open UnixFsDagBuilder

variable {data : List UInt8} {options : StoreOptions}

namespace FixedSizeChunker

variable {chunker : FixedSizeChunker} {chunks : Chunks}

theorem new_eq_ok {config : ChunkerConfig} : new config = ok chunker ↔ chunker.config = config := by
  obtain ⟨_, hp, hm⟩ := chunker
  simp only [new]
  split
  case isTrue h => simp only [reduceCtorEq, false_iff]; rintro rfl; omega
  case isFalse  =>
    split
    case isTrue h => simp only [reduceCtorEq, false_iff]; rintro rfl; omega
    case isFalse  => simp [eq_comm]

-- The chunks of data that is not too large.
def chunked (chunker : FixedSizeChunker) (h : data.length ≤ maxFileSize) : Chunks where
  list   := chunker.chunkList data
  sum_lt := by
    rw [chunker.sum_chunkList]
    exact Nat.lt_of_le_of_lt h (by decide)

theorem chunk_eq_ok : chunker.chunk data = ok chunks ↔
    data ≠ [] ∧ data.length ≤ maxFileSize ∧ chunks.list = chunker.chunkList data := by
  obtain ⟨list, _⟩ := chunks
  simp only [chunk]
  split
  case isTrue h  => simp_all
  case isFalse h =>
    split
    case isTrue hm => exact iff_of_false nofun fun h => Nat.not_le.mpr hm h.right.left
    case isFalse hm =>
      have hd : data ≠ [] := by simpa using h
      simp only [Except.ok.injEq, Chunks.mk.injEq, hd, Nat.not_lt.mp hm, ne_eq, not_false_eq_true,
        true_and]
      exact eq_comm

theorem length_chunkList : (chunker.chunkList data).length =
    (data.chunksOf chunker.config.chunkSize).length := by
  rw [← chunker.map_data_chunkList, List.length_map]

theorem map_length_chunkList : (chunker.chunkList data).map (·.data.length) =
    List.chunkSizes chunker.config.chunkSize data.length := by
  rw [← List.map_length_chunksOf, ← chunker.map_data_chunkList, List.map_map]
  rfl

end FixedSizeChunker

theorem StorageOperation.validate_eq_ok {op : StorageOperation} :
    op.validate = ok u ↔ op.data ≠ [] ∧ op.data.length ≤ maxChunkSize := by
  simp [validate, bind_eq_ok, ensure_eq_ok]

-- The operation that stores a chunk.
def StorageOperation.of (options : StoreOptions) (data : List UInt8) : StorageOperation :=
  ⟨data, ⟨options.cidCodec.code, options.hashAlgorithm⟩, options.waitFor⟩

theorem BatchStorageOperation.fromChunks_eq_ok {chunkData : List (List UInt8)}
    {batch : BatchStorageOperation} : fromChunks chunkData options = ok batch ↔
      (∀ data ∈ chunkData, data ≠ [] ∧ data.length ≤ maxChunkSize) ∧
      batch = ⟨chunkData.map (.of options), options.waitFor⟩ := by
  have hf (acc ops : List StorageOperation) :
      chunkData.foldlM (fun operations data => do
        let op : StorageOperation :=
          ⟨data, ⟨options.cidCodec.code, options.hashAlgorithm⟩, options.waitFor⟩
        op.validate
        return operations ++ [op]) acc = ok ops ↔
      (∀ data ∈ chunkData, data ≠ [] ∧ data.length ≤ maxChunkSize) ∧
      ops = acc ++ chunkData.map (.of options) := by
    induction chunkData generalizing acc
    case nil               => simp [pure, Except.pure, eq_comm]
    case cons c chunks hi =>
      simp only [List.foldlM_cons, bind_eq_ok, StorageOperation.validate_eq_ok, pure_eq_ok,
        List.forall_mem_cons]
      constructor
      case mp =>
        rintro ⟨_, ⟨_, hv, rfl⟩, h⟩
        have ⟨hs, h⟩ := (hi _).mp h
        exact ⟨⟨hv, hs⟩, by simp [h, StorageOperation.of]⟩
      case mpr =>
        rintro ⟨⟨hv, hs⟩, rfl⟩
        exact ⟨_, ⟨(), hv, rfl⟩, (hi _).mpr ⟨hs, by simp [StorageOperation.of]⟩⟩
  simp only [fromChunks, bind_eq_ok, hf, pure_eq_ok, List.nil_append]
  constructor
  case mp =>
    rintro ⟨_, ⟨hs, rfl⟩, rfl⟩
    exact ⟨hs, rfl⟩
  case mpr =>
    rintro ⟨hs, rfl⟩
    exact ⟨_, ⟨hs, rfl⟩, rfl⟩

theorem StorageOperation.calculateCid_of (hc : T.CidV1) (data : List UInt8) :
    (StorageOperation.of options data).calculateCid T =
      ok (cidOf T ⟨options.cidCodec.code, options.hashAlgorithm⟩ data) := by
  simp only [calculateCid, StorageOperation.of, calculateCid_eq hc]
  rfl

theorem BatchStorageOperation.calculateCids_map (hc : T.CidV1) (pieces : List (List UInt8)) :
    calculateCids T ⟨pieces.map (.of options), options.waitFor⟩ =
      ok (pieces.map (cidOf T ⟨options.cidCodec.code, options.hashAlgorithm⟩)) := by
  simp only [calculateCids]
  induction pieces
  case nil               => rfl
  case cons p pieces hi =>
    rw [List.map_cons, List.mapM_cons, StorageOperation.calculateCid_of hc, hi]
    rfl

namespace BulletinClient

variable {client : BulletinClient} {config : Option ChunkerConfig} {progressCallback : Bool}
  {batch : BatchStorageOperation} {manifest : Option (List UInt8)} {chunker : FixedSizeChunker}

-- What a chunked upload consists of, and when there is one.
variable (T) in
structure Prepared (chunker : FixedSizeChunker) (data : List UInt8) (options : StoreOptions)
    (batch : BatchStorageOperation) (manifest : Option (List UInt8)) : Prop where
  ne_nil      : data ≠ []
  length_le   : data.length ≤ maxFileSize
  count_le    : chunker.config.createManifest → (chunker.chunkList data).length ≤ maxManifestChunks
  batch_eq    : batch =
    ⟨(data.chunksOf chunker.config.chunkSize).map (.of options), options.waitFor⟩
  manifest_eq : manifest =
    if chunker.config.createManifest then
      some (nodeOf T options.hashAlgorithm (chunker.chunkList data)).encode
    else
      none

theorem prepareManifest_eq_ok (hc : T.CidV1) {chunks : Chunks} {m : List UInt8} :
    prepareManifest T chunks options progressCallback = ok m ↔
      chunks.list ≠ [] ∧ chunks.list.length ≤ maxManifestChunks ∧
      m = (nodeOf T options.hashAlgorithm chunks.list).encode := by
  have hb (manifest : DagManifest T) : okOr manifest.rootCid.toBytes
      (Error.dagEncodingFailed "Failed to convert manifest CID to bytes") =
        ok (cidBytes manifest.rootCid) := by
    rw [toBytes_eq hc]
    rfl
  simp only [prepareManifest, bind_eq_ok, build_eq_ok hc, hb]
  cases progressCallback <;> simp [pure, Except.pure, manifestOf, eq_comm, and_assoc]

theorem chunkList_ne_nil (h : data ≠ []) : chunker.chunkList data ≠ [] := by
  rw [← List.length_pos_iff, FixedSizeChunker.length_chunkList,
    List.lt_length_chunksOf chunker.chunkSize_pos, Nat.zero_mul]
  exact List.length_pos_iff.mpr h

theorem prepareStoreChunked_eq_ok (hc : T.CidV1) :
    prepareStoreChunked T client data config options progressCallback = ok (batch, manifest) ↔
      ∃ chunker : FixedSizeChunker, chunker.config = client.chunkerConfig config ∧
        Prepared T chunker data options batch manifest := by
  have hb (chunker : FixedSizeChunker) : BatchStorageOperation.fromChunks
      (data.chunksOf chunker.config.chunkSize) options = ok batch ↔ batch =
        ⟨(data.chunksOf chunker.config.chunkSize).map (.of options), options.waitFor⟩ := by
    rw [BatchStorageOperation.fromChunks_eq_ok, and_iff_right]
    intro piece h
    obtain ⟨hn, hl⟩ := List.mem_chunksOf chunker.chunkSize_pos h
    exact ⟨hn, Nat.le_trans hl chunker.chunkSize_le⟩
  simp only [prepareStoreChunked, bind_eq_ok, ensure_eq_ok, FixedSizeChunker.new_eq_ok,
    FixedSizeChunker.chunk_eq_ok]
  constructor
  case mp =>
    rintro ⟨_, _, chunker, hk, chunks, ⟨hn, hs, hl⟩, h⟩
    refine ⟨chunker, hk, ?_⟩
    rw [← hk, hl, chunker.map_data_chunkList] at h
    split at h
    case isTrue hcm =>
      obtain ⟨m, hm, h⟩ := bind_eq_ok.mp h
      obtain ⟨b, hb', h⟩ := bind_eq_ok.mp h
      cases h
      obtain ⟨m, hm, he⟩ := map_eq_ok.mp hm
      obtain ⟨_, hle, hm⟩ := (prepareManifest_eq_ok hc).mp hm
      exact ⟨hn, hs, fun _ => hl ▸ hle, (hb chunker).mp hb', by simp [hcm, ← he, hm, hl]⟩
    case isFalse hcm =>
      obtain ⟨m, hm, h⟩ := bind_eq_ok.mp h
      obtain ⟨b, hb', h⟩ := bind_eq_ok.mp h
      cases h
      cases hm
      exact ⟨hn, hs, fun h => absurd h hcm, (hb chunker).mp hb', by simp [hcm]⟩
  case mpr =>
    rintro ⟨chunker, hk, hn, hs, hcount, hb', hm⟩
    have hl : (chunker.chunked hs).list = chunker.chunkList data := rfl
    refine ⟨(), by simpa using hn, chunker, hk, chunker.chunked hs, ⟨hn, hs, hl⟩, ?_⟩
    rw [← hk, hl, chunker.map_data_chunkList, hm]
    have hb := (hb chunker).mpr hb'
    split
    case isTrue hcm =>
      have hm : prepareManifest T (chunker.chunked hs) options progressCallback = ok _ :=
        (prepareManifest_eq_ok hc).mpr ⟨chunkList_ne_nil hn, hcount hcm, rfl⟩
      rw [hm, hb]
      rfl
    case isFalse =>
      rw [hb]
      rfl

-- An upload with a manifest, for data that is neither empty nor too large.
theorem prepared_of (hc : T.CidV1) (client : BulletinClient) (data : List UInt8)
    (config : Option ChunkerConfig) (options : StoreOptions) (progressCallback : Bool)
    (chunker : FixedSizeChunker) (hk : chunker.config = client.chunkerConfig config)
    (hcm : chunker.config.createManifest) (hn : data ≠ []) (hs : data.length ≤ maxFileSize)
    (hl : (List.chunkSizes chunker.config.chunkSize data.length).length ≤ maxManifestChunks) :
    ∃ batch m, client.prepareStoreChunked T data config options progressCallback =
        ok (batch, some m) ∧
      Prepared T chunker data options batch (some m) := by
  have hl : (chunker.chunkList data).length ≤ maxManifestChunks := by
    rwa [← FixedSizeChunker.map_length_chunkList, List.length_map] at hl
  have h : Prepared T chunker data options _ (some _) :=
    ⟨hn, hs, fun _ => hl, rfl, (if_pos hcm).symm⟩
  exact ⟨_, _, (prepareStoreChunked_eq_ok hc).mpr ⟨chunker, hk, h⟩, h⟩

namespace Prepared

variable {m : List UInt8}

theorem flatMap_operations (h : Prepared T chunker data options batch manifest) :
    batch.operations.flatMap (·.data) = data := by
  rw [h.batch_eq, List.flatMap_map]
  exact List.flatMap_id.trans (List.flatten_chunksOf chunker.chunkSize_pos data)

theorem length_operations (h : Prepared T chunker data options batch manifest) :
    batch.operations.length = (data.chunksOf chunker.config.chunkSize).length := by
  rw [h.batch_eq, List.length_map]

-- Every operation but the last one has the size of a chunk.
theorem size_operation (h : Prepared T chunker data options batch manifest)
    (hi : batch.operations[i]? = some op) :
    1 ≤ op.size ∧ op.size ≤ chunker.config.chunkSize ∧
      (i + 1 < batch.operations.length → op.size = chunker.config.chunkSize) := by
  have hp := chunker.chunkSize_pos
  have hlt : i < (data.chunksOf chunker.config.chunkSize).length := by
    rw [← h.length_operations]
    exact (List.getElem?_eq_some_iff.mp hi).1
  rw [h.batch_eq, List.getElem?_map, List.getElem?_chunksOf hlt, Option.map_some,
    Option.some.injEq] at hi
  have hs : op.size = min chunker.config.chunkSize (data.length - i * chunker.config.chunkSize) := by
    rw [← hi, StorageOperation.size, StorageOperation.of, List.length_take, List.length_drop]
  have hl := (List.lt_length_chunksOf hp).mp hlt
  refine ⟨by omega, by omega, fun hn => ?_⟩
  rw [h.length_operations, List.lt_length_chunksOf hp, Nat.add_mul] at hn
  omega

theorem calculateCids (hc : T.CidV1) (h : Prepared T chunker data options batch manifest) :
    batch.calculateCids T = ok ((data.chunksOf chunker.config.chunkSize).map
      (cidOf T ⟨options.cidCodec.code, options.hashAlgorithm⟩)) := by
  rw [h.batch_eq]
  exact BatchStorageOperation.calculateCids_map hc _

theorem of_some (h : Prepared T chunker data options batch (some m)) :
    chunker.config.createManifest ∧
      m = (nodeOf T options.hashAlgorithm (chunker.chunkList data)).encode := by
  have hm := h.manifest_eq
  split at hm
  case isTrue hcm => exact ⟨hcm, Option.some.inj hm⟩
  case isFalse    => contradiction

theorem decode_manifest (hc : T.CidV1) (h : Prepared T chunker data options batch (some m)) :
    PBNode.decode m = some (nodeOf T options.hashAlgorithm (chunker.chunkList data)) := by
  have ⟨hcm, hm⟩ := h.of_some
  have hv : (nodeOf T options.hashAlgorithm (chunker.chunked h.length_le).list).Valid :=
    nodeOf_valid hc (h.count_le hcm)
  rw [hm]
  exact PBNode.decode_encode hv

theorem length_manifest (hc : T.CidV1) (h : Prepared T chunker data options batch (some m)) :
    m.length = nodeLength options.hashAlgorithm
      (List.chunkSizes chunker.config.chunkSize data.length) := by
  have hl : ∀ c ∈ chunker.chunkList data, c.data.length < 2 ^ 64 := by
    intro c hm
    have hm : c ∈ (chunker.chunked h.length_le).list := hm
    exact length_lt_of_mem hm
  rw [h.of_some.right, length_nodeOf hc hl, FixedSizeChunker.map_length_chunkList]

-- The manifest links the chunks under the raw codec, the batch stores them under the one of the
-- options.
theorem links_eq_iff (hc : T.CidV1) (h : Prepared T chunker data options batch manifest) :
    (nodeOf T options.hashAlgorithm (chunker.chunkList data)).links.map (·.hash) =
        ((data.chunksOf chunker.config.chunkSize).map
          (cidOf T ⟨options.cidCodec.code, options.hashAlgorithm⟩)).map (·.toBytes) ↔
      options.cidCodec.code = rawCodec := by
  have hl : (nodeOf T options.hashAlgorithm (chunker.chunkList data)).links.map (·.hash) =
      (data.chunksOf chunker.config.chunkSize).map
        fun piece => (cidOf T ⟨rawCodec, options.hashAlgorithm⟩ piece).toBytes := by
    rw [← chunker.map_data_chunkList]
    simp only [nodeOf, List.map_map]
    rfl
  have hne : data.chunksOf chunker.config.chunkSize ≠ [] := by
    have hn : chunker.chunkList data ≠ [] := chunkList_ne_nil h.ne_nil
    rwa [← chunker.map_data_chunkList, ne_eq, List.map_eq_nil_iff]
  rw [hl, List.map_map, List.map_inj_left]
  constructor
  case mpr =>
    intro he piece _
    rw [he]
    rfl
  case mp =>
    intro hm
    have hh := hm _ (List.head_mem hne)
    simp only [Function.comp_apply, toBytes_eq hc, Option.some.injEq] at hh
    exact (congrArg (·.codec) (cidBytes_injective hc hh)).symm

theorem totalSize (h : Prepared T chunker data options batch manifest) :
    batch.totalSize = data.length := by
  have hl := congrArg List.length h.flatMap_operations
  rwa [List.length_flatMap] at hl

theorem len (h : Prepared T chunker data options batch manifest) :
    batch.len = (List.chunkSizes chunker.config.chunkSize data.length).length := by
  rw [BatchStorageOperation.len, h.length_operations, ← List.map_length_chunksOf, List.length_map]

theorem sum_chunkSizes (h : Prepared T chunker data options batch manifest) :
    (List.chunkSizes chunker.config.chunkSize data.length).sum < 2 ^ 28 := by
  rw [← FixedSizeChunker.map_length_chunkList, chunker.sum_chunkList]
  exact Nat.lt_of_le_of_lt h.length_le (by decide)

end Prepared
end BulletinClient

open BulletinClient

-- A chunked upload is its data in chunks of the configured size. The manifest links what the batch
-- stores if and only if the options ask for the raw codec.
theorem upload_consistent (hc : T.CidV1) (client : BulletinClient) (config : Option ChunkerConfig)
    (progressCallback : Bool)
    (h : client.prepareStoreChunked T data config options progressCallback = ok (batch, manifest)) :
    let chunkSize := (client.chunkerConfig config).chunkSize
    batch.operations.flatMap (·.data) = data ∧
    1 ≤ batch.len ∧ chunkSize ≤ maxChunkSize ∧
    (∀ i op, batch.operations[i]? = some op → 1 ≤ op.data.length ∧ op.data.length ≤ chunkSize ∧
      (i + 1 < batch.len → op.data.length = chunkSize)) ∧
    ∃ cids, batch.calculateCids T = ok cids ∧ ∀ m, manifest = some m →
      ∃ node, PBNode.decode m = some node ∧
        (node.links.map (·.hash) = cids.map (·.toBytes) ↔ options.cidCodec.code = rawCodec) := by
  have ⟨chunker, hk, h⟩ := (prepareStoreChunked_eq_ok hc).mp h
  have hn : 1 ≤ batch.len := by
    rw [BatchStorageOperation.len, h.length_operations, ← FixedSizeChunker.length_chunkList]
    exact List.length_pos_iff.mpr (chunkList_ne_nil h.ne_nil)
  rw [← hk]
  refine ⟨h.flatMap_operations, hn, chunker.chunkSize_le, fun i op hi => h.size_operation hi, _,
    h.calculateCids hc, fun m hm => ?_⟩
  subst hm
  exact ⟨_, h.decode_manifest hc, h.links_eq_iff hc⟩

-- Two bytes, under the default configuration.
theorem prepared_default (options : StoreOptions) : ∃ batch m,
    BulletinClient.prepareStoreChunked .published ⟨.default⟩ [1, 2] none options false =
      ok (batch, some m) :=
  have ⟨batch, m, hb, _⟩ := prepared_of Config.published_cidV1 ⟨.default⟩ [1, 2] none options false
    ⟨⟨1024 * 1024, 8, true⟩, by decide, by decide⟩ rfl rfl (by decide) (by decide) (by decide)
  ⟨batch, m, hb⟩

theorem upload_consistent_default : ∃ batch m cids node,
    BulletinClient.prepareStoreChunked .published ⟨.default⟩ [1, 2] none .default false =
      ok (batch, some m) ∧
    batch.calculateCids .published = ok cids ∧ PBNode.decode m = some node ∧
    node.links.map (·.hash) = cids.map (·.toBytes) := by
  have hc := Config.published_cidV1
  have ⟨batch, m, hb⟩ := prepared_default .default
  have ⟨_, _, _, _, cids, hcids, hm⟩ := upload_consistent hc ⟨.default⟩ none false hb
  have ⟨node, hd, hi⟩ := hm m rfl
  exact ⟨batch, m, cids, node, hb, hcids, hd, hi.mpr rfl⟩

-- With another codec the same bytes are stored under it, but linked as raw ones.
theorem upload_links_other_cids : ∃ batch m cids node,
    BulletinClient.prepareStoreChunked .published ⟨.default⟩ [1, 2] none
      { StoreOptions.default with cidCodec := .dagPb } false = ok (batch, some m) ∧
    batch.calculateCids .published = ok cids ∧ PBNode.decode m = some node ∧
    node.links.map (·.hash) ≠ cids.map (·.toBytes) := by
  have hc := Config.published_cidV1
  have ⟨batch, m, hb⟩ := prepared_default { StoreOptions.default with cidCodec := .dagPb }
  have ⟨_, _, h⟩ := (prepareStoreChunked_eq_ok hc).mp hb
  refine ⟨batch, m, _, _, hb, h.calculateCids hc, h.decode_manifest hc, fun he => ?_⟩
  have := (h.links_eq_iff hc).mp he
  contradiction

-- The charges of an upload: one for each operation and one for the manifest.
def chargesOf (batch : BatchStorageOperation) (manifest : Option (List UInt8)) : List Nat :=
  batch.operations.map (·.size) ++ manifest.toList.map (·.length)

theorem length_chargesOf : (chargesOf batch manifest).length =
    batch.len + if manifest.isSome then 1 else 0 := by
  cases manifest <;> simp [chargesOf, BatchStorageOperation.len]

theorem sum_chargesOf : (chargesOf batch manifest).sum =
    batch.totalSize + manifest.elim 0 List.length := by
  cases manifest <;> simp [chargesOf, BatchStorageOperation.totalSize]

theorem foldl_charged (sizes : List Nat) (a : Authorization) (hb : a.extent.bytes ≤ u64Max)
    (ht : a.extent.transactions ≤ u32Max) :
    (sizes.foldl TransactionStorage.charged a).extent = { a.extent with
      bytes        := min (a.extent.bytes + sizes.sum) u64Max
      transactions := min (a.extent.transactions + sizes.length) u32Max } := by
  induction sizes generalizing a
  case nil              => simp [hb, ht]
  case cons n sizes hi =>
    rw [List.foldl_cons, hi _ saturatingAdd_le saturatingAdd_le]
    simp only [TransactionStorage.charged, saturatingAdd, List.sum_cons, List.length_cons,
      AuthorizationExtent.mk.injEq, and_true, true_and]
    omega

-- A grant lasts for a list of charges if and only if it covers their number and their sum.
theorem inBudget_charges (ht : t < u32Max) (hb : b < u64Max) (hp : 0 < b) (expiration : Nat)
    (sizes : List Nat) :
    (∀ k, ((sizes.take k).foldl TransactionStorage.charged
      (State.freshAuthorization t b expiration)).extent.inBudget) ↔
    sizes.length ≤ t ∧ sizes.sum ≤ b := by
  have hk (k : Nat) : ((sizes.take k).foldl TransactionStorage.charged
      (State.freshAuthorization t b expiration)).extent.inBudget ↔
        (sizes.take k).length ≤ t ∧ (sizes.take k).sum ≤ b := by
    rw [foldl_charged _ _ (Nat.zero_le _) (Nat.zero_le _)]
    simp only [AuthorizationExtent.inBudget, State.freshAuthorization, Nat.zero_add]
    rw [if_neg (by omega)]
    simp only [Bool.and_eq_true, decide_eq_true_eq]
    omega
  simp only [hk]
  constructor
  case mp =>
    intro h
    have hl := h sizes.length
    rwa [List.take_length] at hl
  case mpr =>
    intro ⟨ht, hb⟩ k
    have hs : sizes.sum = (sizes.take k).sum + (sizes.drop k).sum := by
      rw [← List.sum_append, List.take_append_drop]
    have hl := List.length_take_le k sizes
    rw [List.length_take] at hl ⊢
    omega

theorem length_chunkSizes_le (hn : n ≤ maxFileSize) :
    (List.chunkSizes defaultChunkSize n).length ≤ 64 := by
  rw [List.length_chunkSizes]
  simp only [maxFileSize, defaultChunkSize] at hn ⊢
  omega

theorem estimateAuthorization_eq (client : BulletinClient) (hp : 0 < n) (hn : n ≤ maxFileSize) :
    client.estimateAuthorization n =
      let count := (List.chunkSizes defaultChunkSize n).length
      if client.config.createManifest then (count + 1, n + (10 * count + 1000)) else (count, n) := by
  have hc := length_chunkSizes_le hn
  simp only [estimateAuthorization, AuthorizationManager.estimateAuthorization,
    if_neg (Nat.ne_of_gt hp), ← List.length_chunkSizes, AuthorizationManager.calculateRequirements,
    saturatingAdd]
  simp only [maxFileSize] at hn
  simp only [u32Max, u64Max]
  generalize (List.chunkSizes defaultChunkSize n).length = count at hc
  split
  case isTrue =>
    simp only [Prod.mk.injEq]
    omega
  case isFalse =>
    rw [Nat.min_eq_left (by omega)]

-- How long a manifest can be at most: the lengths of chunks and files take four bytes.
theorem nodeLength_le (hashAlgo : HashingAlgorithm) {sizes : List Nat} (hs : sizes.sum < 2 ^ 28)
    (hl : sizes.length ≤ 400000) : nodeLength hashAlgo sizes ≤ 52 * sizes.length + 11 := by
  have hv {n : Nat} (h : n ∈ sizes) : (varint n).length ≤ 4 :=
    length_varint_le (Nat.lt_of_le_of_lt (List.le_sum_of_mem h) hs)
  have hc := cidLength_le hashAlgo
  have hlinks : (sizes.map fun size => cidLength hashAlgo + 5 + (varint size).length).sum ≤
      sizes.length * 47 := by
    refine sum_map_le fun n hn => ?_
    have := hv hn
    omega
  have hblocks : (sizes.map fun size => 1 + (varint size).length).sum ≤ sizes.length * 5 := by
    refine sum_map_le fun n hn => ?_
    have := hv hn
    omega
  have hf : fileDataLength sizes ≤ 7 + sizes.length * 5 := by
    have : (varint sizes.sum).length ≤ 4 := length_varint_le hs
    rw [fileDataLength]
    omega
  have hfv : (varint (fileDataLength sizes)).length ≤ 3 :=
    length_varint_le (by omega)
  rw [nodeLength]
  omega

theorem nodeLength_replicate (hashAlgo : HashingAlgorithm) (k n : Nat) :
    nodeLength hashAlgo (List.replicate k n) =
      let file := 3 + (varint (k * n)).length + k * (1 + (varint n).length)
      k * (cidLength hashAlgo + 5 + (varint n).length) + (1 + (varint file).length + file) := by
  simp [nodeLength, fileDataLength]

-- What is granted by an estimate covers the upload, and lasts for all of its charges, if and only if
-- the client makes no more chunks than the estimate assumes and the manifest is no longer than that.
theorem estimate_covers (hc : T.CidV1) (client : BulletinClient)
    (h : client.prepareStoreChunked T data none options false = ok (batch, manifest))
    (he : client.estimateAuthorization data.length = (t, b)) :
    let sizes := List.chunkSizes client.config.defaultChunkSize data.length
    let count := (List.chunkSizes defaultChunkSize data.length).length
    let covers := batch.len + (if manifest.isSome then 1 else 0) ≤ t ∧
      batch.totalSize + manifest.elim 0 List.length ≤ b
    (covers ↔ sizes.length ≤ count ∧
      (client.config.createManifest → nodeLength options.hashAlgorithm sizes ≤ 10 * count + 1000)) ∧
    (covers ↔ ∀ expiration k, (((chargesOf batch manifest).take k).foldl TransactionStorage.charged
      (State.freshAuthorization t b expiration)).extent.inBudget) := by
  intro sizes count covers
  have ⟨chunker, hk, h⟩ := (prepareStoreChunked_eq_ok hc).mp h
  have hp : 0 < data.length := List.length_pos_iff.mpr h.ne_nil
  have hl : data.length ≤ maxFileSize := h.length_le
  have h64 : count ≤ 64 := length_chunkSizes_le hl
  have hs : List.chunkSizes chunker.config.chunkSize data.length = sizes := by
    rw [hk]
    rfl
  have hcm : chunker.config.createManifest = client.config.createManifest :=
    congrArg (·.createManifest) hk
  have hn : batch.len = sizes.length := hs ▸ h.len
  rw [estimateAuthorization_eq client hp hl] at he
  have ⟨ht, hb, hbp⟩ : t < u32Max ∧ b < u64Max ∧ 0 < b := by
    simp only [maxFileSize] at hl
    simp only [u32Max, u64Max]
    split at he
    all_goals
      cases he
      omega
  refine ⟨?_, ?_⟩
  · simp only [covers, hn, h.totalSize]
    cases hm : client.config.createManifest
    case false =>
      have hnone : manifest = none := by rw [h.manifest_eq, if_neg (by simp [hcm, hm])]
      rw [if_neg (by simp [hm])] at he
      cases he
      simp [hnone, count]
    case true =>
      have ⟨m, hsome⟩ : ∃ m, manifest = some m := ⟨_, by rw [h.manifest_eq, if_pos (hcm.trans hm)]⟩
      subst hsome
      have hlen : m.length = nodeLength options.hashAlgorithm sizes := hs ▸ h.length_manifest hc
      rw [if_pos hm] at he
      cases he
      simp [hlen, count]
  · simp only [inBudget_charges ht hb hbp, length_chargesOf, sum_chargesOf, forall_const, covers]

theorem estimate_covers_default : ∃ batch m t b,
    BulletinClient.prepareStoreChunked .published ⟨.default⟩ [1, 2] none .default false =
      ok (batch, some m) ∧
    BulletinClient.estimateAuthorization ⟨.default⟩ 2 = (t, b) ∧
    batch.len + 1 ≤ t ∧ batch.totalSize + m.length ≤ b := by
  have hc := Config.published_cidV1
  have ⟨batch, m, hb⟩ := prepared_default .default
  have ⟨hi, _⟩ := estimate_covers hc ⟨.default⟩ hb (t := 2) (b := 1012) rfl
  have hl : nodeLength .blake2b256 (List.chunkSizes (1024 * 1024) 2) ≤ 1010 :=
    Nat.le_trans (nodeLength_le _ (by decide) (by decide)) (by decide)
  exact ⟨batch, m, 2, 1012, hb, rfl, hi.mpr ⟨Nat.le_refl _, fun _ => hl⟩⟩

-- A client with chunks of one byte uses more transactions than it estimates. The default client uses
-- more bytes than it estimates, for the manifest of 25 chunks.
theorem estimate_falls_short :
    (∃ batch m t b,
      BulletinClient.prepareStoreChunked .published ⟨⟨1, 8, true⟩⟩ [1, 2] none .default false =
        ok (batch, some m) ∧
      BulletinClient.estimateAuthorization ⟨⟨1, 8, true⟩⟩ 2 = (t, b) ∧ t < batch.len + 1) ∧
    ∃ batch m t b,
      BulletinClient.prepareStoreChunked .published ⟨.default⟩ (List.replicate (25 * 1048576) 0) none
        .default false = ok (batch, some m) ∧
      BulletinClient.estimateAuthorization ⟨.default⟩ (25 * 1048576) = (t, b) ∧
      b < batch.totalSize + m.length := by
  have hc := Config.published_cidV1
  constructor
  · have ⟨batch, m, hb, h⟩ := prepared_of hc ⟨⟨1, 8, true⟩⟩ [1, 2] none .default false
      ⟨⟨1, 8, true⟩, by decide, by decide⟩ rfl rfl (by decide) (by decide) (by decide)
    refine ⟨batch, m, 2, 1012, hb, rfl, ?_⟩
    rw [h.len]
    decide
  · generalize hd : List.replicate (25 * 1048576) (0 : UInt8) = data
    have hd : data.length = 25 * 1048576 := by rw [← hd, List.length_replicate]
    have hs : List.chunkSizes 1048576 data.length = List.replicate 25 1048576 := by
      rw [hd]
      exact List.chunkSizes_mul (by decide) 25
    have ⟨batch, m, hb, h⟩ := prepared_of hc ⟨.default⟩ data none .default false
      ⟨⟨1048576, 8, true⟩, by decide, by decide⟩ rfl rfl
      (List.length_pos_iff.mp (by rw [hd]; decide)) (by rw [hd]; decide) (by rw [hs]; decide)
    refine ⟨batch, m, 26, 25 * 1048576 + 1250, hb, by decide, ?_⟩
    have hl : m.length = 1259 := by
      have hchunk : (varint 1048576).length = 3 := length_varint_eq (by decide) (by decide)
      have hfile : (varint (25 * 1048576)).length = 4 := length_varint_eq (by decide) (by decide)
      rw [h.length_manifest hc, hs, nodeLength_replicate, hchunk, hfile]
      simp only [length_varint_of_lt (show 3 + 4 + 25 * (1 + 3) < 128 by decide)]
      rfl
    rw [h.totalSize, hd, hl]
    decide

theorem BulletinClient.prepareStore_isOk {client : BulletinClient} :
    (∃ op, client.prepareStore data options = ok op) ↔ data ≠ [] ∧ data.length ≤ maxChunkSize := by
  simp only [prepareStore, StorageOperation.new, ok_bind, bind_eq_ok, StorageOperation.validate_eq_ok]
  exact ⟨fun ⟨_, _, h, _⟩ => h, fun h => ⟨_, (), h, rfl⟩⟩

-- A manifest is never empty, and short enough to be stored if and only if its exact length says so,
-- which it does for up to forty thousand chunks.
theorem manifest_storable (hc : T.CidV1) (client : BulletinClient) (config : Option ChunkerConfig)
    (progressCallback : Bool)
    (h : client.prepareStoreChunked T data config options progressCallback = ok (batch, some m)) :
    let sizes := List.chunkSizes (client.chunkerConfig config).chunkSize data.length
    1 ≤ m.length ∧
    ((∃ op, client.prepareStore m options = ok op) ↔
      nodeLength options.hashAlgorithm sizes ≤ maxChunkSize) ∧
    (sizes.length ≤ 40000 → ∃ op, client.prepareStore m options = ok op) := by
  intro sizes
  have ⟨chunker, hk, h⟩ := (prepareStoreChunked_eq_ok hc).mp h
  have hs : List.chunkSizes chunker.config.chunkSize data.length = sizes := by
    rw [hk]
  have hl : m.length = nodeLength options.hashAlgorithm sizes := hs ▸ h.length_manifest hc
  have hp : 1 ≤ m.length := by
    rw [hl, nodeLength]
    omega
  have hi : (∃ op, client.prepareStore m options = ok op) ↔
      nodeLength options.hashAlgorithm sizes ≤ maxChunkSize := by
    rw [prepareStore_isOk, hl, and_iff_right (List.length_pos_iff.mp hp)]
  refine ⟨hp, hi, fun hn => hi.mpr ?_⟩
  have hle := nodeLength_le options.hashAlgorithm (hs ▸ h.sum_chunkSizes) (by omega)
  simp only [maxChunkSize]
  omega

theorem manifest_storable_default : ∃ batch m,
    BulletinClient.prepareStoreChunked .published ⟨.default⟩ [1, 2] none .default false =
      ok (batch, some m) ∧
    ∃ op, BulletinClient.prepareStore ⟨.default⟩ m .default = ok op := by
  have hc := Config.published_cidV1
  have ⟨batch, m, hb⟩ := prepared_default .default
  have ⟨_, _, h⟩ := manifest_storable hc ⟨.default⟩ none false hb
  exact ⟨batch, m, hb, h (by decide)⟩

-- The manifest of fifty thousand chunks of one byte is too large to be stored.
theorem manifest_too_large : ∃ batch m,
    BulletinClient.prepareStoreChunked .published ⟨.default⟩ (List.replicate 50000 0)
      (some ⟨1, 8, true⟩) { StoreOptions.default with hashAlgorithm := .sha2256 } false =
        ok (batch, some m) ∧
    m.length = 2200010 ∧
    ¬∃ op, BulletinClient.prepareStore ⟨.default⟩ m
      { StoreOptions.default with hashAlgorithm := .sha2256 } = ok op := by
  have hc := Config.published_cidV1
  generalize hd : List.replicate 50000 (0 : UInt8) = data
  have hd : data.length = 50000 * 1 := by rw [← hd, List.length_replicate]
  have hs : List.chunkSizes 1 data.length = List.replicate 50000 1 := by
    rw [hd]
    exact List.chunkSizes_mul (by decide) 50000
  have ⟨batch, m, hb, h⟩ := prepared_of hc ⟨.default⟩ data (some ⟨1, 8, true⟩)
    { StoreOptions.default with hashAlgorithm := .sha2256 } false
    ⟨⟨1, 8, true⟩, by decide, by decide⟩ rfl rfl (List.length_pos_iff.mp (by rw [hd]; decide))
    (by rw [hd]; decide) (by rw [hs, List.length_replicate]; decide)
  have hl : m.length = 2200010 := by
    have hchunk : (varint 1).length = 1 := length_varint_of_lt (by decide)
    have hfile : (varint (50000 * 1)).length = 3 := length_varint_eq (by decide) (by decide)
    have hdata : (varint (3 + 3 + 50000 * (1 + 1))).length = 3 :=
      length_varint_eq (by decide) (by decide)
    rw [h.length_manifest hc, hs, nodeLength_replicate, hchunk, hfile]
    simp only [hdata]
    rfl
  refine ⟨batch, m, hb, hl, ?_⟩
  rw [prepareStore_isOk, hl]
  simp [maxChunkSize]

end RustSdk
end Bulletin
