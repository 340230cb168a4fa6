import BulletinChain.Theorems.Boost
import BulletinChain.Theorems.Lookup
import BulletinChain.Theorems.Upload
import BulletinChain.TypescriptSdk.Store
import Mathlib.Tactic.Ring

namespace Bulletin

open Machine Except DagPb Protobuf

variable {T : Config}

-- All pieces but the last one are of the given size.
theorem chunkSizes_eq_append {n len k : Nat} (hk : (List.chunkSizes n len).length = k + 1) :
    ∃ last, List.chunkSizes n len = List.replicate k n ++ [last] := by
  rw [List.length_chunkSizes] at hk
  have hl : k * n + n ≤ len + (n - 1) := by
    have := Nat.div_mul_le_self (len + (n - 1)) n
    rwa [hk, Nat.succ_mul] at this
  refine ⟨min n (len - k * n), ?_⟩
  rw [List.chunkSizes, hk, List.range_succ, List.map_append]
  congr 1
  rw [List.eq_replicate_iff]
  refine ⟨by simp, fun m hm => ?_⟩
  obtain ⟨j, hj, rfl⟩ := List.mem_map.mp hm
  have hs : j * n + n ≤ k * n := by
    rw [← Nat.succ_mul]
    exact Nat.mul_le_mul_right n (List.mem_range.mp hj)
  omega

namespace TypescriptSdk

open RustSdk.UnixFsDagBuilder

theorem length_calculateCid (hc : T.CidV1) (data : List UInt8) (hashing : HashingAlgorithm) :
    (calculateCid T data rawCodec hashing).bytes.length = cidLength hashing :=
  length_cidBytes hc data

-- Each link of a manifest has an empty name beside what the other SDK writes.
def manifestLength (hashing : HashingAlgorithm) (sizes : List Nat) : Nat :=
  nodeLength hashing sizes + 2 * sizes.length

theorem length_fileNode {hashing : HashingAlgorithm} {blocks : List (CID × Nat)}
    (h : ∀ b ∈ blocks, b.1.bytes.length = cidLength hashing ∧ b.2 < 2 ^ 64) :
    (fileNode (some []) blocks).message.encode.length = manifestLength hashing (blocks.map (·.2)) := by
  have hcid := cidLength_le hashing
  have hlink {b : CID × Nat} (hb : b.1.bytes.length = cidLength hashing) :
      (DagLink.message ⟨b.1, some [], some b.2⟩).encode.length =
        cidLength hashing + 5 + (varint b.2).length := by
    simp only [PBLink.encode, PBLink.fields, DagLink.message, Option.toList_some, List.map_cons,
      List.map_nil, List.append_nil, List.cons_append, List.nil_append,
      List.flatMap_cons, List.flatMap_nil, Field.encode, List.length_append, List.length_nil, hb,
      length_varint_of_lt (show 8 * 1 + 2 < 128 by decide),
      length_varint_of_lt (show 8 * 2 + 2 < 128 by decide),
      length_varint_of_lt (show 8 * 3 < 128 by decide),
      length_varint_of_lt (show 0 < 128 by decide),
      length_varint_of_lt (show cidLength hashing < 128 by omega)]
    omega
  have hs : (((blocks.map fun b => DagLink.message ⟨b.1, some [], some b.2⟩).map
      fun l => (⟨2, .bytes l.encode⟩ : Field)).flatMap Field.encode).length =
      ((blocks.map (·.2)).map fun size => cidLength hashing + 5 + (varint size).length).sum +
        2 * blocks.length := by
    induction blocks
    case nil              => rfl
    case cons b blocks hi =>
      obtain ⟨⟨hb, hlt⟩, h⟩ := List.forall_mem_cons.mp h
      have hten := length_varint_le_ten hlt
      simp only [List.map_cons, List.flatMap_cons, List.length_append, List.sum_cons, hi h,
        Field.encode, length_varint_of_lt (show 8 * 2 + 2 < 128 by decide), hlink hb, List.length_cons]
      rw [length_varint_of_lt (by omega)]
      omega
  simp only [PBNode.encode, PBNode.fields, DagNode.message, fileNode, List.map_map, Function.comp_def,
    List.flatMap_append, List.length_append, Option.toList_some, List.map_cons, List.map_nil,
    List.flatMap_cons, List.flatMap_nil, List.append_nil, Field.encode, length_fileData]
  simp only [List.map_map, Function.comp_def] at hs
  rw [hs, manifestLength, nodeLength, length_varint_of_lt (show 8 * 1 + 2 < 128 by decide)]
  simp only [List.map_map, Function.comp_def, List.length_map]
  omega

-- The bytes per chunk depend on the length of its size, of which there are two.
theorem manifestLength_le (hashing : HashingAlgorithm) {sizes : List Nat} {v : Nat}
    (hs : sizes.sum < 2 ^ 28) (hl : sizes.length ≤ 2 ^ 26) (hv : v ≤ 4)
    (h : ∀ n ∈ sizes, (varint n).length ≤ v) :
    manifestLength hashing sizes ≤ sizes.length * (cidLength hashing + 8 + 2 * v) + 13 := by
  have hlinks : (sizes.map fun size => cidLength hashing + 5 + (varint size).length).sum ≤
      sizes.length * (cidLength hashing + 5 + v) :=
    sum_map_le fun n hn => Nat.add_le_add_left (h n hn) _
  have hblocks : (sizes.map fun size => 1 + (varint size).length).sum ≤ sizes.length * (1 + v) :=
    sum_map_le fun n hn => Nat.add_le_add_left (h n hn) _
  have hsum : (varint sizes.sum).length ≤ 4 := length_varint_le hs
  have hfile : fileDataLength sizes ≤ 7 + sizes.length * (1 + v) := by
    rw [fileDataLength]
    omega
  have hfive : (varint (fileDataLength sizes)).length ≤ 5 := by
    refine length_varint_le (Nat.lt_of_le_of_lt hfile ?_)
    have := Nat.mul_le_mul hl (Nat.add_le_add_left hv 1)
    omega
  rw [manifestLength, nodeLength]
  rw [show sizes.length * (cidLength hashing + 8 + 2 * v) =
    sizes.length * (cidLength hashing + 5 + v) + sizes.length * (1 + v) + 2 * sizes.length by ring]
  omega

theorem le_manifestLength (hashing : HashingAlgorithm) (n last k : Nat) :
    k * (cidLength hashing + 8 + 2 * (varint n).length) + cidLength hashing + 16 ≤
      manifestLength hashing (List.replicate k n ++ [last]) := by
  have hl := length_varint_pos last
  have hs := length_varint_pos (List.replicate k n ++ [last]).sum
  have hf := length_varint_pos (fileDataLength (List.replicate k n ++ [last]))
  have hd : fileDataLength (List.replicate k n ++ [last]) =
      3 + (varint (List.replicate k n ++ [last]).sum).length + (k * (1 + (varint n).length) +
        (1 + (varint last).length)) := by
    simp [fileDataLength]
  have hlinks : ((List.replicate k n ++ [last]).map
      fun size => cidLength hashing + 5 + (varint size).length).sum =
        k * (cidLength hashing + 5 + (varint n).length) + (cidLength hashing + 5 + (varint last).length) := by
    simp
  rw [manifestLength, nodeLength, hlinks]
  rw [show k * (cidLength hashing + 8 + 2 * (varint n).length) =
    k * (cidLength hashing + 5 + (varint n).length) + k * (1 + (varint n).length) + 2 * k by ring]
  rw [List.length_append, List.length_replicate, List.length_singleton]
  omega

variable {n len : Nat}

-- The entries of chunks whose sizes take at most `v + 1` bytes, and the few bytes around them.
theorem manifestLength_chunkSizes_le (hashing : HashingAlgorithm) (hn : 0 < n) (hl : len ≤ maxFileSize)
    {v w : Nat} (h₃ : v ≤ 3) (hv : n < 128 ^ (v + 1)) (hw : cidLength hashing + 8 + 2 * (v + 1) ≤ w) :
    manifestLength hashing (.chunkSizes n len) ≤ (List.chunkSizes n len).length * w + 13 := by
  have hsum : (List.chunkSizes n len).sum < 2 ^ 28 := by
    rw [List.sum_chunkSizes hn]
    exact Nat.lt_of_le_of_lt hl (by decide)
  have hlen : (List.chunkSizes n len).length ≤ 2 ^ 26 := (List.length_chunkSizes_le hn len).trans hl
  have hm := manifestLength_le hashing hsum hlen (Nat.succ_le_succ h₃) fun m hm =>
    length_varint_le (Nat.lt_of_le_of_lt (List.le_of_mem_chunkSizes hm) hv)
  exact hm.trans (Nat.add_le_add_right (Nat.mul_le_mul_left _ hw) 13)

theorem manifestLength_le_estimate (hashing : HashingAlgorithm) (hn : 0 < n) (hm : n ≤ maxChunkSize)
    (hl : len ≤ maxFileSize)
    (h : hashing ≠ .blake2b256 ∨ n < 2 ^ 14 ∨ (List.chunkSizes n len).length ≤ 493) :
    manifestLength hashing (.chunkSizes n len) ≤ (List.chunkSizes n len).length * 50 + 1000 := by
  have hle {v w : Nat} := @manifestLength_chunkSizes_le n len hashing hn hl v w
  have hcid := cidLength_le hashing
  by_cases h₂ : n < 2 ^ 14
  · have := hle (v := 1) (w := 50) (by decide) h₂ (by omega)
    omega
  by_cases h₃ : n < 2 ^ 21
  · by_cases hb : hashing = .blake2b256
    · have hc := (h.resolve_left (not_not_intro hb)).resolve_left h₂
      have := hle (v := 2) (w := 52) (by decide) h₃ (by omega)
      omega
    · have hcid : cidLength hashing = 36 := by
        cases hashing
        case blake2b256 => contradiction
        all_goals rfl
      have := hle (v := 2) (w := 50) (by decide) h₃ (by omega)
      omega
  · -- chunks of the largest size are few
    have hc : (List.chunkSizes n len).length ≤ 32 := by
      rw [List.length_chunkSizes, show n = 2 ^ 21 by simp only [maxChunkSize] at hm; omega]
      simp only [maxFileSize] at hl
      omega
    have := hle (v := 3) (w := 54) (by decide) (Nat.lt_of_le_of_lt hm (by decide)) (by omega)
    omega

-- Sizes from 2^14 on take three bytes, twice.
theorem estimate_lt_manifestLength (hn : 2 ^ 14 ≤ n) (hc : 500 ≤ (List.chunkSizes n len).length) :
    (List.chunkSizes n len).length * 50 + 1000 < manifestLength .blake2b256 (.chunkSizes n len) := by
  obtain ⟨k, hk⟩ : ∃ k, (List.chunkSizes n len).length = k + 1 :=
    ⟨(List.chunkSizes n len).length - 1, by omega⟩
  obtain ⟨last, hs⟩ := chunkSizes_eq_append hk
  have hv : 3 ≤ (varint n).length := lt_length_varint hn
  have hge := le_manifestLength .blake2b256 n last k
  rw [show cidLength .blake2b256 = 38 from rfl] at hge
  have := Nat.mul_le_mul_left k (show 52 ≤ 38 + 8 + 2 * (varint n).length by omega)
  rw [hk, hs]
  omega

-- Charges within what is left of an authorization keep it in budget all the way.
theorem inBudget_of_remaining {a : Authorization} (hr : a.extent.InRange) {sizes : List Nat}
    (hp : 0 < sizes.sum)
    (hl : sizes.length ≤ a.extent.transactionsAllowance - a.extent.transactions)
    (hs : sizes.sum ≤ a.extent.bytesAllowance - a.extent.bytes) (k : Nat) :
    ((sizes.take k).foldl TransactionStorage.charged a).extent.inBudget := by
  have hl' : (sizes.take k).length ≤ sizes.length := List.length_take_le' k sizes
  have hs' : (sizes.take k).sum ≤ sizes.sum := (List.take_sublist k sizes).sum_le_sum (by simp)
  have hn : 0 < sizes.length := by
    cases sizes
    case nil  => cases hp
    case cons => exact Nat.succ_pos _
  have ht : min (a.extent.transactions + (sizes.take k).length) u32Max ≤
      a.extent.transactionsAllowance := (Nat.min_le_left ..).trans (by omega)
  have hb : min (a.extent.bytes + (sizes.take k).sum) u64Max ≤ a.extent.bytesAllowance :=
    (Nat.min_le_left ..).trans (by omega)
  rw [RustSdk.foldl_charged _ _ hr.bytes hr.transactions, AuthorizationExtent.inBudget_iff,
    AuthorizationExtent.Overdrawn, not_or, not_or, Nat.not_lt, Nat.not_lt]
  exact ⟨hb, ht, Nat.ne_of_gt (show 0 < a.extent.bytesAllowance by omega)⟩

namespace StorePlan

def txs : StorePlan → List PapiTransaction
  | single tx _ => [tx]
  | chunked p   => p.txs

-- What the transactions are charged for.
def charges (plan : StorePlan) : List Nat :=
  plan.txs.map (·.content.1.length)

end StorePlan

theorem charges_chunked (p : Prepared CID) : (StorePlan.chunked p).charges =
    p.chunks.map (·.data.length) ++ p.manifest.toList.map (·.1.length) := by
  simp [StorePlan.charges, StorePlan.txs, Prepared.txs, Prepared.tasks, Function.comp_def, Task.tx,
    createStoreTx_content]

open BulletinPreparer AsyncBulletinClient

variable {config : AsyncClientConfig} {auth : Queried} {options : StoreOptions}
  {chunkerConfig : Option PartialChunkerConfig} {data : List UInt8}

-- The upload that is planned.
inductive Plans (T : Config) (config : AsyncClientConfig) (data : List UInt8) (options : StoreOptions)
    (chunkerConfig : Option PartialChunkerConfig) : StorePlan → Prop
  | single : ¬willChunk config data.length chunkerConfig →
    Plans T config data options chunkerConfig
      (.single (createStoreTx data codec options.hashingAlgorithm) cid)
  | chunked {chunker : FixedSizeChunker} : willChunk config data.length chunkerConfig →
    chunker.config = resolvedConfig config chunkerConfig → data.length ≤ maxFileSize →
    Plans T config data options chunkerConfig (.chunked (preparedOf T chunker data options))

theorem storeWithOptions_eq_ok (lib : Libraries)
    (h : storeWithOptions T lib config auth data userCodec options chunkerConfig = ok (warning, plan)) :
    data ≠ [] ∧ Plans T config data options chunkerConfig plan ∧
      warning = checkAccountAuthorization auth (required config data.length chunkerConfig).1
        (required config data.length chunkerConfig).2 := by
  obtain ⟨_, hn, h⟩ := bind_eq_ok.mp h
  refine ⟨fun he => ensure_eq_ok.mp hn (by rw [he]; rfl), ?_⟩
  simp only at h
  split at h
  case isTrue hw =>
    obtain ⟨_, _, h⟩ := bind_eq_ok.mp h
    obtain ⟨p, hp, h⟩ := bind_eq_ok.mp h
    obtain ⟨chunker, hc, _, hl, rfl⟩ := (prepareStoreChunked_eq_ok lib).mp hp
    cases h
    exact ⟨.chunked hw hc hl, rfl⟩
  case isFalse hw =>
    obtain ⟨⟨_, cid⟩, _, h⟩ := bind_eq_ok.mp h
    cases h
    exact ⟨.single hw, rfl⟩

-- The manifest, if there is one, is no longer than what is estimated for it.
def StorePlan.Fits (plan : StorePlan) : Prop :=
  ∀ p m root, plan = .chunked p → p.manifest = some (m, root) → m.length ≤ p.chunks.length * 50 + 1000

theorem preparedOf_sizes (chunker : FixedSizeChunker) : (preparedOf T chunker data options).chunks.map
    (·.data.length) = List.chunkSizes chunker.config.chunkSize data.length := by
  rw [← List.map_length_chunksOf, ← FixedSizeChunker.map_length_chunkList, preparedOf, List.map_map]
  rfl

theorem length_manifest (hc : T.CidV1) (chunker : FixedSizeChunker)
    (hm : (preparedOf T chunker data options).manifest = some (m, root)) :
    m.length = manifestLength options.hashingAlgorithm
      (List.chunkSizes chunker.config.chunkSize data.length) := by
  obtain ⟨_, hm⟩ := Option.ite_none_right_eq_some.mp hm
  cases hm
  have hs : (preparedOf T chunker data options).chunks.map (·.data.length) = _ := preparedOf_sizes chunker
  have hb : ∀ b ∈ (preparedOf T chunker data options).chunks.map fun c => (c.cid, c.data.length),
      b.1.bytes.length = cidLength options.hashingAlgorithm ∧ b.2 < 2 ^ 64 := by
    intro b hb
    obtain ⟨c, hm, rfl⟩ := List.mem_map.mp hb
    have hle := List.le_of_mem_chunkSizes (hs ▸ List.mem_map_of_mem hm)
    exact ⟨cid_of_mem hm ▸ length_calculateCid hc .., (hle.trans chunker.chunkSize_le).trans_lt (by decide)⟩
  refine (length_fileNode hb).trans ?_
  rw [List.map_map, ← hs]
  rfl

theorem length_chunks (chunker : FixedSizeChunker) : (preparedOf T chunker data options).chunks.length =
    (List.chunkSizes chunker.config.chunkSize data.length).length := by
  rw [← preparedOf_sizes, List.length_map]

theorem required_single (h : ¬willChunk config n chunkerConfig) : required config n chunkerConfig = (1, n) :=
  if_neg h

theorem required_chunked (h : willChunk config n chunkerConfig) : required config n chunkerConfig =
    let resolved := resolvedConfig config chunkerConfig
    let count := (List.chunkSizes resolved.chunkSize n).length
    if resolved.createManifest then (count + 1, n + (count * 50 + 1000)) else (count, n) := by
  simp only [required, h, if_true, estimateAuthorization, List.length_chunkSizes]

theorem fits_of_none {p : Prepared CID} (h : p.manifest = none) : (StorePlan.chunked p).Fits := by
  intro _ m root hp hm
  cases hp
  rw [h] at hm
  cases hm

theorem fits_iff {p : Prepared CID} (h : p.manifest = some (m, root)) :
    (StorePlan.chunked p).Fits ↔ m.length ≤ p.chunks.length * 50 + 1000 := by
  refine ⟨fun hf => hf p m root rfl h, fun hl _ _ _ hp hm => ?_⟩
  cases hp
  rw [h] at hm
  cases hm
  exact hl

theorem fits_cases (hc : T.CidV1) {chunker : FixedSizeChunker} (hl : data.length ≤ maxFileSize)
    (hm : (preparedOf T chunker data options).manifest = some (m, root)) :
    let p := preparedOf T chunker data options
    (options.hashingAlgorithm ≠ .blake2b256 ∨ chunker.config.chunkSize < 2 ^ 14 ∨ p.chunks.length ≤ 493 →
      (StorePlan.chunked p).Fits) ∧
    (options.hashingAlgorithm = .blake2b256 → 2 ^ 14 ≤ chunker.config.chunkSize → 500 ≤ p.chunks.length →
      ¬(StorePlan.chunked p).Fits) := by
  intro p
  rw [fits_iff hm, length_manifest hc chunker hm, length_chunks, Nat.not_le]
  refine ⟨manifestLength_le_estimate _ chunker.chunkSize_pos chunker.chunkSize_le hl, fun hb hn hc => ?_⟩
  rw [hb]
  exact estimate_lt_manifestLength hn hc

-- What is required of an upload is exact on its transactions, and on its bytes if the manifest fits.
theorem Plans.required_eq (h : Plans T config data options chunkerConfig plan) :
    let required := required config data.length chunkerConfig
    plan.charges.length = required.1 ∧ required.1 ≤ 2 ^ 26 + 1 ∧
    data.length ≤ required.2 ∧ required.2 ≤ data.length + (2 ^ 26 * 50 + 1000) ∧
    data.length ≤ plan.charges.sum ∧ (plan.charges.sum ≤ required.2 ↔ plan.Fits) := by
  intro required
  cases h
  case single codec cid hw =>
    have hr : required = (1, data.length) := required_single hw
    have hc : StorePlan.charges (.single (createStoreTx data codec options.hashingAlgorithm) cid) =
        [data.length] := by
      simp [StorePlan.charges, StorePlan.txs, createStoreTx_content]
    have hf : StorePlan.Fits (.single (createStoreTx data codec options.hashingAlgorithm) cid) :=
      fun _ _ _ h => by cases h
    rw [hc, hr]
    exact ⟨rfl, Nat.le_add_left .., le_rfl, Nat.le_add_right .., le_rfl, iff_of_true le_rfl hf⟩
  case chunked chunker hw hc hl =>
    have hr : required = _ := required_chunked hw
    have hs : (preparedOf T chunker data options).chunks.map (·.data.length) = _ := preparedOf_sizes chunker
    have hsum := List.sum_chunkSizes chunker.chunkSize_pos data.length
    have hlen : (List.chunkSizes chunker.config.chunkSize data.length).length ≤ 2 ^ 26 :=
      (List.length_chunkSizes_le chunker.chunkSize_pos data.length).trans hl
    rw [charges_chunked, List.length_append, List.sum_append, hs, hsum, hr, ← hc]
    by_cases hm : chunker.config.createManifest
    · obtain ⟨⟨m, root⟩, hp⟩ : ∃ m, (preparedOf T chunker data options).manifest = some m := ⟨_, if_pos hm⟩
      rw [hp, fits_iff hp, length_chunks]
      simp only [hm, if_true, Option.toList_some, List.map_cons, List.map_nil, List.length_singleton,
        List.sum_singleton, Nat.add_le_add_iff_left, and_true, true_and]
      omega
    · have hp : (preparedOf T chunker data options).manifest = none := if_neg hm
      rw [hp]
      simp only [hm, Option.toList_none, List.map_nil, List.length_nil, List.sum_nil, Nat.add_zero,
        fits_of_none hp]
      simp only [Bool.false_eq_true, if_false, le_refl, true_and, and_true]
      omega

theorem checkAccountAuthorization_eq_none {e : AuthorizationExtent} (h : checkAccountAuthorization
    (some (ok (some ⟨e.transactions, some e.transactionsAllowance, e.bytes, some e.bytesAllowance⟩))) t b =
      none) :
    t ≤ e.transactionsAllowance - e.transactions ∧ b ≤ e.bytesAllowance - e.bytes := by
  simp only [checkAccountAuthorization] at h
  split at h
  case isTrue     => cases h
  case isFalse hw => exact ⟨Nat.le_of_not_lt fun hl => hw (.inl hl), Nat.le_of_not_lt fun hl => hw (.inr hl)⟩

-- An upload of the client, against its estimate. The number of transactions is exact. What is granted by
-- the estimate lasts for all of them if and only if the manifest fits, which it does for the default
-- chunks and for most other ones. And if the client does not warn then all that fits is boosted.
theorem upload_estimated (hc : T.CidV1) (lib : Libraries) (hd : data.length < 2 ^ 53)
    (h : storeWithOptions T lib config auth data userCodec options chunkerConfig = ok (warning, plan)) :
    let t := (required config data.length chunkerConfig).1
    let b := (required config data.length chunkerConfig).2
    let chunkSize := (resolvedConfig config chunkerConfig).chunkSize
    plan.txs.length = t ∧
    ((∀ expiration k, ((plan.charges.take k).foldl TransactionStorage.charged
      (State.freshAuthorization t b expiration)).extent.inBudget) ↔ plan.Fits) ∧
    (options.hashingAlgorithm ≠ .blake2b256 ∨ chunkSize < 2 ^ 14 ∨ plan.txs.length ≤ 494 → plan.Fits) ∧
    (∀ p, plan = .chunked p → p.manifest.isSome → options.hashingAlgorithm = .blake2b256 →
      2 ^ 14 ≤ chunkSize → 500 ≤ p.chunks.length → ¬plan.Fits) ∧
    ∀ a : Authorization, a.extent.InRange →
      auth = some (ok (some ⟨a.extent.transactions, some a.extent.transactionsAllowance, a.extent.bytes,
        some a.extent.bytesAllowance⟩)) → warning = none → plan.Fits →
      ∀ k, ((plan.charges.take k).foldl TransactionStorage.charged a).extent.inBudget := by
  intro t b chunkSize
  obtain ⟨hn, hplan, hwarn⟩ := storeWithOptions_eq_ok lib h
  have hpos : 0 < data.length := List.length_pos_iff.mpr hn
  obtain ⟨ht, htop, hle, hbytes, hdata, hfits⟩ := hplan.required_eq
  refine ⟨by rw [← List.length_map (f := (·.content.1.length))]; exact ht, ?_, ?_, ?_, ?_⟩
  · have hu : t < u32Max := Nat.lt_of_le_of_lt htop (by decide)
    have hv : b < u64Max := Nat.lt_of_le_of_lt (hbytes.trans (Nat.add_le_add_right hd.le _)) (by decide)
    simp only [RustSdk.inBudget_charges hu hv (Nat.lt_of_lt_of_le hpos hle), forall_const]
    exact ⟨fun hi => hfits.mp hi.2, fun hf => ⟨ht.le, hfits.mpr hf⟩⟩
  · intro hcase
    cases hplan
    case single => exact fun _ _ _ h => by cases h
    case chunked chunker hw hcf hl =>
      cases hm : (preparedOf T chunker data options).manifest
      case none => exact fits_of_none hm
      case some m =>
        refine (fits_cases hc hl hm).1 (hcf ▸ hcase.imp_right (Or.imp_right fun hlen => ?_))
        have hcharges := congrArg List.length (charges_chunked (preparedOf T chunker data options))
        simp only [hm, StorePlan.charges, List.length_map, List.length_append, Option.toList_some,
          List.length_singleton] at hcharges
        omega
  · rintro p rfl hsome hb hsize hcount
    cases hplan
    case chunked chunker hw hcf hl =>
      obtain ⟨m, hm⟩ := Option.isSome_iff_exists.mp hsome
      exact (fits_cases hc hl hm).2 hb (hcf ▸ hsize) hcount
  · rintro a hr rfl hnone hf
    obtain ⟨htx, hb⟩ := checkAccountAuthorization_eq_none (hwarn.symm.trans hnone)
    exact inBudget_of_remaining hr (Nat.lt_of_lt_of_le hpos hdata) (ht.trans_le htx)
      ((hfits.mpr hf).trans hb)

theorem upload_estimated_published : ∃ plan,
    storeWithOptions .published .standard ⟨⟨1024, true⟩, 1024⟩
      (some (ok (some ⟨1, some 4, 10, some 1113⟩))) [1, 2, 3] none ⟨.sha2256, .inBlock⟩
      (some ⟨some 2, none⟩) = ok (none, plan) ∧
    plan.txs.length = 3 ∧ plan.Fits ∧
    ∀ k, ((plan.charges.take k).foldl TransactionStorage.charged
      ⟨⟨1, 4, 10, ⟨0⟩, 1113⟩, 5⟩).extent.inBudget := by
  obtain ⟨p, hp⟩ : ∃ p, prepareStoreChunked .published .standard ⟨1024, true⟩ [1, 2, 3] ⟨some 2, none⟩
      ⟨.sha2256, .inBlock⟩ = ok p :=
    ⟨_, (prepareStoreChunked_eq_ok .standard).mpr
      ⟨⟨⟨2, true⟩, by decide, by decide⟩, rfl, by decide, by decide, rfl⟩⟩
  have h : storeWithOptions .published .standard ⟨⟨1024, true⟩, 1024⟩
      (some (ok (some ⟨1, some 4, 10, some 1113⟩))) [1, 2, 3] none ⟨.sha2256, .inBlock⟩
      (some ⟨some 2, none⟩) = ok (none, .chunked p) := by
    refine bind_eq_ok.mpr ⟨(), rfl, ?_⟩
    exact bind_eq_ok.mpr ⟨(), rfl, bind_eq_ok.mpr ⟨p, hp, rfl⟩⟩
  obtain ⟨ht, _, hf, _, hb⟩ := upload_estimated Config.published_cidV1 .standard (by decide) h
  have hf := hf (.inl (by decide))
  exact ⟨_, h, ht, hf, hb _ ⟨by decide, by decide, by decide, by decide⟩ rfl rfl hf⟩

end TypescriptSdk
end Bulletin
