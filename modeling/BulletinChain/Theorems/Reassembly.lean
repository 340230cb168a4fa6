import BulletinChain.TypescriptSdk.Chunker
import Mathlib.Data.List.TakeDrop
import Mathlib.Algebra.Order.Ring.Nat

namespace Bulletin

open Except

namespace TypescriptSdk

variable {data d : List UInt8} {chunker : FixedSizeChunker} {l : List Chunk} {c : Chunk} {i : Nat}

namespace FixedSizeChunker

theorem numChunks_eq : chunker.numChunks data.length =
    (data.chunksOf chunker.config.chunkSize).length := by
  have hp := chunker.chunkSize_pos
  rw [List.length_chunksOf, numChunks]
  split
  case isTrue h => rw [h, Nat.div_eq_of_lt (by omega)]
  case isFalse  => rfl

theorem length_chunkList : (chunker.chunkList data).length =
    (data.chunksOf chunker.config.chunkSize).length := by
  rw [chunkList, List.length_map, List.length_range, numChunks_eq]

theorem map_data_chunkList : (chunker.chunkList data).map (·.data) =
    data.chunksOf chunker.config.chunkSize := by
  rw [List.chunksOf, ← List.length_chunksOf, ← numChunks_eq, chunkList, List.map_map]
  refine List.map_congr_left fun i _ => ?_
  simp only [Function.comp_apply, subarray, List.take_eq_take_iff, List.length_drop]
  omega

theorem getElem?_chunkList (h : (chunker.chunkList data)[i]? = some c) :
    c.index = i ∧ c.totalChunks = (chunker.chunkList data).length := by
  have hi := (List.getElem?_eq_some_iff.mp h).1
  rw [length_chunkList, ← numChunks_eq] at hi ⊢
  rw [chunkList, List.getElem?_map, List.getElem?_range hi] at h
  cases h
  exact ⟨rfl, rfl⟩

-- A chunk is found at its index.
theorem mem_chunkList : c ∈ chunker.chunkList data ↔
    (chunker.chunkList data)[c.index]? = some c := by
  constructor
  case mp =>
    intro h
    have ⟨i, hi⟩ := List.getElem?_of_mem h
    rwa [(getElem?_chunkList hi).left]
  case mpr => exact List.mem_of_getElem?

theorem new_eq_ok {config : ChunkerConfig} (hp : 0 < config.chunkSize)
    (hm : config.chunkSize ≤ maxChunkSize) : new config = ok ⟨config, hp, hm⟩ := by
  rw [new, dif_neg (Nat.not_le.mpr hp), dif_neg (Nat.not_lt.mpr hm)]

theorem chunk_eq_ok (hn : data ≠ []) (hm : data.length ≤ maxFileSize) :
    chunker.chunk data = ok (chunker.chunkList data) := by
  have hn : data.length ≠ 0 := Nat.ne_of_gt (List.length_pos_iff.mpr hn)
  simp only [chunk, ensure, if_pos hn, if_pos (Nat.not_lt.mpr hm)]
  rfl

end FixedSizeChunker

open FixedSizeChunker

theorem checkIndices_eq_ok : checkIndices i l = ok u ↔ l.map (·.index) = List.range' i l.length := by
  induction l generalizing i
  case nil           => simp [checkIndices]
  case cons c cs hi =>
    rw [checkIndices, bind_eq_ok, List.map_cons, List.length_cons, List.range'_succ, List.cons.injEq]
    simp only [ensure_eq_ok, hi, exists_and_left, exists_const]

-- Each write fills the next part of the zeros that are left.
theorem foldl_write (l : List Chunk) (done : List UInt8) :
    l.foldl (fun (result, offset) chunk =>
        (write result chunk.data offset, offset + chunk.data.length))
      (done ++ List.replicate (l.map (·.data.length)).sum 0, done.length) =
      (done ++ (l.map (·.data)).flatten, done.length + (l.map (·.data.length)).sum) := by
  induction l generalizing done
  case nil           => simp
  case cons c cs hi =>
    have hw : write (done ++ List.replicate ((c :: cs).map (·.data.length)).sum 0) c.data done.length =
        done ++ c.data ++ List.replicate (cs.map (·.data.length)).sum 0 := by
      rw [write, List.take_left, List.drop_append, List.drop_eq_nil_of_le (Nat.le_add_right ..),
        List.nil_append, List.drop_replicate, List.map_cons, List.sum_cons]
      congr 2
      omega
    have hi := hi (done ++ c.data)
    rw [List.length_append] at hi
    rw [List.foldl_cons]
    simp only [hw, hi]
    simp [Nat.add_assoc]

theorem concatenate_eq (sorted : List Chunk) : concatenate sorted = (sorted.map (·.data)).flatten := by
  have hs (n : Nat) : sorted.foldl (fun sum chunk => sum + chunk.data.length) n =
      n + (sorted.map (·.data.length)).sum := by
    induction sorted generalizing n
    case nil           => simp
    case cons c cs hi => simp [hi, Nat.add_assoc]
  have hw := foldl_write sorted []
  simp only [concatenate, hs, Nat.zero_add]
  simp only [List.nil_append, List.length_nil] at hw
  rw [hw]

-- The chunks whose indices count up from zero are the first ones.
theorem eq_take_of_indices (hm : ∀ c ∈ l, c ∈ chunker.chunkList data)
    (hi : l.map (·.index) = List.range l.length) :
    l.length ≤ (chunker.chunkList data).length ∧ l = (chunker.chunkList data).take l.length := by
  have hg (i : Nat) (hl : i < l.length) : (chunker.chunkList data)[i]? = l[i]? := by
    have hc := mem_chunkList.mp (hm l[i] (List.getElem_mem hl))
    have hn : l[i].index = i := by
      have h := congrArg (·[i]?) hi
      simpa [hl] using h
    rw [hn] at hc
    rw [hc, List.getElem?_eq_getElem hl]
  have hle : l.length ≤ (chunker.chunkList data).length := by
    by_contra hlt
    have hlt := Nat.not_le.mp hlt
    have h := hg _ hlt
    simp [hlt] at h
  refine ⟨hle, List.ext_getElem? fun i => ?_⟩
  by_cases hl : i < l.length
  · rw [List.getElem?_take_of_lt hl, hg i hl]
  · simp [hl]

theorem map_index_take (k : Nat) : ((chunker.chunkList data).take k).map (·.index) =
    List.range ((chunker.chunkList data).take k).length := by
  have h : (chunker.chunkList data).map (·.index) = List.range (chunker.chunkList data).length := by
    rw [length_chunkList, ← numChunks_eq, chunkList, List.map_map]
    exact List.map_id _
  rw [List.map_take, h, List.take_range, List.length_take]

theorem pairwise_sorted (l : List Chunk) :
    ((l.mergeSort fun a b => a.index ≤ b.index).map (·.index)).Pairwise (· ≤ ·) := by
  rw [List.pairwise_map]
  refine List.Pairwise.imp of_decide_eq_true (List.pairwise_mergeSort ?trans ?total l)
  case trans =>
    simp only [decide_eq_true_eq]
    exact fun _ _ _ => Nat.le_trans
  case total =>
    simp only [Bool.or_eq_true, decide_eq_true_eq]
    exact fun _ _ => Nat.le_total ..

-- What is put together from some of the chunks of some data: the first ones, once each.
theorem reassembleChunks_eq_ok (hm : ∀ c ∈ l, c ∈ chunker.chunkList data) :
    reassembleChunks l = ok d ↔ ∃ k, 1 ≤ k ∧ k ≤ (chunker.chunkList data).length ∧
      l.Perm ((chunker.chunkList data).take k) ∧ d = data.take (k * chunker.config.chunkSize) := by
  have hp := List.mergeSort_perm l fun a b => a.index ≤ b.index
  have hs := pairwise_sorted l
  simp only [reassembleChunks, bind_eq_ok, ensure_eq_ok, checkIndices_eq_ok, ← List.range_eq_range',
    pure_eq_ok, concatenate_eq]
  generalize l.mergeSort _ = sorted at hp hs
  have hd {k : Nat} (h : sorted = (chunker.chunkList data).take k) :
      (sorted.map (·.data)).flatten = data.take (k * chunker.config.chunkSize) := by
    rw [h, List.map_take, map_data_chunkList, List.flatten_take_chunksOf chunker.chunkSize_pos]
  constructor
  case mp =>
    intro ⟨_, hn, _, hi, he⟩
    have ⟨hle, h⟩ := eq_take_of_indices (fun c hc => hm c (hp.mem_iff.mp hc)) hi
    rw [hp.length_eq] at hle h
    exact ⟨l.length, Nat.pos_of_ne_zero hn, hle, h ▸ hp.symm, he ▸ hd h⟩
  case mpr =>
    intro ⟨k, hk, hle, hl, he⟩
    -- Sorted, the indices of the first chunks are the numbers from zero on.
    have hps := hp.trans hl
    have hi : sorted.map (·.index) = List.range sorted.length := by
      have hr := hps.map (·.index)
      rw [map_index_take, ← hps.length_eq] at hr
      exact hr.eq_of_pairwise (fun _ _ _ _ => Nat.le_antisymm) hs (List.pairwise_le_range)
    have ⟨_, h⟩ := eq_take_of_indices (fun c hc => hm c (hp.mem_iff.mp hc)) hi
    have hlen : sorted.length = k := by rw [hps.length_eq, List.length_take, Nat.min_eq_left hle]
    rw [hlen] at h
    refine ⟨(), ?_, (), hi, he ▸ hd h⟩
    rw [← hp.length_eq, hlen]
    exact Nat.ne_of_gt hk

theorem length_chunkList_pos (chunker : FixedSizeChunker) (hn : data ≠ []) :
    1 ≤ (chunker.chunkList data).length := by
  rw [length_chunkList, Nat.one_le_iff_ne_zero, ← Nat.pos_iff_ne_zero,
    List.lt_length_chunksOf chunker.chunkSize_pos, Nat.zero_mul]
  exact List.length_pos_iff.mpr hn

-- The first chunks are the data only if they are all of them.
theorem take_eq_self_iff {k : Nat} :
    data.take (k * chunker.config.chunkSize) = data ↔ (chunker.chunkList data).length ≤ k := by
  rw [length_chunkList, ← Nat.not_lt, List.lt_length_chunksOf chunker.chunkSize_pos, Nat.not_lt]
  exact List.take_eq_self_iff data

-- The last chunk says that it is the last one.
theorem last_mem_take (hn : data ≠ []) {k : Nat} (hk : k ≤ (chunker.chunkList data).length) :
    (∃ c ∈ (chunker.chunkList data).take k, c.index + 1 = c.totalChunks) ↔
      data.take (k * chunker.config.chunkSize) = data := by
  have hpos := length_chunkList_pos chunker hn
  rw [take_eq_self_iff]
  constructor
  case mp =>
    rintro ⟨c, hc, hl⟩
    have ⟨i, hi⟩ := List.getElem?_of_mem hc
    have hik : i < k := by
      have := (List.getElem?_eq_some_iff.mp hi).1
      rw [List.length_take] at this
      omega
    rw [List.getElem?_take_of_lt hik] at hi
    have ⟨hx, ht⟩ := getElem?_chunkList hi
    omega
  case mpr =>
    intro hge
    have hk : k = (chunker.chunkList data).length := by omega
    have hl : (chunker.chunkList data).length - 1 < (chunker.chunkList data).length := by omega
    have ⟨hx, ht⟩ := getElem?_chunkList (List.getElem?_eq_getElem hl)
    rw [hk, List.take_length]
    exact ⟨_, List.getElem_mem hl, by omega⟩

-- Chunks that are taken from those of some data, in any order and number, are put together if and only
-- if they are the first ones, once each. What is returned is the data or there is an error, unless they
-- are some of the first ones but not all: then it is cut off.
theorem reassembly_of_chunks (config : ChunkerConfig) (hp : 1 ≤ config.chunkSize)
    (hs : config.chunkSize ≤ maxChunkSize) (hn : data ≠ []) (hm : data.length ≤ maxFileSize) :
    ∃ chunker chunks, FixedSizeChunker.new config = ok chunker ∧ chunker.chunk data = ok chunks ∧
      (∀ l, (∀ c ∈ l, c ∈ chunks) →
        ((∀ d, reassembleChunks l = ok d → d = data) ↔
          ¬∃ k, 1 ≤ k ∧ k < chunks.length ∧ l.Perm (chunks.take k)) ∧
        ∀ d, (reassembleChunks l = ok d ↔ ∃ k, 1 ≤ k ∧ k ≤ chunks.length ∧ l.Perm (chunks.take k) ∧
            d = data.take (k * config.chunkSize)) ∧
          (reassembleChunks l = ok d → (d = data ↔ ∃ c ∈ l, c.index + 1 = c.totalChunks))) ∧
      ∀ l, l.Perm chunks → reassembleChunks l = ok data := by
  refine ⟨_, _, new_eq_ok hp hs, chunk_eq_ok hn hm, fun l hl => ⟨⟨fun h => ?_, fun h d hd => ?_⟩, ?_⟩,
    fun l h => ?_⟩
  · rintro ⟨k, hk, hlt, hperm⟩
    refine hlt.not_ge (take_eq_self_iff.mp (h _ ?_))
    exact (reassembleChunks_eq_ok hl).mpr ⟨k, hk, hlt.le, hperm, rfl⟩
  · obtain ⟨k, hk, hle, hperm, rfl⟩ := (reassembleChunks_eq_ok hl).mp hd
    exact take_eq_self_iff.mpr (Nat.not_lt.mp fun hlt => h ⟨k, hk, hlt, hperm⟩)
  · refine fun d => ⟨reassembleChunks_eq_ok hl, fun h => ?_⟩
    obtain ⟨k, hk, hle, hperm, hd⟩ := (reassembleChunks_eq_ok hl).mp h
    rw [hd, ← last_mem_take hn hle]
    simp only [hperm.mem_iff]
  · exact (reassembleChunks_eq_ok fun c => h.mem_iff.mp).mpr
      ⟨_, length_chunkList_pos _ hn, Nat.le_refl _, by rwa [List.take_length],
        (take_eq_self_iff.mpr (Nat.le_refl _)).symm⟩

theorem reassembly_of_chunks_three : ∃ chunks : List Chunk,
    reassembleChunks chunks.reverse = ok [1, 2, 3] := by
  have ⟨_, chunks, _, _, _, h⟩ := reassembly_of_chunks ⟨2, true⟩ (by decide) (by decide)
    (show [1, 2, 3] ≠ [] by decide) (by decide)
  exact ⟨chunks, h _ (List.reverse_perm chunks)⟩

-- Without the last chunk the first byte is all that is returned.
theorem reassembly_truncates : ∃ chunker chunks first,
    FixedSizeChunker.new ⟨1, true⟩ = ok chunker ∧ chunker.chunk [1, 2] = ok chunks ∧
    first ∈ chunks ∧ reassembleChunks [first] = ok [1] := by
  refine ⟨⟨⟨1, true⟩, by decide, by decide⟩, _, ⟨[1], 0, 2⟩, rfl, rfl, by decide, ?_⟩
  rw [reassembleChunks, List.mergeSort_singleton]
  rfl

end TypescriptSdk
end Bulletin
