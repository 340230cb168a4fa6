import BulletinChain.Theorems.Retention

namespace Bulletin

open Machine Except List.binarySearchByKey

variable {T : Config} {D : Set Content} {es : List (TransactionInfo T)} {e e' : TransactionInfo T}
  {i j selected : Nat}

theorem chunksBefore_succ (h : es[i]? = some e) :
    chunksBefore es (i + 1) = chunksBefore es i + numChunks e.size := by
  simp [chunksBefore, List.take_add_one, h]

theorem chunksBefore_mono (es : List (TransactionInfo T)) (h : i ≤ j) :
    chunksBefore es i ≤ chunksBefore es j := by
  have hp : es.take i <+: es.take j := List.take_prefix_take_left h
  have ⟨r, hr⟩ := hp
  simp [chunksBefore, ← hr]

-- The entry that `choose_chunk` looks up.
def ownerOf (es : List (TransactionInfo T)) (selected : Nat) : Nat :=
  List.insertionPoint <| es.binarySearchByKey selected fun info => info.blockChunks - 1

namespace Listed

theorem keyAt_eq (h : Listed D es) (hi : i < es.length) :
    keyAt es (fun info => info.blockChunks - 1) i = min (chunksBefore es (i + 1)) u32Max - 1 := by
  simp only [keyAt, List.getElem?_eq_getElem hi, Option.elim_some]
  rw [h.counted (List.getElem?_eq_getElem hi)]

theorem keyAt_mono (h : Listed D es) (i j : Nat) (hij : i ≤ j) (hj : j < es.length) :
    keyAt es (fun info => info.blockChunks - 1) i ≤
      keyAt es (fun info => info.blockChunks - 1) j := by
  rw [h.keyAt_eq hj, h.keyAt_eq (Nat.lt_of_le_of_lt hij hj)]
  have hm := chunksBefore_mono es (Nat.add_le_add_right hij 1)
  omega

theorem blockChunks_pos (h : Listed D es) (hi : es[i]? = some e) : 0 < e.blockChunks := by
  have hp := numChunks_pos (h.isOf e (List.mem_of_getElem? hi)).size_pos
  have hu : 0 < u32Max := by decide
  rw [h.counted hi, chunksBefore_succ hi]
  omega

theorem totalChunks_eq (h : Listed D es) (hl : es ≠ []) :
    Bulletin.totalChunks es = keyAt es (fun info => info.blockChunks - 1) (es.length - 1) + 1 := by
  have hp : 0 < es.length := List.length_pos_iff.mpr hl
  have hn := h.ne_zero_iff.mpr hl
  rw [h.totalChunks] at hn ⊢
  rw [h.keyAt_eq (by omega), chunksBefore, List.take_of_length_le (by omega)]
  omega

-- The search ends at an entry that reaches past the selected chunk.
theorem lt_blockChunks (h : Listed D es) (hs : selected < Bulletin.totalChunks es) :
    ∃ e, es[ownerOf es selected]? = some e ∧ selected < e.blockChunks := by
  have hl : es ≠ [] := h.ne_zero_iff.mp (by omega)
  rw [h.totalChunks_eq hl] at hs
  have hp : 0 < es.length := List.length_pos_iff.mpr hl
  obtain ⟨i, hi, hb, hk⟩ | ⟨i, hi, hb, hlt, hgt⟩ := spec selected h.keyAt_mono
  · have he := List.getElem?_eq_getElem hb
    have hc := h.blockChunks_pos he
    simp only [keyAt, he, Option.elim_some] at hk
    exact ⟨es[i], by simp [ownerOf, hi, List.insertionPoint, he], by omega⟩
  · have hb : i < es.length := by
      by_contra hc
      have := hlt (es.length - 1) (by omega)
      omega
    have he := List.getElem?_eq_getElem hb
    have hg := hgt i (Nat.le_refl i) hb
    simp only [keyAt, he, Option.elim_some] at hg
    exact ⟨es[i], by simp [ownerOf, hi, List.insertionPoint, he], by omega⟩

theorem chooseChunk_eq (h : Listed D es) (hs : selected < Bulletin.totalChunks es) :
    ∃ e, es[ownerOf es selected]? = some e ∧ selected < e.blockChunks ∧
      chooseChunk es selected = ok ⟨e,
        (checkedSub e.blockChunks (numChunks e.size)).bind (checkedSub selected)⟩ := by
  have ⟨e, he, hlt⟩ := h.lt_blockChunks hs
  refine ⟨e, he, hlt, ?_⟩
  have hp := h.blockChunks_pos he
  rw [ownerOf] at he
  simp only [chooseChunk, he, okOr, Option.elim_some, ok_bind, ensure, Nat.ne_of_gt hp, ne_eq,
    not_false_eq_true, if_true]
  rfl

-- Where the counters grow from entry to entry, no earlier entry reaches past the selected chunk.
theorem blockChunks_le (h : Listed D es)
    (hm : es.Pairwise (·.blockChunks < ·.blockChunks))
    (hi : i < ownerOf es selected) (he : es[i]? = some e) : e.blockChunks ≤ selected := by
  have hp := h.blockChunks_pos he
  obtain ⟨j, hj, hb, hk⟩ | ⟨j, hj, hb, hlt, _⟩ := spec selected h.keyAt_mono
  · simp only [ownerOf, hj, List.insertionPoint] at hi
    have ⟨hi', he⟩ := List.getElem?_eq_some_iff.mp he
    have hlt := List.pairwise_iff_getElem.mp hm i j hi' hb hi
    simp only [keyAt, List.getElem?_eq_getElem hb, Option.elim_some] at hk
    rw [he] at hlt
    omega
  · simp only [ownerOf, hj, List.insertionPoint] at hi
    have hlt := hlt i hi
    simp only [keyAt, he, Option.elim_some] at hlt
    omega

theorem chunksBefore_le (h : Listed D es) (hl : es.length ≤ T.maxBlockTransactions) (i : Nat) :
    chunksBefore es i ≤ T.maxBlockTransactions * numChunks T.maxTransactionSize := by
  calc
    chunksBefore es i ≤ ((es.take i).map (numChunks ·.size)).length * numChunks T.maxTransactionSize := by
      refine List.sum_le_card_nsmul _ _ fun n hn => ?_
      have ⟨e, he, hn⟩ := List.mem_map.mp hn
      have ⟨c, _, hd⟩ := h.isOf e (List.mem_of_mem_take he)
      exact hn ▸ numChunks_mono (dataSizeOk_iff.mp hd.sizeOk).right
    _ ≤ T.maxBlockTransactions * numChunks T.maxTransactionSize := by
      refine Nat.mul_le_mul_right _ ?_
      simp only [List.length_map, List.length_take]
      omega

end Listed

theorem TransactionInfo.Describes.length_chunksOf (h : e.Describes c) :
    (c.1.bytes.chunksOf chunkSize).length = numChunks e.size := by
  rw [List.length_chunksOf, h.size]
  rfl

-- What the host promises about chunk proofs, and a configuration whose blocks can be counted.
structure Sampling (T : Config) : Prop where
  random  : ∀ seed {total}, 0 < total → T.randomChunk seed total < total
  accepts : (∃ p, T.verifyProof (T.orderedRoot chunks) p k c) ↔ chunks[k]? = some c
  fits    : T.maxBlockTransactions * numChunks T.maxTransactionSize < 2 ^ 32

namespace Sampling

theorem blockChunks_eq (hT : Sampling T) (h : Listed D es)
    (hl : es.length ≤ T.maxBlockTransactions) (hi : es[i]? = some e) :
    e.blockChunks = chunksBefore es (i + 1) := by
  have hc := h.chunksBefore_le hl (i + 1)
  have hf := hT.fits
  rw [h.counted hi]
  simp only [u32Max]
  omega

theorem pairwise (hT : Sampling T) (h : Listed D es) (hl : es.length ≤ T.maxBlockTransactions) :
    es.Pairwise (·.blockChunks < ·.blockChunks) := by
  refine List.pairwise_iff_getElem.mpr fun i j hi hj hij => ?_
  have ei := List.getElem?_eq_getElem hi
  have ej := List.getElem?_eq_getElem hj
  have hp := numChunks_pos (h.isOf _ (List.mem_of_getElem? ej)).size_pos
  have hm := chunksBefore_mono es (i := i + 1) (j := j) hij
  rw [hT.blockChunks_eq h hl ei, hT.blockChunks_eq h hl ej, chunksBefore_succ ej]
  omega

-- The selected chunk is in the entry found, at an index of its own.
theorem chooseChunk_eq (hT : Sampling T) (h : Listed D es)
    (hl : es.length ≤ T.maxBlockTransactions) (hs : selected < totalChunks es) :
    ∃ j e k, es[j]? = some e ∧ chooseChunk es selected = ok ⟨e, some k⟩ ∧
      selected = chunksBefore es j + k ∧ k < numChunks e.size := by
  obtain ⟨e, he, hlt, hch⟩ := h.chooseChunk_eq hs
  have hc := hT.blockChunks_eq h hl he
  have hb : chunksBefore es (ownerOf es selected) ≤ selected := by
    cases ho : ownerOf es selected
    case zero   => simp [chunksBefore]
    case succ i =>
      obtain ⟨hi, _⟩ := List.getElem?_eq_some_iff.mp he
      have ei := List.getElem?_eq_getElem (l := es) (i := i) (by omega)
      rw [← hT.blockChunks_eq h hl ei]
      exact h.blockChunks_le (hT.pairwise h hl) (by omega) ei
  rw [chunksBefore_succ he] at hc
  refine ⟨ownerOf es selected, e, selected - chunksBefore es (ownerOf es selected), he, ?_,
    by omega, by omega⟩
  have hprev : checkedSub e.blockChunks (numChunks e.size) =
      some (chunksBefore es (ownerOf es selected)) :=
    checkedSub_eq_some.mpr ⟨by omega, by omega⟩
  rw [hch, hprev, Option.bind_some, checkedSub_eq_some.mpr ⟨hb, rfl⟩]

-- A proof is accepted exactly when it is one of the selected chunk of the entry found.
theorem verifyChunkProof_eq (hT : Sampling T) (h : Listed D es) (hn : es ≠ [])
    (hl : es.length ≤ T.maxBlockTransactions) (seed : List UInt8) :
    ∃ j e k, es[j]? = some e ∧ chooseChunk es (T.randomChunk seed (totalChunks es)) = ok ⟨e, some k⟩ ∧
      T.randomChunk seed (totalChunks es) = chunksBefore es j + k ∧ k < numChunks e.size ∧
      ∀ proof, verifyChunkProof proof seed es =
        ensure (T.verifyProof e.chunkRoot proof.proof k proof.chunk) .invalidProof := by
  have ht := h.ne_zero_iff.mpr hn
  have hs := hT.random seed (Nat.pos_of_ne_zero ht)
  have ⟨j, e, k, he, hc, hs, hk⟩ := hT.chooseChunk_eq h hl hs
  refine ⟨j, e, k, he, hc, hs, hk, fun proof => ?_⟩
  simp [verifyChunkProof, hc, ensure, ht]

-- Who has the data can give a proof.
theorem exists_verifyChunkProof (hT : Sampling T) (h : Listed D es) (hn : es ≠ [])
    (hl : es.length ≤ T.maxBlockTransactions) (seed : List UInt8) :
    ∃ proof, verifyChunkProof proof seed es = ok () := by
  have ⟨j, e, k, he, _, _, hk, hv⟩ := hT.verifyChunkProof_eq h hn hl seed
  have ⟨c, _, hd⟩ := h.isOf e (List.mem_of_getElem? he)
  rw [← hd.length_chunksOf] at hk
  have ⟨proof, hp⟩ := hT.accepts.mpr (List.getElem?_eq_getElem hk)
  exact ⟨⟨_, proof⟩, by rw [hv, ensure_eq_ok, hd.chunkRoot]; exact hp⟩

end Sampling

-- The chunks of a list of data, one after the other.
def chunksOfAll (ds : List Data) : List (List UInt8) :=
  (ds.map (·.bytes.chunksOf chunkSize)).flatten

-- The entries of a list are those of a list of data, one by one, and these data are of `D`.
abbrev DescribeAll (D : Set Content) (es : List (TransactionInfo T)) (ds : List Data) : Prop :=
  List.Forall₂ (fun e d => ∃ hashing, (d, hashing) ∈ D ∧ e.Describes (d, hashing)) es ds

namespace DescribeAll

theorem of_isOf (h : ∀ e ∈ es, e.IsOf D) : ∃ ds, DescribeAll D es ds := by
  induction es
  case nil => exact ⟨[], .nil⟩
  case cons e es hi =>
    obtain ⟨⟨⟨d, hashing⟩, hm, hd⟩, h⟩ := List.forall_mem_cons.mp h
    obtain ⟨ds, hs⟩ := hi h
    exact ⟨d :: ds, .cons ⟨hashing, hm, hd⟩ hs⟩

theorem map_length (h : DescribeAll D es ds) :
    (ds.map (·.bytes.chunksOf chunkSize)).map List.length = es.map (numChunks ·.size) := by
  induction h
  case nil => rfl
  case cons hd _ hi =>
    obtain ⟨_, _, hd⟩ := hd
    simp [hi, hd.length_chunksOf]

-- The chunk of an entry, found among the chunks of all of them.
theorem getElem?_chunksOfAll (h : DescribeAll D es ds) (he : es[j]? = some e)
    (hk : k < numChunks e.size) :
    ∃ d hashing, e.Describes (d, hashing) ∧
      (chunksOfAll ds)[chunksBefore es j + k]? = (d.bytes.chunksOf chunkSize)[k]? := by
  have ⟨hj, he⟩ := List.getElem?_eq_some_iff.mp he
  have hj' : j < ds.length := h.length_eq ▸ hj
  obtain ⟨hashing, _, hd⟩ := h.get hj hj'
  simp only [List.get_eq_getElem, he] at hd
  have hs : chunksBefore es j =
      (((ds.map (·.bytes.chunksOf chunkSize)).take j).map List.length).sum := by
    rw [chunksBefore, List.map_take, ← h.map_length, ← List.map_take]
  refine ⟨ds[j], hashing, hd, ?_⟩
  rw [chunksOfAll, hs]
  exact List.getElem?_flatten_of_lt (by simp [hj']) (by rw [hd.length_chunksOf]; exact hk)

end DescribeAll

-- Proofs of the chunks of a retained block. Its entries are those of data that calls of the run have
-- stored. Their counters are exact, the selection finds an entry and a chunk of it, and the proofs that
-- are accepted are those of the selected chunk of all the data of the block.
theorem chunk_proofs_exact {g : GenesisConfig T} {as : List (Action T)} {c : Chain T}
    {guard : Chain T → Action T → Prop} {es : Entries T} (hT : Sampling T)
    (h : Runs Chain.step guard g.chain as c) (hb : c.state.transactions.lookup b = some es) :
    ∃ ds, DescribeAll (contents as) es.val ds ∧
      es.val.Pairwise (·.blockChunks < ·.blockChunks) ∧
      (∀ i e, es.val[i]? = some e → e.blockChunks = chunksBefore es.val (i + 1)) ∧
      ∀ seed, let selected := T.randomChunk seed (totalChunks es.val)
        (∃ e ∈ es.val, ∃ k < numChunks e.size, chooseChunk es.val selected = ok ⟨e, some k⟩) ∧
        (∀ proof, verifyChunkProof proof seed es.val = ok () ∨
          verifyChunkProof proof seed es.val = error .invalidProof) ∧
        (∀ chunk, (∃ proof, verifyChunkProof ⟨chunk, proof⟩ seed es.val = ok ()) ↔
          (chunksOfAll ds)[selected]? = some chunk) ∧
        ∃ proof, verifyChunkProof proof seed es.val = ok () := by
  have hh := Chain.holds_of_runs h
  have hl := hh.sealed hb
  have ⟨ds, hds⟩ := DescribeAll.of_isOf hl.isOf
  refine ⟨ds, hds, hT.pairwise hl es.bounded, fun i e => hT.blockChunks_eq hl es.bounded, ?_⟩
  intro seed selected
  have ⟨j, e, k, he, hc, hs, hk, hv⟩ := hT.verifyChunkProof_eq hl (hh.ne_nil hb) es.bounded seed
  have ⟨d, _, hd, hf⟩ := hds.getElem?_chunksOfAll he hk
  have ha : ∀ chunk, (∃ proof, verifyChunkProof ⟨chunk, proof⟩ seed es.val = ok ()) ↔
      (chunksOfAll ds)[selected]? = some chunk := by
    intro chunk
    simp only [hv, ensure_eq_ok]
    rw [show selected = _ from hs, hf, hd.chunkRoot]
    exact hT.accepts
  refine ⟨⟨e, List.mem_of_getElem? he, k, hk, hc⟩, fun proof => ?_, ha,
    hT.exists_verifyChunkProof hl (hh.ne_nil hb) es.bounded seed⟩
  rw [hv, ensure]
  split
  case isTrue  => exact .inl rfl
  case isFalse => exact .inr rfl

theorem Sampling.mock : Sampling .mock where
  random _ _ h := Nat.mod_lt _ h
  accepts      := by simp [Config.mock]
  fits         := by decide

theorem chunk_proofs_exact_copies :
    let g : GenesisConfig .mock := ⟨3, [], [], []⟩
    ∃ c es, Runs Chain.step (Chain.steady · ·) g.chain copies c ∧
      c.state.transactions.lookup 1 = some es ∧
      ∀ seed, ∃ proof, verifyChunkProof proof seed es.val = ok () := by
  intro g
  have ⟨c, hr, hb⟩ := Runs.exists_of_any Chain.step Chain.steady g.chain copies
    (fun c => (c.state.transactions.lookup 1).isSome) (by decide +kernel)
  have ⟨es, hb⟩ := Option.isSome_iff_exists.mp hb
  have ⟨_, _, _, _, hp⟩ := chunk_proofs_exact .mock hr hb
  exact ⟨c, es, hr, hb, fun seed => (hp seed).right.right.right⟩

end Bulletin
