import BulletinChain.Migrations.Raw

namespace Bulletin

open Scale

variable {T : Config} {W : Wire T}

namespace VersionUncheckedMigrateV0ToV1

-- What the loop does with the value of a key.
def outcome (W : Wire T) (raw : List UInt8) : Option (List UInt8) :=
  if ((entriesCodec T W.transactionInfo).read raw).isSome then
    some raw
  else
    ((entriesCodec T W.oldTransactionInfo).read raw).map fun oldTxs =>
      (entriesCodec T W.v1TransactionInfo).encode (oldTxs.map translateInfo)

theorem loop_eq_some (w : W.order.Walk (fun _ => outcome W) none m₀ visited m)
    (hf : m₀.keys.card < visited.length + fuel) :
    loop W fuel visited.getLast? m = some (m₀.translate fun _ => outcome W) := by
  induction fuel generalizing visited m
  case zero         => exact absurd w.length_le (by omega)
  case succ fuel hi =>
    cases hn : W.order.next m.keys visited.getLast?
    case none =>
      rw [loop, hn, (w.done_all hn).right]
    case some key =>
      have hn' : W.order.next m.keys (visited.getLast?.or none) = some key := by
        rwa [Option.or_none]
      have ⟨raw, hr, _⟩ := w.next_lookup hn'
      have hi {m' : RawTransactions}
          (w : W.order.Walk (fun _ => outcome W) none m₀ (visited ++ [key]) m') :
          loop W fuel (some key) m' = some (m₀.translate fun _ => outcome W) := by
        have h := hi w (by simp; omega)
        rwa [List.getLast?_concat] at h
      simp only [loop, hn, hr]
      split
      case isTrue hc => exact hi <| w.keep hn' hr <| if_pos hc
      case isFalse hc =>
        split
        case h_1 oldTxs ho => exact hi <| w.insert hn' hr <| by simp [outcome, hc, ho]
        case h_2 ho        => exact hi <| w.erase hn' hr <| by simp [outcome, hc, ho]

theorem onRuntimeUpgrade_eq (W : Wire T) (m : RawTransactions) :
    onRuntimeUpgrade W m = some (m.translate fun _ => outcome W) :=
  loop_eq_some .start (by simp)

theorem valid_translateInfo (h : W.oldTransactionInfo.Valid old) :
    W.v1TransactionInfo.Valid (translateInfo old) := by
  have hr : u64.Valid rawCodec := show rawCodec < 256 ^ 8 by decide
  exact ⟨h.left, h.right.left, List.mem_cons_self, hr, h.right.right⟩

theorem oldTransactionInfo_sound (W : Wire T) : W.oldTransactionInfo.Sound :=
  (Scale.Codec.Sound.pair (.of_valid W.isChunkRoot.valid) <| .pair (.of_valid W.isContentHash.valid) <|
    .pair (.uint 4) (.uint 4)).iso _ fun _ => rfl

-- The entry without what the translation fills in.
def untranslated (e : V1TransactionInfo T) : OldTransactionInfo T :=
  ⟨e.chunkRoot, e.contentHash, e.size, e.blockChunks⟩

-- A list of version 1 that is also one of the old layout, of the same entries: they are as the
-- translation would have them, and without their hashing and codec they are the first bytes of the list.
structure Ambiguous (W : Wire T) (l : List (V1TransactionInfo T)) : Prop where
  filled : ∀ e ∈ l, e.hashing = .blake2b256 ∧ e.cidCodec = rawCodec
  bytes  : l.flatMap (W.oldTransactionInfo.encode <| untranslated ·) <+:
    l.flatMap W.v1TransactionInfo.encode

theorem oldTransactionInfo_exact (hc : W.chunkRoot.Exact) (hh : W.contentHash.Exact) :
    W.oldTransactionInfo.Exact :=
  (hc.pair <| hh.pair <| (Scale.Codec.Exact.uint 4).pair (.uint 4)).iso _ fun _ => rfl

theorem isList_translate {old : BoundedVec (OldTransactionInfo T) T.maxBlockTransactions}
    (h : ∀ e ∈ old.val, W.oldTransactionInfo.Valid e) (hn : old.val ≠ []) :
    IsList T W.v1TransactionInfo ((entriesCodec T W.v1TransactionInfo).encode (old.map translateInfo))
      (old.map translateInfo) where
  nonempty := by simpa using hn
  valid e he := by
    have ⟨o, ho, he⟩ := List.mem_map.mp he
    exact he ▸ valid_translateInfo (h o ho)
  encoded  := rfl

theorem outcome_old (h : IsList T W.oldTransactionInfo raw l) :
    outcome W raw = some ((entriesCodec T W.v1TransactionInfo).encode (l.map translateInfo)) := by
  have hc : (entriesCodec T W.transactionInfo).read raw = none :=
    h.read_eq_none W.oldTransactionInfo_sized W.transactionInfo_sized (by decide)
  simp [outcome, hc, h.read]

-- A list of version 1, as the layout before it reads its bytes, and translated from there.
def misread (W : Wire T) (l : BoundedVec (V1TransactionInfo T) T.maxBlockTransactions) :
    Option (BoundedVec (V1TransactionInfo T) T.maxBlockTransactions) :=
  ((entriesCodec T W.oldTransactionInfo).read ((entriesCodec T W.v1TransactionInfo).encode l)).map
    (·.map translateInfo)

-- Such a list is too short to decode as it should be now, and long enough for the old layout.
theorem outcome_v1 (h : IsList T W.v1TransactionInfo raw l) :
    ∃ l', misread W l = some l' ∧
      IsList T W.v1TransactionInfo ((entriesCodec T W.v1TransactionInfo).encode l') l' ∧
      outcome W raw = some ((entriesCodec T W.v1TransactionInfo).encode l') := by
  have hc : (entriesCodec T W.transactionInfo).read raw = none :=
    h.read_eq_none W.v1TransactionInfo_sized W.transactionInfo_sized (by decide)
  have ⟨w, hw⟩ : ∃ w, (entriesCodec T W.oldTransactionInfo).read
      ((entriesCodec T W.v1TransactionInfo).encode l) = some w :=
    Scale.Codec.reread_isSome W.v1TransactionInfo_sized W.oldTransactionInfo_sized
      W.oldTransactionInfo_total (by decide)
  have hs := (oldTransactionInfo_sound W).boundedVec (maxBlockTransactions_lt T)
  have hv := Scale.Codec.read_valid hs hw
  have hn : w.val ≠ [] := by
    rw [← List.length_pos_iff, Scale.Codec.reread_length hw, List.length_pos_iff]
    exact h.nonempty
  refine ⟨w.map translateInfo, by simp [misread, hw], isList_translate hv hn, ?_⟩
  rw [outcome, hc, h.encoded, hw]
  rfl

-- The two values that the translation fills in, in the place of the size and the chunks.
theorem encode_v1_eq (W : Wire T) (chunkRoot : T.ChunkRoot) (contentHash : T.ContentHash)
    (size blockChunks : Nat) :
    W.v1TransactionInfo.encode ⟨chunkRoot, contentHash, .blake2b256, rawCodec, size, blockChunks⟩ =
      W.oldTransactionInfo.encode ⟨chunkRoot, contentHash, 0x5500, 0⟩ ++
        ([0] ++ (u32.encode size ++ u32.encode blockChunks)) := by
  have hq : HashingAlgorithm.codec.encode .blake2b256 ++ u64.encode rawCodec =
      u32.encode 0x5500 ++ (u32.encode 0 ++ [0]) := by decide
  change W.chunkRoot.encode chunkRoot ++ (W.contentHash.encode contentHash ++
    (HashingAlgorithm.codec.encode .blake2b256 ++ (u64.encode rawCodec ++
      (u32.encode size ++ u32.encode blockChunks)))) = _
  rw [← List.append_assoc (HashingAlgorithm.codec.encode _), hq]
  change _ = (W.chunkRoot.encode chunkRoot ++ (W.contentHash.encode contentHash ++
    (u32.encode 0x5500 ++ u32.encode 0))) ++ _
  simp

theorem map_untranslated (h : ∀ e ∈ l, e.hashing = .blake2b256 ∧ e.cidCodec = rawCodec) :
    (l.map untranslated).map translateInfo = (l : List (V1TransactionInfo T)) := by
  rw [List.map_map]
  refine (List.map_congr_left fun e he => ?_).trans (List.map_id l)
  obtain ⟨hh, hc⟩ := h e he
  cases e
  cases hh
  cases hc
  rfl

theorem misread_eq_self (hc : W.chunkRoot.Exact) (hh : W.contentHash.Exact)
    (hv : ∀ e ∈ l.val, W.v1TransactionInfo.Valid e) : misread W l = some l ↔ Ambiguous W l.val := by
  have hx := oldTransactionInfo_exact hc hh
  rw [misread, Option.map_eq_some_iff]
  constructor
  case mp =>
    rintro ⟨w, hw, rfl⟩
    have hs := (oldTransactionInfo_sound W).boundedVec (maxBlockTransactions_lt T)
    obtain ⟨_, hp⟩ := (Scale.Codec.reread_iff hx (Scale.Codec.read_valid hs hw)).mp hw
    refine ⟨fun e he => ?_, ?_⟩
    · obtain ⟨o, _, rfl⟩ := List.mem_map.mp he
      exact ⟨rfl, rfl⟩
    · rw [BoundedVec.map_val, List.flatMap_map]
      exact hp
  case mpr =>
    rintro ⟨hf, hp⟩
    refine ⟨l.map untranslated, (Scale.Codec.reread_iff hx fun o ho => ?_).mpr ⟨by simp, ?_⟩, ?_⟩
    · obtain ⟨e, he, rfl⟩ := List.mem_map.mp ho
      have hv := hv e he
      exact ⟨hv.left, hv.right.left, hv.right.right.right.right⟩
    · rw [BoundedVec.map_val, List.flatMap_map]
      exact hp
    · exact BoundedVec.ext (map_untranslated hf)

namespace Ambiguous

variable {e : V1TransactionInfo T}

-- The first entry is read from its own bytes, with those of its hashing and its codec for its size and
-- its chunks.
theorem head (h : Ambiguous W (e :: es)) (hv : W.v1TransactionInfo.Valid e) :
    e.hashing = .blake2b256 ∧ e.cidCodec = rawCodec ∧ e.size = 0x5500 ∧ e.blockChunks = 0 := by
  obtain ⟨hh, hc⟩ := h.filled e List.mem_cons_self
  obtain ⟨chunkRoot, contentHash, hashing, cidCodec, size, blockChunks⟩ := e
  dsimp only at hh hc
  subst hh hc
  obtain ⟨rest, hr⟩ := h.bytes
  rw [List.flatMap_cons, List.flatMap_cons, encode_v1_eq, List.append_assoc, List.append_assoc] at hr
  have hl := W.oldTransactionInfo_sized.length_encode
  have he := List.append_inj_left hr ((hl _).trans (hl _).symm)
  have hv₁ : W.oldTransactionInfo.Valid ⟨chunkRoot, contentHash, size, blockChunks⟩ :=
    ⟨hv.left, hv.right.left, hv.right.right.right.right⟩
  have hv₂ : W.oldTransactionInfo.Valid ⟨chunkRoot, contentHash, 0x5500, 0⟩ :=
    ⟨hv.left, hv.right.left, show 0x5500 < 256 ^ 4 by decide, show 0 < 256 ^ 4 by decide⟩
  have he := (Scale.Codec.encode_inj hv₁ hv₂).mp he
  exact ⟨rfl, rfl, congrArg OldTransactionInfo.size he, congrArg OldTransactionInfo.blockChunks he⟩

theorem singleton_iff (hv : W.v1TransactionInfo.Valid e) : Ambiguous W [e] ↔
    e.hashing = .blake2b256 ∧ e.cidCodec = rawCodec ∧ e.size = 0x5500 ∧ e.blockChunks = 0 := by
  refine ⟨fun h => h.head hv, ?_⟩
  obtain ⟨chunkRoot, contentHash, hashing, cidCodec, size, blockChunks⟩ := e
  rintro ⟨hh, hc, hs, hb⟩
  dsimp only at hh hc hs hb
  subst hh hc hs hb
  refine ⟨by simp, ?_⟩
  rw [List.flatMap_singleton, List.flatMap_singleton, encode_v1_eq]
  exact List.prefix_append ..

end Ambiguous

section

variable (hc : W.chunkRoot.Exact) (hh : W.contentHash.Exact)
include hc hh

theorem outcome_eq_self (h : IsList T W.v1TransactionInfo raw l) :
    outcome W raw = some raw ↔ Ambiguous W l.val := by
  obtain ⟨l', hm, hl, ho⟩ := outcome_v1 h
  rw [← misread_eq_self hc hh h.valid, ho, hm, h.encoded, Option.some.injEq, Option.some.injEq]
  exact Scale.Codec.encode_inj hl.valid h.valid

-- What a second run does is what a first run does with a list of version 1.
theorem outcome_again (h : IsList T W.oldTransactionInfo raw l) :
    (outcome W raw).bind (outcome W) = outcome W raw ↔ Ambiguous W (l.map translateInfo).val := by
  rw [outcome_old h, Option.bind_some]
  exact outcome_eq_self hc hh (isList_translate h.valid h.nonempty)

end

theorem lookup_upgraded (W : Wire T) (m : RawTransactions) (b : UInt32) :
    (m.translate fun _ => outcome W).lookup b = (m.lookup b).bind (outcome W) :=
  Finmap.lookup_translate fun _ => outcome W

theorem lookup_upgraded_eq_self {m : RawTransactions} (hc : W.chunkRoot.Exact)
    (hh : W.contentHash.Exact) (hr : m.lookup b = some raw) (h : IsList T W.v1TransactionInfo raw l) :
    (m.translate fun _ => outcome W).lookup b = some raw ↔ Ambiguous W l.val := by
  rw [lookup_upgraded, hr, Option.bind_some]
  exact outcome_eq_self hc hh h

theorem onRuntimeUpgrade_again (W : Wire T) (m : RawTransactions) :
    onRuntimeUpgrade W (m.translate fun _ => outcome W) = some (m.translate fun _ => outcome W) ↔
      ∀ b raw, m.lookup b = some raw → (outcome W raw).bind (outcome W) = outcome W raw := by
  rw [onRuntimeUpgrade_eq, Option.some.injEq]
  constructor
  case mp =>
    intro h b raw hr
    have h := congrArg (Finmap.lookup b) h
    rwa [lookup_upgraded, lookup_upgraded, hr] at h
  case mpr =>
    intro h
    apply Finmap.ext_lookup
    intro b
    rw [lookup_upgraded, lookup_upgraded]
    cases hr : m.lookup b
    case none     => rfl
    case some raw => exact h b raw hr

end VersionUncheckedMigrateV0ToV1

open VersionUncheckedMigrateV0ToV1

-- On lists of the two layouts the migration does what it is for with those before version 1, and removes
-- nothing. It leaves the others as they are, and can be run again, exactly if each list, once it is of
-- version 1, has the bytes of the same list of the old layout at its front. A list whose first entry has
-- chunks never has: it is rewritten if it is of version 1, and by a second run if it is older.
theorem mixed_storage_migration (W : Wire T) (hc : W.chunkRoot.Exact) (hh : W.contentHash.Exact)
    (m : RawTransactions) (hm : ∀ b raw, m.lookup b = some raw →
      (∃ l, IsList T W.oldTransactionInfo raw l) ∨ ∃ l, IsList T W.v1TransactionInfo raw l) :
    ∃ m₁, onRuntimeUpgrade W m = some m₁ ∧ (∀ b, b ∈ m₁ ↔ b ∈ m) ∧
      (∀ b raw l, m.lookup b = some raw → IsList T W.oldTransactionInfo raw l →
        m₁.lookup b =
          some ((entriesCodec T W.v1TransactionInfo).encode (l.map translateInfo))) ∧
      (((∀ b raw l, m.lookup b = some raw → IsList T W.v1TransactionInfo raw l →
            m₁.lookup b = some raw) ∧
          onRuntimeUpgrade W m₁ = some m₁) ↔
        ∀ b raw, m.lookup b = some raw →
          (∀ l, IsList T W.oldTransactionInfo raw l → Ambiguous W (l.map translateInfo).val) ∧
          ∀ l, IsList T W.v1TransactionInfo raw l → Ambiguous W l.val) ∧
      (∀ b raw l e es, m.lookup b = some raw → l.val = e :: es → e.blockChunks ≠ 0 →
        IsList T W.v1TransactionInfo raw l → m₁.lookup b ≠ some raw) ∧
      (∀ b raw l e es, m.lookup b = some raw → l.val = e :: es → e.blockChunks ≠ 0 →
        IsList T W.oldTransactionInfo raw l → onRuntimeUpgrade W m₁ ≠ some m₁) ∧
      (∀ e es, W.v1TransactionInfo.Valid e → Ambiguous W (e :: es) →
        e.hashing = .blake2b256 ∧ e.cidCodec = rawCodec ∧ e.size = 0x5500 ∧ e.blockChunks = 0) ∧
      (∀ e, W.v1TransactionInfo.Valid e → (Ambiguous W [e] ↔
        e.hashing = .blake2b256 ∧ e.cidCodec = rawCodec ∧ e.size = 0x5500 ∧ e.blockChunks = 0)) := by
  refine ⟨_, onRuntimeUpgrade_eq W m, fun b => ?_, fun b raw l hr h => ?_, ?_,
    fun b raw l e es hr he hb h hk => ?_, fun b raw l e es hr he hb h ht => ?_,
    fun e es hv ha => ha.head hv, fun e hv => Ambiguous.singleton_iff hv⟩
  · rw [Finmap.mem_iff, Finmap.mem_iff, lookup_upgraded]
    cases hr : m.lookup b
    case none     => simp
    case some raw =>
      cases hm b raw hr
      case inl h => have ⟨_, h⟩ := h; simp [outcome_old h]
      case inr h => have ⟨_, h⟩ := h; have ⟨_, _, _, ho⟩ := outcome_v1 h; simp [ho]
  · rw [lookup_upgraded, hr, Option.bind_some, outcome_old h]
  · rw [onRuntimeUpgrade_again]
    constructor
    case mp =>
      intro ⟨hk, ht⟩ b raw hr
      refine ⟨fun l h => (outcome_again hc hh h).mp (ht b raw hr), fun l h => ?_⟩
      exact (lookup_upgraded_eq_self hc hh hr h).mp (hk b raw l hr h)
    case mpr =>
      intro h
      refine ⟨fun b raw l hr hi => ?_, fun b raw hr => ?_⟩
      · exact (lookup_upgraded_eq_self hc hh hr hi).mpr ((h b raw hr).right l hi)
      · cases hm b raw hr
        case inl hi => have ⟨l, hi⟩ := hi; exact (outcome_again hc hh hi).mpr ((h b raw hr).left l hi)
        case inr hi =>
          have ⟨l, hi⟩ := hi
          have ho := (outcome_eq_self hc hh hi).mpr ((h b raw hr).right l hi)
          rw [ho, Option.bind_some, ho]
  · have ha := (lookup_upgraded_eq_self hc hh hr h).mp hk
    rw [he] at ha
    exact hb (ha.head (h.valid e (he ▸ List.mem_cons_self))).right.right.right
  · have ha := (outcome_again hc hh h).mp ((onRuntimeUpgrade_again W m).mp ht b raw hr)
    rw [BoundedVec.map_val, he, List.map_cons] at ha
    have hv := valid_translateInfo (h.valid e (he ▸ List.mem_cons_self))
    exact hb (ha.head hv).right.right.right

-- A list of one entry, of 300 bytes and so two chunks, in either layout.

def oldList : BoundedVec (OldTransactionInfo .arrays) Config.arrays.maxBlockTransactions :=
  ⟨[⟨.pad [1], .pad [2], 300, 2⟩], by decide⟩

def v1List : BoundedVec (V1TransactionInfo .arrays) Config.arrays.maxBlockTransactions :=
  oldList.map translateInfo

theorem isList_oldList : IsList .arrays Wire.arrays.oldTransactionInfo
    ((entriesCodec .arrays Wire.arrays.oldTransactionInfo).encode oldList) oldList := by
  refine ⟨by decide, fun e he => ?_, rfl⟩
  rw [List.mem_singleton.mp he]
  exact ⟨Wire.arrays.isChunkRoot.valid _, Wire.arrays.isContentHash.valid _,
    show 300 < 256 ^ 4 by decide, show 2 < 256 ^ 4 by decide⟩

theorem isList_v1List : IsList .arrays Wire.arrays.v1TransactionInfo
    ((entriesCodec .arrays Wire.arrays.v1TransactionInfo).encode v1List) v1List :=
  isList_translate isList_oldList.valid isList_oldList.nonempty

theorem mixed_storage_migration_old :
    let m : RawTransactions := Finmap.singleton 7
      ((entriesCodec .arrays Wire.arrays.oldTransactionInfo).encode oldList)
    ∃ m₁, onRuntimeUpgrade .arrays m = some m₁ ∧ m₁.lookup 7 =
      some ((entriesCodec .arrays Wire.arrays.v1TransactionInfo).encode v1List) ∧
      onRuntimeUpgrade .arrays m₁ ≠ some m₁ := by
  intro m
  have hx : Wire.arrays.chunkRoot.Exact := Scale.Codec.Exact.byte.vector 32
  obtain ⟨m₁, h, _, ho, _, _, ht, _⟩ := mixed_storage_migration .arrays hx hx m fun b raw hr => by
    rw [Finmap.lookup_singleton] at hr
    split at hr
    case isTrue  => exact .inl ⟨oldList, Option.some.inj hr ▸ isList_oldList⟩
    case isFalse => cases hr
  exact ⟨m₁, h, ho 7 _ _ Finmap.lookup_singleton_eq isList_oldList,
    ht 7 _ _ _ _ Finmap.lookup_singleton_eq rfl (by decide) isList_oldList⟩

-- A list of version 1 is rewritten: the nine bytes of its hashing and its codec are now its size and its
-- chunks. The first run makes such a list of an old one, so that a second run does the same to it.
theorem mixed_storage_rewritten :
    let encoded := (entriesCodec .arrays Wire.arrays.v1TransactionInfo).encode v1List
    IsList .arrays Wire.arrays.v1TransactionInfo encoded v1List ∧
    ∃ m₁, onRuntimeUpgrade .arrays (Finmap.singleton 7 encoded) = some m₁ ∧
      m₁.lookup 7 = some ((entriesCodec .arrays Wire.arrays.v1TransactionInfo).encode
        ⟨[⟨.pad [1], .pad [2], .blake2b256, rawCodec, 0x5500, 0⟩], by decide⟩) ∧
      m₁.lookup 7 ≠ some encoded := by
  intro encoded
  refine ⟨isList_v1List, _, onRuntimeUpgrade_eq _ _, ?_⟩
  rw [lookup_upgraded, Finmap.lookup_singleton_eq, Option.bind_some]
  decide +kernel

end Bulletin
