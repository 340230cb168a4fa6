import BulletinChain.Theorems.Renewals

namespace Bulletin

open Machine

variable {T : Config}

-- Which of several entries of one content the index, the sweep and a renewal speak of.

-- The position of the first entry of a content.
def firstOf (contentHash : T.ContentHash) (es : List (TransactionInfo T)) : Option Nat :=
  es.findIdx? (·.contentHash = contentHash)

-- The marks of a sweep, by position: those of the first entries of the contents that the index finds
-- in the swept block.
structure Marked (obsolete : Nat) (index : Finmap fun _ : T.ContentHash => Nat × Nat)
    (es : List (TransactionInfo T)) (marks : List (TransactionInfo T × Bool)) : Prop where
  fst : marks.map (·.1) = es
  snd : marks[j]? = some (e, isLatest) → (isLatest = true ↔
    (index.lookup e.contentHash).any (·.1 = obsolete) ∧ firstOf e.contentHash es = some j)

-- Of the entries of a content, the one at position `i` is marked and no other.
def MarksOnly (contentHash : T.ContentHash) (i : Nat) (pairs : List (TransactionInfo T × Bool)) :
    Prop :=
  (∃ e, pairs[i]? = some (e, true) ∧ e.contentHash = contentHash) ∧
    ∀ j e isLatest, pairs[j]? = some (e, isLatest) → e.contentHash = contentHash → j ≠ i →
      isLatest = false

variable {obsolete : Nat} {index : Finmap fun _ : T.ContentHash => Nat × Nat}
  {e e' info : TransactionInfo T} {es : List (TransactionInfo T)} {contentHash : T.ContentHash}
  {marks pairs : List (TransactionInfo T × Bool)}

theorem firstOf_cons :
    firstOf contentHash (e :: es) =
      if e.contentHash = contentHash then some 0 else (firstOf contentHash es).map (· + 1) := by
  simp [firstOf, List.findIdx?_cons]

theorem firstOf_of_mem (h : contentHash ∈ es.map (·.contentHash)) :
    ∃ k e, firstOf contentHash es = some k ∧ es[k]? = some e ∧ e.contentHash = contentHash := by
  have ⟨e, he, hc⟩ := List.mem_map.mp h
  have hs : (firstOf contentHash es).isSome := by
    simpa [firstOf, List.findIdx?_isSome] using ⟨e, he, hc⟩
  have ⟨k, hk⟩ := Option.isSome_iff_exists.mp hs
  have ⟨hl, hp, _⟩ := List.findIdx?_eq_some_iff_getElem.mp hk
  exact ⟨k, es[k], hk, List.getElem?_eq_getElem hl, by simpa using hp⟩

namespace Marked

theorem nil : Marked obsolete index [] [] where
  fst   := rfl
  snd h := by simp at h

theorem cons (hl : (index.lookup e.contentHash).any (·.1 = obsolete) = isLatest)
    (m : Marked obsolete (if isLatest then index.erase e.contentHash else index) es marks) :
    Marked obsolete index (e :: es) ((e, isLatest) :: marks) where
  fst := by simp [m.fst]
  snd {j e' _} h := by
    cases j
    case zero =>
      cases h
      simp [firstOf_cons, hl]
    case succ j =>
      rw [m.snd h, firstOf_cons]
      by_cases hc : e.contentHash = e'.contentHash
      · -- a later entry of the content: the index has forgotten it, or never pointed here
        have hn : ((if isLatest then index.erase e.contentHash else index).lookup
            e'.contentHash).any (·.1 = obsolete) = false := by
          cases isLatest
          case false => exact hc ▸ hl
          case true  => simp [hc]
        rw [hn]
        simp [hc]
      · have hn : (if isLatest then index.erase e.contentHash else index).lookup e'.contentHash =
            index.lookup e'.contentHash := by
          cases isLatest
          case false => rfl
          case true  => exact Finmap.lookup_erase_ne (Ne.symm hc)
        simp [hn, hc]

end Marked

theorem State.foldl_sweepEntry_marked (obsolete : Nat) (es : List (TransactionInfo T))
    (index : Finmap fun _ : T.ContentHash => Nat × Nat)
    (pairs : BoundedVec (TransactionInfo T × Bool) T.maxBlockTransactions)
    (h : pairs.val.length + es.length ≤ T.maxBlockTransactions) :
    ∃ marks, (es.foldl (sweepEntry obsolete) (index, pairs)).2.val = pairs.val ++ marks ∧
      Marked obsolete index es marks := by
  induction es generalizing index pairs
  case nil => exact ⟨[], by simp, .nil⟩
  case cons e es hi =>
    simp only [List.length_cons] at h
    generalize hl : (index.lookup e.contentHash).any (·.1 = obsolete) = isLatest
    have hp : (pairs.pushOrDrop (e, isLatest)).val = pairs.val ++ [(e, isLatest)] :=
      BoundedVec.pushOrDrop_val (by omega)
    have ⟨marks, hv, m⟩ := hi (if isLatest then index.erase e.contentHash else index)
      (pairs.pushOrDrop (e, isLatest)) (by rw [hp, List.length_append, List.length_singleton]; omega)
    refine ⟨(e, isLatest) :: marks, ?_, m.cons hl⟩
    simp only [List.foldl_cons, sweepEntry, hl]
    rw [hv, hp, List.append_assoc, List.singleton_append]

-- The first entry of a content is the one that is marked.
theorem Marked.getElem_first (m : Marked obsolete index es marks)
    (hx : (index.lookup contentHash).any (·.1 = obsolete)) (hk : firstOf contentHash es = some k)
    (he : es[k]? = some e) (hc : e.contentHash = contentHash) : marks[k]? = some (e, true) := by
  rw [← m.fst, List.getElem?_map, Option.map_eq_some_iff] at he
  have ⟨⟨e', isLatest⟩, hm, he⟩ := he
  cases he
  exact (m.snd hm).mpr ⟨hc ▸ hx, hc ▸ hk⟩ ▸ hm

theorem Marked.marksOnly_iff (m : Marked obsolete index es marks)
    (hx : (index.lookup contentHash).any (·.1 = obsolete)) (hk : firstOf contentHash es = some k)
    (he : es[k]? = some e) (hc : e.contentHash = contentHash) :
    MarksOnly contentHash i marks ↔ k = i := by
  have hm := m.getElem_first hx hk he hc
  constructor
  case mp =>
    intro ⟨_, h⟩
    by_contra hn
    exact absurd (h k e true hm hc hn) nofun
  case mpr =>
    intro hi
    subst hi
    refine ⟨⟨e, hm, hc⟩, fun j e' isLatest hj hc' hn => ?_⟩
    cases isLatest
    case false => rfl
    case true  =>
      have hj := ((m.snd hj).mp rfl).right
      rw [hc', hk] at hj
      exact absurd (Option.some.inj hj).symm hn

-- An entry carries the content of another, whatever their positions and kinds.
structure TransactionInfo.SameContent (e info : TransactionInfo T) : Prop where
  chunkRoot   : e.chunkRoot = info.chunkRoot
  contentHash : e.contentHash = info.contentHash
  hashing     : e.hashing = info.hashing
  cidCodec    : e.cidCodec = info.cidCodec
  size        : e.size = info.size

-- The entry that serving a pending renewal appends, if it appends one.
theorem State.renewPending_appends (x : Nat) (s : State T) (data : RenewalData T) :
    let s' := renewPending x s (contentHash, info, data)
    s'.blockTransactions.val = s.blockTransactions.val ∨
      ∃ e, s'.blockTransactions.val = s.blockTransactions.val ++ [e] ∧ e.kind = .renew ∧
        e.SameContent info := by
  intro s'
  have h := (renewPending_drained x s (contentHash, info, data)).left.served.grows
  generalize hl : s'.toLedger = l at h
  cases h
  case same => exact .inl rfl
  case append he hr =>
    have ⟨y, he⟩ := he
    subst he
    exact .inr ⟨_, rfl, rfl, ⟨rfl, rfl, rfl, rfl, rfl⟩⟩

-- What `on_initialize` hands to whoever is notified of the swept entries.
theorem State.storageOnInitialize_hands {s : State T} {es : Entries T} (n : Nat)
    (ho : n - saturatingAdd maxBlockNumber s.retentionPeriod 1 = obsolete) (hp : 0 < obsolete)
    (he : s.transactions.lookup obsolete = some es) :
    ∃ s₁ pairs, (∀ handle, s.storageOnInitialize handle n = handle s₁ pairs) ∧
      Marked obsolete s.transactionByContentHash es.val pairs ∧
      ((latestOf pairs).map (·.contentHash)).Nodup ∧ s₁.renewals = s.renewals ∧
      s₁.pendingRenewals = s.pendingRenewals := by
  have hl : (BoundedVec.empty : BoundedVec (TransactionInfo T × Bool) T.maxBlockTransactions).val.length +
      es.val.length ≤ T.maxBlockTransactions := by simpa using es.bounded
  have ⟨index, marks, pairs, hf, hv, _, w⟩ :=
    foldl_sweepEntry obsolete es.val s.transactionByContentHash .empty hl
  have ⟨marks', hv', m⟩ := foldl_sweepEntry_marked obsolete es.val s.transactionByContentHash .empty hl
  rw [hf, hv] at hv'
  cases List.append_cancel_left hv'
  rw [BoundedVec.empty_val, List.nil_append] at hv
  refine ⟨{ s with
    transactions := s.transactions.erase obsolete, transactionByContentHash := index }, marks,
    fun handle => ?_, m, w.nodup, rfl, rfl⟩
  simp only [storageOnInitialize]
  rw [ho, if_pos hp]
  simp only [he, hf, hv]

-- A registered content whose first entry is marked is queued once, with that entry.
theorem Marked.queued_filter {renewals : Finmap fun _ : T.ContentHash => RenewalData T}
    (m : Marked obsolete index es marks) (hn : ((State.latestOf marks).map (·.contentHash)).Nodup)
    (hx : (index.lookup contentHash).any (·.1 = obsolete)) (hk : firstOf contentHash es = some k)
    (he : es[k]? = some e) (hc : e.contentHash = contentHash)
    (hr : renewals.lookup contentHash = some data) :
    (queued renewals (State.latestOf marks)).filter (·.1 = contentHash) =
      [(contentHash, e, data)] := by
  have hm := List.mem_of_getElem? (m.getElem_first hx hk he hc)
  have hl : e ∈ State.latestOf marks := List.mem_map.mpr ⟨_, List.mem_filter.mpr ⟨hm, rfl⟩, rfl⟩
  have hq : (contentHash, e, data) ∈ queued renewals (State.latestOf marks) :=
    mem_queued.mpr ⟨hl, hc.symm, hr⟩
  exact List.filter_eq_singleton_of_nodup ((queued_sublist ..).nodup hn) hq

-- The state that a chain opens its next block with, before the hooks.
def Chain.opening (c : Chain T) (parentHash : List UInt8) (moment : Nat) : State T :=
  { c.state with
    blockNumber     := c.state.blockNumber + 1
    parentHash      := parentHash
    timestamp       := moment
    extrinsicIndex  := some 0
    indexOperations := []
    events          := [] }

theorem Chain.ready_of_runs {g : GenesisConfig T} {as : List (Action T)} {c : Chain T}
    {guard : Chain T → Action T → Prop} (h : Runs step guard g.chain as c) : c.Ready := by
  have h : Runs step (fun _ a => True ∧ ∀ x ∈ a.content, x ∈ Set.univ) g.chain as c :=
    h.mono fun _ => ⟨trivial, fun _ _ => trivial⟩
  exact (runs_invariant (I := fun _ => True) g.chain_ready trivial (fun _ _ _ => trivial) h).right

-- The sweep of a block in which the index finds a content, at any point between the blocks of a run.
-- What is marked as the latest entry of the content, and queued and renewed if it is registered, is the
-- first one of the block. It is the one that the index names exactly if this is the first one too.
theorem swept_entry_first {g : GenesisConfig T} {as : List (Action T)} {c c₁ : Chain T}
    {guard : Chain T → Action T → Prop} {es : Entries T} (h : Runs Chain.step guard g.chain as c)
    (hs : c.step (.onInitialize parentHash moment) = some c₁) (hp : 0 < c.ledger.obsolete)
    (he : c.state.transactions.lookup c.ledger.obsolete = some es)
    (hm : contentHash ∈ es.val.map (·.contentHash))
    (hx : c.state.lookupByContentHash contentHash = some (c.ledger.obsolete, i)) :
    ∃ s₁ pairs k first,
      (∀ handle, (c.opening parentHash moment).storageOnInitialize handle (c.state.blockNumber + 1) =
        handle s₁ pairs) ∧
      c₁.state = s₁.handleObsolete pairs ∧ pairs.map (·.1) = es.val ∧
      firstOf contentHash es.val = some k ∧ c.state.transactionInfo c.ledger.obsolete k = some first ∧
      (MarksOnly contentHash i pairs ↔ k = i) ∧
      ∀ data, c.state.renewals.lookup contentHash = some data →
        c₁.state.pendingRenewals.val.filter (·.1 = contentHash) = [(contentHash, first, data)] ∧
        ∀ x s, let s' := State.renewPending x s (contentHash, first, data)
          s'.blockTransactions.val = s.blockTransactions.val ∨
            ∃ e, s'.blockTransactions.val = s.blockTransactions.val ++ [e] ∧ e.kind = .renew ∧
              e.SameContent first := by
  simp only [Chain.step] at hs
  split at hs <;> cases hs
  case isTrue hb =>
    obtain ⟨s₁, pairs, hh, m, hn, hr, hq⟩ := (c.opening parentHash moment).storageOnInitialize_hands
      (c.state.blockNumber + 1) (State.obsolete_eq hb.right) hp he
    obtain ⟨k, first, hk, hf, hc⟩ := firstOf_of_mem hm
    have hx : (c.state.transactionByContentHash.lookup contentHash).any
        (·.1 = c.ledger.obsolete) := by
      rw [show c.state.transactionByContentHash.lookup contentHash = _ from hx]
      simp
    have hl : pairs.length ≤ T.maxBlockTransactions := by
      rw [← List.length_map (·.1), m.fst]
      exact es.bounded
    have hq : s₁.pendingRenewals = .empty := hq.trans <| (Chain.ready_of_runs h).pending hb.left
    obtain ⟨pending, _, hv, ho⟩ := s₁.handleObsolete_eq pairs hq hl
    refine ⟨s₁, pairs, k, first, hh, hh _, m.fst, hk, Ledger.transactionInfo_eq_some.mpr ⟨es, he, hf⟩,
      m.marksOnly_iff hx hk hf hc, fun data hd => ⟨?_, fun x s => ?_⟩⟩
    · have hs : (Chain.initialized c.state parentHash moment).pendingRenewals = pending :=
        congrArg (·.pendingRenewals) ((hh _).trans ho)
      rw [hs, hv, hr]
      exact m.queued_filter hn hx hk hf hc hd
    · exact State.renewPending_appends x s data

-- The hash of some data.
def blob : Config.mock.ContentHash :=
  [1, 2, 3]

-- One content is stored twice in a block, under two CID codecs, and registered in the next block. The
-- retention period is one block.
def relabelled : List (Action .mock) :=
  let data : Data := ⟨[1, 2, 3], length_blob_lt⟩
  [.onInitialize [] 0,
    .dispatch .root (.transactionStorage (.store data)),
    .dispatch .root (.transactionStorage (.storeWithCidConfig ⟨0x70, .blake2b256⟩ data)),
    .onFinalize,
    .onInitialize [] 0,
    .extrinsic (.unsigned (.transactionStorage (.applyBlockInherents (some ⟨[1, 2, 3], ()⟩)))),
    .extrinsic (.signed renter (.dataRenewal (.renew (.contentHash blob)))),
    .onFinalize]

theorem swept_entry_first_relabelled :
    let g : GenesisConfig .mock := ⟨1, [], [(renter, 10, 100)], []⟩
    ∃ c c₁ first, Runs Chain.step (fun _ _ => true) g.chain relabelled c ∧
      c.step (.onInitialize [] 0) = some c₁ ∧ c.state.transactionInfo 1 0 = some first ∧
      c₁.state.pendingRenewals.val.filter (·.1 = blob) =
        [(blob, first, ⟨renter, false, true⟩)] := by
  intro g
  have ⟨c, hr, hp, he, hx, hs, hd⟩ := Runs.exists_of_any Chain.step (fun _ _ => true) g.chain relabelled
    (fun c => c.ledger.obsolete = 1 ∧
      (c.state.transactions.lookup 1).any (fun es => firstOf blob es.val = some 0) ∧
      c.state.lookupByContentHash blob = some (1, 1) ∧
      (c.step (.onInitialize [] 0)).isSome ∧
      c.state.renewals.lookup blob = some ⟨renter, false, true⟩) (by decide +kernel)
  have ⟨es, he, hk⟩ := (Option.any_eq_true ..).mp he
  have hk := of_decide_eq_true hk
  have ⟨c₁, hs⟩ := Option.isSome_iff_exists.mp hs
  have ⟨hl, hm, _⟩ := List.findIdx?_eq_some_iff_getElem.mp hk
  have hm : blob ∈ es.val.map (·.contentHash) :=
    List.mem_map.mpr ⟨_, List.getElem_mem hl, of_decide_eq_true hm⟩
  have ⟨_, _, k, first, _, _, _, hk', hf, _, hq⟩ := swept_entry_first hr hs (by rw [hp]; decide)
    (hp ▸ he) hm (hp ▸ hx)
  cases Option.some.inj (hk.symm.trans hk')
  exact ⟨c, c₁, first, hr, hs, hp ▸ hf, (hq _ hd).left⟩

-- The index names the entry with the second codec, and the one with the first is renewed.
theorem swept_entry_not_named :
    let g : GenesisConfig .mock := ⟨1, [], [(renter, 10, 100)], []⟩
    ∃ c, Runs Chain.step (fun _ _ => true) g.chain relabelled c ∧
      (c.state.lookupByContentHash blob = some (1, 1) ∧
        (c.state.transactionInfo 1 1).map (·.cidCodec) = some 0x70 ∧
        (c.step (.onInitialize [] 0)).any fun c₁ =>
          (c₁.state.transactionInfo 1 1).isNone ∧
          c₁.state.pendingRenewals.val.map (fun item => (item.1, item.2.1.cidCodec)) =
            [(blob, 0x55)] ∧
          (c₁.step (.extrinsic (.unsigned (.dataRenewal .processPendingRenewals)))).any fun c₂ =>
            c₂.state.blockTransactions.val.map (fun e => (e.contentHash, e.cidCodec, e.kind)) =
              [(blob, 0x55, .renew)]) := by
  intro g
  exact Runs.exists_of_any Chain.step (fun _ _ => true) g.chain relabelled _ (by decide +kernel)

-- Within a block the index may name an entry that is not sealed yet.

-- Some sealed block retains an entry of the content.
def Ledger.Stores (l : Ledger T) (contentHash : T.ContentHash) : Prop :=
  ∃ b es, l.transactions.lookup b = some es ∧ ∃ e ∈ es.val, e.contentHash = contentHash

-- The lookup of `enable_auto_renew`.
def Ledger.Finds (l : Ledger T) (contentHash : T.ContentHash) : Prop :=
  ∃ b i info, l.lookupByContentHash contentHash = some (b, i) ∧ l.transactionInfo b i = some info

theorem Ledger.resolve_contentHash {l : Ledger T} :
    l.resolveTransactionRef (.contentHash contentHash) = some info ↔
      ∃ b i, l.lookupByContentHash contentHash = some (b, i) ∧ l.transactionInfo b i = some info := by
  simp [resolveTransactionRef, Option.bind_eq_some_iff]

-- With an entry of the content in the current block, the index names a position that is not sealed.
theorem Ledger.not_finds_of_current {l : Ledger T} {isOpen : Prop}
    (v : (l.log isOpen).Valid contentKey) (h : ∃ e ∈ l.blockTransactions.val, e.contentHash = contentHash) :
    ¬l.Finds contentHash := by
  intro ⟨b, i, info, hx, hi⟩
  have ⟨es, hb, hi⟩ := transactionInfo_eq_some.mp hi
  have hb : (l.log isOpen).blocks b = some es.val := log_blocks_eq_some.mpr ⟨es, hb, rfl⟩
  have ⟨e, he, hc⟩ := h
  have ⟨j, hj⟩ := List.getElem?_of_mem he
  have ho : isOpen := by
    by_contra hn
    rw [show l.blockTransactions.val = [] from v.window.closed hn] at he
    contradiction
  have ⟨b', i', hx', hle⟩ := v.exact.latest (.inr ⟨rfl, hj⟩)
  have hx' : l.lookupByContentHash contentHash = some (b', i') := hc ▸ hx'
  cases Option.some.inj (hx.symm.trans hx')
  have hlt : b < l.blockNumber := v.window.lt_of_isOpen ho hb
  have hle : l.blockNumber < b ∨ l.blockNumber = b ∧ j ≤ i := hle
  omega

theorem Ledger.resolves_of_not_current {l : Ledger T} {isOpen : Prop}
    (v : (l.log isOpen).Valid contentKey) (hs : l.Stores contentHash)
    (h : ¬∃ e ∈ l.blockTransactions.val, e.contentHash = contentHash) :
    ∃ info, l.resolveTransactionRef (.contentHash contentHash) = some info ∧
      info.contentHash = contentHash := by
  have ⟨b, es, hb, e, he, hc⟩ := hs
  have ⟨i, hi⟩ := List.getElem?_of_mem he
  have ⟨b', i', hx, _⟩ := v.exact.latest (.inl ⟨es.val, log_blocks_eq_some.mpr ⟨es, hb, rfl⟩, hi⟩)
  have ⟨info, ha, hk⟩ := v.exact.sound hx
  have hk : info.contentHash = contentHash := hk.trans hc
  obtain ⟨es', hb', hi'⟩ | ⟨_, hi'⟩ := ha
  · have ⟨w, hw, hv⟩ := log_blocks_eq_some.mp hb'
    refine ⟨info, resolve_contentHash.mpr ⟨b', i', hc ▸ hx, ?_⟩, hk⟩
    exact transactionInfo_eq_some.mpr ⟨w, hw, hv ▸ hi'⟩
  · exact absurd ⟨info, List.mem_of_getElem? hi', hk⟩ h

-- A content of which an entry is retained, at any point of a run that does not shorten the retention
-- period, within a block or not. It can be resolved by its hash, to an entry of it, and registered for
-- renewal, exactly if the current block has no entry of it.
theorem renewable_by_hash_iff {g : GenesisConfig T} {as : List (Action T)} {c : Chain T}
    (h : Runs Chain.step (Chain.steady · ·) g.chain as c) (hs : c.ledger.Stores contentHash) :
    ((∃ info, c.state.resolveTransactionRef (.contentHash contentHash) = some info ∧
        info.contentHash = contentHash) ↔
      ¬∃ e ∈ c.state.blockTransactions.val, e.contentHash = contentHash) ∧
    (c.ledger.Finds contentHash ↔
      ¬∃ e ∈ c.state.blockTransactions.val, e.contentHash = contentHash) := by
  have v := (Chain.sound_of_steady h).log
  have hr := Ledger.resolves_of_not_current v hs
  have hn (hf : ¬¬c.ledger.Finds contentHash) := mt (Ledger.not_finds_of_current v) hf
  refine ⟨⟨fun ⟨info, hi, _⟩ => hn ?_, hr⟩, fun hf => hn (not_not.mpr hf), fun hc => ?_⟩
  · have ⟨b, i, hx, hi⟩ := Ledger.resolve_contentHash.mp hi
    exact not_not.mpr ⟨b, i, info, hx, hi⟩
  · have ⟨info, hi, _⟩ := hr hc
    have ⟨b, i, hx, hi⟩ := Ledger.resolve_contentHash.mp hi
    exact ⟨b, i, info, hx, hi⟩

theorem renewable_by_hash_iff_copies :
    let g : GenesisConfig .mock := ⟨3, [], [], []⟩
    ∃ c, Runs Chain.step (Chain.steady · ·) g.chain (copies.take 5) c ∧ c.inBlock ∧
      c.ledger.Stores blob ∧ c.ledger.Finds blob := by
  intro g
  have ⟨c, hr, hb, hn, hs⟩ := Runs.exists_of_any Chain.step Chain.steady g.chain (copies.take 5)
    (fun c => c.inBlock ∧ c.state.blockTransactions.val.length = 0 ∧
      (c.state.transactions.lookup 1).any (·.val.any (·.contentHash = blob))) (by decide +kernel)
  have ⟨es, he, hs⟩ := (Option.any_eq_true ..).mp hs
  have ⟨e, hm, hc⟩ := List.any_eq_true.mp hs
  have hs : c.ledger.Stores blob := ⟨1, es, he, e, hm, of_decide_eq_true hc⟩
  refine ⟨c, hr, hb, hs, (renewable_by_hash_iff hr hs).right.mpr fun ⟨e, he, _⟩ => ?_⟩
  rw [List.eq_nil_of_length_eq_zero hn] at he
  contradiction

-- A retained content is renewable by its hash, until another extrinsic of the block stores it again.
theorem not_renewable_by_hash :
    let g : GenesisConfig .mock := ⟨3, [], [(renter, 10, 100)], []⟩
    let store : Action .mock :=
      .extrinsic (.signed renter (.transactionStorage (.store ⟨[1, 2, 3], by decide⟩)))
    let renew := DataRenewal.validateRenewalSigned renter (.renew (.contentHash blob))
    ∃ c, Runs Chain.step (Chain.steady · ·) g.chain (copies.take 5) c ∧
      ((c.state.transactions.lookup 1).any (·.val.any (·.contentHash = blob)) ∧
        renew.Succeeds c.state ∧
        (c.step store).any fun c₁ =>
          (c₁.state.transactions.lookup 1).any (·.val.any (·.contentHash = blob)) ∧
          (c₁.state.resolveTransactionRef (.contentHash blob)).isNone ∧
          (match (renew c₁.state).1 with
            | .error e => decide (e = .renewedNotFound)
            | .ok _    => false : Bool)) := by
  intro g store renew
  exact Runs.exists_of_any Chain.step Chain.steady g.chain (copies.take 5) _ (by decide +kernel)

end Bulletin
