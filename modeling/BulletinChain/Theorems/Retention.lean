import BulletinChain.Theorems.Entries
import BulletinChain.Lib.RetentionLog

namespace Bulletin

open Machine

variable {T : Config} {D : Set Content} {l l' : Ledger T} {isOpen : Prop}

-- What the ledger keeps of the entries, as a log that drops each block after the retention period and
-- knows the latest position of each content.
def Ledger.log (l : Ledger T) (isOpen : Prop) : RetentionLog (TransactionInfo T) T.ContentHash where
  now       := l.blockNumber
  period    := l.retentionPeriod
  isOpen    := isOpen
  blocks b  := (l.transactions.lookup b).map (·.val)
  current   := l.blockTransactions.val
  index     := fun hash => l.transactionByContentHash.lookup hash

abbrev Chain.log (c : Chain T) : RetentionLog (TransactionInfo T) T.ContentHash :=
  c.ledger.log c.inBlock

-- No action shortens the retention period.
def Chain.steady (c : Chain T) : Action T → Bool
  | .setRetentionPeriod period => c.ledger.retentionPeriod ≤ period
  | _                          => true

abbrev contentKey : TransactionInfo T → T.ContentHash :=
  (·.contentHash)

namespace Ledger

theorem appended_log (h : l.HasRoom) :
    (l.appended e h).log isOpen =
      (l.log isOpen).push contentKey (BlockTransactionsMut.counted l e) := by
  ext1
  case index =>
    funext hash
    simp only [log, appended, RetentionLog.push, Function.update_apply, Finmap.lookup_insert_eq]
    rfl
  all_goals rfl

theorem log_blocks_eq_some :
    (l.log isOpen).blocks b = some es ↔ ∃ v, l.transactions.lookup b = some v ∧ v.val = es := by
  simp [log]

end Ledger

namespace Grows

variable {P : TransactionInfo T → Prop}

theorem steps (h : Grows P l l') (ho : isOpen) :
    RetentionLog.Steps contentKey (l.log isOpen) (l'.log isOpen) := by
  cases h
  case same => exact .refl
  case append hr =>
    refine .single ?_
    rw [Ledger.appended_log]
    exact .push _ ho

end Grows

theorem Serves.steps (h : Serves l items l') (ho : isOpen) :
    RetentionLog.Steps contentKey (l.log isOpen) (l'.log isOpen) := by
  induction h
  case nil          => exact .refl
  case cons h _ hi  => exact (h.grows.steps ho).trans hi

-- Between blocks the index points into the sealed blocks.
theorem Ledger.mem_of_index {hash : T.ContentHash} (v : (l.log False).Valid contentKey)
    (h : l.transactionByContentHash.lookup hash = some (b, i)) :
    ∃ es, l.transactions.lookup b = some es ∧ hash ∈ es.val.map (·.contentHash) := by
  have ⟨e, ha, hk⟩ := v.exact.sound h
  obtain ⟨es, hb, he⟩ | ⟨_, he⟩ := ha
  · have ⟨w, hw, hv⟩ := log_blocks_eq_some.mp hb
    subst hv
    exact ⟨w, hw, List.mem_map.mpr ⟨e, List.mem_of_getElem? he, hk⟩⟩
  · rw [v.window.closed id] at he
    contradiction

theorem Option.filter_fst_eq_self {o : Option (Nat × Nat)} (h : ∀ i, o ≠ some (n, i)) :
    o.filter (·.1 ≠ n) = o := by
  rcases o with _ | ⟨b, i⟩
  case none => rfl
  case some =>
    have hb : b ≠ n := fun hb => h i (hb ▸ rfl)
    simp [Option.filter, hb]

namespace Opened

-- Opening a block drops the obsolete one, also where the source finds nothing to drop.
theorem log_eq (h : Opened l l') (v : (l.log False).Valid contentKey) :
    l'.log True = (l.log False).openNext := by
  cases h
  case kept h =>
    have hn : l.transactions.lookup l.obsolete = none := by
      by_contra hn
      have ⟨es, he⟩ := Option.ne_none_iff_exists'.mp hn
      obtain h | h := h
      · have hp := v.window.pos (Ledger.log_blocks_eq_some.mpr ⟨es, he, rfl⟩)
        omega
      · exact hn h
    ext1
    case blocks =>
      have hb : (l.log False).blocks l.obsolete = none := by simp [Ledger.log, hn]
      exact (Function.update_eq_self_iff.mpr hb.symm).symm
    case index =>
      funext hash
      refine (Option.filter_fst_eq_self fun i hi => ?_).symm
      have ⟨_, he, _⟩ := Ledger.mem_of_index v hi
      exact absurd (hn.symm.trans he) nofun
    all_goals rfl
  case swept es _ _ _ _ he w _ =>
    ext1
    case blocks =>
      funext b
      refine (congrArg (Option.map _) Finmap.lookup_erase_eq).trans ?_
      rw [apply_ite (Option.map _)]
      exact (Function.update_apply (l.log False).blocks ..).symm
    case index =>
      funext hash
      refine (w.lookup hash).trans ?_
      split
      case isTrue => rfl
      case isFalse hm =>
        refine (Option.filter_fst_eq_self fun i hi => ?_).symm
        have ⟨_, he', hm'⟩ := Ledger.mem_of_index v hi
        cases Option.some.inj (he.symm.trans he')
        exact hm hm'
    all_goals rfl

end Opened

-- Every entry counts for a chunk at least.
theorem Listed.ne_zero_iff {es : List (TransactionInfo T)} (h : Listed D es) :
    Bulletin.totalChunks es ≠ 0 ↔ es ≠ [] := by
  rw [h.totalChunks]
  cases es
  case nil => simp
  case cons e es =>
    have hp := numChunks_pos (h.isOf e List.mem_cons_self).size_pos
    have hu : 0 < u32Max := by decide
    simp only [List.map_cons, List.sum_cons]
    constructor
    case mp  => exact fun _ => nofun
    case mpr => intro _; omega

-- A block is kept unless it is empty.
def Ledger.Counts (l : Ledger T) : Prop :=
  totalChunks l.blockTransactions.val ≠ 0 ↔ l.blockTransactions.val ≠ []

theorem Ledger.sealBlock_log (h : l.Counts) :
    (l.sealBlock l.blockNumber).log False = (l.log isOpen).sealed := by
  rw [Counts] at h
  simp only [sealBlock, h]
  split
  case isTrue he =>
    ext1
    case blocks =>
      funext b
      refine (congrArg (Option.map _) Finmap.lookup_insert_eq).trans ?_
      rw [apply_ite (Option.map _)]
      simp [RetentionLog.sealed, log, he]
    all_goals rfl
  case isFalse he =>
    ext1
    case blocks => simp [RetentionLog.sealed, log, not_not.mp he]
    all_goals rfl

namespace Chain

variable {c c' : Chain T} {a : Action T}

-- The chain simulates the log.
theorem Evolves.steps (e : Evolves D c a c') (h : c.ledger.Counts)
    (v : c.log.Valid contentKey) (g : c.steady a) :
    RetentionLog.Steps contentKey c.log c'.log := by
  obtain ⟨hb, hb', ho⟩ | ⟨hb, hl⟩ | ⟨hb, hb', _, he⟩ | ⟨hb, hb', _, hs⟩ | ⟨hb, hl⟩ |
    ⟨hb, hb', _, hl⟩ := e
  case opened =>
    rw [log, eq_false hb] at v ⊢
    rw [log, eq_true hb', ho.log_eq v]
    exact .single (.openNext id)
  case idle =>
    simp only [log, hb, hl]
    exact .refl
  case called =>
    rw [log, log, eq_true hb, eq_true hb']
    exact he.grows.steps trivial
  case drained =>
    rw [log, log, eq_true hb, eq_true hb']
    exact hs.steps trivial
  case extended period =>
    simp only [log, hb, hl]
    exact .single (.extend (of_decide_eq_true g))
  case sealed =>
    rw [log, log, eq_true hb, eq_false hb', hl, Ledger.sealBlock_log h]
    exact .single (.sealed trivial)

-- What holds of every chain whose retention period never gets shorter.
structure Sound (D : Set Content) (c : Chain T) : Prop where
  holds : c.ledger.Holds D
  log   : c.log.Valid contentKey

theorem Evolves.sound (e : Evolves D c a c') (s : c.Sound D) (g : c.steady a) : c'.Sound D where
  holds := e.holds s.holds
  log   := s.log.steps (e.steps s.holds.current.ne_zero_iff s.log g)

end Chain

namespace GenesisConfig

theorem chain_sound (g : GenesisConfig T) : g.chain.Sound D where
  holds := g.chain_holds
  log := by
    rw [Chain.log, chain_ledger]
    refine ⟨⟨nofun, nofun, nofun, nofun, fun _ => rfl⟩, ⟨nofun, fun h => ?_⟩, nofun⟩
    obtain ⟨_, h, _⟩ | ⟨_, h⟩ := h <;> contradiction

end GenesisConfig

namespace Chain

theorem sound_of_runs {g : GenesisConfig T} {as : List (Action T)}
    (h : Runs step (fun c a => c.steady a ∧ ∀ x ∈ a.content, x ∈ D) g.chain as c) : c.Sound D :=
  (runs_invariant g.chain_ready g.chain_sound (fun s g e => e.sound s g) h).left

-- A run that does not restrict the data.
theorem sound_of_steady {g : GenesisConfig T} {as : List (Action T)}
    (h : Runs step (steady · ·) g.chain as c) : c.Sound Set.univ :=
  sound_of_runs <| h.mono fun g => ⟨g, fun _ _ => trivial⟩

end Chain

theorem Ledger.transactionInfo_eq_some :
    l.transactionInfo b i = some e ↔ ∃ es, l.transactions.lookup b = some es ∧ es.val[i]? = some e := by
  simp [transactionInfo, Option.bind_eq_some_iff]

-- Between blocks a position of the log is a position of a retained entry.
theorem Ledger.log_at (v : (l.log False).Valid contentKey) :
    (l.log False).At b i e ↔ l.transactionInfo b i = some e := by
  rw [transactionInfo_eq_some]
  constructor
  case mp =>
    intro h
    obtain ⟨es, hb, he⟩ | ⟨_, he⟩ := h
    · have ⟨w, hw, hv⟩ := log_blocks_eq_some.mp hb
      exact ⟨w, hw, hv ▸ he⟩
    · rw [v.window.closed id] at he
      contradiction
  case mpr =>
    intro ⟨w, hw, he⟩
    exact .inl ⟨w.val, log_blocks_eq_some.mpr ⟨w, hw, rfl⟩, he⟩

-- The index knows the contents of the retained entries, and of those of the current block.
theorem Ledger.index_isSome_iff (v : (l.log isOpen).Valid contentKey) (contentHash : T.ContentHash) :
    (l.lookupByContentHash contentHash).isSome ↔
      (∃ b es, l.transactions.lookup b = some es ∧ ∃ e ∈ es.val, e.contentHash = contentHash) ∨
      ∃ e ∈ l.blockTransactions.val, e.contentHash = contentHash := by
  constructor
  case mp =>
    intro h
    have ⟨(b, i), hi⟩ := Option.isSome_iff_exists.mp h
    have ⟨e, ha, he⟩ := v.exact.sound hi
    obtain ⟨es, hb, hi⟩ | ⟨_, hi⟩ := ha
    · have ⟨w, hw, hv⟩ := log_blocks_eq_some.mp hb
      exact .inl ⟨b, w, hw, e, hv ▸ List.mem_of_getElem? hi, he⟩
    · exact .inr ⟨e, List.mem_of_getElem? hi, he⟩
  case mpr =>
    have hl {b i e} (ha : (l.log isOpen).At b i e) (he : e.contentHash = contentHash) :
        (l.lookupByContentHash contentHash).isSome := by
      have ⟨_, _, hx, _⟩ := v.exact.latest ha
      have hx : l.lookupByContentHash e.contentHash = _ := hx
      exact Option.isSome_of_eq_some (he ▸ hx)
    intro h
    obtain ⟨b, es, hb, e, hm, he⟩ | ⟨e, hm, he⟩ := h
    · have ⟨i, hi⟩ := List.getElem?_of_mem hm
      exact hl (.inl ⟨es.val, log_blocks_eq_some.mpr ⟨es, hb, rfl⟩, hi⟩) he
    · have ⟨i, hi⟩ := List.getElem?_of_mem hm
      exact hl (.inr ⟨rfl, hi⟩) he

-- The content hash index at the end of every block: it knows the contents of the retained entries and
-- no others, and the latest position of each.
theorem index_exact {g : GenesisConfig T} {as : List (Action T)} {c : Chain T}
    (h : Runs Chain.step (Chain.steady · ·) g.chain as c) (hb : ¬c.inBlock)
    (contentHash : T.ContentHash) :
    ((c.state.lookupByContentHash contentHash).isSome ↔
      ∃ b es, c.state.transactions.lookup b = some es ∧ ∃ e ∈ es.val, e.contentHash = contentHash) ∧
    ∀ b i, c.state.lookupByContentHash contentHash = some (b, i) →
      (∃ e, c.state.transactionInfo b i = some e ∧ e.contentHash = contentHash) ∧
      ∀ b' i' e', c.state.transactionInfo b' i' = some e' → e'.contentHash = contentHash →
        b' < b ∨ b' = b ∧ i' ≤ i := by
  have v := (Chain.sound_of_steady h).log
  rw [Chain.log, eq_false hb] at v
  have hn : ¬∃ e ∈ c.ledger.blockTransactions.val, e.contentHash = contentHash := by
    have hc : c.ledger.blockTransactions.val = [] := v.window.closed id
    simp [hc]
  refine ⟨(Ledger.index_isSome_iff v contentHash).trans (or_iff_left hn), fun b i hi => ⟨?_, ?_⟩⟩
  · have ⟨e, ha, he⟩ := v.exact.sound hi
    exact ⟨e, (Ledger.log_at v).mp ha, he⟩
  · intro b' i' e' he' hk
    have ⟨_, _, hx, hle⟩ := v.exact.latest ((Ledger.log_at v).mpr he')
    have hx : c.ledger.lookupByContentHash e'.contentHash = _ := hx
    rw [hk] at hx
    cases Option.some.inj (hi.symm.trans hx)
    exact hle

-- Two copies of a content in one block, and a third in the next.
def copies : List (Action .mock) :=
  let data : Data := ⟨[1, 2, 3], length_blob_lt⟩
  [.onInitialize [] 0,
    .dispatch .root (.transactionStorage (.store data)),
    .dispatch .root (.transactionStorage (.store data)),
    .onFinalize,
    .onInitialize [] 0,
    .dispatch .root (.dataRenewal (.forceRenew (.position 1 0))),
    .onFinalize]

theorem index_exact_copies :
    let g : GenesisConfig .mock := ⟨3, [], [], []⟩
    ∃ c, Runs Chain.step (Chain.steady · ·) g.chain copies c ∧ ¬c.inBlock ∧
      c.state.lookupByContentHash [1, 2, 3] = some (2, 0) ∧
      ∀ b i e, c.state.transactionInfo b i = some e → e.contentHash = [1, 2, 3] →
        b < 2 ∨ b = 2 ∧ i ≤ 0 := by
  intro g
  have ⟨c, hr, hb, hi⟩ := Runs.exists_of_any Chain.step Chain.steady g.chain copies
    (fun c => ¬c.inBlock ∧ c.state.lookupByContentHash [1, 2, 3] = some (2, 0)) (by decide +kernel)
  exact ⟨c, hr, hb, hi, ((index_exact hr hb [1, 2, 3]).right 2 0 hi).right⟩

end Bulletin
