import BulletinChain.Theorems.Drain

namespace Bulletin

open Machine

variable {T : Config} {obsolete : Nat} {index : Finmap fun _ : T.ContentHash => Nat × Nat}

namespace Swept

variable {index' : Finmap fun _ : T.ContentHash => Nat × Nat} {e : TransactionInfo T}
  {es latest : List (TransactionInfo T)}

theorem nil : Swept obsolete index index [] [] where
  sublist  := .slnil
  lookup _ := by simp
  points   := nofun
  covers   := nofun
  nodup    := .nil

-- The index points into the swept block: the entry is marked, and the index forgets its content.
theorem mark (h : index.lookup e.contentHash = some (obsolete, i))
    (w : Swept obsolete (index.erase e.contentHash) index' es latest) :
    Swept obsolete index index' (e :: es) (e :: latest) where
  sublist := w.sublist.cons_cons e
  lookup hash := by
    rw [w.lookup, Finmap.lookup_erase_eq]
    by_cases he : hash = e.contentHash
    · subst he
      simp [h, Option.filter]
    · simp [he]
  points e' he' := by
    cases List.mem_cons.mp he'
    case inl he => exact ⟨i, he ▸ h⟩
    case inr he =>
      have ⟨j, hj⟩ := w.points e' he
      rw [Finmap.lookup_erase_eq] at hj
      split at hj
      case isTrue  => contradiction
      case isFalse => exact ⟨j, hj⟩
  covers {j} e' he' hj := by
    by_cases hc : e'.contentHash = e.contentHash
    · simp [hc]
    · cases List.mem_cons.mp he'
      case inl he => exact absurd (he ▸ rfl) hc
      case inr he =>
        refine List.mem_cons_of_mem _ <| w.covers e' he (i := j) ?_
        rw [Finmap.lookup_erase_eq, if_neg hc, hj]
  nodup := by
    refine List.nodup_cons.mpr ⟨fun hm => ?_, w.nodup⟩
    have ⟨e', he', hc⟩ := List.mem_map.mp hm
    have ⟨_, hj⟩ := w.points e' he'
    simp [Finmap.lookup_erase_eq, hc] at hj

-- The content is also in a later block, or was marked before.
theorem skip (h : ∀ i, index.lookup e.contentHash ≠ some (obsolete, i))
    (w : Swept obsolete index index' es latest) : Swept obsolete index index' (e :: es) latest where
  sublist := w.sublist.cons e
  lookup hash := by
    rw [w.lookup]
    by_cases he : hash = e.contentHash
    · subst he
      have hf : (index.lookup e.contentHash).filter (·.1 ≠ obsolete) = index.lookup e.contentHash := by
        rcases hl : index.lookup e.contentHash with _ | ⟨b, i⟩
        case none => rfl
        case some =>
          have hb : b ≠ obsolete := fun hb => h i (hb ▸ hl)
          simp [Option.filter, hb]
      simp only [hf, List.map_cons, List.mem_cons_self, ite_self]
    · simp [he]
  points := w.points
  covers {j} e' he' hj := by
    cases List.mem_cons.mp he'
    case inl he => exact absurd hj (he ▸ h j)
    case inr he => exact w.covers e' he hj
  nodup := w.nodup

end Swept

namespace State

-- The entries that a sweep marks as the latest of their content.
def latestOf (pairs : List (TransactionInfo T × Bool)) : List (TransactionInfo T) :=
  (pairs.filter (·.2)).map (·.1)

-- With room for all entries the sweep appends a mark for each of them.
theorem foldl_sweepEntry (obsolete : Nat) (es : List (TransactionInfo T))
    (index : Finmap fun _ : T.ContentHash => Nat × Nat)
    (pairs : BoundedVec (TransactionInfo T × Bool) T.maxBlockTransactions)
    (h : pairs.val.length + es.length ≤ T.maxBlockTransactions) :
    ∃ index' marks pairs', es.foldl (sweepEntry obsolete) (index, pairs) = (index', pairs') ∧
      pairs'.val = pairs.val ++ marks ∧ marks.map (·.1) = es ∧
      Swept obsolete index index' es (latestOf marks) := by
  induction es generalizing index pairs
  case nil => exact ⟨index, [], pairs, rfl, by simp, rfl, .nil⟩
  case cons e es hi =>
    simp only [List.length_cons] at h
    have hp (b : Bool) : (pairs.pushOrDrop (e, b)).val = pairs.val ++ [(e, b)] :=
      BoundedVec.pushOrDrop_val (by omega)
    have hl (b : Bool) : (pairs.pushOrDrop (e, b)).val.length + es.length ≤ T.maxBlockTransactions := by
      rw [hp, List.length_append]
      simp only [List.length_singleton]
      omega
    simp only [List.foldl_cons, sweepEntry]
    by_cases hm : ∃ i, index.lookup e.contentHash = some (obsolete, i)
    case pos =>
      have ⟨i, hm⟩ := hm
      have ⟨index', marks, pairs', hf, hv, hs, w⟩ := hi (index.erase e.contentHash) _ (hl true)
      refine ⟨index', (e, true) :: marks, pairs', ?_, ?_, by simp [hs], w.mark hm⟩
      · simpa [hm] using hf
      · simp [hv, hp]
    case neg =>
      have hm : ∀ i, index.lookup e.contentHash ≠ some (obsolete, i) := fun i hc => hm ⟨i, hc⟩
      have hn : (index.lookup e.contentHash).any (·.1 = obsolete) = false := by
        rcases hl : index.lookup e.contentHash with _ | ⟨b, i⟩
        case none => rfl
        case some =>
          simp only [Option.any_some, decide_eq_false_iff_not]
          exact fun hb => hm i (hb ▸ hl)
      have ⟨index', marks, pairs', hf, hv, hs, w⟩ := hi index _ (hl false)
      refine ⟨index', (e, false) :: marks, pairs', ?_, ?_, by simp [hs], w.skip hm⟩
      · simpa [hn] using hf
      · simp [hv, hp]

variable {s : State T} {items : List (TransactionInfo T × Bool)}

theorem foldl_queue (s : State T) (items : List (TransactionInfo T × Bool))
    (pending : BoundedVec (Pending T) T.maxBlockTransactions)
    (h : pending.val.length + items.length ≤ T.maxBlockTransactions) :
    (items.foldl (handleObsolete.queue s) pending).val =
      pending.val ++ queued s.renewals (latestOf items) := by
  induction items generalizing pending
  case nil => simp [latestOf, queued]
  case cons item items hi =>
    have ⟨e, isLatest⟩ := item
    simp only [List.length_cons] at h
    simp only [List.foldl_cons, handleObsolete.queue]
    cases isLatest
    case false =>
      simp only [Bool.false_eq_true, not_false_eq_true, if_true]
      exact hi _ (by omega)
    case true =>
      cases hr : s.renewals.lookup e.contentHash
      case none =>
        simp only [not_true_eq_false, if_false]
        rw [hi _ (by omega)]
        simp [latestOf, queued, hr]
      case some data =>
        have hp := BoundedVec.pushOrDrop_val (v := pending) (a := (e.contentHash, e, data)) (by omega)
        simp only [not_true_eq_false, if_false]
        rw [hi _ (by rw [hp, List.length_append, List.length_singleton]; omega), hp]
        simp [latestOf, queued, hr]

theorem foldl_renewedSum :
    (items.filter (·.1.kind.isRenew)).foldl (fun acc item => saturatingAdd u64Max acc item.1.size) 0 =
      min (renewedBytes (items.map (·.1))) u64Max := by
  rw [foldl_saturatingAdd (fun item : TransactionInfo T × Bool => item.1.size) _ (Nat.zero_le _)]
  simp [renewedBytes, List.filter_map, Function.comp_def]

theorem refunded_eq (s : State T) (size : Nat) :
    ∃ events, (if 0 < size then s.updatePermanentStorageUsed (· - size) else s) =
      { s with permanentStorageUsed := s.permanentStorageUsed - size, events := events } := by
  by_cases h : 0 < size
  · simp only [h, if_true]
    exact updatePermanentStorageUsed_eq
  · have h : size = 0 := by omega
    exact ⟨s.events, by simp [h]⟩

-- What the renewal pallet does with the swept entries, with no renewal pending before.
theorem handleObsolete_eq (s : State T) (items : List (TransactionInfo T × Bool))
    (hp : s.pendingRenewals = .empty) (hl : items.length ≤ T.maxBlockTransactions) :
    ∃ pending events, pending.val = queued s.renewals (latestOf items) ∧
      s.handleObsolete items = { s with
        permanentStorageUsed :=
          s.permanentStorageUsed - min (renewedBytes (items.map (·.1))) u64Max
        pendingRenewals      := pending
        events               := events } := by
  have ⟨events, hu⟩ := s.refunded_eq (min (renewedBytes (items.map (·.1))) u64Max)
  simp only [handleObsolete, foldl_renewedSum, hu]
  generalize hs : ({ s with
    permanentStorageUsed := s.permanentStorageUsed - min (renewedBytes (items.map (·.1))) u64Max
    events := events } : State T) = s₁
  have hr : s₁.renewals = s.renewals := hs ▸ rfl
  have he : s₁.pendingRenewals = .empty := hs ▸ hp
  have hq := foldl_queue s₁ items s₁.pendingRenewals (by simpa [he] using hl)
  rw [hr, he] at hq
  refine ⟨_, events, hq, ?_⟩
  rw [hp]
  split
  case isTrue => rfl
  case isFalse hn =>
    have hn : items.foldl (handleObsolete.queue s₁) .empty = .empty :=
      BoundedVec.ext (not_not.mp hn)
    rw [hn, ← hs, hp]

-- The block that `on_initialize` sweeps, for a block number that the runtime can represent.
theorem obsolete_eq {l : Ledger T} (h : l.blockNumber + 1 ≤ maxBlockNumber) :
    l.blockNumber + 1 - saturatingAdd maxBlockNumber l.retentionPeriod 1 = l.obsolete := by
  simp only [saturatingAdd, Ledger.obsolete]
  omega

theorem onInitialize_opened (s : State T) (hm : s.blockNumber + 1 ≤ maxBlockNumber)
    (hp : s.pendingRenewals = .empty) :
    let s' := { s with blockNumber := s.blockNumber + 1 }.onInitialize (s.blockNumber + 1)
    Opened s.toLedger s'.toLedger ∧ s'.extrinsicIndex = s.extrinsicIndex := by
  simp only [onInitialize, storageOnInitialize]
  rw [obsolete_eq hm]
  split
  case isFalse h => exact ⟨.kept (.inl (by omega)), rfl⟩
  case isTrue h =>
    split
    case h_2 h => exact ⟨.kept (.inr h), rfl⟩
    case h_1 es he =>
      have ⟨index, marks, pairs, hf, hv, hs, w⟩ := foldl_sweepEntry s.toLedger.obsolete
        es.val s.transactionByContentHash .empty (by simpa using es.bounded)
      have hl : marks.length ≤ T.maxBlockTransactions := by
        rw [← List.length_map (·.1), hs]
        exact es.bounded
      have ⟨pending, events, hq, ho⟩ := handleObsolete_eq
        { s with
          blockNumber              := s.blockNumber + 1
          transactions             := s.transactions.erase s.toLedger.obsolete
          transactionByContentHash := index } marks hp hl
      simp only [hf, hv, BoundedVec.empty_val, List.nil_append]
      rw [ho, hs]
      exact ⟨.swept h he w hq, rfl⟩

end State
end Bulletin
