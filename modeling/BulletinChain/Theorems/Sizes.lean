import BulletinChain.Theorems.Retention

namespace Bulletin

open Machine

variable {T : Config} {D : Set Content} {l l' : Ledger T}

-- Every entry has a size, and a block with entries has chunks.
structure Ledger.Sized (l : Ledger T) : Prop where
  sealed  : l.transactions.lookup b = some es → ∀ e ∈ es.val, 0 < e.size
  current : ∀ e ∈ l.blockTransactions.val, 0 < e.size
  counts  : l.Counts
  pending : ∀ item ∈ l.pendingRenewals.val, 0 < item.2.1.size

namespace Ledger

theorem counts_appended (h : l.HasRoom) (he : 0 < e.size) : (l.appended e h).Counts := by
  have hn := numChunks_pos he
  have hc : totalChunks (l.appended e h).blockTransactions.val =
      saturatingAdd u32Max (totalChunks l.blockTransactions.val) (numChunks e.size) := by
    simp [totalChunks, appended, BlockTransactionsMut.counted]
  have hu : 0 < u32Max := by decide
  refine iff_of_true ?_ (by simp [appended])
  rw [hc, saturatingAdd]
  omega

namespace Sized

theorem grows (h : l.Sized) (hg : Grows (0 < ·.size) l l') : l'.Sized := by
  cases hg
  case same         => exact ⟨h.sealed, h.current, h.counts, h.pending⟩
  case append he hr =>
    refine ⟨h.sealed, fun e hm => ?_, counts_appended hr he, h.pending⟩
    cases List.mem_append.mp hm
    case inl hm => exact h.current e hm
    case inr hm => exact List.mem_singleton.mp hm ▸ he

theorem taken (h : l.Sized) : l.taken.Sized :=
  ⟨h.sealed, h.current, h.counts, fun _ hi => (List.not_mem_nil hi).elim⟩

theorem serves (h : l.Sized) (hs : Serves l items l') (hi : ∀ item ∈ items, 0 < item.2.1.size) :
    l'.Sized := by
  induction hs
  case nil          => exact h
  case cons hs _ hr =>
    have ⟨hi, his⟩ := List.forall_mem_cons.mp hi
    exact hr (h.grows <| hs.grows.mono fun e ⟨_, he⟩ => he ▸ hi) his

theorem opened (h : l.Sized) (ho : Opened l l') : l'.Sized := by
  cases ho
  case kept => exact ⟨h.sealed, h.current, h.counts, h.pending⟩
  case swept es _ latest pending hp he w hq =>
    refine ⟨fun hb => ?_, h.current, h.counts, fun item hi => ?_⟩
    · rw [Finmap.lookup_erase_eq] at hb
      split at hb
      case isTrue  => contradiction
      case isFalse => exact h.sealed hb
    · rw [hq] at hi
      have ⟨e, hm, hi⟩ := List.mem_filterMap.mp hi
      have ⟨_, _, hi⟩ := Option.map_eq_some_iff.mp hi
      exact hi ▸ h.sealed he e (w.sublist.mem hm)

theorem sealBlock (h : l.Sized) : (l.sealBlock n).Sized := by
  have hc : ({ l with blockTransactions := .empty } : Ledger T).Counts := by simp [Counts, totalChunks]
  have he : ∀ e ∈ (BoundedVec.empty : Entries T).val, 0 < e.size := fun _ he => (List.not_mem_nil he).elim
  simp only [Ledger.sealBlock]
  split
  case isFalse => exact ⟨h.sealed, he, hc, h.pending⟩
  case isTrue  =>
    refine ⟨fun hb => ?_, he, hc, h.pending⟩
    rw [Finmap.lookup_insert_eq] at hb
    split at hb
    case isTrue  => exact Option.some.inj hb ▸ h.current
    case isFalse => exact h.sealed hb

end Sized
end Ledger

namespace Chain

variable {c c' : Chain T} {a : Action T}

theorem Evolves.sized (e : Evolves D c a c') (h : c.ledger.Sized) : c'.ledger.Sized := by
  obtain ⟨_, _, ho⟩ | ⟨_, hl⟩ | ⟨_, _, _, he⟩ | ⟨_, _, _, hs⟩ | ⟨_, hl⟩ | ⟨_, _, _, hl⟩ := e
  case opened   => exact h.opened ho
  case idle     => exact hl ▸ h
  case called   =>
    refine h.grows <| he.grows.mono fun e he => ?_
    obtain he | ⟨info, _, ⟨_, _, hr⟩, he⟩ := he
    · exact he.size_pos
    · have ⟨_, hb, hi⟩ := Ledger.transactionInfo_eq_some.mp hr
      exact he ▸ h.sealed hb info (List.mem_of_getElem? hi)
  case drained  => exact h.taken.serves hs h.pending
  case extended => exact hl ▸ ⟨h.sealed, h.current, h.counts, h.pending⟩
  case sealed   => exact hl ▸ h.sealBlock

end Chain

end Bulletin
