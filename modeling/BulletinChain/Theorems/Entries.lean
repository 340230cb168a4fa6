import BulletinChain.Theorems.Steps

namespace Bulletin

open Machine

variable {T : Config}

-- The entry is of some content of `D`.
def TransactionInfo.IsOf (D : Set Content) (e : TransactionInfo T) : Prop :=
  ∃ c ∈ D, e.Describes c

-- The number of chunks of the first `i` entries.
def chunksBefore (es : List (TransactionInfo T)) (i : Nat) : Nat :=
  ((es.take i).map (numChunks ·.size)).sum

-- A list of entries as a block holds it.
structure Listed (D : Set Content) (es : List (TransactionInfo T)) : Prop where
  isOf    : ∀ e ∈ es, e.IsOf D
  counted : es[i]? = some e → e.blockChunks = min (chunksBefore es (i + 1)) u32Max

-- Every entry that the ledger holds is of some content of `D`.
structure Ledger.Holds (D : Set Content) (l : Ledger T) : Prop where
  sealed  : l.transactions.lookup b = some es → Listed D es.val
  ne_nil  : l.transactions.lookup b = some es → es.val ≠ []
  current : Listed D l.blockTransactions.val
  pending : ∀ item ∈ l.pendingRenewals.val, item.2.1.IsOf D

variable {D : Set Content} {l l' : Ledger T} {e info : TransactionInfo T}
  {es : List (TransactionInfo T)}

namespace TransactionInfo

theorem IsOf.renewal (h : info.IsOf D) : (info.renewal x).IsOf D :=
  have ⟨c, hc, hd⟩ := h
  ⟨c, hc, ⟨hd.contentHash, hd.size, hd.chunkRoot, hd.sizeOk⟩⟩

theorem IsOf.counted (h : e.IsOf D) : (BlockTransactionsMut.counted l e).IsOf D :=
  have ⟨c, hc, hd⟩ := h
  ⟨c, hc, ⟨hd.contentHash, hd.size, hd.chunkRoot, hd.sizeOk⟩⟩

theorem IsOf.size_pos (h : e.IsOf D) : 0 < e.size :=
  have ⟨_, _, hd⟩ := h
  (dataSizeOk_iff.mp hd.sizeOk).left

end TransactionInfo

theorem Effect.grows (h : Effect D forces drops l l') :
    Grows (fun e => e.IsOf D ∨ ∃ info x, l.Retains info ∧ e = info.renewal x) l l' := by
  cases h
  case stored hc hd _ h    => exact .append (.inl ⟨_, hc, hd⟩) h
  case renewed info x hr _ h => exact .append (.inr ⟨info, x, hr, rfl⟩) h
  case forced info x _ hr h  => exact .append (.inr ⟨info, x, hr, rfl⟩) h
  all_goals exact .same

theorem Grows.append_settle {P : TransactionInfo T → Prop} (he : P e)
    (h : (l.accounts renewals used).HasRoom) :
    Grows P l (((l.accounts renewals used).appended e h).settle contentHash data) :=
  have h' : (l.accounts (settled renewals contentHash data) used).HasRoom := h
  .append he h'

theorem Served.grows (h : Served l item l') :
    Grows (fun e => ∃ x, e = item.2.1.renewal x) l l' := by
  cases h
  case delivered hp h  =>
    cases hp <;> apply Grows.append_settle (P := fun e => ∃ x, e = _) <;> exact ⟨_, rfl⟩
  case failed          => exact .same
  case overflowed hp _ => cases hp <;> exact .same

theorem Grows.mono {P Q : TransactionInfo T → Prop} (h : Grows P l l') (hp : ∀ e, P e → Q e) :
    Grows Q l l' := by
  cases h
  case same        => exact .same
  case append he h => exact .append (hp _ he) h

namespace Listed

theorem nil : Listed D ([] : List (TransactionInfo T)) :=
  ⟨nofun, nofun⟩

theorem totalChunks (h : Listed D es) :
    totalChunks es = min (es.map (numChunks ·.size)).sum u32Max := by
  rcases List.eq_nil_or_concat es with he | ⟨es', e, he⟩
  · subst he
    simp [Bulletin.totalChunks]
  · rw [List.concat_eq_append] at he
    have hl : es[es'.length]? = some e := by simp [he]
    have hc := h.counted hl
    rw [he, chunksBefore, List.take_of_length_le (by simp)] at hc
    rw [he]
    simp [Bulletin.totalChunks, hc]

theorem append (h : Listed D l.blockTransactions.val) (he : e.IsOf D) :
    Listed D (l.blockTransactions.val ++ [BlockTransactionsMut.counted l e]) where
  isOf e' he' := by
    cases List.mem_append.mp he'
    case inl he' => exact h.isOf e' he'
    case inr he' => exact List.mem_singleton.mp he' ▸ he.counted
  counted {i e'} hi := by
    by_cases hl : i < l.blockTransactions.val.length
    · rw [List.getElem?_append_left hl] at hi
      rw [chunksBefore, List.take_append_of_le_length hl]
      exact h.counted hi
    · have ⟨hb, _⟩ := List.getElem?_eq_some_iff.mp hi
      simp only [List.length_append, List.length_singleton] at hb
      have hl : i = l.blockTransactions.val.length := by omega
      subst hl
      rw [List.getElem?_concat_length] at hi
      cases hi
      rw [chunksBefore, List.take_of_length_le (by simp), List.map_append, List.sum_append]
      simp only [BlockTransactionsMut.counted, saturatingAdd, h.totalChunks, List.map_singleton,
        List.sum_singleton]
      omega

end Listed

namespace Ledger.Holds

theorem retained (h : l.Holds D) (hr : l.Retains info) : info.IsOf D := by
  have ⟨_, _, hi⟩ := hr
  have ⟨_, hb, hi⟩ := Option.bind_eq_some_iff.mp hi
  exact (h.sealed hb).isOf _ (List.mem_of_getElem? hi)

theorem taken (h : l.Holds D) : l.taken.Holds D :=
  ⟨h.sealed, h.ne_nil, h.current, fun _ hi => (List.not_mem_nil hi).elim⟩

theorem grows (h : l.Holds D) (hg : Grows (·.IsOf D) l l') : l'.Holds D := by
  cases hg
  case same          => exact ⟨h.sealed, h.ne_nil, h.current, h.pending⟩
  case append he hr  => exact ⟨h.sealed, h.ne_nil, h.current.append he, h.pending⟩

theorem serves (h : l.Holds D) (hs : Serves l items l') (hi : ∀ item ∈ items, item.2.1.IsOf D) :
    l'.Holds D := by
  induction hs
  case nil => exact h
  case cons hs _ hr =>
    have ⟨hi, his⟩ := List.forall_mem_cons.mp hi
    exact hr (h.grows <| hs.grows.mono fun e ⟨_, he⟩ => he ▸ hi.renewal) his

theorem opened (h : l.Holds D) (ho : Opened l l') : l'.Holds D := by
  cases ho
  case kept => exact ⟨h.sealed, h.ne_nil, h.current, h.pending⟩
  case swept es _ latest pending hp he w hq =>
    have hs {b es} (hb : (l.transactions.erase l.obsolete).lookup b = some es) :
        l.transactions.lookup b = some es := by
      rw [Finmap.lookup_erase_eq] at hb
      split at hb
      case isTrue  => contradiction
      case isFalse => exact hb
    refine ⟨fun hb => h.sealed (hs hb), fun hb => h.ne_nil (hs hb), h.current, fun item hi => ?_⟩
    · rw [hq] at hi
      have ⟨e, hm, hi⟩ := List.mem_filterMap.mp hi
      have ⟨_, _, hi⟩ := Option.map_eq_some_iff.mp hi
      exact hi ▸ (h.sealed he).isOf e (w.sublist.mem hm)

theorem sealBlock (h : l.Holds D) : (l.sealBlock n).Holds D := by
  simp only [Ledger.sealBlock]
  split
  case isFalse => exact ⟨h.sealed, h.ne_nil, .nil, h.pending⟩
  case isTrue hn =>
    have hs {b es} (hb : (l.transactions.insert n l.blockTransactions).lookup b = some es) :
        es = l.blockTransactions ∨ l.transactions.lookup b = some es := by
      rw [Finmap.lookup_insert_eq] at hb
      split at hb
      case isTrue  => exact .inl (Option.some.inj hb).symm
      case isFalse => exact .inr hb
    refine ⟨fun hb => ?_, fun hb => ?_, .nil, h.pending⟩
    · obtain he | hb := hs hb
      · exact he ▸ h.current
      · exact h.sealed hb
    · obtain he | hb := hs hb
      · exact fun hc => hn (by rw [← he, hc]; rfl)
      · exact h.ne_nil hb

end Ledger.Holds

namespace Chain

variable {c c' : Chain T} {a : Action T}

theorem Evolves.holds (e : Evolves D c a c') (h : c.ledger.Holds D) : c'.ledger.Holds D := by
  obtain ⟨_, _, ho⟩ | ⟨_, hl⟩ | ⟨_, _, _, he⟩ | ⟨_, _, _, hs⟩ | ⟨_, hl⟩ | ⟨_, _, _, hl⟩ := e
  case opened   => exact h.opened ho
  case idle     => exact hl ▸ h
  case called   =>
    refine h.grows <| he.grows.mono fun e he => ?_
    obtain he | ⟨_, _, hr, he⟩ := he
    · exact he
    · exact he ▸ (h.retained hr).renewal
  case drained  => exact h.taken.serves hs h.pending
  case extended => exact hl ▸ ⟨h.sealed, h.ne_nil, h.current, h.pending⟩
  case sealed   => exact hl ▸ h.sealBlock

end Chain

namespace GenesisConfig

theorem chain_holds (g : GenesisConfig T) : g.chain.ledger.Holds D := by
  rw [chain_ledger]
  exact ⟨nofun, nofun, .nil, fun _ h => (List.not_mem_nil h).elim⟩

end GenesisConfig

-- The data of the calls of a run.
def contents (as : List (Action T)) : Set Content :=
  { x | ∃ a ∈ as, x ∈ a.content }

namespace Chain

-- Whatever a run does, the ledger holds the data of its calls.
theorem holds_of_runs {g : GenesisConfig T} {as : List (Action T)} {c : Chain T}
    {guard : Chain T → Action T → Prop} (h : Runs step guard g.chain as c) :
    c.ledger.Holds (contents as) := by
  have h : Runs step (fun _ a => True ∧ ∀ x ∈ a.content, x ∈ contents as) g.chain as c :=
    h.mem.mono fun g => ⟨trivial, fun x hx => ⟨_, g.right, hx⟩⟩
  exact (runs_invariant (I := (·.ledger.Holds (contents as))) g.chain_ready g.chain_holds
    (fun s _ e => e.holds s) h).left

end Chain
end Bulletin
