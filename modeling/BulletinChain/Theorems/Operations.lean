import BulletinChain.Runtime.Api
import BulletinChain.Theorems.Footprint
import BulletinChain.Theorems.Indexing
import BulletinChain.Theorems.Inherents

namespace Bulletin

open Machine Except

variable {T : Config} {s s₁ s' : State T} {origin : Origin T}

-- What the host is told when an entry is appended.
def TransactionInfo.operation (e : TransactionInfo T) : IndexOperation T :=
  match e.kind with
  | .store => .index e.extrinsicIndex e.size e.contentHash
  | .renew => .renew e.extrinsicIndex e.contentHash

namespace IndexOperation

deriving instance DecidableEq for IndexOperation

def contentHash : IndexOperation T → T.ContentHash
  | index _ _ contentHash | renew _ contentHash => contentHash

def extrinsic : IndexOperation T → Nat
  | index extrinsic .. | renew extrinsic _ => extrinsic

-- The operation and the answer of the runtime are about the same entry.
def Tells : IndexOperation T → IndexedTransactionInfo T → Prop
  | index extrinsic size contentHash, info =>
    info.extrinsicIndex = extrinsic ∧ info.size = size ∧ info.contentHash = contentHash
  | renew extrinsic contentHash, info => info.extrinsicIndex = extrinsic ∧ info.contentHash = contentHash

end IndexOperation

namespace TransactionInfo

theorem contentHash_operation (e : TransactionInfo T) : e.operation.contentHash = e.contentHash := by
  simp only [operation]
  cases e.kind <;> rfl

theorem extrinsic_operation (e : TransactionInfo T) : e.operation.extrinsic = e.extrinsicIndex := by
  simp only [operation]
  cases e.kind <;> rfl

end TransactionInfo

-- Between the two states one extrinsic has appended entries, and the host was told of each.
structure Notifies (s s' : State T) : Prop where
  appends        : ∃ es, s'.blockTransactions.val = s.blockTransactions.val ++ es ∧
    s'.indexOperations = s.indexOperations ++ es.map (·.operation) ∧
    ∀ e ∈ es, s.extrinsicIndex = some e.extrinsicIndex
  extrinsicIndex : s'.extrinsicIndex = s.extrinsicIndex

namespace Notifies

theorem of_eq (hb : s'.blockTransactions = s.blockTransactions)
    (ho : s'.indexOperations = s.indexOperations) (hx : s'.extrinsicIndex = s.extrinsicIndex) :
    Notifies s s' :=
  ⟨⟨[], by simp [hb], by simp [ho], by simp⟩, hx⟩

theorem refl : Notifies s s :=
  of_eq rfl rfl rfl

theorem trans (h : Notifies s s₁) (h' : Notifies s₁ s') : Notifies s s' := by
  obtain ⟨⟨es, hb, ho, hx⟩, hi⟩ := h
  obtain ⟨⟨es', hb', ho', hx'⟩, hi'⟩ := h'
  refine ⟨⟨es ++ es', ?_, ?_, ?_⟩, hi'.trans hi⟩
  · rw [hb', hb, List.append_assoc]
  · rw [ho', ho, List.map_append, List.append_assoc]
  · intro e he
    obtain he | he := List.mem_append.mp he
    · exact hx e he
    · exact hi ▸ hx' e he

theorem deposit (h : Notifies s s₁) (e : Event T) : Notifies s (s₁.deposit e) :=
  ⟨h.appends, h.extrinsicIndex⟩

theorem appended {e : TransactionInfo T} (h : s.HasRoom) (hx : s.extrinsicIndex = some e.extrinsicIndex)
    (hb : s'.blockTransactions = (s.toLedger.appended e h).blockTransactions)
    (ho : s'.indexOperations = s.indexOperations ++ [e.operation])
    (hi : s'.extrinsicIndex = s.extrinsicIndex) : Notifies s s' := by
  refine ⟨⟨[BlockTransactionsMut.counted s.toLedger e], ?_, ho, ?_⟩, hi⟩
  · rw [hb]
    rfl
  · intro e' he
    cases List.mem_singleton.mp he
    exact hx

end Notifies

theorem OnlyAccess.notifies (h : OnlyAccess s s') : Notifies s s' := by
  rw [h]
  exact .of_eq rfl rfl rfl

namespace State

theorem updatePermanentStorageUsed_notifies (f : Nat → Nat) :
    Notifies s (s.updatePermanentStorageUsed f) := by
  obtain ⟨_, h⟩ := updatePermanentStorageUsed_eq (s := s) (f := f)
  rw [h]
  exact .of_eq rfl rfl rfl

theorem stored_notifies (hx : s.extrinsicIndex = some x) (h : s.HasRoom) :
    Notifies s (s.stored d cid x b h) :=
  .appended (e := storedEntry d cid x) h hx rfl rfl rfl

theorem forceRenewed_notifies {info : TransactionInfo T} (hx : s.extrinsicIndex = some x) (h : s.HasRoom) :
    Notifies s (s.forceRenewed info x h) :=
  .appended (e := info.renewal x) h hx rfl rfl rfl

end State

theorem Charge.apply_notifies (charge : Charge T) : Notifies s (charge.apply s) := by
  cases charge
  case nothing => exact .refl
  case store   => exact (State.withAuthorizations_onlyAccess _).notifies
  case renew scope a size =>
    have h : Notifies s (s.withAuthorization scope (DataRenewal.charged a size)) :=
      (State.withAuthorizations_onlyAccess _).notifies
    exact h.trans (State.updatePermanentStorageUsed_notifies (saturatingAdd u64Max · size))

namespace State

theorem chargePending_notifies (info : TransactionInfo T) (data : RenewalData T) :
    Notifies s (s.chargePending info data).2 := by
  simp only [chargePending, DataRenewal.checkRenewAuthorization_eq]
  split
  case isTrue => exact .refl
  case isFalse =>
    cases s.renewable (.account data.account) info.size
    case error => exact .refl
    case ok =>
      simp only [if_true]
      exact Charge.apply_notifies _

theorem renewPending_notifies (hx : s.extrinsicIndex = some x) (item : Pending T) :
    Notifies s (renewPending x s item) := by
  obtain ⟨contentHash, info, data⟩ := item
  have hc := chargePending_notifies (s := s) info data
  refine hc.trans ?_
  simp only [renewPending]
  generalize s.chargePending info data = r at hc ⊢
  obtain ⟨charged, s₁⟩ := r
  cases charged
  case false => exact .of_eq rfl rfl rfl
  case true =>
    simp only [if_true]
    by_cases hr : s₁.HasRoom
    · rw [BlockTransactionsMut.renew_eq_some.mpr ⟨hr, rfl, rfl⟩]
      simp only [settlePending_eq]
      have hx : s₁.extrinsicIndex = some x := hc.extrinsicIndex.trans hx
      exact .appended (e := info.renewal x) hr hx rfl rfl rfl
    · rw [BlockTransactionsMut.renew_of_not_hasRoom hr]
      exact (updatePermanentStorageUsed_notifies _).trans (.of_eq rfl rfl rfl)

theorem foldl_renewPending_notifies (hx : s.extrinsicIndex = some x) (items : List (Pending T)) :
    Notifies s (items.foldl (renewPending x) s) := by
  induction items generalizing s
  case nil => exact .refl
  case cons item items hi =>
    have h := renewPending_notifies hx item
    exact h.trans (hi (h.extrinsicIndex.trans hx))

theorem doProcessPendingRenewals_notifies (hx : s.extrinsicIndex = some x) :
    Notifies s s.doProcessPendingRenewals := by
  rw [doProcessPendingRenewals_of_some hx]
  have h : Notifies s { s with pendingRenewals := .empty } := .of_eq rfl rfl rfl
  exact h.trans (foldl_renewPending_notifies (h.extrinsicIndex.trans hx) _)

theorem applyBlockInherents_notifies (h : s.applyBlockInherents origin proof = ok s') : Notifies s s' := by
  obtain ⟨_, _, h⟩ := bind_eq_ok.mp h
  cases proof
  case none => cases h; exact .refl
  case some proof =>
    obtain ⟨_, _, h⟩ := bind_eq_ok.mp h
    obtain ⟨_, _, h⟩ := bind_eq_ok.mp h
    obtain ⟨_, _, h⟩ := bind_eq_ok.mp h
    obtain ⟨_, _, h⟩ := bind_eq_ok.mp h
    cases h
    exact .of_eq rfl rfl rfl

theorem doStore_notifies (h : s.doStore d hashing codec = ok s') : Notifies s s' := by
  obtain ⟨_, _, _, hr, _, hx, he⟩ := doStore_eq_ok.mp h
  exact he ▸ stored_notifies hx hr

end State

theorem TransactionStorage.dispatch_notifies {call : Call T} (h : dispatch s origin call = ok s') :
    Notifies s s' := by
  cases dispatch_cases h
  case stored hs    => exact State.doStore_notifies hs
  case inherents hi => exact State.applyBlockInherents_notifies hi
  case access ha _  => exact ha.notifies.deposit _
  case same         => exact .refl

theorem RuntimeCall.dispatch_notifies {call : RuntimeCall T} (hx : s.extrinsicIndex = some x)
    (h : call.dispatch s origin = ok s') : Notifies s s' := by
  cases call
  case transactionStorage call => exact TransactionStorage.dispatch_notifies h
  case hopPromotion call =>
    obtain ⟨_, _, h⟩ := bind_eq_ok.mp h
    exact State.doStore_notifies h
  case dataRenewal call =>
    cases call
    case renew =>
      obtain ⟨_, _, _, _, _, _, rfl⟩ := State.renew_eq_ok.mp h
      exact .of_eq rfl rfl rfl
    case forceRenew =>
      obtain ⟨_, _, _, hr, _, _, _, hx, rfl⟩ := State.forceRenew_eq_ok.mp h
      exact State.forceRenewed_notifies hx hr
    case enableAutoRenew =>
      obtain ⟨_, _, _, _, _, _, rfl⟩ := State.enableAutoRenew_eq_ok.mp h
      exact .of_eq rfl rfl rfl
    case disableAutoRenew =>
      obtain ⟨_, _, _, _, _, rfl⟩ := State.disableAutoRenew_eq_ok.mp h
      exact .of_eq rfl rfl rfl
    case processPendingRenewals =>
      obtain ⟨_, _, h⟩ := bind_eq_ok.mp h
      cases h
      exact State.doProcessPendingRenewals_notifies hx
  all_goals
    cases h
    exact .refl

variable {x : Extrinsic T}

theorem Admitted.notifies (h : Admitted s x origin s₁) : Notifies s s₁ := by
  cases h
  case store | forceRenew | renew | enableAutoRenew => exact Charge.apply_notifies _
  case disableAutoRenew | promotion | free          => exact .refl

theorem Extrinsic.dispatched_notifies {call : RuntimeCall T} (hx : s.extrinsicIndex = some i) :
    Notifies s (dispatched s origin call) :=
  dispatched_cases (Notifies s) .refl fun _ h => call.dispatch_notifies hx h

theorem Extrinsic.apply_notifies (hx : s.extrinsicIndex = some i) (h : x.apply s = some s') :
    Notifies s { s' with extrinsicIndex := some i } ∧ s'.extrinsicIndex = some (i + 1) := by
  simp only [apply] at h
  split at h <;> cases h
  case h_2 origin s₁ ha =>
    have hn := (admission_admitted ha).notifies
    have hn : Notifies s (dispatched s₁ origin x.call) :=
      hn.trans (dispatched_notifies (hn.extrinsicIndex.trans hx))
    have hi := hn.extrinsicIndex.trans hx
    exact ⟨⟨hn.appends, hx.symm⟩, by rw [hi]; rfl⟩

theorem State.handleObsolete_notifies (items : List (TransactionInfo T × Bool)) :
    Notifies s (s.handleObsolete items) := by
  simp only [handleObsolete]
  generalize hs : (if 0 < _ then s.updatePermanentStorageUsed _ else s) = s₁
  have h : Notifies s s₁ := by
    subst hs
    split
    case isTrue  => exact updatePermanentStorageUsed_notifies _
    case isFalse => exact .refl
  split
  case isTrue  => exact h.trans (.of_eq rfl rfl rfl)
  case isFalse => exact h

theorem State.onInitialize_notifies (s : State T) (n : Nat) : Notifies s (s.onInitialize n) := by
  simp only [onInitialize, storageOnInitialize]
  split
  case isFalse => exact .refl
  case isTrue =>
    split
    case h_2 => exact .refl
    case h_1 =>
      refine .trans ?_ (handleObsolete_notifies _)
      exact .of_eq rfl rfl rfl

-- The host was told of the entries of the current block, which are in the order of the extrinsics.
structure State.Notified (s : State T) : Prop where
  operations : s.indexOperations = s.blockTransactions.val.map (·.operation)
  sorted     : (s.blockTransactions.val.map (·.extrinsicIndex) ++ s.extrinsicIndex.toList).Pairwise (· ≤ ·)

namespace State.Notified

theorem notifies (h : s.Notified) (hn : Notifies s s') : s'.Notified := by
  obtain ⟨⟨es, hb, ho, hx⟩, hi⟩ := hn
  refine ⟨?_, ?_⟩
  · rw [ho, hb, h.operations, List.map_append]
  · have hs := h.sorted
    rw [hb, hi, List.map_append]
    cases es
    case nil => simpa using hs
    case cons e es =>
      have he : ∀ i ∈ (e :: es).map (·.extrinsicIndex), i = e.extrinsicIndex := by
        intro i hi
        obtain ⟨e', hm, rfl⟩ := List.mem_map.mp hi
        exact Option.some.inj ((hx e' hm).symm.trans (hx e List.mem_cons_self))
      rw [hx e List.mem_cons_self, Option.toList_some] at hs ⊢
      rw [List.eq_replicate_of_mem he, List.append_assoc]
      simp only [List.pairwise_append, List.pairwise_replicate, List.mem_append, List.mem_replicate,
        List.mem_singleton] at hs ⊢
      grind

theorem next (h : s.Notified) (hx : s.extrinsicIndex = some i) :
    { s with extrinsicIndex := some (i + 1) }.Notified := by
  refine ⟨h.operations, ?_⟩
  have hs := h.sorted
  simp only [hx, Option.toList_some, List.pairwise_append, List.mem_singleton] at hs ⊢
  refine ⟨hs.1, List.pairwise_singleton .., fun a ha b hb => ?_⟩
  exact (hs.2.2 a ha i rfl).trans (hb ▸ Nat.le_succ i)

end State.Notified

namespace Chain

variable {c c' : Chain T} {a : Action T}

theorem step_notified (p : c.Paced period) (h : c.inBlock → c.state.Notified)
    (e : c.step a = some c') (hb : c'.inBlock) : c'.state.Notified := by
  cases a
  case onInitialize parentHash moment =>
    simp only [step] at e
    split at e <;> cases e
    case isTrue hc =>
      have hn : c.state.blockTransactions.val = [] := p.log.window.closed hc.left
      refine .notifies ⟨?_, ?_⟩ (State.onInitialize_notifies _ _)
      · simp [hn]
      · simp [hn]
  case extrinsic x =>
    simp only [step] at e
    split at e
    case isFalse => contradiction
    case isTrue hc =>
      obtain ⟨s', hx, rfl⟩ := Option.map_eq_some_iff.mp e
      obtain ⟨i, hi⟩ := p.ready.index hc
      obtain ⟨hn, hi'⟩ := Extrinsic.apply_notifies hi hx
      have hs := ((h hc).notifies hn).next rfl
      rw [← hi'] at hs
      exact hs
  case dispatch origin call =>
    simp only [step] at e
    split at e <;> cases e
    case isTrue hc =>
      obtain ⟨i, hi⟩ := p.ready.index hc.left
      exact (h hc.left).notifies (Extrinsic.dispatched_notifies hi)
  case setRetentionPeriod =>
    cases e
    exact ⟨(h hb).operations, (h hb).sorted⟩
  case onFinalize =>
    simp only [step] at e
    split at e
    case isFalse => contradiction
    case isTrue =>
      obtain ⟨s', _, rfl⟩ := Option.map_eq_some_iff.mp e
      contradiction

end Chain

-- The operations of each block, as the node records them.
abbrev Journal (T : Config) := List (Nat × List (IndexOperation T))

-- In one of the blocks before `n` that a node still holds the contents of, the host was told of the
-- content. The entries that a block drops are one block past the retention period.
def Journal.Backs (journal : Journal T) (period n : Nat) (contentHash : T.ContentHash) : Prop :=
  ∃ b ops, (b, ops) ∈ journal ∧ b < n ∧ n ≤ b + period + 1 ∧ ∃ op ∈ ops, op.contentHash = contentHash

theorem Journal.Backs.mono {journal journal' : Journal T} (h : journal.Backs period n contentHash)
    (hs : journal ⊆ journal') : journal'.Backs period n contentHash := by
  obtain ⟨b, ops, hm, h⟩ := h
  exact ⟨b, ops, hs hm, h⟩

variable {l l' : Ledger T} {B : T.ContentHash → Prop}

-- What is renewed or about to be.
structure Ledger.Renews (B : T.ContentHash → Prop) (l : Ledger T) : Prop where
  pending : ∀ item ∈ l.pendingRenewals.val, B item.2.1.contentHash
  current : ∀ e ∈ l.blockTransactions.val, e.kind = .renew → B e.contentHash

theorem Opened.lookup (h : Opened l l') (b : Nat) : l'.transactions.lookup b =
    if 0 < b ∧ b = l.obsolete then none else l.transactions.lookup b := by
  cases h
  case kept hz =>
    split
    case isTrue hb =>
      obtain hz | hz := hz
      · omega
      · exact hb.right ▸ hz
    case isFalse => rfl
  case swept hz _ _ _ =>
    rw [Finmap.lookup_erase_eq]
    split
    case isTrue hb  => rw [if_pos ⟨hb ▸ hz, hb⟩]
    case isFalse hb => rw [if_neg fun h => hb h.right]

-- The renewals to serve are those of entries that were just dropped.
theorem Opened.pending (h : Opened l l') (hi : item ∈ l'.pendingRenewals.val) :
    item ∈ l.pendingRenewals.val ∨ ∃ es, l.transactions.lookup l.obsolete = some es ∧ item.2.1 ∈ es.val := by
  cases h
  case kept => exact .inl hi
  case swept es _ _ _ _ hs w hq =>
    rw [hq] at hi
    obtain ⟨e, hm, hi⟩ := List.mem_filterMap.mp hi
    obtain ⟨_, _, rfl⟩ := Option.map_eq_some_iff.mp hi
    exact .inr ⟨es, hs, w.sublist.mem hm⟩

theorem Ledger.sealBlock_lookup (b n : Nat) : (l.sealBlock n).transactions.lookup b =
    if b = n ∧ totalChunks l.blockTransactions.val ≠ 0 then some l.blockTransactions
    else l.transactions.lookup b := by
  simp only [sealBlock]
  split
  case isTrue h => simp [h, Finmap.lookup_insert_eq]
  case isFalse h =>
    rw [if_neg]
    exact fun hb => h hb.right

theorem Ledger.sealBlock_blockTransactions : (l.sealBlock n).blockTransactions = .empty := by
  simp only [sealBlock]
  split <;> rfl

theorem TransactionInfo.kind_of_operation {e : TransactionInfo T} {key : T.ContentHash}
    (h : e.operation = .renew i key) : e.kind = .renew ∧ e.contentHash = key := by
  simp only [operation] at h
  split at h <;> cases h
  case h_2 hk => exact ⟨hk, rfl⟩

namespace Ledger.Renews

theorem grows (h : l.Renews B) (hg : Grows (fun e => e.kind = .renew → B e.contentHash) l l') :
    l'.Renews B := by
  cases hg
  case same => exact ⟨h.pending, h.current⟩
  case append he hr =>
    refine ⟨h.pending, fun e hm => ?_⟩
    obtain hm | hm := List.mem_append.mp hm
    · exact h.current e hm
    · exact List.mem_singleton.mp hm ▸ he

theorem serves (h : l.Renews B) (hs : Serves l items l') (hi : ∀ item ∈ items, B item.2.1.contentHash) :
    l'.Renews B := by
  induction hs
  case nil => exact h
  case cons hs _ hr =>
    obtain ⟨hi, his⟩ := List.forall_mem_cons.mp hi
    refine hr (h.grows (hs.grows.mono fun e he _ => ?_)) his
    obtain ⟨_, rfl⟩ := he
    exact hi

theorem effect (h : l.Renews B) (he : Effect D forces drops l l')
    (hB : ∀ info, l.Retains info → B info.contentHash) : l'.Renews B := by
  cases he
  case stored hk hr =>
    refine h.grows (.append (fun hn => ?_) hr)
    rw [hk] at hn
    cases hn
  case renewed hi _ hr => exact h.grows (.append (fun _ => hB _ hi) hr)
  case forced _ hi hr  => exact h.grows (.append (fun _ => hB _ hi) hr)
  all_goals exact h.grows .same

end Ledger.Renews

namespace Chain

variable {c c' : Chain T} {a : Action T}

def notes (c : Chain T) (a : Action T) : Journal T :=
  match a, c.step a with
  | .onFinalize, some c' => [(c'.state.blockNumber, c'.state.indexOperations)]
  | _, _                 => []

def journal (c : Chain T) (as : List (Action T)) : Journal T :=
  logOf step notes c as

def operationsAt (c : Chain T) (b : Nat) : List (IndexOperation T) :=
  (c.ledger.transactions.lookup b).elim [] (·.val.map (·.operation))

-- A chain and the journal of its run.
structure Journaled (period : Nat) (c : Chain T) (journal : Journal T) : Prop where
  paced    : c.Paced period
  notified : c.inBlock → c.state.Notified
  retained : c.ledger.transactions.lookup b = some es → (b, es.val.map (·.operation)) ∈ journal
  past     : (b, ops) ∈ journal → b ≤ c.ledger.blockNumber ∧ (c.inBlock → b < c.ledger.blockNumber)
  kept     : (b, ops) ∈ journal → c.ledger.blockNumber ≤ b + period → c.operationsAt b = ops
  renews   : c.ledger.Renews (journal.Backs period c.ledger.blockNumber)
  backed   : (b, ops) ∈ journal → .renew i contentHash ∈ ops → journal.Backs period b contentHash
  sorted   : (b, ops) ∈ journal → (ops.map (·.extrinsic)).Pairwise (· ≤ ·)

variable {p : Nat} {j : Journal T}

theorem Paced.lookup_some (h : c.Paced p) (hl : c.ledger.transactions.lookup b = some es) :
    0 < b ∧ b ≤ c.ledger.blockNumber ∧ (c.inBlock → b < c.ledger.blockNumber) ∧
      c.ledger.blockNumber ≤ b + p := by
  have hb : c.log.blocks b = some es.val := Ledger.log_blocks_eq_some.mpr ⟨es, hl, rfl⟩
  have w := h.log.window
  have hk := w.kept hb
  rw [show c.log.period = p from h.period] at hk
  exact ⟨w.pos hb, w.le hb, fun ho => w.lt_of_isOpen ho hb, hk⟩

theorem Paced.lookup_blockNumber (h : c.Paced p) (hb : c.inBlock) :
    c.ledger.transactions.lookup c.ledger.blockNumber = none := by
  refine Option.eq_none_iff_forall_ne_some.mpr fun es hs => ?_
  exact absurd ((h.lookup_some hs).2.2.1 hb) (lt_irrefl _)

-- A block without entries is not recorded, and has no operations.
theorem Paced.operationsAt_sealed (h : c.Paced p) (hb : c.inBlock)
    (hl : c'.ledger = c.ledger.sealBlock c.ledger.blockNumber) :
    c'.operationsAt c.ledger.blockNumber = c.state.blockTransactions.val.map (·.operation) := by
  rw [operationsAt, hl, Ledger.sealBlock_lookup]
  split
  case isTrue  => rfl
  case isFalse he =>
    have he : c.state.blockTransactions.val = [] := by
      by_contra hne
      exact he ⟨rfl, h.holds.current.ne_zero_iff.mpr hne⟩
    rw [h.lookup_blockNumber hb, he]
    rfl

namespace Journaled

theorem retains (h : c.Journaled p j) (hb : c.inBlock) (info : TransactionInfo T)
    (hr : c.ledger.Retains info) : j.Backs p c.ledger.blockNumber info.contentHash := by
  obtain ⟨b, i, hi⟩ := hr
  obtain ⟨es, hl, he⟩ := Ledger.transactionInfo_eq_some.mp hi
  obtain ⟨_, _, hlt, hk⟩ := h.paced.lookup_some hl
  refine ⟨b, _, h.retained hl, hlt hb, hk.trans (Nat.le_succ _), info.operation, ?_,
    info.contentHash_operation⟩
  exact List.mem_map_of_mem (List.mem_of_getElem? he)

-- An action that leaves the retained entries alone.
theorem within (h : c.Journaled p j) (hp : c'.Paced p) (hn : c'.inBlock → c'.state.Notified)
    (hb : c'.inBlock = c.inBlock) (ht : c'.ledger.transactions = c.ledger.transactions)
    (hm : c'.ledger.blockNumber = c.ledger.blockNumber)
    (hr : c'.ledger.Renews (j.Backs p c.ledger.blockNumber)) : c'.Journaled p j where
  paced       := hp
  notified    := hn
  retained hl := h.retained (ht ▸ hl)
  past hj     := by rw [hm, hb]; exact h.past hj
  kept hj hk  := by rw [operationsAt, ht]; exact h.kept hj (hm ▸ hk)
  renews      := hm ▸ hr
  backed      := h.backed
  sorted      := h.sorted

theorem opened (h : c.Journaled p j) (hp : c'.Paced p) (hn : c'.inBlock → c'.state.Notified)
    (hb : ¬c.inBlock) (ho : Opened c.ledger c'.ledger) : c'.Journaled p j := by
  have hm := ho.blockNumber
  have hper : c.ledger.retentionPeriod = p := h.paced.period
  have hl := ho.lookup
  refine ⟨hp, hn, fun hs => ?_, fun hj => ?_, fun hj hk => ?_, ?_, h.backed, h.sorted⟩
  · rw [hl] at hs
    split at hs
    case isTrue  => contradiction
    case isFalse => exact h.retained hs
  · have := (h.past hj).left
    exact ⟨by omega, fun _ => by omega⟩
  · rw [operationsAt, hl, if_neg]
    · exact h.kept hj (by omega)
    · simp only [Ledger.obsolete]
      omega
  · have he : c'.ledger.blockTransactions.val = [] :=
      (congrArg _ ho.blockTransactions).trans (h.paced.log.window.closed hb)
    refine ⟨fun item hi => ?_, by simp [he]⟩
    obtain hz | ⟨es, hs, hi⟩ := ho.pending hi
    · rw [h.paced.ready.pending hb] at hz
      contradiction
    · refine ⟨_, _, h.retained hs, ?_, ?_, item.2.1.operation, List.mem_map_of_mem hi,
        item.2.1.contentHash_operation⟩
      all_goals simp only [Ledger.obsolete]; omega

theorem finalized (h : c.Journaled p j) (hp : c'.Paced p) (hb : c.inBlock) (hb' : ¬c'.inBlock)
    (hr : c.ledger.pendingRenewals.val = []) (hl : c'.ledger = c.ledger.sealBlock c.ledger.blockNumber)
    (ho : c'.state.indexOperations = c.state.indexOperations) :
    c'.Journaled p (j ++ [(c'.state.blockNumber, c'.state.indexOperations)]) := by
  have hn : c'.ledger.blockNumber = c.ledger.blockNumber := hl ▸ Ledger.sealBlock_blockNumber
  have hops := (h.notified hb).operations
  rw [show c'.state.blockNumber = c.ledger.blockNumber from hn, ho, hops]
  have hlt {b ops} (hj : (b, ops) ∈ j) : b < c.ledger.blockNumber := (h.past hj).right hb
  refine ⟨hp, fun h => absurd h hb', fun hs => ?_, fun hj => ?_, fun hj hk => ?_, ?_, fun hj hi => ?_,
    fun hj => ?_⟩
  · rw [hl, Ledger.sealBlock_lookup] at hs
    split at hs
    case isTrue hc =>
      cases hs
      simp [hc.left]
    case isFalse => exact List.mem_append_left _ (h.retained hs)
  · refine ⟨?_, fun h => absurd h hb'⟩
    rw [hn]
    obtain hj | hj := List.mem_append.mp hj
    · exact (hlt hj).le
    · cases List.mem_singleton.mp hj
      exact le_rfl
  · obtain hj | hj := List.mem_append.mp hj
    · rw [operationsAt, hl, Ledger.sealBlock_lookup, if_neg fun hc => (hlt hj).ne hc.left]
      exact h.kept hj (hn ▸ hk)
    · cases List.mem_singleton.mp hj
      exact h.paced.operationsAt_sealed hb hl
  · rw [hl]
    refine ⟨?_, ?_⟩
    · rw [Ledger.sealBlock_pendingRenewals, hr]
      simp
    · rw [Ledger.sealBlock_blockTransactions]
      simp [BoundedVec.empty]
  · obtain hj | hj := List.mem_append.mp hj
    · exact (h.backed hj hi).mono (List.subset_append_left ..)
    · cases List.mem_singleton.mp hj
      obtain ⟨e, hm, he⟩ := List.mem_map.mp hi
      obtain ⟨hk, rfl⟩ := TransactionInfo.kind_of_operation he
      exact (h.renews.current e hm hk).mono (List.subset_append_left ..)
  · obtain hj | hj := List.mem_append.mp hj
    · exact h.sorted hj
    · cases List.mem_singleton.mp hj
      rw [List.map_map, List.map_congr_left fun e _ => e.extrinsic_operation]
      exact (List.pairwise_append.mp (h.notified hb).sorted).left

end Journaled

theorem finalized_indexOperations (h : finalized s = some s') :
    s'.indexOperations = s.indexOperations := by
  obtain ⟨t, ht, h⟩ := Option.bind_eq_some_iff.mp h
  simp only [State.storageOnFinalize] at ht
  split at ht <;> cases ht
  simp only [State.renewalOnFinalize] at h
  split at h <;> cases h
  rfl

theorem notes_of_ne (h : a ≠ .onFinalize) : c.notes a = [] := by
  cases a
  case onFinalize => exact absurd rfl h
  all_goals rfl

theorem Journaled.step (h : c.Journaled p j) (g : c.fixed a) (e : Chain.step c a = some c') :
    c'.Journaled p (j ++ c.notes a) := by
  obtain ⟨he, hp⟩ := h.paced.step g e
  have hn : c'.inBlock → c'.state.Notified := step_notified h.paced h.notified e
  by_cases ha : a = .onFinalize
  · subst ha
    have hnote : c.notes .onFinalize = [(c'.state.blockNumber, c'.state.indexOperations)] := by
      simp only [notes, e]
    rw [hnote]
    simp only [Chain.step] at e
    split at e
    case isFalse => contradiction
    case isTrue hb =>
      obtain ⟨s', hf, rfl⟩ := Option.map_eq_some_iff.mp e
      obtain ⟨hr, hl⟩ := finalized_eq_some hf
      exact h.finalized hp hb Bool.false_ne_true hr hl (finalized_indexOperations hf)
  · rw [notes_of_ne ha, List.append_nil]
    obtain ⟨hb, _, ho⟩ | ⟨hb, hl⟩ | ⟨hb, hb', _, he⟩ | ⟨hb, hb', _, hs⟩ | ⟨hb, hl⟩ | _ := he
    case opened => exact h.opened hp hn hb ho
    case idle   => exact h.within hp hn hb (by rw [hl]) (by rw [hl]) (hl ▸ h.renews)
    case called =>
      exact h.within hp hn (hb'.trans hb.symm) he.grows.transactions he.grows.blockNumber
        (h.renews.effect he (h.retains hb))
    case drained =>
      have ht : c.ledger.taken.Renews (j.Backs p c.ledger.blockNumber) :=
        ⟨by simp [Ledger.taken, BoundedVec.empty], h.renews.current⟩
      exact h.within hp hn (hb'.trans hb.symm) hs.transactions hs.blockNumber
        (ht.serves hs h.renews.pending)
    case extended =>
      refine h.within hp hn hb (by rw [hl]; rfl) (by rw [hl]; rfl) ?_
      rw [hl]
      exact ⟨h.renews.pending, h.renews.current⟩
    case sealed => contradiction

theorem journaled_of_runs {g : GenesisConfig T} {as : List (Action T)}
    (r : Runs Chain.step (fixed · ·) g.chain as c) :
    c.Journaled g.retentionPeriod (g.chain.journal as) := by
  rw [← List.nil_append (g.chain.journal as)]
  refine Runs.log_invariant (fun c j => c.Journaled g.retentionPeriod j) ?_ (fun h hg e => h.step hg e) r
  have hl := g.chain_ledger
  refine ⟨paced_of_runs .nil, Bool.noConfusion, fun h => ?_, by simp, by simp, ?_, by simp, by simp⟩
  · rw [hl] at h
    cases h
  · rw [hl]
    exact ⟨by simp [GenesisConfig.empty, BoundedVec.empty], by simp [GenesisConfig.empty, BoundedVec.empty]⟩

end Chain

theorem forall₂_tells (s : State T) (b : Nat) :
    List.Forall₂ IndexOperation.Tells ((s.transactions.lookup b).elim [] (·.val.map (·.operation)))
      (TransactionStorageApi.indexedTransactions s b) := by
  simp only [TransactionStorageApi.indexedTransactions]
  cases s.transactions.lookup b
  case none => exact .nil
  case some es =>
    simp only [Option.elim_some, List.forall₂_map_left_iff, List.forall₂_map_right_iff]
    refine List.forall₂_same.mpr fun e _ => ?_
    simp only [TransactionInfo.operation]
    cases e.kind
    case store => exact ⟨rfl, rfl, rfl⟩
    case renew => exact ⟨rfl, rfl⟩

-- A signer does not tell the host anything.
theorem RuntimeCall.dispatch_signed_silent {call : RuntimeCall T} (hx : s.extrinsicIndex = some i)
    (h : call.dispatch s (.signed who) = ok s') : s'.indexOperations = s.indexOperations := by
  have hk : s'.toLedger = s.toLedger :=
    Extrinsic.dispatched_of_ok h ▸ (Extrinsic.dispatched_signed_keeps s who call).ledger
  obtain ⟨es, hb, ho, _⟩ := (dispatch_notifies hx h).appends
  rw [hk] at hb
  cases List.self_eq_append_right.mp hb
  simpa using ho

-- A renewed content was handed over to the host in some earlier block.
theorem Chain.Journaled.handed_over {c : Chain T} {j : Journal T} (h : c.Journaled p j)
    (hj : (b, ops) ∈ j) (hi : .renew i contentHash ∈ ops) :
    ∃ b₀ ops₀ i₀ size, (b₀, ops₀) ∈ j ∧ b₀ < b ∧ .index i₀ size contentHash ∈ ops₀ := by
  induction b using Nat.strong_induction_on generalizing ops i
  case h b hb =>
    obtain ⟨b', ops', hj', hlt, _, op, hm, hh⟩ := h.backed hj hi
    cases op
    case index i₀ size contentHash =>
      cases hh
      exact ⟨b', ops', i₀, size, hj', hlt, hm⟩
    case renew i' contentHash =>
      cases hh
      obtain ⟨b₀, ops₀, i₀, size, hj₀, hlt₀, hm₀⟩ := hb b' hlt hj' hm
      exact ⟨b₀, ops₀, i₀, size, hj₀, hlt₀.trans hlt, hm₀⟩

open TransactionStorageApi in
-- What the host is told in a block is what the runtime answers of it as long as it is retained: one
-- operation for each entry, in the order of the extrinsics. What is renewed was handed over before, and a
-- node that keeps the contents of a block for one block more than the retention period still has it. Nor
-- is anything that the host is told rolled back, unless it is Root that dispatches it.
theorem operations_recorded {g : GenesisConfig T} {as : List (Action T)} {c : Chain T}
    (h : Runs Chain.step (Chain.fixed · ·) g.chain as c) :
    let journal := g.chain.journal as
    (∀ b ops, (b, ops) ∈ journal → c.state.blockNumber ≤ b + g.retentionPeriod →
      List.Forall₂ IndexOperation.Tells ops (indexedTransactions c.state b)) ∧
    (∀ b, indexedTransactions c.state b ≠ [] → ∃ ops, (b, ops) ∈ journal) ∧
    (∀ b ops, (b, ops) ∈ journal → (ops.map (·.extrinsic)).Pairwise (· ≤ ·)) ∧
    (∀ b ops i contentHash, (b, ops) ∈ journal → .renew i contentHash ∈ ops →
      journal.Backs g.retentionPeriod b contentHash ∧
      ∃ b₀ ops₀ i₀ size, (b₀, ops₀) ∈ journal ∧ b₀ < b ∧ .index i₀ size contentHash ∈ ops₀) ∧
    ∀ (sdk : Sdk T) (codec : CallCodec T) (x : Extrinsic T) (s s₁ : State T) (origin : Origin T)
      (e : Execution T), x.admission s = (ok origin, s₁) → ¬x.call.isLeaf →
      Executes sdk codec origin [] s₁ (.call x.call) e → (∀ d ∈ e.trace, d.origin ≠ .root) →
      ∀ d ∈ e.trace, ∀ (s₂ s₃ : State T) (i : Nat),
        s₂.extrinsicIndex = some i → d.call.dispatch s₂ d.origin = ok s₃ →
        s₃.indexOperations = s₂.indexOperations := by
  have hj := Chain.journaled_of_runs h
  refine ⟨fun b ops hm hk => ?_, fun b hne => ?_, fun b ops hm => hj.sorted hm,
    fun b ops i contentHash hm hi => ⟨hj.backed hm hi, hj.handed_over hm hi⟩, ?_⟩
  · rw [← hj.kept hm hk]
    exact forall₂_tells c.state b
  · cases hl : c.state.transactions.lookup b
    case none    => exact absurd (by rw [indexedTransactions, hl]; rfl) hne
    case some es => exact ⟨_, hj.retained hl⟩
  · intro sdk codec x s s₁ origin e ha hl he hr d hd s₂ s₃ i hx hs
    obtain ⟨_, rfl | ⟨who, rfl⟩⟩ := (Extrinsic.admission_admitted ha).wrapper hl
    · rw [he.failed_of_none hl] at hd
      cases List.mem_singleton.mp hd
      cases hc : x.call <;> rw [hc] at hl hs
      case transactionStorage | hopPromotion | dataRenewal | other => exact absurd rfl hl
      all_goals
        cases hs
        rfl
    · obtain ⟨who', ho⟩ := he.signed_of_signed hr d hd
      exact RuntimeCall.dispatch_signed_silent hx (ho ▸ hs)

theorem operations_recorded_copies :
    let g : GenesisConfig .mock := ⟨3, [], [], []⟩
    ∃ c, Runs Chain.step (Chain.fixed · ·) g.chain copies c ∧
      g.chain.journal copies =
        [(1, [.index 0 3 [1, 2, 3], .index 0 3 [1, 2, 3]]), (2, [.renew 0 [1, 2, 3]])] ∧
      (g.chain.journal copies).Backs 3 2 [1, 2, 3] ∧
      List.Forall₂ IndexOperation.Tells [.renew 0 [1, 2, 3]]
        (TransactionStorageApi.indexedTransactions c.state 2) := by
  intro g
  obtain ⟨c, hr, hn⟩ := Runs.exists_of_any Chain.step Chain.fixed g.chain copies
    (fun c => c.state.blockNumber = 2) (by decide +kernel)
  have hj : g.chain.journal copies =
      [(1, [.index 0 3 [1, 2, 3], .index 0 3 [1, 2, 3]]), (2, [.renew 0 [1, 2, 3]])] := by
    decide +kernel
  have hm : (2, [.renew 0 [1, 2, 3]]) ∈ g.chain.journal copies := by simp [hj]
  obtain ⟨ht, _, _, hb, _⟩ := operations_recorded hr
  exact ⟨c, hr, hj, (hb _ _ 0 _ hm (by simp)).left, ht _ _ hm (by rw [hn]; decide)⟩

end Bulletin
