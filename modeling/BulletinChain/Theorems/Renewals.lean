import BulletinChain.Theorems.Registrations

namespace Bulletin

open Machine

variable {T : Config} {l l' : Ledger T} {s s' : State T} {info : TransactionInfo T}
  {item : Pending T} {items before after : List (Pending T)} {contentHash : T.ContentHash}
  {data : RenewalData T}

-- No event of the drain is lost.

namespace State

theorem updatePermanentStorageUsed_events :
    s.events <+: (s.updatePermanentStorageUsed f).events := by
  simp only [updatePermanentStorageUsed]
  split
  case isTrue  => simp [List.append_assoc]
  case isFalse => simp

theorem chargePending_events (info : TransactionInfo T) (data : RenewalData T) :
    s.events <+: (s.chargePending info data).2.events := by
  simp only [chargePending, DataRenewal.checkRenewAuthorization_eq]
  split
  case isTrue => exact List.prefix_rfl
  case isFalse =>
    cases s.renewable (.account data.account) info.size
    case error => exact List.prefix_rfl
    case ok a  =>
      simp only [if_true]
      exact updatePermanentStorageUsed_events
        (s := s.withAuthorization (.account data.account) (DataRenewal.charged a info.size))

theorem renewPending_events (x : Nat) : s.events <+: (renewPending x s item).events := by
  obtain ⟨contentHash, info, data⟩ := item
  refine (chargePending_events info data).trans ?_
  simp only [renewPending]
  generalize s.chargePending info data = r
  obtain ⟨charged, s⟩ := r
  cases charged
  case false => simp
  case true  =>
    by_cases hr : s.HasRoom
    · rw [if_pos rfl, BlockTransactionsMut.renew_eq_some.mpr ⟨hr, rfl, rfl⟩]
      simp [settlePending_eq]
    · rw [if_pos rfl, BlockTransactionsMut.renew_of_not_hasRoom hr]
      refine (updatePermanentStorageUsed_events (f := (· - info.size))).trans ?_
      simp

theorem foldl_renewPending_events (x : Nat) (s : State T) (items : List (Pending T)) :
    s.events <+: (items.foldl (renewPending x) s).events := by
  induction items generalizing s
  case nil            => exact List.prefix_rfl
  case cons item _ hi => exact (renewPending_events x).trans (hi _)

end State

-- The entries of a content in the current block.
def Ledger.entriesOf (l : Ledger T) (contentHash : T.ContentHash) : List (TransactionInfo T) :=
  l.blockTransactions.val.filter (·.contentHash = contentHash)

theorem Ledger.appended_entriesOf (h : l.HasRoom) :
    (l.appended e h).entriesOf contentHash =
      l.entriesOf contentHash ++
        if e.contentHash = contentHash then [BlockTransactionsMut.counted l e] else [] := by
  have hc : (BlockTransactionsMut.counted l e).contentHash = e.contentHash := rfl
  simp only [entriesOf, appended, List.filter_append, List.filter_singleton, hc]
  split <;> simp [*]

theorem Served.entriesOf (h : Served l item l') (hn : item.2.1.contentHash ≠ contentHash) :
    l'.entriesOf contentHash = l.entriesOf contentHash := by
  have hg := h.grows
  cases hg
  case same => rfl
  case append he hr =>
    have ⟨_, he⟩ := he
    subst he
    rw [Ledger.appended_entriesOf]
    exact (congrArg _ (if_neg hn)).trans (List.append_nil _)

-- The renewals of other contents leave a registration and the entries of its content alone.
theorem Serves.untouched (h : Serves l items l') (p : l.Pended (items ++ rest))
    (hn : contentHash ∉ items.map (·.1)) :
    l'.renewals.lookup contentHash = l.renewals.lookup contentHash ∧
      l'.entriesOf contentHash = l.entriesOf contentHash := by
  induction h
  case nil => exact ⟨rfl, rfl⟩
  case cons item _ items _ h _ hi =>
    have ⟨hh, ht⟩ := not_or.mp <| mt List.mem_cons.mpr hn
    have ⟨hr, he⟩ := hi (p.served h) ht
    have hname := p.named item List.mem_cons_self
    exact ⟨hr.trans <| h.lookup_of_ne (p.queued item List.mem_cons_self) hh,
      he.trans <| h.entriesOf fun hc => hh (hc.symm.trans hname)⟩

-- The two ends of a pending renewal: there is one more entry of the content and the registration is
-- settled, or there is none and the registration is gone.

def Delivered (l l' : Ledger T) (item : Pending T) : Prop :=
  (∃ e, l'.entriesOf item.1 = l.entriesOf item.1 ++ [e] ∧ e.kind = .renew ∧
    e.size = item.2.1.size) ∧
  l'.renewals.lookup item.1 =
    if item.2.2.recurring then some { item.2.2 with paid := false } else none

def Failed (s s' : State T) (item : Pending T) : Prop :=
  s'.entriesOf item.1 = s.entriesOf item.1 ∧ s'.renewals.lookup item.1 = none ∧
    .renewalFailed item.1 item.2.2.account ∈ s'.events

-- With room in the block, a renewal fails for want of an authorization only.
theorem Drained.outcome (h : Drained x s item s') (p : s.toLedger.Pended (item :: items)) :
    Delivered s.toLedger s'.toLedger item ∨
    Failed s s' item ∧ ¬item.2.2.paid ∧
      ¬(DataRenewal.checkRenewAuthorization (.account item.2.2.account) item.2.1.size true).Succeeds s := by
  have hq := p.queued item List.mem_cons_self
  have hn := p.named item List.mem_cons_self
  obtain ⟨contentHash, info, data⟩ := item
  obtain ⟨hp, h, hl⟩ | ⟨hp, hf, hl, he⟩ | ⟨_, h, _⟩ := h
  case delivered l =>
    have hn : (info.renewal x).contentHash = contentHash := hn
    have he : (l.appended (info.renewal x) h).entriesOf contentHash =
        s.entriesOf contentHash ++ [BlockTransactionsMut.counted l (info.renewal x)] := by
      rw [Ledger.appended_entriesOf, if_pos hn, Ledger.entriesOf, hp.blockTransactions]
      rfl
    refine .inl ⟨⟨_, (congrArg (Ledger.entriesOf · _) hl).trans he, rfl, rfl⟩, ?_⟩
    rw [hl]
    exact (lookup_settled (hp.renewals_eq ▸ hq)).trans (if_pos rfl)
  case failed =>
    refine .inr ⟨⟨?_, ?_, he⟩, hp, hf⟩
    all_goals rw [hl]
    · rfl
    · exact Finmap.lookup_erase ..
  case overflowed =>
    have hr := p.room
    simp only [List.length_cons] at hr
    omega

theorem State.drain_outcome (x : Nat) (s : State T) (before after : List (Pending T))
    (p : s.toLedger.Pended (before ++ item :: after)) :
    let s₁ := before.foldl (renewPending x) s
    let s' := (before ++ item :: after).foldl (renewPending x) s
    Delivered s.toLedger s'.toLedger item ∨
    Failed s s' item ∧ ¬item.2.2.paid ∧
      ¬(DataRenewal.checkRenewAuthorization (.account item.2.2.account) item.2.1.size true).Succeeds s₁ := by
  intro s₁ s'
  have ⟨hn, hn'⟩ : item.1 ∉ before.map (·.1) ∧ item.1 ∉ after.map (·.1) := by
    have hn := p.nodup
    simp only [List.map_append, List.map_cons, List.nodup_append, List.nodup_cons] at hn
    exact ⟨fun h => hn.right.right _ h _ List.mem_cons_self rfl, hn.right.left.left⟩
  have hs := (foldl_renewPending_serves x s before).left
  have ⟨_, he⟩ := hs.untouched p hn
  have p₁ := p.serves hs
  have hd := (renewPending_drained x s₁ item).left
  have hs' := (foldl_renewPending_serves x (renewPending x s₁ item) after).left
  have p₂ : (renewPending x s₁ item).toLedger.Pended (after ++ []) := by
    rw [List.append_nil]
    exact p₁.served hd.served
  have ⟨hr', he'⟩ := hs'.untouched p₂ hn'
  have hs' : s' = after.foldl (renewPending x) (renewPending x s₁ item) := by
    simp only [s', List.foldl_append, List.foldl_cons, s₁]
  rw [hs']
  refine (hd.outcome p₁).imp (fun ⟨⟨e, h, hk⟩, hl⟩ => ?_) (And.imp_left fun ⟨h, hl, hf⟩ => ?_)
  · exact ⟨⟨e, he'.trans <| h.trans <| congrArg (· ++ _) he, hk⟩, hr'.trans hl⟩
  · exact ⟨he'.trans <| h.trans he, hr'.trans hl, (foldl_renewPending_events x _ after).subset hf⟩

theorem Opened.blockTransactions (h : Opened l l') : l'.blockTransactions = l.blockTransactions := by
  cases h <;> rfl

-- The block that sweeps the latest copy of a registered content queues its renewal.
theorem Opened.queues (h : Opened l l') (v : (l.log False).Valid contentKey)
    (hr : l.renewals.lookup contentHash = some data)
    (hx : l.transactionByContentHash.lookup contentHash = some (b, i))
    (hn : l'.transactionInfo b i = none) :
    ∃ es info, l.transactions.lookup b = some es ∧ info ∈ es.val ∧ info.contentHash = contentHash ∧
      (contentHash, info, data) ∈ l'.pendingRenewals.val := by
  have ⟨e, ha, hk⟩ := v.exact.sound hx
  have hi := (Ledger.log_at v).mp ha
  have ⟨es, hb, he⟩ := Ledger.transactionInfo_eq_some.mp hi
  cases h
  case kept => exact absurd (hn.symm.trans hi) nofun
  case swept hb' w hq =>
    by_cases hbo : b = l.obsolete
    · subst hbo
      cases Option.some.inj (hb.symm.trans hb')
      have hc := w.covers e (List.mem_of_getElem? he) (hk ▸ hx)
      have ⟨info, hi, hc⟩ := List.mem_map.mp hc
      have hc := hc.trans hk
      exact ⟨es, info, hb, w.sublist.subset hi, hc, hq ▸ mem_queued.mpr ⟨hi, hc.symm, hr⟩⟩
    · have hb : (l.transactions.erase l.obsolete).lookup b = some es :=
        (Finmap.lookup_erase_ne hbo).trans hb
      exact absurd (hn.symm.trans <| Ledger.transactionInfo_eq_some.mpr ⟨es, hb, he⟩) nofun

theorem List.filter_eq_singleton_of_nodup [DecidableEq β] {f : α → β} {xs : List α}
    (hn : (xs.map f).Nodup) (ha : a ∈ xs) : xs.filter (f · = f a) = [a] := by
  have ⟨before, after, hs⟩ := List.append_of_mem ha
  subst hs
  simp only [List.map_append, List.map_cons, List.nodup_append, List.nodup_cons] at hn
  have hb : before.filter (f · = f a) = [] := by
    refine List.filter_eq_nil_iff.mpr fun x hx he => ?_
    exact hn.right.right _ (List.mem_map_of_mem hx) _ List.mem_cons_self (of_decide_eq_true he)
  have hc : after.filter (f · = f a) = [] := by
    refine List.filter_eq_nil_iff.mpr fun x hx he => ?_
    exact hn.right.left.left <| of_decide_eq_true he ▸ List.mem_map_of_mem hx
  simp [hb, hc]

namespace Chain

variable {c c₁ c₂ : Chain T}

-- Where an entry is gone after the block was opened, it was swept.
theorem Evolves.opened_of_swept (e : Evolves D c (.onInitialize parentHash moment) c₁)
    (hb : ¬c.inBlock) (hi : c.ledger.transactionInfo b i = some info)
    (hn : c₁.ledger.transactionInfo b i = none) : c₁.inBlock ∧ Opened c.ledger c₁.ledger := by
  obtain ⟨_, hb', ho⟩ | ⟨_, hl⟩ | ⟨hb', _⟩ | ⟨hb', _⟩ | _ | _ := e
  case opened  => exact ⟨hb', ho⟩
  case idle    => exact absurd ((hl ▸ hn).symm.trans hi) nofun
  case called  => exact absurd hb' hb
  case drained => exact absurd hb' hb

-- While renewals are pending, nothing happens to the ledger before the inherent that serves them.
theorem runs_idle {as : List (Action T)} (r : c₁.Ready) (hb : c₁.inBlock)
    (hp : c₁.ledger.pendingRenewals.val ≠ []) (hd : ∀ a ∈ as, ¬a.drains)
    (h : Runs step (orderly · ·) c₁ as c₂) :
    (∃ period, c₂.ledger = c₁.ledger.extended period) ∧ ∃ x, c₂.state.extrinsicIndex = some x := by
  have h : Runs step (fun c a => (c.orderly a ∧ ¬a.drains) ∧ ∀ x ∈ a.content, x ∈ Set.univ) c₁ as c₂ :=
    h.mem.mono fun g => ⟨⟨g.left, hd _ g.right⟩, fun _ _ => trivial⟩
  have ⟨⟨hb, hl⟩, r⟩ := runs_invariant
    (I := fun c => c.inBlock ∧ ∃ period, c.ledger = c₁.ledger.extended period) r
    ⟨hb, c₁.ledger.retentionPeriod, rfl⟩ (fun {c a c'} ⟨hb, period, hl⟩ ⟨g, hd⟩ e => ?_) h
  · have hp : c.ledger.pendingRenewals.val ≠ [] := hl ▸ hp
    obtain ⟨hb', _, _⟩ | ⟨hb', hl'⟩ | ⟨_, _, hc, _⟩ | ⟨_, _, hd', _⟩ | ⟨hb', hl'⟩ | ⟨_, _, hp', _⟩ := e
    case opened   => exact absurd hb hb'
    case idle     => exact ⟨hb'.trans hb, period, hl'.trans hl⟩
    case called   => exact absurd (pendingRenewals_of_orderly g hc) hp
    case drained  => exact absurd hd' hd
    case extended => exact ⟨hb'.trans hb, _, by rw [hl', hl]; rfl⟩
    case sealed   => exact absurd hp' hp
  · exact ⟨hl, r.index hb⟩

theorem step_drain (h : c.step (.extrinsic (.unsigned (.dataRenewal .processPendingRenewals))) = some c') :
    ∃ x, c'.state = { c.state.doProcessPendingRenewals with extrinsicIndex := x } := by
  simp only [step] at h
  split at h
  case isTrue =>
    obtain ⟨_, h, hc⟩ := Option.map_eq_some_iff.mp h
    cases h
    exact hc ▸ ⟨_, rfl⟩
  case isFalse => contradiction

end Chain
-- The registrations at the end of every block, and in the next block. Each is of a content whose latest
-- copy is retained. The block that sweeps this copy queues one renewal of it, and the inherent delivers
-- it, unless it was not paid for and its owner is not authorized for it.
theorem registrations_served {g : GenesisConfig T} {as : List (Action T)} {c : Chain T}
    (h : Runs Chain.step (Chain.orderly · ·) g.chain as c) (hb : ¬c.inBlock) :
    c.state.pendingRenewals.val = [] ∧
    ∀ contentHash data, c.state.renewals.lookup contentHash = some data →
      ∃ b i e, c.state.lookupByContentHash contentHash = some (b, i) ∧
        c.state.transactionInfo b i = some e ∧ e.contentHash = contentHash ∧
        ∀ parentHash moment c₁, c.step (.onInitialize parentHash moment) = some c₁ →
          c₁.state.transactionInfo b i = none →
          ∃ es info, c.state.transactions.lookup b = some es ∧ info ∈ es.val ∧
            info.contentHash = contentHash ∧
            c₁.state.pendingRenewals.val.filter (·.1 = contentHash) = [(contentHash, info, data)] ∧
            ∀ as' c₂ c₃, Runs Chain.step (Chain.orderly · ·) c₁ as' c₂ → (∀ a ∈ as', ¬a.drains) →
              c₂.step (.extrinsic (.unsigned (.dataRenewal .processPendingRenewals))) = some c₃ →
              let new := c₃.state.blockTransactions.val.filter (·.contentHash = contentHash)
              (∃ e, new = [e] ∧ e.kind = .renew ∧ e.size = info.size ∧
                c₃.state.renewals.lookup contentHash =
                  if data.recurring then some { data with paid := false } else none) ∨
              (new = [] ∧ c₃.state.renewals.lookup contentHash = none ∧
                .renewalFailed contentHash data.account ∈ c₃.state.events ∧ ¬data.paid ∧
                ∃ before after x,
                  c₂.state.pendingRenewals.val = before ++ (contentHash, info, data) :: after ∧
                  c₂.state.extrinsicIndex = some x ∧
                  ¬(DataRenewal.checkRenewAuthorization (.account data.account) info.size true).Succeeds
                    (before.foldl (State.renewPending x)
                      { c₂.state with pendingRenewals := .empty })) := by
  obtain ⟨t, r⟩ : c.Tidy Set.univ ∧ c.Ready :=
    Chain.tidy_of_runs <| h.mono fun g => ⟨g, fun _ _ => trivial⟩
  have v : (c.ledger.log False).Valid contentKey := by
    have v := t.log
    rwa [Chain.log, eq_false hb] at v
  refine ⟨t.drained hb, fun contentHash data hr => ?_⟩
  obtain ⟨b, i, e, hx, hi, hk⟩ := t.retained hb hr
  refine ⟨b, i, e, hx, hi, hk, fun parentHash moment c₁ hs hn => ?_⟩
  obtain ⟨he, r₁⟩ := Chain.step_evolves (D := Set.univ) r (fun _ _ => trivial) hs
  have t₁ := he.tidy t rfl
  obtain ⟨hb₁, ho⟩ := he.opened_of_swept hb hi hn
  obtain ⟨es, info, hes, hm, hc, hq⟩ := ho.queues v hr hx hn
  refine ⟨es, info, hes, hm, hc, List.filter_eq_singleton_of_nodup t₁.pended.nodup hq, ?_⟩
  intro as' c₂ c₃ h₂ hd h₃ new
  obtain ⟨⟨period, hl⟩, ⟨x, hx₂⟩⟩ := Chain.runs_idle r₁ hb₁ (List.ne_nil_of_mem hq) hd h₂
  have hp₂ : c₂.ledger.pendingRenewals = c₁.ledger.pendingRenewals := by rw [hl]; rfl
  obtain ⟨before, after, hs₂⟩ := List.append_of_mem (hp₂ ▸ hq)
  have p : c₂.ledger.taken.Pended (before ++ (contentHash, info, data) :: after) := by
    rw [← hs₂, hp₂, hl]
    exact t₁.pended.extended.taken
  -- the block has no entry yet
  have hnew : c₂.ledger.taken.entriesOf contentHash = [] := by
    have hc : c.ledger.blockTransactions.val = [] := t.log.window.closed hb
    have hc₂ : c₂.ledger.blockTransactions = c.ledger.blockTransactions := by
      rw [hl]
      exact ho.blockTransactions
    simp [Ledger.entriesOf, Ledger.taken, hc₂, hc]
  obtain ⟨y, hc₃⟩ := Chain.step_drain h₃
  have hs₃ : c₂.state.doProcessPendingRenewals =
      (before ++ (contentHash, info, data) :: after).foldl (State.renewPending x)
        { c₂.state with pendingRenewals := .empty } := by
    rw [State.doProcessPendingRenewals_of_some hx₂, hs₂]
  have ho := State.drain_outcome x { c₂.state with pendingRenewals := .empty } before after p
  rw [← hs₃] at ho
  simp only [new, hc₃]
  refine ho.imp ?_ ?_
  · rintro ⟨⟨e, he, hk⟩, hr⟩
    exact ⟨e, he.trans (congrArg (· ++ [e]) hnew), hk.left, hk.right, hr⟩
  · rintro ⟨⟨he, hr, hf⟩, hu, hs⟩
    exact ⟨he.trans hnew, hr, hf, hu, before, after, x, hs₂, hx₂, hs⟩

-- An account that may renew.
def renter : Config.mock.AccountId := (7 : Nat)

-- A content that is stored in the first block and registered in the second.
def registered : List (Action .mock) :=
  copies.take 5 ++ [.extrinsic (.signed renter (.dataRenewal (.renew (.position 1 0)))), .onFinalize]

-- Two blocks later, when the entries of the first block are still retained.
def retained : List (Action .mock) :=
  registered ++ [.onInitialize [] 0, .onFinalize,
    .onInitialize [] 0,
    .extrinsic (.unsigned (.transactionStorage (.applyBlockInherents (some ⟨[1, 2, 3], ()⟩)))),
    .onFinalize]

-- The next block sweeps them, and the inherent delivers the renewal that was paid for.
theorem registrations_served_registered :
    let g : GenesisConfig .mock := ⟨3, [], [(renter, 10, 100)], []⟩
    ∃ c c₁ c₃, Runs Chain.step (Chain.orderly · ·) g.chain retained c ∧ ¬c.inBlock ∧
      c.state.renewals.lookup [1, 2, 3] = some ⟨renter, false, true⟩ ∧
      c.state.pendingRenewals.val = [] ∧
      c.step (.onInitialize [] 0) = some c₁ ∧ c₁.state.transactionInfo 1 1 = none ∧
      c₁.step (.extrinsic (.unsigned (.dataRenewal .processPendingRenewals))) = some c₃ ∧
      (∃ e ∈ c₃.state.blockTransactions.val, e.contentHash = [1, 2, 3] ∧ e.kind = .renew) ∧
      c₃.state.renewals.lookup [1, 2, 3] = none := by
  intro g
  obtain ⟨c, hr, hb, hl, hx, hs⟩ := Runs.exists_of_any Chain.step Chain.orderly g.chain retained
    (fun c => ¬c.inBlock ∧ c.state.renewals.lookup [1, 2, 3] = some ⟨renter, false, true⟩ ∧
      c.state.lookupByContentHash [1, 2, 3] = some (1, 1) ∧
      (c.step (.onInitialize [] 0)).any fun c₁ => c₁.state.transactionInfo 1 1 = none ∧
        (c₁.step (.extrinsic (.unsigned (.dataRenewal .processPendingRenewals)))).isSome)
    (by decide +kernel)
  obtain ⟨c₁, hs₁, hs⟩ := (Option.any_eq_true ..).mp hs
  obtain ⟨hn, hs⟩ := of_decide_eq_true hs
  obtain ⟨c₃, hs₃⟩ := Option.isSome_iff_exists.mp hs
  obtain ⟨hp, h⟩ := registrations_served hr hb
  obtain ⟨b, i, _, hx', _, _, h⟩ := h [1, 2, 3] ⟨renter, false, true⟩ hl
  cases hx.symm.trans hx'
  obtain ⟨_, _, _, _, _, _, h⟩ := h [] 0 c₁ hs₁ hn
  obtain ⟨e, he, hk, _, hd⟩ | ⟨_, _, _, hu, _⟩ := h [] c₁ c₃ .nil nofun hs₃
  case inl =>
    obtain ⟨hm, hc⟩ := List.mem_filter.mp (he ▸ List.mem_singleton_self e)
    exact ⟨c, c₁, c₃, hr, hb, hl, hp, hs₁, hn, hs₃, ⟨e, hm, by simpa using hc, hk⟩, hd⟩
  case inr => exact absurd rfl hu

end Bulletin
