import BulletinChain.Theorems.Sweep
import BulletinChain.Lib.Run

namespace Bulletin

open Machine Except

variable {T : Config} {D : Set Content} {l l₁ : Ledger T} {s s₁ s' : State T} {x : Extrinsic T}
  {origin : Origin T} {call : RuntimeCall T}

-- From the calls to their effects.

namespace Ledger

theorem retains_of_resolve (h : l.resolveTransactionRef r = some info) : l.Retains info := by
  cases r
  case position b i => exact ⟨b, i, h⟩
  case contentHash =>
    have ⟨p, _, h⟩ := Option.bind_eq_some_iff.mp h
    exact ⟨p.1, p.2, h⟩

@[simp]
theorem sealBlock_pendingRenewals : (l.sealBlock n).pendingRenewals = l.pendingRenewals := by
  simp only [sealBlock]
  split <;> rfl

theorem charge_resolveTransactionRef :
    (l.charge n).resolveTransactionRef r = l.resolveTransactionRef r := by
  cases r <;> rfl

end Ledger

-- What a call does to the ledger, in a block whose extrinsic index it leaves alone.
structure Acts (D : Set Content) (forces drops : Prop) (s s' : State T) : Prop where
  effect         : Effect D forces drops s.toLedger s'.toLedger
  extrinsicIndex : s'.extrinsicIndex = s.extrinsicIndex

namespace Acts

variable {forces drops : Prop}

theorem of_keeps (k : Keeps s s') : Acts D forces drops s s' :=
  ⟨k.ledger ▸ .none, k.extrinsicIndex⟩

theorem of_doStore (hD : (data, hashing) ∈ D) (h : s.doStore data hashing codec = ok s') :
    Acts D forces drops s s' := by
  have ⟨hs, _, _, hr, _, _, he⟩ := State.doStore_eq_ok.mp h
  subst he
  exact ⟨.stored hD ⟨rfl, rfl, rfl, hs⟩ rfl hr, rfl⟩

theorem of_forceRenewed (hc : Charged s s₁ info.size) (hi : s.toLedger.Retains info)
    (ha : s.toLedger.Affords info.size) (h : s₁.HasRoom) :
    Acts D forces drops s (s₁.forceRenewed info i h) := by
  refine ⟨?_, hc.extrinsicIndex⟩
  have hl := hc.ledger
  simp only [State.forceRenewed, State.deposit_toLedger]
  generalize s₁.toLedger = l₁ at hl h
  subst hl
  exact .renewed hi ha h

theorem of_registered (hc : Charged s s₁ info.size)
    (hr : s.resolveTransactionRef r = some info)
    (hh : contentHash = info.contentHash ∨ r = .contentHash contentHash)
    (hn : s.renewals.lookup contentHash = none) (ha : s.toLedger.Affords info.size) :
    Acts D forces drops s (s₁.registered contentHash who recurring) := by
  refine ⟨?_, hc.extrinsicIndex⟩
  simp only [State.registered, State.deposit_toLedger, hc.ledger]
  exact .registered hr hh hn ha

end Acts

namespace TransactionStorage

-- A store call is a store of its content, with the codec that it names.
theorem dispatch_store {call : Call T} (hc : call.content = some (data, hashing))
    (ho : ensureAuthorized origin = ok caller) :
    ∃ codec, ∀ s, dispatch s origin call = s.doStore data hashing codec := by
  cases call
  case store =>
    cases hc
    exact ⟨rawCodec, fun s => by simp [dispatch, State.store, ho]⟩
  case storeWithCidConfig cid _ =>
    cases hc
    exact ⟨cid.codec, fun s => by simp [dispatch, State.storeWithCidConfig, ho]⟩
  all_goals contradiction

theorem content_of_isStore {call : Call T} (h : call.isStore) : ∃ c, call.content = some c := by
  cases call
  case store | storeWithCidConfig => exact ⟨_, rfl⟩
  all_goals contradiction

end TransactionStorage

namespace Extrinsic

-- The state after a dispatch is that of a dispatch that succeeds, or the one before.
theorem dispatched_cases (P : State T → Prop) (hs : P s)
    (h : ∀ s', call.dispatch s origin = ok s' → P s') : P (dispatched s origin call) := by
  simp only [dispatched]
  split
  case h_1 hd => exact h _ hd
  case h_2    => exact hs

theorem dispatched_of_ok (h : call.dispatch s origin = ok s') : dispatched s origin call = s' := by
  simp [dispatched, h]

-- Dispatching a call that no authorization pays for, other than the inherent that serves the pending
-- renewals, leaves the ledger alone.
theorem dispatched_keeps (hf : IsFree call) (ho : origin = .none ∨ ∃ who, origin = .signed who)
    (hp : call = .dataRenewal .processPendingRenewals → origin ≠ .none) :
    Keeps s (dispatched s origin call) := by
  refine dispatched_cases (Keeps s) ⟨rfl, rfl⟩ fun s' h => ?_
  cases call
  case transactionStorage call => exact TransactionStorage.dispatch_keeps hf h
  case hopPromotion call =>
    obtain ho | ⟨_, ho⟩ := ho <;> subst ho <;> contradiction
  case dataRenewal call =>
    cases call
    case processPendingRenewals =>
      obtain ho | ⟨_, ho⟩ := ho
      · exact absurd ho (hp rfl)
      · subst ho
        contradiction
    all_goals contradiction
  all_goals
    cases h
    exact ⟨rfl, rfl⟩

-- The dispatches of the renewal calls after their charge: none of their guards can fail any more.

theorem dispatch_forceRenew (hc : Charged s s₁ info.size) (hx : s.extrinsicIndex = some i)
    (ho : ensureAuthorized origin = ok caller) (hr : s.resolveTransactionRef entry = some info)
    (hs : dataSizeOk T info.size) (h : s₁.HasRoom) :
    (RuntimeCall.dataRenewal (.forceRenew entry)).dispatch s₁ origin =
      ok (s₁.forceRenewed info i h) := by
  rw [← Ledger.charge_resolveTransactionRef, ← hc.ledger] at hr
  exact State.forceRenew_eq_ok.mpr
    ⟨caller, info, i, h, ho, hr, hs, hc.extrinsicIndex.trans hx, rfl⟩

theorem dispatch_renew (hc : Charged s s₁ info.size)
    (hr : s.resolveTransactionRef entry = some info)
    (hn : s.renewals.lookup info.contentHash = none) :
    (RuntimeCall.dataRenewal (.renew entry)).dispatch s₁ (.authorized who scope) =
      ok (s₁.registered info.contentHash who false) := by
  rw [← Ledger.charge_resolveTransactionRef, ← hc.ledger] at hr
  exact State.renew_eq_ok.mpr ⟨who, scope, info, rfl, hr, (hc.lookup _).trans hn, rfl⟩

theorem dispatch_enableAutoRenew (hc : Charged s s₁ info.size)
    (hr : s.resolveTransactionRef (.contentHash contentHash) = some info)
    (hn : s.renewals.lookup contentHash = none) :
    (RuntimeCall.dataRenewal (.enableAutoRenew contentHash)).dispatch s₁ (.authorized who scope) =
      ok (s₁.registered contentHash who true) := by
  rw [← Ledger.charge_resolveTransactionRef, ← hc.ledger] at hr
  exact State.enableAutoRenew_eq_ok.mpr ⟨who, scope, info, rfl, (hc.lookup _).trans hn, hr, rfl⟩

theorem plainOrigin_cases (h : ∀ call, x ≠ .general call) :
    x.plainOrigin = .none ∨ ∃ who, x.plainOrigin = .signed who := by
  cases x
  case signed who _ => exact .inr ⟨who, rfl⟩
  case unsigned     => exact .inl rfl
  case general call => exact absurd rfl (h call)

theorem drains_of_call (hc : x.call = .dataRenewal .processPendingRenewals)
    (hn : x.plainOrigin = .none) : (Action.extrinsic x).drains := by
  cases x
  case unsigned => cases hc; rfl
  all_goals contradiction

-- What an admitted extrinsic does, unless it serves the pending renewals.
theorem admitted_acts (ha : Admitted s x origin s₁) (hi : s.extrinsicIndex = some i)
    (hD : ∀ c ∈ x.call.content, c ∈ D) (hx : ¬(Action.extrinsic x).drains) :
    Acts D forces drops s (dispatched s₁ origin x.call) := by
  cases ha
  case store call data hashing scope a caller hc hd _ _ _ _ ho =>
    obtain ⟨codec, hs⟩ := TransactionStorage.dispatch_store hd ho
    rw [hc] at hD ⊢
    refine dispatched_cases (Acts D forces drops s) (.of_keeps ⟨rfl, rfl⟩) fun s' h => ?_
    have ha : Acts D forces drops _ s' := .of_doStore (hD _ hd) ((hs _).symm.trans h)
    exact ⟨ha.effect, ha.extrinsicIndex⟩
  case forceRenew entry info scope a caller hc hr _ hs hroom ha ho _ =>
    have hg := Charge.renew_charged s scope a info.size
    have hroom := hg.hasRoom hroom
    rw [hc, dispatched_of_ok <| dispatch_forceRenew hg hi ho hr hs hroom]
    exact .of_forceRenewed hg (Ledger.retains_of_resolve hr) (State.affords_of_renewable ha) hroom
  case renew who entry info a hc hr hn ha =>
    have hg := Charge.renew_charged s (.account who) a info.size
    subst hc
    rw [call, dispatched_of_ok <| dispatch_renew hg hr hn]
    exact .of_registered hg hr (.inl rfl) hn (State.affords_of_renewable ha)
  case enableAutoRenew who contentHash info a hc hn hr ha =>
    have hg := Charge.renew_charged s (.account who) a info.size
    subst hc
    rw [call, dispatched_of_ok <| dispatch_enableAutoRenew hg hr hn]
    exact .of_registered hg hr (.inr rfl) hn (State.affords_of_renewable ha)
  case disableAutoRenew who contentHash data hc hl _ hp =>
    subst hc
    refine dispatched_cases (Acts D forces drops s) (.of_keeps ⟨rfl, rfl⟩) fun s' h => ?_
    obtain ⟨_, _, _, _, _, he⟩ := State.disableAutoRenew_eq_ok.mp h
    subst he
    exact ⟨.unregistered hl hp, rfl⟩
  case promotion call hc hs hr =>
    subst hc
    exact dispatched_cases (Acts D forces drops s) (.of_keeps ⟨rfl, rfl⟩) fun s' h =>
      .of_doStore (hD _ rfl) h
  case free hf hg ho =>
    subst ho
    exact .of_keeps <| dispatched_keeps hf (plainOrigin_cases hg) fun hc hn =>
      hx (drains_of_call hc hn)

theorem isFree_of_isInherent (h : x.isInherent) : IsFree x.call ∧ x.plainOrigin = .none := by
  cases x
  case unsigned call =>
    cases call
    case transactionStorage call =>
      refine ⟨?_, rfl⟩
      cases call <;> first | contradiction | exact nofun
    case dataRenewal => exact ⟨h, rfl⟩
    all_goals first | contradiction | exact ⟨trivial, rfl⟩
  all_goals contradiction

-- The inherents of the storage pallet and of other pallets leave the ledger alone.
theorem admitted_inherent (ha : Admitted s x origin s₁) (hi : x.isInherent)
    (hx : ¬(Action.extrinsic x).drains) : Keeps s (dispatched s₁ origin x.call) := by
  have ⟨hf, hn⟩ := isFree_of_isInherent hi
  cases ha
  case store call data _ _ _ _ hc hd _ _ _ _ _ =>
    rw [hc] at hf
    cases call <;> contradiction
  case forceRenew hc _ _ _ _ _ _ _ =>
    rw [hc] at hf
    contradiction
  case free hf hg ho =>
    rw [hn] at ho
    exact dispatched_keeps hf (.inl ho) fun hc _ => hx (drains_of_call hc hn)
  all_goals
    subst x
    contradiction

-- A dispatch of Root or of a signer, or of a message from another chain.
theorem dispatched_acts (ho : origin.isPlain) (hD : ∀ c ∈ call.content, c ∈ D) :
    Acts D (Action.dispatch origin call).forcesRenew
      ((Action.dispatch origin call).dropsPaid s.toLedger) s (dispatched s origin call) := by
  refine dispatched_cases (Acts D _ _ s) (.of_keeps ⟨rfl, rfl⟩) fun s' h => ?_
  cases call
  case transactionStorage call =>
    by_cases hs : call.isStore
    · have ⟨(data, hashing), hd⟩ := TransactionStorage.content_of_isStore hs
      cases origin
      case root =>
        have ho : ensureAuthorized (.root : Origin T) = ok .root := rfl
        have ⟨codec, hs⟩ := TransactionStorage.dispatch_store hd ho
        exact .of_doStore (hD _ hd) ((hs _).symm.trans h)
      all_goals cases call <;> contradiction
    · exact .of_keeps <| TransactionStorage.dispatch_keeps hs h
  case hopPromotion call => cases origin <;> contradiction
  case dataRenewal call =>
    cases call
    case forceRenew entry =>
      have ⟨_, info, i, hr, hc, hi, hs, hx, he⟩ := State.forceRenew_eq_ok.mp h
      subst he
      cases origin <;> try contradiction
      exact ⟨.forced rfl (Ledger.retains_of_resolve hi) hr, rfl⟩
    case disableAutoRenew contentHash =>
      have ⟨_, data, hc, hl, hm, he⟩ := State.disableAutoRenew_eq_ok.mp h
      subst he
      cases origin <;> try contradiction
      by_cases hp : data.paid
      · exact ⟨.dropped (by simp [Action.dropsPaid, hl, hp]) hl, rfl⟩
      · exact ⟨.unregistered hl hp, rfl⟩
    all_goals cases origin <;> contradiction
  all_goals
    cases h
    exact .of_keeps ⟨rfl, rfl⟩

end Extrinsic

namespace Chain

variable {c c' : Chain T} {a : Action T}

-- What holds of a chain between any two actions: in a block there is an extrinsic index, and between
-- blocks no renewal is pending.
structure Ready (c : Chain T) : Prop where
  index   : c.inBlock → ∃ i, c.state.extrinsicIndex = some i
  pending : ¬c.inBlock → c.ledger.pendingRenewals = .empty

theorem finalized_eq_some (h : finalized s = some s') :
    s.pendingRenewals.val = [] ∧ s'.toLedger = s.toLedger.sealBlock s.blockNumber := by
  have ⟨t, ht, h⟩ := Option.bind_eq_some_iff.mp h
  simp only [State.storageOnFinalize] at ht
  split at ht <;> cases ht
  simp only [State.renewalOnFinalize, Ledger.sealBlock_pendingRenewals] at h
  split at h <;> cases h
  case isTrue hp => exact ⟨hp, rfl⟩

-- After an extrinsic comes the next one.
theorem Ready.next (h : s.extrinsicIndex = some i) :
    Ready ⟨{ s with extrinsicIndex := s.extrinsicIndex.map (· + 1) }, true⟩ :=
  ⟨fun _ => ⟨i + 1, by simp [h]⟩, nofun⟩

theorem drains_eq (h : (Action.extrinsic x).drains) :
    x = .unsigned (.dataRenewal .processPendingRenewals) := by
  simp only [Action.drains] at h
  split at h
  case h_1 hx => exact Action.extrinsic.inj hx
  case h_2    => contradiction

theorem extrinsic_evolves (hb : c.inBlock) (hi : ∃ i, c.state.extrinsicIndex = some i)
    (hD : ∀ y ∈ x.call.content, y ∈ D) (h : x.apply c.state = some s') :
    Evolves D c (.extrinsic x) ⟨s', true⟩ ∧ Ready ⟨s', true⟩ := by
  have ⟨i, hi⟩ := hi
  simp only [Extrinsic.apply] at h
  split at h
  case h_1 => contradiction
  case h_2 origin s₁ ha =>
    cases h
    by_cases hd : (Action.extrinsic x).drains
    · cases drains_eq hd
      cases ha
      have ⟨hs, hx⟩ := State.doProcessPendingRenewals_serves hi
      exact ⟨.drained hb rfl hd hs, .next hx⟩
    · have ha := Extrinsic.admission_admitted ha
      have hx : Acts D (Action.extrinsic x).forcesRenew ((Action.extrinsic x).dropsPaid c.ledger)
          c.state (Extrinsic.dispatched s₁ origin x.call) := Extrinsic.admitted_acts ha hi hD hd
      refine ⟨?_, .next (hx.extrinsicIndex.trans hi)⟩
      by_cases hn : x.isInherent
      · exact .idle hb.symm (Extrinsic.admitted_inherent ha hn hd).ledger
      · exact .called hb rfl (by simp [Action.isCall, hn]) hx.effect

theorem step_evolves (r : c.Ready) (hD : ∀ x ∈ a.content, x ∈ D) (h : c.step a = some c') :
    Evolves D c a c' ∧ c'.Ready := by
  cases a
  case onInitialize parentHash moment =>
    simp only [step] at h
    split at h <;> cases h
    case isTrue hb =>
      have ⟨ho, hx⟩ := State.onInitialize_opened
        { c.state with
          parentHash      := parentHash
          timestamp       := moment
          extrinsicIndex  := some 0
          indexOperations := []
          events          := [] } hb.right (r.pending hb.left)
      exact ⟨.opened hb.left rfl ho hb.right, ⟨fun _ => ⟨0, hx⟩, fun h => absurd rfl h⟩⟩
  case extrinsic x =>
    simp only [step] at h
    split at h
    case isFalse => contradiction
    case isTrue hb =>
      have ⟨s', hx, hc⟩ := Option.map_eq_some_iff.mp h
      subst hc
      exact extrinsic_evolves hb (r.index hb) hD hx
  case dispatch origin call =>
    simp only [step] at h
    split at h <;> cases h
    case isTrue hb =>
      have ha := Extrinsic.dispatched_acts (s := c.state) hb.right hD
      have ⟨i, hi⟩ := r.index hb.left
      exact ⟨.called hb.left rfl rfl ha.effect,
        ⟨fun _ => ⟨i, ha.extrinsicIndex.trans hi⟩, fun h => absurd rfl h⟩⟩
  case setRetentionPeriod period =>
    cases h
    exact ⟨.extended rfl rfl, ⟨r.index, r.pending⟩⟩
  case onFinalize =>
    simp only [step] at h
    split at h
    case isFalse => contradiction
    case isTrue hb =>
      have ⟨s', hf, hc⟩ := Option.map_eq_some_iff.mp h
      subst hc
      have ⟨hp, hs⟩ := finalized_eq_some hf
      have he : s'.pendingRenewals = .empty := BoundedVec.ext <| by
        rw [hs, Ledger.sealBlock_pendingRenewals, hp]
        rfl
      exact ⟨.sealed hb nofun hp hs, ⟨nofun, fun _ => he⟩⟩

-- The invariants of the ledger: what holds at the start and is kept by everything that an action can
-- do to the ledger holds at the end of every run.
theorem runs_invariant {I : Chain T → Prop} {guard : Chain T → Action T → Prop} {as : List (Action T)}
    (r : c.Ready) (h : I c)
    (hs : ∀ {c a c'}, I c → guard c a → Evolves D c a c' → I c') :
    Runs step (fun c a => guard c a ∧ ∀ x ∈ a.content, x ∈ D) c as c' → I c' ∧ c'.Ready :=
  Runs.invariant (fun c => I c ∧ c.Ready) ⟨h, r⟩ fun h g e =>
    have ⟨he, r⟩ := step_evolves h.right g.right e
    ⟨hs h.left g.left he, r⟩

end Chain

namespace GenesisConfig

theorem foldl_ledger (f : State T → α → State T) (hf : ∀ s a, (f s a).toLedger = s.toLedger)
    (xs : List α) (s : State T) : (xs.foldl f s).toLedger = s.toLedger := by
  induction xs generalizing s
  case nil          => rfl
  case cons x xs hi => exact (hi _).trans (hf s x)

theorem chain_ledger (g : GenesisConfig T) :
    g.chain.ledger = (empty g.retentionPeriod : State T).toLedger := by
  refine (foldl_ledger buildAuthorizer (fun s a => ?_) _ _).trans ?_
  · simp only [buildAuthorizer]
    split <;> rfl
  · exact (foldl_ledger buildPreimage (fun _ _ => rfl) _ _).trans
      (foldl_ledger buildAccount (fun _ _ => rfl) _ _)

theorem chain_ready (g : GenesisConfig T) : g.chain.Ready :=
  ⟨nofun, fun _ => by rw [chain_ledger]; rfl⟩

end GenesisConfig
end Bulletin
