import BulletinChain.Events
import BulletinChain.Theorems.Access
import BulletinChain.Theorems.Accounting
import BulletinChain.Theorems.Window

namespace Bulletin

open Machine Except

variable {T : Config} {s s₁ s' : State T} {origin : Origin T} {info : TransactionInfo T}
  {contentHash : T.ContentHash} {data : RenewalData T} {item : Pending T}

-- The events between two states lead the observer from what it is to know in the first to what it is
-- to know in the second. A proof that was checked stays checked.
structure Emits (s s' : State T) : Prop where
  replay       : ∃ events, s'.events = s.events ++ events ∧
    events.foldlM Observer.see s.observer = some s'.observer
  proofChecked : s.proofChecked → s'.proofChecked

namespace Emits

theorem of_eq (he : s'.events = s.events) (ho : s'.observer = s.observer)
    (hp : s'.proofChecked = s.proofChecked) : Emits s s' :=
  ⟨⟨[], by simp [he], by rw [ho]; rfl⟩, fun h => hp.trans h⟩

theorem refl : Emits s s :=
  of_eq rfl rfl rfl

theorem trans (h : Emits s s₁) (h' : Emits s₁ s') : Emits s s' := by
  obtain ⟨⟨events, he, hf⟩, hp⟩ := h
  obtain ⟨⟨events', he', hf'⟩, hp'⟩ := h'
  refine ⟨⟨events ++ events', ?_, ?_⟩, hp' ∘ hp⟩
  · rw [he', he, List.append_assoc]
  · rw [List.foldlM_append, hf]
    exact hf'

-- A change of the state and the event that goes with it.
theorem deposit (he : s₁.events = s.events) (hp : s₁.proofChecked = s.proofChecked)
    (hs : s.observer.track e = some s₁.observer) (hn : s.observer.see e = s.observer.track e) :
    Emits s (s₁.deposit e) := by
  refine ⟨⟨[e], by simp [he], ?_⟩, fun h => hp.trans h⟩
  simp only [List.foldlM_cons, List.foldlM_nil, hn, hs]
  rfl

theorem withIndex (h : Emits s s') (i : Option Nat) : Emits s { s' with extrinsicIndex := i } :=
  ⟨h.replay, h.proofChecked⟩

end Emits

def State.withAccess (s : State T) (g : Access T) : State T :=
  { s with
    authorizations     := g.authorizations
    allowedAuthorizers := g.allowedAuthorizers
    providers          := g.providers }

-- Nothing but the authorizations, the authorizers and the references is written to.
def OnlyAccess (s s' : State T) : Prop :=
  s' = s.withAccess s'.access

namespace OnlyAccess

theorem trans (h : OnlyAccess s s₁) (h' : OnlyAccess s₁ s') : OnlyAccess s s' := by
  rw [OnlyAccess, h', h]
  rfl

theorem emits (h : OnlyAccess s s') : Emits s s' :=
  h ▸ .of_eq rfl rfl rfl

-- With an event that the observer has no use for.
theorem emits_deposit (h : OnlyAccess s s') (he : s.observer.see e = some s.observer) :
    Emits s (s'.deposit e) := by
  rw [h]
  refine ⟨⟨[e], rfl, ?_⟩, id⟩
  simp only [List.foldlM_cons, List.foldlM_nil, he]
  rfl

end OnlyAccess

namespace State

variable {scope : AuthorizationScope T}

theorem consumeBudgetOf_onlyAccess (h : s.consumeBudgetOf auth n b = ok s') : OnlyAccess s s' := by
  cases auth
  case none => cases h; rfl
  case some =>
    simp only [consumeBudgetOf, consumeAuthorizerBudget] at h
    split at h
    case h_1 => cases h; rfl
    case h_2 => split at h <;> cases h; rfl

theorem authorizationAdded_onlyAccess : OnlyAccess s (s.authorizationAdded scope) := by
  cases scope <;> rfl

theorem authorizationRemoved_onlyAccess : OnlyAccess s (s.authorizationRemoved scope) := by
  cases scope <;> rfl

theorem withAuthorizations_onlyAccess (m : Finmap fun _ : AuthorizationScope T => Authorization) :
    OnlyAccess s { s with authorizations := m } :=
  rfl

theorem authorize_onlyAccess (h : s.authorize scope n b auth = ok s') : OnlyAccess s s' := by
  obtain ⟨t, ht, h⟩ := bind_eq_ok.mp h
  have k := consumeBudgetOf_onlyAccess ht
  split at h <;> cases h
  case h_1 => exact k.trans (withAuthorizations_onlyAccess _)
  case h_2 => exact k.trans ((withAuthorizations_onlyAccess _).trans authorizationAdded_onlyAccess)

theorem refreshAuthorization_onlyAccess (h : s.refreshAuthorization scope auth = ok s') :
    OnlyAccess s s' := by
  simp only [refreshAuthorization] at h
  split at h <;> cases h
  rfl

theorem removeExpiredAuthorization_onlyAccess (h : s.removeExpiredAuthorization scope = ok s') :
    OnlyAccess s s' := by
  obtain ⟨_, _, h⟩ := bind_eq_ok.mp h
  obtain ⟨_, _, h⟩ := bind_eq_ok.mp h
  cases h
  exact (withAuthorizations_onlyAccess _).trans authorizationRemoved_onlyAccess

-- The updates of the ledger, each with its event.

theorem updatePermanentStorageUsed_emits (f : Nat → Nat) :
    Emits s (s.updatePermanentStorageUsed f) := by
  have hs {b : Bool} (hb : decide (s.permanentStorageUsed < Observer.threshold T ∧
      Observer.threshold T ≤ f s.permanentStorageUsed) = b) :
      s.observer.see (.permanentStorageUsedUpdated (f s.permanentStorageUsed)) =
        some { s.observer with used := f s.permanentStorageUsed, alarm := b } := hb ▸ rfl
  simp only [updatePermanentStorageUsed]
  split
  case isTrue h =>
    refine ⟨⟨[.permanentStorageUsedUpdated (f s.permanentStorageUsed),
      .permanentStorageNearCap (f s.permanentStorageUsed) T.maxPermanentStorageSize],
      by simp, ?_⟩, id⟩
    rw [List.foldlM_cons, hs (decide_eq_true h)]
    simp [Observer.see, observer]
  case isFalse h =>
    refine ⟨⟨[.permanentStorageUsedUpdated (f s.permanentStorageUsed)], by simp, ?_⟩, id⟩
    rw [List.foldlM_cons, hs (decide_eq_false h)]
    rfl

theorem observer_appended (h : s.HasRoom) :
    s.observer.appended s.blockTransactions.val.length e.contentHash =
      some { s with toLedger := s.toLedger.appended e h }.observer := by
  simp [Observer.appended, observer, Ledger.appended]

theorem stored_emits (h : s.HasRoom) : Emits s (s.stored d cid x b h) :=
  .deposit rfl rfl (observer_appended (e := storedEntry d cid x) h) rfl

theorem forceRenewed_emits (h : s.HasRoom) : Emits s (s.forceRenewed info x h) :=
  .deposit rfl rfl (observer_appended (e := info.renewal x) h) rfl

theorem registered_emits (h : s.renewals.lookup contentHash = none) :
    Emits s (s.registered contentHash who recurring) := by
  refine .deposit rfl rfl ?_ rfl
  simp [Observer.track, Observer.register, observer, h, Ledger.register]

theorem observer_registration (h : s.renewals.lookup contentHash = some data) :
    s.observer.registration contentHash data.account = some data := by
  simp [Observer.registration, observer, h]

theorem observer_unregister (h : s.renewals.lookup contentHash = some data) :
    s.observer.unregister contentHash data.account =
      some { s with toLedger := s.toLedger.unregister contentHash }.observer := by
  rw [Observer.unregister, observer_registration h]
  rfl

theorem unregistered_emits (h : s.renewals.lookup contentHash = some data) :
    Emits s (s.unregistered contentHash data.account) :=
  .deposit rfl rfl (observer_unregister h) rfl

end State

theorem Charge.apply_emits (charge : Charge T) : Emits s (charge.apply s) := by
  cases charge
  case nothing => exact .refl
  case store   => exact (State.withAuthorizations_onlyAccess _).emits
  case renew scope a size =>
    have h : Emits s (s.withAuthorization scope (DataRenewal.charged a size)) :=
      (State.withAuthorizations_onlyAccess _).emits
    exact h.trans (State.updatePermanentStorageUsed_emits (saturatingAdd u64Max · size))

namespace State

theorem updatePermanentStorageUsed_renewals (f : Nat → Nat) :
    (s.updatePermanentStorageUsed f).renewals = s.renewals := by
  obtain ⟨_, h⟩ := updatePermanentStorageUsed_eq (s := s) (f := f)
  rw [h]

-- The charge for a pending renewal leaves its registration alone.
theorem chargePending_emits (info : TransactionInfo T) (data : RenewalData T) :
    Emits s (s.chargePending info data).2 ∧
      (s.chargePending info data).2.renewals = s.renewals := by
  simp only [chargePending, DataRenewal.checkRenewAuthorization_eq]
  split
  case isTrue => exact ⟨.refl, rfl⟩
  case isFalse =>
    cases s.renewable (.account data.account) info.size
    case error => exact ⟨.refl, rfl⟩
    case ok a =>
      simp only [if_true]
      exact ⟨Charge.apply_emits _, updatePermanentStorageUsed_renewals _⟩

theorem observer_delivered (h : s.HasRoom) (hl : s.renewals.lookup contentHash = some data)
    (hn : info.contentHash = contentHash) :
    s.observer.delivered s.blockTransactions.val.length contentHash data.account =
      some { s with
        toLedger := (s.toLedger.appended (info.renewal x) h).settle contentHash data }.observer := by
  rw [Observer.delivered, observer_registration hl]
  subst hn
  simp [Observer.appended, observer, Ledger.appended, Ledger.settle, TransactionInfo.renewal]

theorem renewPending_emits (x : Nat) (hn : item.2.1.contentHash = item.1)
    (hq : s.renewals.lookup item.1 = some item.2.2) : Emits s (renewPending x s item) := by
  obtain ⟨contentHash, info, data⟩ := item
  obtain ⟨hc, hr⟩ := chargePending_emits (s := s) info data
  refine hc.trans ?_
  simp only [renewPending]
  generalize s.chargePending info data = r at hr ⊢
  obtain ⟨charged, s₁⟩ := r
  have hl : s₁.renewals.lookup contentHash = some data := hr ▸ hq
  cases charged
  case false => exact .deposit rfl rfl (observer_unregister hl) rfl
  case true =>
    simp only [if_true]
    by_cases hr : s₁.HasRoom
    · rw [BlockTransactionsMut.renew_eq_some.mpr ⟨hr, rfl, rfl⟩]
      simp only [settlePending_eq]
      exact .deposit rfl rfl (observer_delivered hr hl hn) rfl
    · rw [BlockTransactionsMut.renew_of_not_hasRoom hr]
      have hl := (updatePermanentStorageUsed_renewals (s := s₁) (· - info.size)) ▸ hl
      exact (updatePermanentStorageUsed_emits _).trans (.deposit rfl rfl (observer_unregister hl) rfl)

theorem foldl_renewPending_emits (x : Nat) (items : List (Pending T))
    (p : s.toLedger.Pended items) : Emits s (items.foldl (renewPending x) s) := by
  induction items generalizing s
  case nil => exact .refl
  case cons item items hi =>
    have h := renewPending_emits x (p.named item List.mem_cons_self) (p.queued item List.mem_cons_self)
    exact h.trans (hi (p.served (renewPending_drained x s item).left.served))

theorem doProcessPendingRenewals_emits (hx : s.extrinsicIndex = some x)
    (p : s.toLedger.Pended s.pendingRenewals.val) : Emits s s.doProcessPendingRenewals := by
  rw [doProcessPendingRenewals_of_some hx]
  have h : Emits s { s with pendingRenewals := .empty } := .of_eq rfl rfl rfl
  exact h.trans (foldl_renewPending_emits x _ p.taken)

theorem applyBlockInherents_emits (h : s.applyBlockInherents origin proof = ok s') : Emits s s' := by
  obtain ⟨_, _, h⟩ := bind_eq_ok.mp h
  cases proof
  case none => cases h; exact .refl
  case some proof =>
    obtain ⟨_, _, h⟩ := bind_eq_ok.mp h
    obtain ⟨_, _, h⟩ := bind_eq_ok.mp h
    obtain ⟨_, _, h⟩ := bind_eq_ok.mp h
    obtain ⟨_, _, h⟩ := bind_eq_ok.mp h
    cases h
    exact ⟨⟨[.proofChecked], rfl, rfl⟩, fun _ => rfl⟩

theorem doStore_emits (h : s.doStore d hashing codec = ok s') : Emits s s' := by
  obtain ⟨_, _, _, hr, _, _, he⟩ := doStore_eq_ok.mp h
  exact he ▸ stored_emits hr

end State

namespace TransactionStorage

-- What a call does, and the event of one that only changes who has access.
inductive Outcome (s : State T) (origin : Origin T) : State T → Prop
  | stored    : s.doStore d hashing codec = ok t → Outcome s origin t
  | inherents : s.applyBlockInherents origin proof = ok t → Outcome s origin t
  | access    : OnlyAccess s t → s.observer.see e = some s.observer → Outcome s origin (t.deposit e)
  | same      : Outcome s origin s

theorem dispatch_cases {call : Call T} (h : dispatch s origin call = ok s') : Outcome s origin s' := by
  cases call
  case store | storeWithCidConfig =>
    obtain ⟨_, _, h⟩ := bind_eq_ok.mp h
    exact .stored h
  case applyBlockInherents => exact .inherents h
  case authorizeAccount | authorizePreimage =>
    obtain ⟨_, _, h⟩ := bind_eq_ok.mp h
    obtain ⟨_, _, h⟩ := bind_eq_ok.mp h
    obtain ⟨_, hs, h⟩ := bind_eq_ok.mp h
    cases h
    exact .access (State.authorize_onlyAccess hs) rfl
  case refreshAccountAuthorization | refreshPreimageAuthorization =>
    obtain ⟨_, _, h⟩ := bind_eq_ok.mp h
    obtain ⟨_, hs, h⟩ := bind_eq_ok.mp h
    cases h
    exact .access (State.refreshAuthorization_onlyAccess hs) rfl
  case removeExpiredAccountAuthorization | removeExpiredPreimageAuthorization =>
    obtain ⟨_, hs, h⟩ := bind_eq_ok.mp h
    cases h
    exact .access (State.removeExpiredAuthorization_onlyAccess hs) rfl
  case addAuthorizer =>
    obtain ⟨_, _, h⟩ := bind_eq_ok.mp h
    obtain ⟨_, _, h⟩ := bind_eq_ok.mp h
    cases h
    refine .access ?_ rfl
    split <;> rfl
  case removeAuthorizer =>
    obtain ⟨_, _, h⟩ := bind_eq_ok.mp h
    split at h <;> cases h
    case h_1 => exact .access rfl rfl
    case h_2 => exact .same
  case removeExhaustedAuthorizer =>
    obtain ⟨_, _, h⟩ := bind_eq_ok.mp h
    obtain ⟨_, _, h⟩ := bind_eq_ok.mp h
    cases h
    exact .access rfl rfl

theorem dispatch_emits {call : Call T} (h : dispatch s origin call = ok s') : Emits s s' := by
  cases dispatch_cases h
  case stored hs     => exact State.doStore_emits hs
  case inherents hi  => exact State.applyBlockInherents_emits hi
  case access ha hs  => exact ha.emits_deposit hs
  case same          => exact .refl

end TransactionStorage

namespace RuntimeCall

variable {call : RuntimeCall T}

-- The inherent is only in order with renewals that are pending of their registrations.
theorem dispatch_emits (hx : s.extrinsicIndex = some x)
    (p : call = .dataRenewal .processPendingRenewals → s.toLedger.Pended s.pendingRenewals.val)
    (h : call.dispatch s origin = ok s') : Emits s s' := by
  cases call
  case transactionStorage call => exact TransactionStorage.dispatch_emits h
  case hopPromotion call =>
    obtain ⟨_, _, h⟩ := bind_eq_ok.mp h
    exact State.doStore_emits h
  case dataRenewal call =>
    cases call
    case renew =>
      obtain ⟨_, _, _, _, _, hn, he⟩ := State.renew_eq_ok.mp h
      exact he ▸ State.registered_emits hn
    case forceRenew =>
      obtain ⟨_, _, _, hr, _, _, _, _, he⟩ := State.forceRenew_eq_ok.mp h
      exact he ▸ State.forceRenewed_emits hr
    case enableAutoRenew =>
      obtain ⟨_, _, _, _, hn, _, he⟩ := State.enableAutoRenew_eq_ok.mp h
      exact he ▸ State.registered_emits hn
    case disableAutoRenew =>
      obtain ⟨_, _, _, hl, _, he⟩ := State.disableAutoRenew_eq_ok.mp h
      exact he ▸ State.unregistered_emits hl
    case processPendingRenewals =>
      obtain ⟨_, _, h⟩ := bind_eq_ok.mp h
      cases h
      exact State.doProcessPendingRenewals_emits hx (p rfl)
  all_goals
    cases h
    exact .refl

end RuntimeCall

variable {x : Extrinsic T}

theorem Admitted.emits (h : Admitted s x origin s₁) :
    Emits s s₁ ∧ s₁.extrinsicIndex = s.extrinsicIndex := by
  cases h
  case store => exact ⟨Charge.apply_emits _, rfl⟩
  case forceRenew | renew | enableAutoRenew =>
    exact ⟨Charge.apply_emits _, (Charge.renew_charged ..).extrinsicIndex⟩
  case disableAutoRenew | promotion | free => exact ⟨.refl, rfl⟩

-- Nobody pays for the inherent.
theorem Admitted.eq_of_inherent (h : Admitted s x origin s₁)
    (hc : x.call = .dataRenewal .processPendingRenewals) : s₁ = s := by
  cases h
  case store h _ _ _ _ _ _ =>
    rw [hc] at h
    cases h
  case forceRenew h _ _ _ _ _ _ _ =>
    rw [hc] at h
    cases h
  case renew h _ _ _ | enableAutoRenew h _ _ _ =>
    rw [h] at hc
    cases hc
  case disableAutoRenew | promotion | free => rfl

namespace Extrinsic

theorem dispatched_emits {call : RuntimeCall T} (hx : s.extrinsicIndex = some i)
    (p : call = .dataRenewal .processPendingRenewals → s.toLedger.Pended s.pendingRenewals.val) :
    Emits s (dispatched s origin call) :=
  dispatched_cases (Emits s) .refl fun _ h => RuntimeCall.dispatch_emits hx p h

theorem apply_emits (hx : s.extrinsicIndex = some i) (p : s.toLedger.Pended s.pendingRenewals.val)
    (h : x.apply s = some s') : Emits s s' := by
  simp only [apply] at h
  split at h <;> cases h
  case h_2 origin s₁ ha =>
    have ha := admission_admitted ha
    have hi := ha.emits.right.trans hx
    refine (ha.emits.left.trans (dispatched_emits hi fun hc => ?_)).withIndex _
    rw [ha.eq_of_inherent hc]
    exact p

end Extrinsic

namespace State

theorem handleObsolete_emits (items : List (TransactionInfo T × Bool)) :
    Emits s (s.handleObsolete items) ∧
      (s.handleObsolete items).transactionByContentHash = s.transactionByContentHash := by
  have hu (n : Nat) : Emits s (if 0 < n then s.updatePermanentStorageUsed (· - n) else s) ∧
      (if 0 < n then s.updatePermanentStorageUsed (· - n) else s).transactionByContentHash =
        s.transactionByContentHash := by
    split
    case isTrue =>
      obtain ⟨_, h⟩ := updatePermanentStorageUsed_eq (s := s) (f := (· - n))
      exact ⟨updatePermanentStorageUsed_emits _, by rw [h]⟩
    case isFalse => exact ⟨.refl, rfl⟩
  obtain ⟨he, hi⟩ := hu ((items.filter (·.1.kind.isRenew)).foldl
    (fun acc item => saturatingAdd u64Max acc item.1.size) 0)
  simp only [handleObsolete]
  generalize (if 0 < (items.filter (·.1.kind.isRenew)).foldl
    (fun acc item => saturatingAdd u64Max acc item.1.size) 0 then _ else s) = s₁ at he hi ⊢
  split
  case isTrue  => exact ⟨he.trans (.of_eq rfl rfl rfl), hi⟩
  case isFalse => exact ⟨he, hi⟩

-- The events of `on_initialize` come after the sweep.
theorem onInitialize_emits (s : State T) (n : Nat) :
    ∃ transactions, Emits
      { s with transactions, transactionByContentHash := (s.onInitialize n).transactionByContentHash }
      (s.onInitialize n) := by
  simp only [onInitialize, storageOnInitialize]
  split
  case isFalse => exact ⟨s.transactions, .refl⟩
  case isTrue =>
    split
    case h_2 => exact ⟨s.transactions, .refl⟩
    case h_1 => 
      refine ⟨s.transactions.erase (n - saturatingAdd maxBlockNumber s.retentionPeriod 1), ?_⟩
      rw [handleObsolete_emits _ |>.right]
      exact (handleObsolete_emits _).left

end State

-- Of the positions that the index knows, the sweep drops those that are past the period.
theorem Opened.translate_index {l l' : Ledger T} (h : Opened l l')
    (v : (l.log False).Valid contentKey) :
    l'.transactionByContentHash = l.transactionByContentHash.translate fun _ position =>
      if l.blockNumber + 1 ≤ position.1 + l.retentionPeriod then some position else none := by
  apply Finmap.ext_lookup
  intro hash
  have hl : l'.transactionByContentHash.lookup hash =
      (l.transactionByContentHash.lookup hash).filter (·.1 ≠ l.obsolete) :=
    congrFun (congrArg RetentionLog.index (h.log_eq v)) hash
  rw [hl, Finmap.lookup_translate]
  cases hp : l.transactionByContentHash.lookup hash
  case none => rfl
  case some p =>
    obtain ⟨b, i⟩ := p
    obtain ⟨e, ha, _⟩ := v.exact.sound hp
    obtain ⟨es, he, _⟩ := Ledger.transactionInfo_eq_some.mp ((Ledger.log_at v).mp ha)
    have hb : (l.log False).blocks b = some es.val := Ledger.log_blocks_eq_some.mpr ⟨es, he, rfl⟩
    have hk : l.blockNumber ≤ b + l.retentionPeriod := v.window.kept hb
    have hz := v.window.pos hb
    have hi : b ≠ l.obsolete ↔ l.blockNumber + 1 ≤ b + l.retentionPeriod := by
      simp only [Ledger.obsolete]
      omega
    simp only [Option.bind_some, ← hi, Option.filter, decide_eq_true_eq]

namespace Action

-- The actions within a block.
def isBody : Action T → Bool
  | .onInitialize .. | .onFinalize => false
  | _                              => true

end Action

namespace Chain

variable {c c' : Chain T} {a : Action T} {D : Set Content}

theorem step_emits (t : c.Tidy D) (r : c.Ready) (hb : a.isBody) (h : c.step a = some c') :
    Emits c.state c'.state := by
  cases a
  case extrinsic x =>
    simp only [step] at h
    split at h
    case isFalse => contradiction
    case isTrue hc =>
      obtain ⟨s', hx, hc'⟩ := Option.map_eq_some_iff.mp h
      obtain ⟨i, hi⟩ := r.index hc
      subst hc'
      exact Extrinsic.apply_emits hi t.pended hx
  case dispatch origin call =>
    simp only [step] at h
    split at h <;> cases h
    case isTrue hc =>
      obtain ⟨i, hi⟩ := r.index hc.left
      exact Extrinsic.dispatched_emits hi fun _ => t.pended
  case setRetentionPeriod =>
    cases h
    exact .of_eq rfl rfl rfl
  all_goals contradiction

theorem finalized_observer (h : finalized s = some s') :
    s'.events = s.events ∧ s'.observer = { s.observer with next := 0 } := by
  obtain ⟨t, ht, h⟩ := Option.bind_eq_some_iff.mp h
  simp only [State.storageOnFinalize] at ht
  split at ht <;> cases ht
  simp only [State.renewalOnFinalize] at h
  split at h <;> cases h
  refine ⟨rfl, ?_⟩
  simp only [State.observer, Ledger.sealBlock]
  split <;> rfl

-- The observer knows the chain. Between blocks it may still count the entries of the last one.
structure Observes (o : Observer T) (c : Chain T) : Prop where
  view : o = { c.state.observer with next := o.next }
  next : c.inBlock → o.next = c.state.blockTransactions.val.length

theorem Observes.eq (h : Observes o c) (hb : c.inBlock) : o = c.state.observer := by
  rw [h.view, h.next hb]
  rfl

theorem foldlM_observe (period : Nat) (events : List (Event T)) (o : Observer T) :
    (events.map Record.event).foldlM (Observer.observe period) o = events.foldlM Observer.see o := by
  rw [List.foldlM_map]
  rfl

theorem Observes.body (o : Observes v c) (hb : c.inBlock) (e : Emits c.state c'.state)
    (period : Nat) :
    ∃ v', ((c'.state.events.drop c.state.events.length).map Record.event).foldlM
      (Observer.observe period) v = some v' ∧ Observes v' c' := by
  obtain ⟨events, he, hf⟩ := e.replay
  refine ⟨c'.state.observer, ?_, ⟨rfl, fun _ => rfl⟩⟩
  rw [foldlM_observe, he, List.drop_left, o.eq hb]
  exact hf

theorem Observes.unchanged (o : Observes v c) (he : c'.state.events = c.state.events)
    (hv : c'.state.observer = { c.state.observer with next := c'.state.observer.next })
    (hn : c'.inBlock → c.inBlock ∧ c'.state.blockTransactions = c.state.blockTransactions)
    (period : Nat) :
    ∃ v', ((c'.state.events.drop c.state.events.length).map Record.event).foldlM
      (Observer.observe period) v = some v' ∧ Observes v' c' := by
  refine ⟨v, ?_, ⟨?_, fun hb => ?_⟩⟩
  · rw [he, List.drop_length]
    rfl
  · rw [hv]
    exact o.view
  · obtain ⟨hb, hn⟩ := hn hb
    rw [hn]
    exact o.next hb

theorem Observes.opened (o : Observes v c) (w : (c.ledger.log False).Valid contentKey)
    (ho : Opened c.ledger c'.ledger) (h : c' = ⟨initialized c.state parentHash moment, true⟩) :
    ∃ v', (Record.block c'.state.blockNumber :: c'.state.events.map .event).foldlM
      (Observer.observe c.ledger.retentionPeriod) v = some v' ∧ Observes v' c' := by
  let s : State T := { c.state with
    blockNumber     := c.state.blockNumber + 1
    parentHash      := parentHash
    timestamp       := moment
    extrinsicIndex  := some 0
    indexOperations := []
    events          := [] }
  have hs : c'.state = s.onInitialize s.blockNumber := congrArg Chain.state h
  obtain ⟨transactions, e⟩ := State.onInitialize_emits s s.blockNumber
  rw [← hs] at e
  obtain ⟨events, he, hf⟩ := e.replay
  have he : c'.state.events = events := he
  have hn : c'.state.blockNumber = c.state.blockNumber + 1 := ho.blockNumber
  have hc : c.state.blockTransactions.val = [] := w.window.closed id
  have hi : c'.state.transactionByContentHash = _ := ho.translate_index w
  have hv : Observer.observe c.ledger.retentionPeriod v (.block (c.state.blockNumber + 1)) =
      some { s with
        transactions, transactionByContentHash := c'.state.transactionByContentHash }.observer := by
    rw [o.view, hi]
    simp [Observer.observe, State.observer, s, hc]
  refine ⟨c'.state.observer, ?_, ⟨rfl, fun _ => rfl⟩⟩
  rw [hn, List.foldlM_cons, hv, he]
  exact (foldlM_observe _ events _).trans hf

theorem Observes.step (o : Observes v c) (t : c.Tidy D) (r : c.Ready) (hD : ∀ x ∈ a.content, x ∈ D)
    (h : c.step a = some c') :
    ∃ v', (c.emitted a).foldlM (Observer.observe c.ledger.retentionPeriod) v = some v' ∧
      Observes v' c' := by
  cases a
  case onInitialize parentHash moment =>
    simp only [emitted, h]
    have hs := h
    simp only [Chain.step] at hs
    split at hs
    case isFalse => contradiction
    case isTrue hb =>
      have w := t.log
      rw [log, eq_false hb.left] at w
      have he := (step_evolves r hD h).left
      cases he
      case opened ho => exact o.opened w ho (Option.some.inj hs).symm
      case idle hi _ =>
        cases hs
        exact absurd hi.symm hb.left
      all_goals contradiction
  case extrinsic x =>
    have e := step_emits t r rfl h
    simp only [emitted, h]
    simp only [Chain.step] at h
    split at h
    case isFalse   => contradiction
    case isTrue hb => exact o.body hb e _
  case dispatch =>
    have e := step_emits t r rfl h
    simp only [emitted, h]
    simp only [Chain.step] at h
    split at h
    case isFalse   => contradiction
    case isTrue hb => exact o.body hb.left e _
  case setRetentionPeriod period =>
    simp only [emitted, h]
    have hc : c' = ⟨{ c.state with retentionPeriod := period }, c.inBlock⟩ :=
      (Option.some.inj h).symm
    refine o.unchanged ?_ ?_ ?_ _ <;> rw [hc]
    · rfl
    · exact fun hb => ⟨hb, rfl⟩
  case onFinalize =>
    simp only [emitted, h]
    simp only [Chain.step] at h
    split at h
    case isFalse => contradiction
    case isTrue =>
      obtain ⟨s', hf, hc⟩ := Option.map_eq_some_iff.mp h
      subst hc
      obtain ⟨he, hv⟩ := finalized_observer hf
      exact o.unchanged he (by rw [hv]) (fun hb => by contradiction) _

end Chain

-- The events tell everything: who follows them from genesis, with a retention period that stays what
-- it is, never comes upon one that is out of place, and knows at every point of every run where the
-- latest copy of each content is, which renewals are registered and how many bytes are committed.
theorem events_replay {g : GenesisConfig T} {as : List (Action T)} {c : Chain T}
    (h : Runs Chain.step (fun c a => c.orderly a && c.fixed a) g.chain as c) :
    ∃ o, (g.chain.records as).foldlM (Observer.observe g.retentionPeriod) (Observer.empty T) = some o ∧
      o.block = c.state.blockNumber ∧ o.latest = c.state.transactionByContentHash ∧
      o.renewals = c.state.renewals ∧ o.used = c.state.permanentStorageUsed ∧ ¬o.alarm := by
  have h : Runs Chain.step
      (fun c a => (c.orderly a && c.fixed a) ∧ ∀ x ∈ a.content, x ∈ Set.univ) g.chain as c :=
    h.mono fun g => ⟨g, fun _ _ => trivial⟩
  let I (c : Chain T) (log : List (Record T)) : Prop :=
    c.Tidy Set.univ ∧ c.Ready ∧ c.ledger.retentionPeriod = g.retentionPeriod ∧
      ∃ o, log.foldlM (Observer.observe g.retentionPeriod) (Observer.empty T) = some o ∧
        Chain.Observes o c
  have h₀ : I g.chain [] := by
    refine ⟨g.chain_tidy, g.chain_ready, by rw [g.chain_ledger]; rfl, Observer.empty T, rfl, ?_⟩
    have hl : g.chain.state.toLedger = _ := g.chain_ledger
    refine ⟨?_, nofun⟩
    simp only [State.observer, hl]
    rfl
  obtain ⟨_, _, _, o, ho, hv⟩ := Runs.log_invariant I h₀ (fun ⟨t, r, hp, v, hv, o⟩ hg e => by
    obtain ⟨hg, hD⟩ := hg
    obtain ⟨hg, hf⟩ := Bool.and_eq_true_iff.mp hg
    obtain ⟨he, r'⟩ := Chain.step_evolves r hD e
    obtain ⟨v', hv', o'⟩ := o.step t r hD e
    refine ⟨he.tidy t hg, r', (he.retentionPeriod hf).trans hp, v', ?_, o'⟩
    rw [List.foldlM_append, hv]
    exact hp ▸ hv') h
  refine ⟨o, ho, ?_⟩
  rw [hv.view]
  exact ⟨rfl, rfl, rfl, rfl, nofun⟩

theorem events_replay_registered :
    let g : GenesisConfig .mock := ⟨3, [], [(renter, 10, 100)], []⟩
    ∃ c o, Runs Chain.step (fun c a => c.orderly a && c.fixed a) g.chain registered c ∧
      c.state.permanentStorageUsed = 3 ∧
      (g.chain.records registered).foldlM (Observer.observe 3) (Observer.empty .mock) = some o ∧
      o.used = 3 ∧ o.renewals = c.state.renewals := by
  intro g
  have ⟨c, hr, hu⟩ := Runs.exists_of_any Chain.step (fun c a => c.orderly a && c.fixed a) g.chain
    registered (fun c => c.state.permanentStorageUsed = 3) (by decide +kernel)
  obtain ⟨o, ho, _, _, hn, hw, _⟩ := events_replay hr
  exact ⟨c, o, hr, hu, ho, hw.trans hu, hn⟩

end Bulletin
