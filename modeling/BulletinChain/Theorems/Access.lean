import BulletinChain.Access
import BulletinChain.Theorems.Drain

namespace Bulletin

open Machine Except Access

variable {T : Config} {s s₁ s' : State T} {origin : Origin T} {scope : AuthorizationScope T}
  {g g₁ g₂ : Access T} {issuer : Option (Issuer T)}

namespace Access

theorem active_eq_some :
    g.active now scope = some a ↔ g.authorizations.lookup scope = some a ∧ a.expired now = false := by
  simp [active, Option.filter_eq_some_iff]

theorem debited_authorizations (h : g.debited transactions bytes issuer = some g₁) :
    g₁.authorizations = g.authorizations := by
  cases issuer
  case none => cases h; rfl
  case some =>
    have ⟨_, _, h⟩ := Option.map_eq_some_iff.mp h
    exact h ▸ rfl

theorem put_of_some (h : g.authorizations.lookup scope = some a) : g.put scope b = g.write scope b := by
  simp [put, h]

theorem put_of_none (h : g.authorizations.lookup scope = none) :
    g.put scope b = g.create scope b := by
  simp [put, h]

end Access

namespace State

theorem active_access : s.access.active s.blockNumber scope = s.activeAuthorization scope :=
  rfl

-- The context that an authorizer's dispatch carries along.
def contextOf : Option (Issuer T) → Option (AuthorizationOrigin T) :=
  Option.map fun (who, b) => ⟨who, b.validUntil, b.feeless⟩

theorem ensureAuthorizer_issues (h : s.ensureAuthorizer origin = some auth) :
    ∃ issuer, s.access.Issues s.blockNumber origin issuer ∧ auth = contextOf issuer := by
  cases origin
  case root => cases h; exact ⟨none, .freely rfl, rfl⟩
  case xcm l =>
    simp only [ensureAuthorizer] at h
    split at h <;> cases h
    case isTrue hl => exact ⟨none, .freely hl, rfl⟩
  case signed who =>
    simp only [ensureAuthorizer] at h
    split at h
    case isTrue hl => cases h; exact ⟨none, .freely hl, rfl⟩
    case isFalse hl =>
      simp only [ensureAllowedAuthorizers] at h
      split at h
      case h_2 => contradiction
      case h_1 b hb =>
        split at h <;> cases h
        case isFalse he => exact ⟨some (who, b), .allowed hl hb he, rfl⟩
  all_goals contradiction

theorem clampExpiration_contextOf :
    clampExpiration (saturatingAdd maxBlockNumber now T.authorizationPeriod) (contextOf issuer) =
      expiration T now issuer := by
  cases issuer <;> rfl

-- A budget is there when it is drawn on, as the origin has just been checked against it.
theorem consumeBudgetOf_debited (hi : s.access.Issues s.blockNumber origin issuer)
    (h : s.consumeBudgetOf (contextOf issuer) transactions bytes = ok s₁) :
    s.access.debited transactions bytes issuer = some s₁.access ∧
      s₁.authorizations = s.authorizations := by
  cases hi
  case freely => cases h; exact ⟨rfl, rfl⟩
  case allowed who b _ hb _ =>
    simp only [consumeBudgetOf, contextOf, Option.map_some, consumeAuthorizerBudget] at h
    rw [show s.allowedAuthorizers.lookup who = some b from hb] at h
    simp only at h
    split at h <;> cases h
    case h_2 b' hc =>
      refine ⟨?_, rfl⟩
      simp only [debited, hc, Option.map_some]
      rfl

theorem regrant_of_not_expired (h : a.expired now = false) :
    regrant scope now transactions bytes e a =
      { a with extent := a.extent.raised scope transactions bytes } := by
  simp only [regrant, h]
  cases scope <;> rfl

theorem authorizationAdded_access {a : Authorization} (h : s.authorizations.lookup scope = none) :
    ({ s with authorizations := s.authorizations.insert scope a }.authorizationAdded scope).access =
      s.access.put scope a := by
  rw [put_of_none (g := s.access) h]
  cases scope <;> rfl

theorem authorize_does (hi : s.access.Issues s.blockNumber origin issuer) (hb : 0 < bytes)
    (h : s.authorize scope transactions bytes (contextOf issuer) = ok s') :
    Deed.Does s.blockNumber s.access
      (.granted origin scope transactions bytes (s.activeAuthorization scope).isNone) s'.access := by
  have ⟨s₁, hs, h⟩ := bind_eq_ok.mp h
  have ⟨hd, ha⟩ := consumeBudgetOf_debited hi hs
  simp only [clampExpiration_contextOf] at h
  cases hl : s.authorizations.lookup scope
  case none =>
    have hn : s.activeAuthorization scope = none := by simp [activeAuthorization_eq, hl]
    have hl : s₁.authorizations.lookup scope = none := by rw [ha, hl]
    rw [hl] at h
    cases h
    rw [hn, authorizationAdded_access hl]
    exact .opened hi hd hb hn
  case some a =>
    have hl₁ : s₁.authorizations.lookup scope = some a := by rw [ha, hl]
    rw [hl₁] at h
    cases h
    by_cases he : a.expired s.blockNumber
    · have hn : s.activeAuthorization scope = none := by simp [activeAuthorization_eq, hl, he]
      have hr : ∀ e, regrant scope s.blockNumber transactions bytes e a =
          freshAuthorization transactions bytes e := fun _ => by simp [regrant, he]
      have ho := Deed.Does.opened hi hd hb hn
      rw [put_of_some (g := s₁.access) hl₁] at ho
      rw [hn, hr]
      exact ho
    · have hn : s.activeAuthorization scope = some a := by simp [activeAuthorization_eq, hl, he]
      rw [hn, regrant_of_not_expired (Bool.eq_false_iff.mpr he)]
      exact .added hi hd hb hn

theorem refreshAuthorization_does (hi : s.access.Issues s.blockNumber origin issuer)
    (h : s.refreshAuthorization scope (contextOf issuer) = ok s') :
    Deed.Does s.blockNumber s.access (.refreshed origin scope) s'.access := by
  simp only [refreshAuthorization, clampExpiration_contextOf] at h
  split at h <;> cases h
  case h_1 a ha => exact .refreshed hi ha

theorem removeExpiredAuthorization_does (h : s.removeExpiredAuthorization scope = ok s') :
    Deed.Does s.blockNumber s.access (.removed scope) s'.access := by
  have ⟨a, ha, h⟩ := bind_eq_ok.mp h
  have ⟨_, he, h⟩ := bind_eq_ok.mp h
  have hr : s'.access = s.access.remove scope := by
    cases h
    cases scope <;> rfl
  exact hr ▸ .removed (okOr_eq_ok.mp ha) (ensure_eq_ok.mp he)

theorem addAuthorizer_does (h : s.addAuthorizer origin who budget = ok s') :
    Deed.Does s.blockNumber s.access (.registered who budget) s'.access := by
  have ⟨_, _, h⟩ := bind_eq_ok.mp h
  have ⟨_, he, h⟩ := bind_eq_ok.mp h
  have hr : s'.access = s.access.register who budget := by
    cases h
    cases hl : s.allowedAuthorizers.lookup who
    case none   => simp [register, access, hl]; rfl
    case some b => simp [register, access, hl]; rfl
  exact hr ▸ .registered (ensure_eq_ok.mp he)

end State

variable {d : Deed T}

namespace Access

theorem put_lookup (a : Authorization) (scope' : AuthorizationScope T) :
    (g.put scope a).authorizations.lookup scope' =
      if scope' = scope then some a else g.authorizations.lookup scope' := by
  simp only [put]
  split
  case isTrue  => exact Finmap.lookup_insert_eq
  case isFalse => cases scope <;> exact Finmap.lookup_insert_eq

theorem remove_lookup (scope' : AuthorizationScope T) :
    (g.remove scope).authorizations.lookup scope' =
      if scope' = scope then none else g.authorizations.lookup scope' := by
  cases scope <;> exact Finmap.lookup_erase_eq

theorem write_lookup (a : Authorization) (scope' : AuthorizationScope T) :
    (g.write scope a).authorizations.lookup scope' =
      if scope' = scope then some a else g.authorizations.lookup scope' :=
  Finmap.lookup_insert_eq

end Access

theorem Deed.Does.moves (h : Does now g d g₁) (scope : AuthorizationScope T) :
    Moves now g scope d (g₁.authorizations.lookup scope) := by
  by_cases hs : d.target = some scope
  · cases h
    case registered | unregistered => contradiction
    all_goals
      have hs := Option.some.inj hs
      subst hs
    case stored ha       => simpa [write_lookup] using .stored ha
    case renewed ha hr   => simpa [write_lookup] using .renewed ha hr
    case opened hi _ _ h => simpa [put_lookup] using .opened hi h
    case added hi _ _ ha => simpa [write_lookup] using .added hi ha
    case refreshed hi ha => simpa [write_lookup] using .refreshed hi ha
    case removed ha he   => simpa [remove_lookup] using .removed ha he
  · have hl : g₁.authorizations.lookup scope = g.authorizations.lookup scope := by
      cases h
      case registered =>
        simp only [register]
        split <;> rfl
      case unregistered => rfl
      all_goals
        have hs := fun h => hs (congrArg some (Eq.symm h))
      case stored | renewed | refreshed => rw [write_lookup, if_neg hs]
      case opened hd _ _ _ => rw [put_lookup, if_neg hs, debited_authorizations hd]
      case added hd _ _ _  => rw [write_lookup, if_neg hs, debited_authorizations hd]
      case removed         => rw [remove_lookup, if_neg hs]
    exact hl ▸ .aside hs

namespace Deed.Follows

theorem single (h : Does now g d g₁) : Follows now g [d] g₁ :=
  .cons h .nil

theorem append {ds ds' : List (Deed T)} (h₁ : Follows now g ds g₁) (h₂ : Follows now g₁ ds' g₂) :
    Follows now g (ds ++ ds') g₂ := by
  induction h₁
  case nil         => exact h₂
  case cons h _ hi => exact .cons h (hi h₂)

theorem of_eq (h : g₁ = g) : Follows now g [] g₁ :=
  h ▸ .nil

theorem nil_eq (h : Follows now g [] g₁) : g₁ = g := by
  cases h
  rfl

theorem does (h : Follows now g [d] g₁) : Does now g d g₁ := by
  obtain _ | ⟨hd, h⟩ := h
  exact h.nil_eq ▸ hd

-- What every deed keeps of a history, all of them keep.
theorem invariant {I : Access T → List (Nat × Deed T) → Prop} {ds : List (Deed T)}
    (log : List (Nat × Deed T)) (h : I g log)
    (hd : ∀ {g d g' log}, I g log → Does now g d g' → I g' (log ++ [(now, d)])) :
    Follows now g ds g₁ → I g₁ (log ++ ds.map (now, ·)) := by
  intro f
  induction f generalizing log
  case nil => simpa using h
  case cons d _ hi =>
    rw [List.map_cons, List.append_cons]
    exact hi _ (hd h d)

end Deed.Follows

open Deed

namespace TransactionStorage

theorem dispatch_follows {call : Call T} (h : dispatch s origin call = ok s') :
    Follows s.blockNumber s.access (call.deeds s origin) s'.access := by
  cases call
  case store | storeWithCidConfig =>
    have ⟨_, _, h⟩ := bind_eq_ok.mp h
    have ⟨_, _, _, _, _, _, he⟩ := State.doStore_eq_ok.mp h
    exact .of_eq (he ▸ rfl)
  case authorizeAccount | authorizePreimage =>
    have ⟨auth, ha, h⟩ := bind_eq_ok.mp h
    have ⟨_, hi, hc⟩ := State.ensureAuthorizer_issues (okOr_eq_ok.mp ha)
    have ⟨_, hb, h⟩ := bind_eq_ok.mp h
    have ⟨t, hs, h⟩ := bind_eq_ok.mp h
    have hd := State.authorize_does hi (ensure_eq_ok.mp hb) (hc ▸ hs)
    cases h
    exact .single hd
  case refreshAccountAuthorization | refreshPreimageAuthorization =>
    have ⟨auth, ha, h⟩ := bind_eq_ok.mp h
    have ⟨_, hi, hc⟩ := State.ensureAuthorizer_issues (okOr_eq_ok.mp ha)
    have ⟨t, hs, h⟩ := bind_eq_ok.mp h
    have hd := State.refreshAuthorization_does hi (hc ▸ hs)
    cases h
    exact .single hd
  case removeExpiredAccountAuthorization | removeExpiredPreimageAuthorization =>
    have ⟨t, hs, h⟩ := bind_eq_ok.mp h
    have hd := State.removeExpiredAuthorization_does hs
    cases h
    exact .single hd
  case applyBlockInherents proof =>
    have ⟨_, _, h⟩ := bind_eq_ok.mp h
    cases proof
    case none => cases h; exact .nil
    case some =>
      have ⟨_, _, h⟩ := bind_eq_ok.mp h
      have ⟨_, _, h⟩ := bind_eq_ok.mp h
      have ⟨_, _, h⟩ := bind_eq_ok.mp h
      have ⟨_, _, h⟩ := bind_eq_ok.mp h
      cases h
      exact .nil
  case addAuthorizer => exact .single <| State.addAuthorizer_does h
  case removeAuthorizer who =>
    have ⟨_, _, h⟩ := bind_eq_ok.mp h
    simp only [Call.deeds]
    split at h <;> cases h
    case h_1 b hb =>
      rw [if_pos (by simp [hb])]
      exact .single <| .unregistered hb
    case h_2 hn =>
      rw [if_neg (by simp [hn])]
      exact .nil
  case removeExhaustedAuthorizer who =>
    have ⟨_, hb, h⟩ := bind_eq_ok.mp h
    have ⟨_, _, h⟩ := bind_eq_ok.mp h
    cases h
    exact .single <| .unregistered (okOr_eq_ok.mp hb)

end TransactionStorage

-- Both what the deeds do and the block they are done in.
structure Enacts (s : State T) (ds : List (Deed T)) (s' : State T) : Prop where
  follows     : Follows s.blockNumber s.access ds s'.access
  blockNumber : s'.blockNumber = s.blockNumber

namespace Enacts

theorem of_eq (ha : s'.access = s.access) (hn : s'.blockNumber = s.blockNumber) : Enacts s [] s' :=
  ⟨.of_eq ha, hn⟩

theorem append {ds ds' : List (Deed T)} (h : Enacts s ds s₁) (h' : Enacts s₁ ds' s') :
    Enacts s (ds ++ ds') s' :=
  ⟨h.follows.append (h.blockNumber ▸ h'.follows), h'.blockNumber.trans h.blockNumber⟩

theorem withIndex {ds : List (Deed T)} (h : Enacts s ds s') (i : Option Nat) :
    Enacts s ds { s' with extrinsicIndex := i } :=
  ⟨h.follows, h.blockNumber⟩

theorem trans {ds : List (Deed T)} (h : Enacts s [] s₁) (h' : Enacts s₁ ds s') : Enacts s ds s' :=
  h.append h'

end Enacts

namespace Charge

theorem store_apply_enacts (h : s.activeAuthorization scope = some a) :
    Enacts s [.stored scope size] ((Charge.store scope a size).apply s) :=
  ⟨.single <| .stored h, rfl⟩

theorem renew_apply_enacts (h : s.renewable scope size = ok a) :
    Enacts s [.renewed scope size] ((Charge.renew scope a size).apply s) := by
  have ⟨ha, hs, _⟩ := State.renewable_eq_ok.mp h
  have ⟨_, he⟩ := State.updatePermanentStorageUsed_eq
    (s := s.withAuthorization scope (DataRenewal.charged a size))
    (f := (saturatingAdd u64Max · size))
  simp only [apply, he]
  exact ⟨.single <| .renewed ha hs, rfl⟩

end Charge

namespace State

theorem updatePermanentStorageUsed_enacts : Enacts s [] (s.updatePermanentStorageUsed f) := by
  have ⟨_, h⟩ := updatePermanentStorageUsed_eq (s := s) (f := f)
  exact h ▸ .of_eq rfl rfl

theorem chargePending_enacts (s : State T) (item : Pending T) :
    Enacts s (s.pendingDeed item) (s.chargePending item.2.1 item.2.2).2 := by
  have ⟨_, info, data⟩ := item
  simp only [pendingDeed, chargePending, Check.Succeeds, DataRenewal.checkRenewAuthorization_eq]
  by_cases hp : data.paid
  · simp only [hp, if_true, not_true, false_and, if_false]
    exact .of_eq rfl rfl
  · cases hr : s.renewable (.account data.account) info.size
    case error => simpa [hp, Except.isOk, Except.toBool] using .of_eq rfl rfl
    case ok a  => simpa [hp, Except.isOk, Except.toBool] using Charge.renew_apply_enacts hr

-- After the charge nothing in the drain is about authorizations any more.
theorem renewPending_enacts (x : Nat) (s : State T) (item : Pending T) :
    Enacts s (s.pendingDeed item) (renewPending x s item) := by
  have hc := chargePending_enacts s item
  obtain ⟨contentHash, info, data⟩ := item
  rw [← List.append_nil (s.pendingDeed _)]
  refine hc.append ?_
  simp only [renewPending]
  rcases s.chargePending info data with ⟨charged, s₁⟩
  cases charged
  case false => exact .of_eq rfl rfl
  case true =>
    simp only [if_true]
    by_cases hr : s₁.HasRoom
    · rw [BlockTransactionsMut.renew_eq_some.mpr ⟨hr, rfl, rfl⟩]
      simp only [settlePending_eq]
      exact .of_eq rfl rfl
    · obtain ⟨_, hu⟩ := updatePermanentStorageUsed_eq (s := s₁) (f := (· - info.size))
      rw [BlockTransactionsMut.renew_of_not_hasRoom hr]
      simp only [hu]
      exact .of_eq rfl rfl

theorem pendingDeeds_enacts (x : Nat) (s : State T) (items : List (Pending T)) :
    Enacts s (pendingDeeds x s items) (items.foldl (renewPending x) s) := by
  induction items generalizing s
  case nil                => exact .of_eq rfl rfl
  case cons item items hi => exact (renewPending_enacts x s item).append (hi _)

theorem foldl_failPending_enacts (s : State T) (items : List (Pending T)) :
    Enacts s [] (items.foldl failPending s) := by
  induction items generalizing s
  case nil                => exact .of_eq rfl rfl
  case cons item items hi =>
    have h : Enacts s [] (failPending s item) := .of_eq rfl rfl
    exact h.trans (hi _)

theorem doProcessPendingRenewals_enacts : Enacts s s.drainDeeds s.doProcessPendingRenewals := by
  have hs : Enacts s [] { s with pendingRenewals := .empty } := .of_eq rfl rfl
  cases hx : s.extrinsicIndex
  case none =>
    have h := hs.trans <| foldl_failPending_enacts _ s.pendingRenewals.val
    simpa only [drainDeeds, doProcessPendingRenewals, hx] using h
  case some x =>
    have h := hs.trans <| pendingDeeds_enacts x _ s.pendingRenewals.val
    simpa only [drainDeeds, doProcessPendingRenewals, hx] using h

theorem handleObsolete_enacts (s : State T) (items : List (TransactionInfo T × Bool)) :
    Enacts s [] (s.handleObsolete items) := by
  simp only [handleObsolete]
  generalize items.foldl _ _ = pending
  have h : ∀ n, Enacts s [] (if 0 < n then s.updatePermanentStorageUsed (· - n) else s) := by
    intro n
    split
    case isTrue  => exact updatePermanentStorageUsed_enacts
    case isFalse => exact .of_eq rfl rfl
  split
  case isTrue  => exact (h _).trans (.of_eq rfl rfl)
  case isFalse => exact h _

theorem onInitialize_enacts : Enacts s [] (s.onInitialize n) := by
  simp only [onInitialize, storageOnInitialize]
  split
  case isFalse => exact .of_eq rfl rfl
  case isTrue =>
    split
    case h_1 es _ =>
      generalize s.transactions.erase _ = ts, es.val.foldl _ _ = swept
      have h : Enacts s [] { s with transactions := ts, transactionByContentHash := swept.1 } :=
        .of_eq rfl rfl
      exact h.trans <| handleObsolete_enacts _ swept.2.val
    case h_2 => exact .of_eq rfl rfl

end State

namespace RuntimeCall

variable {call : RuntimeCall T}

theorem dispatch_enacts (h : call.dispatch s origin = ok s') : Enacts s (call.deeds s origin) s' := by
  cases call
  case transactionStorage call =>
    refine ⟨TransactionStorage.dispatch_follows h, ?_⟩
    by_cases hs : call.isStore
    · cases call
      case store | storeWithCidConfig =>
        have ⟨_, _, h⟩ := bind_eq_ok.mp h
        have ⟨_, _, _, _, _, _, he⟩ := State.doStore_eq_ok.mp h
        exact he ▸ rfl
      all_goals contradiction
    · rw [(TransactionStorage.dispatch_keeps hs h).ledger]
  case hopPromotion call =>
    have ⟨_, _, h⟩ := bind_eq_ok.mp h
    have ⟨_, _, _, _, _, _, he⟩ := State.doStore_eq_ok.mp h
    exact he ▸ .of_eq rfl rfl
  case dataRenewal call =>
    cases call
    case renew =>
      have ⟨_, _, _, _, _, _, he⟩ := State.renew_eq_ok.mp h
      exact he ▸ .of_eq rfl rfl
    case forceRenew =>
      have ⟨_, _, _, _, _, _, _, _, he⟩ := State.forceRenew_eq_ok.mp h
      exact he ▸ .of_eq rfl rfl
    case enableAutoRenew =>
      have ⟨_, _, _, _, _, _, he⟩ := State.enableAutoRenew_eq_ok.mp h
      exact he ▸ .of_eq rfl rfl
    case disableAutoRenew =>
      have ⟨_, _, _, _, _, he⟩ := State.disableAutoRenew_eq_ok.mp h
      exact he ▸ .of_eq rfl rfl
    case processPendingRenewals =>
      have ⟨_, _, h⟩ := bind_eq_ok.mp h
      cases h
      exact State.doProcessPendingRenewals_enacts
  all_goals
    cases h
    exact .of_eq rfl rfl

theorem dispatched_enacts (s : State T) (origin : Origin T) (call : RuntimeCall T) :
    Enacts s (call.dispatchDeeds s origin) (Extrinsic.dispatched s origin call) := by
  simp only [dispatchDeeds, Extrinsic.dispatched]
  cases h : call.dispatch s origin
  case error => exact .of_eq rfl rfl
  case ok    => exact dispatch_enacts h

end RuntimeCall

namespace RuntimeCall

theorem payments_of_none {call : RuntimeCall T} (h : payer = none ∨ call.subject s = none) :
    call.payments s payer = [] := by
  simp only [payments]
  split
  case h_1 hs => simp [hs] at h
  case h_2    => rfl

end RuntimeCall

namespace Verdict

variable {v : Verdict T}

-- A verdict charges the deed that the call is paid for with.

theorem storeWith_enacts {call : TransactionStorage.Call T} {hash : T.ContentHash}
    (hs : (RuntimeCall.transactionStorage call).subject s = some (hash, size))
    (h : storeWith s scope size = ok v) :
    Enacts s ((RuntimeCall.transactionStorage call).payments s (some scope)) (v.charge.apply s) := by
  have ⟨_, ha, hv⟩ := storeWith_eq_ok.mp h
  simp only [RuntimeCall.payments, hs, ← hv]
  exact Charge.store_apply_enacts ha

theorem renewWith_enacts {call : DataRenewal.Call T} {hash : T.ContentHash}
    (hs : (RuntimeCall.dataRenewal call).subject s = some (hash, size))
    (h : renewWith s scope size = ok v) :
    Enacts s ((RuntimeCall.dataRenewal call).payments s (some scope)) (v.charge.apply s) := by
  have ⟨_, ha, hv⟩ := renewWith_eq_ok.mp h
  simp only [RuntimeCall.payments, hs, ← hv]
  exact Charge.renew_apply_enacts ha

theorem nothing_enacts {call : RuntimeCall T} (hc : v.charge = .nothing)
    (h : payer = none ∨ call.subject s = none) :
    Enacts s (call.payments s payer) (v.charge.apply s) := by
  rw [hc, RuntimeCall.payments_of_none h]
  exact .of_eq rfl rfl

theorem storageSigned_enacts {call : TransactionStorage.Call T}
    (h : storageSigned s who call = ok v) :
    Enacts s ((RuntimeCall.transactionStorage call).payments s v.scope) (v.charge.apply s) := by
  cases call
  case store | storeWithCidConfig =>
    have ⟨_, _, h⟩ := bind_eq_ok.mp h
    cases orElse_eq_ok.mp h
    case inl h =>
      rw [(charges_of_storeWith h).left]
      exact storeWith_enacts rfl h
    case inr h =>
      rw [(charges_of_storeWith h.right).left]
      exact storeWith_enacts rfl h.right
  all_goals
    have hs := storageSigned_of_not_isStore (by simp [TransactionStorage.Call.isStore]) h
    exact nothing_enacts (hs ▸ rfl) (.inr rfl)

theorem renewalSigned_enacts {call : DataRenewal.Call T} (h : renewalSigned s who call = ok v) :
    Enacts s ((RuntimeCall.dataRenewal call).payments s v.scope) (v.charge.apply s) := by
  cases call
  case renew entry =>
    have ⟨info, hi, h⟩ := bind_eq_ok.mp h
    have ⟨_, _, h⟩ := bind_eq_ok.mp h
    rw [(charges_of_renewWith h).left]
    exact renewWith_enacts (by simp only [RuntimeCall.subject, okOr_eq_ok.mp hi]; rfl) h
  case forceRenew entry =>
    have ⟨info, hi, h⟩ := bind_eq_ok.mp h
    have ⟨_, _, h⟩ := bind_eq_ok.mp h
    have hs : (RuntimeCall.dataRenewal (.forceRenew entry)).subject s =
        some (info.contentHash, info.size) := by
      simp only [RuntimeCall.subject, okOr_eq_ok.mp hi]
      rfl
    cases orElse_eq_ok.mp h
    case inl h =>
      rw [(charges_of_renewWith h).left]
      exact renewWith_enacts hs h
    case inr h =>
      rw [(charges_of_renewWith h.right).left]
      exact renewWith_enacts hs h.right
  case enableAutoRenew contentHash =>
    have ⟨_, _, h⟩ := bind_eq_ok.mp h
    have ⟨info, hi, h⟩ := bind_eq_ok.mp h
    rw [(charges_of_renewWith h).left]
    exact renewWith_enacts (by simp only [RuntimeCall.subject, okOr_eq_ok.mp hi]; rfl) h
  case disableAutoRenew contentHash =>
    have ⟨_, _, h⟩ := bind_eq_ok.mp h
    exact nothing_enacts (pure_eq_ok.mp h ▸ rfl) (.inr rfl)
  case processPendingRenewals => contradiction

theorem tree_enacts {call : RuntimeCall T} (h : tree s who call = ok v) :
    Enacts s (call.payments s v.scope) (v.charge.apply s) := by
  cases call
  case transactionStorage => exact storageSigned_enacts (tree_storage ▸ h)
  case dataRenewal        => exact renewalSigned_enacts (tree_renewal ▸ h)
  all_goals
    have hv := tree_unclaimed rfl h
    exact nothing_enacts (hv ▸ rfl) (.inl (hv ▸ rfl))

theorem storageUnsigned_enacts {call : TransactionStorage.Call T}
    (h : storageUnsigned s call = ok v) :
    Enacts s ((RuntimeCall.transactionStorage call).payments s
      (((RuntimeCall.transactionStorage call).subject s).map (.preimage ·.1))) (v.charge.apply s) := by
  cases call
  case store | storeWithCidConfig =>
    have ⟨_, _, h⟩ := bind_eq_ok.mp h
    exact storeWith_enacts rfl h
  case removeExpiredAccountAuthorization | removeExpiredPreimageAuthorization
      | removeExhaustedAuthorizer =>
    have ⟨_, _, h⟩ := bind_eq_ok.mp h
    exact nothing_enacts (pure_eq_ok.mp h ▸ rfl) (.inr rfl)
  case applyBlockInherents => exact nothing_enacts (pure_eq_ok.mp h ▸ rfl) (.inr rfl)
  all_goals contradiction

theorem renewalUnsigned_enacts {call : DataRenewal.Call T} (h : renewalUnsigned s call = ok v) :
    Enacts s ((RuntimeCall.dataRenewal call).payments s
      (((RuntimeCall.dataRenewal call).subject s).map (.preimage ·.1))) (v.charge.apply s) := by
  cases call
  case forceRenew entry =>
    have ⟨info, hi, h⟩ := bind_eq_ok.mp h
    have ⟨_, _, h⟩ := bind_eq_ok.mp h
    have hs : (RuntimeCall.dataRenewal (.forceRenew entry)).subject s =
        some (info.contentHash, info.size) := by
      simp only [RuntimeCall.subject, okOr_eq_ok.mp hi]
      rfl
    rw [hs]
    exact renewWith_enacts hs h
  case processPendingRenewals => exact nothing_enacts (pure_eq_ok.mp h ▸ rfl) (.inr rfl)
  all_goals contradiction

end Verdict

namespace Extrinsic

variable {x : Extrinsic T}

theorem payer_signed (call : RuntimeCall T) (v : Verdict T) :
    (signed who call).payer (v.origin who) s = v.scope := by
  simp only [Verdict.origin]
  cases v.scope <;> rfl

theorem admission_enacts (h : x.admission s = (ok origin, s₁)) :
    Enacts s (x.call.payments s (x.payer origin s)) s₁ := by
  cases x
  case signed who call =>
    rw [admission_signed] at h
    cases hv : Verdict.tree s who call <;> rw [hv] at h <;> cases h
    rw [payer_signed]
    exact Verdict.tree_enacts hv
  case unsigned call =>
    cases call
    case transactionStorage call =>
      have ⟨v, hv, ho, hs⟩ := admission_unsigned (.transactionStorage call)
        TransactionStorage.preDispatch_carriesOut h
      subst ho hs
      exact Verdict.storageUnsigned_enacts hv
    case dataRenewal call =>
      have ⟨v, hv, ho, hs⟩ := admission_unsigned (.dataRenewal call)
        DataRenewal.preDispatch_carriesOut h
      subst ho hs
      exact Verdict.renewalUnsigned_enacts hv
    case other =>
      cases h
      exact .of_eq rfl rfl
    all_goals cases h
  case general call =>
    have ⟨_, _, ha, h⟩ := Check.bind_eq_ok.mp h
    have ⟨hs, _⟩ := authorize_admitted ha
    cases h
    subst hs
    exact .of_eq rfl rfl

theorem apply_enacts (h : x.apply s = some s') : Enacts s (x.deeds s) s' := by
  simp only [apply] at h
  simp only [deeds]
  split at h <;> cases h
  case h_2 origin s₁ ha =>
    rw [ha]
    have h := (admission_enacts ha).append (RuntimeCall.dispatched_enacts s₁ origin x.call)
    exact h.withIndex _

end Extrinsic

namespace Chain

-- What a step does to the authorizations: its deeds in the current block, or nothing but the step to
-- the next block.
inductive Advances (c : Chain T) : List (Deed T) → Chain T → Prop
  | acts  : Enacts c.state ds c'.state → Advances c ds c'
  | opens : ds = [] → c'.state.access = c.state.access →
    c'.state.blockNumber = c.state.blockNumber + 1 → c.state.blockNumber < maxBlockNumber →
    Advances c ds c'

variable {c c' : Chain T} {a : Action T}

theorem finalized_enacts (h : finalized s = some s') : Enacts s [] s' := by
  have ⟨t, ht, h⟩ := Option.bind_eq_some_iff.mp h
  simp only [State.storageOnFinalize] at ht
  split at ht <;> cases ht
  simp only [State.renewalOnFinalize] at h
  split at h <;> cases h
  refine .of_eq rfl ?_
  simp only [Ledger.sealBlock]
  split <;> rfl

theorem step_enacts (h : c.step a = some c') (ha : ∀ parentHash moment, a ≠ .onInitialize parentHash moment) :
    Enacts c.state (c.deeds a) c'.state := by
  cases a
  case onInitialize parentHash moment => exact absurd rfl (ha parentHash moment)
  case extrinsic x =>
    simp only [step] at h
    split at h
    case isFalse => contradiction
    case isTrue =>
      have ⟨s', hx, hc⟩ := Option.map_eq_some_iff.mp h
      subst hc
      exact Extrinsic.apply_enacts hx
  case dispatch origin call =>
    simp only [step] at h
    split at h <;> cases h
    exact RuntimeCall.dispatched_enacts ..
  case setRetentionPeriod =>
    cases h
    exact .of_eq rfl rfl
  case onFinalize =>
    simp only [step] at h
    split at h
    case isFalse => contradiction
    case isTrue =>
      have ⟨s', hf, hc⟩ := Option.map_eq_some_iff.mp h
      subst hc
      exact finalized_enacts hf

theorem step_advances (h : c.step a = some c') : Advances c (c.deeds a) c' := by
  cases a
  case onInitialize parentHash moment =>
    simp only [step] at h
    split at h <;> cases h
    case isTrue hb =>
      have ⟨hf, hn⟩ := State.onInitialize_enacts (n := c.state.blockNumber + 1)
        (s := { c.state with
          blockNumber     := c.state.blockNumber + 1
          parentHash      := parentHash
          timestamp       := moment
          extrinsicIndex  := some 0
          indexOperations := []
          events          := [] })
      exact .opens rfl hf.nil_eq hn hb.right
  all_goals exact .acts (step_enacts h (by simp))

-- The invariants of the authorizations: what holds with the history so far, and is kept by every deed
-- and by the step to the next block, holds at the end of every run.
theorem runs_history {I : Nat → Access T → List (Nat × Deed T) → Prop}
    {guard : Chain T → Action T → Prop} {as : List (Action T)}
    (h : I c.state.blockNumber c.state.access [])
    (hd : ∀ {now g d g' log}, I now g log → Does now g d g' → I now g' (log ++ [(now, d)]))
    (hn : ∀ {now g log}, I now g log → now < maxBlockNumber → I (now + 1) g log) :
    Runs step guard c as c' → I c'.state.blockNumber c'.state.access (c.history as) := by
  rw [← List.nil_append (c.history as)]
  refine Runs.log_invariant (fun c : Chain T => I c.state.blockNumber c.state.access) h fun h _ e => ?_
  obtain ⟨hf, hb⟩ | ⟨hs, ha, hb, hm⟩ := step_advances e
  case acts =>
    rw [hb]
    exact hf.invariant _ h hd
  case opens =>
    rw [hs, ha, hb]
    simpa using hn h hm

end Chain

namespace GenesisConfig

-- The steps of the genesis build, as changes of the authorizations.

theorem buildAccount_access (x : T.AccountId × Nat × Nat) :
    (buildAccount s x).access = s.access.create (.account x.1)
      (State.freshAuthorization x.2.1 x.2.2 T.authorizationPeriod) :=
  rfl

theorem buildPreimage_access (x : T.ContentHash × Nat) :
    (buildPreimage s x).access = s.access.write (.preimage x.1)
      (State.freshAuthorization 1 x.2 T.authorizationPeriod) :=
  rfl

theorem buildAuthorizer_access (x : T.AccountId × Nat × Nat) :
    (buildAuthorizer s x).access =
      s.access.register x.1 ⟨some ⟨x.2.1, x.2.2⟩, none, true⟩ := by
  cases h : s.allowedAuthorizers.lookup x.1
  case none =>
    simp only [buildAuthorizer, Access.register, State.access, h]
    rfl
  case some b =>
    simp only [buildAuthorizer, Access.register, State.access, h]
    rfl

theorem foldl_access {I : Access T → Prop} (f : State T → α → State T) (xs : List α)
    (hf : ∀ s, ∀ x ∈ xs, I s.access → I (f s x).access) (h : I s.access) :
    I (xs.foldl f s).access := by
  induction xs generalizing s
  case nil          => exact h
  case cons x xs hi =>
    exact hi (fun s y hy => hf s y (.tail _ hy)) (hf s x (.head _) h)

-- Nothing is used of an authorization of genesis.
theorem build_fresh (g : GenesisConfig T) (h : g.build.authorizations.lookup scope = some a) :
    ∃ transactions bytes,
      a = State.freshAuthorization transactions bytes T.authorizationPeriod := by
  let I (g : Access T) : Prop := ∀ scope a, g.authorizations.lookup scope = some a →
    ∃ transactions bytes, a = State.freshAuthorization transactions bytes T.authorizationPeriod
  have hw {g : Access T} {scope : AuthorizationScope T} (transactions bytes : Nat) (h : I g) :
      I (g.write scope (State.freshAuthorization transactions bytes T.authorizationPeriod)) := by
    intro scope' a ha
    rw [write_lookup] at ha
    split at ha
    case isTrue  => exact ⟨_, _, (Option.some.inj ha).symm⟩
    case isFalse => exact h scope' a ha
  have h₀ : I (empty g.retentionPeriod : State T).access := fun _ _ h => by contradiction
  have h₁ := foldl_access (I := I) buildAccount g.accountAuthorizations
    (fun _ x _ h => hw x.2.1 x.2.2 h) h₀
  have h₂ := foldl_access (I := I) buildPreimage g.preimageAuthorizations
    (fun _ x _ h => hw 1 x.2 h) h₁
  refine foldl_access (I := I) buildAuthorizer g.allowedAuthorizers (fun s x _ h => ?_) h₂ scope a h
  rw [buildAuthorizer_access, register]
  split <;> exact h

end GenesisConfig

-- An authorizer is registered and grants twice to one account.
def granting : List (Action .mock) := [
  .onInitialize [] 0,
  .dispatch .root (.transactionStorage (.addAuthorizer (8 : Nat) ⟨some ⟨10, 100⟩, some 5, false⟩)),
  .extrinsic (.signed (8 : Nat) (.transactionStorage (.authorizeAccount (7 : Nat) 2 30))),
  .extrinsic (.signed (8 : Nat) (.transactionStorage (.authorizeAccount (7 : Nat) 1 20)))]

end Bulletin
