import BulletinChain.Theorems.Agreement
import BulletinChain.Theorems.Calls

namespace Bulletin

open Machine Except ValidateAuthorizedCalls

variable {T : Config}

namespace Extrinsic

-- The scopes that may pay for content: that of the content, and that of the signer.
def Payer (x : Extrinsic T) (contentHash : T.ContentHash) (scope : AuthorizationScope T) : Prop :=
  scope = .preimage contentHash ∨ ∃ who call, x = signed who call ∧ scope = .account who

-- The calls that no authorization pays for.
def IsFree : RuntimeCall T → Prop
  | .transactionStorage call => ¬call.isStore
  | .dataRenewal call        => call.isInherent
  | _                        => True

-- The origin of an extrinsic that is not rewritten.
def plainOrigin : Extrinsic T → Origin T
  | signed who _ => .signed who
  | unsigned _   => .none
  | general _    => .systemAuthorized

end Extrinsic

-- An extrinsic was admitted in state `s`: it is dispatched with the given origin in the given state,
-- in which it is paid for.
inductive Admitted (s : State T) (x : Extrinsic T) : Origin T → State T → Prop
  | store :
    x.call = .transactionStorage call → call.content = some (data, hashing) →
    x.Payer (T.hash hashing data.bytes) scope → dataSizeOk T data.len → s.HasRoom →
    s.activeAuthorization scope = some a → ensureAuthorized origin = ok caller →
    Admitted s x origin ((Charge.store scope a data.len).apply s)
  | forceRenew :
    x.call = .dataRenewal (.forceRenew entry) → s.resolveTransactionRef entry = some info →
    x.Payer info.contentHash scope → dataSizeOk T info.size → s.HasRoom →
    s.renewable scope info.size = ok a → ensureAuthorized origin = ok caller → origin ≠ .root →
    Admitted s x origin ((Charge.renew scope a info.size).apply s)
  | renew :
    x = .signed who (.dataRenewal (.renew entry)) → s.resolveTransactionRef entry = some info →
    s.renewals.lookup info.contentHash = none → s.renewable (.account who) info.size = ok a →
    Admitted s x (.authorized who (.account who)) ((Charge.renew (.account who) a info.size).apply s)
  | enableAutoRenew :
    x = .signed who (.dataRenewal (.enableAutoRenew contentHash)) →
    s.renewals.lookup contentHash = none →
    s.resolveTransactionRef (.contentHash contentHash) = some info →
    s.renewable (.account who) info.size = ok a →
    Admitted s x (.authorized who (.account who)) ((Charge.renew (.account who) a info.size).apply s)
  | disableAutoRenew :
    x = .signed who (.dataRenewal (.disableAutoRenew contentHash)) →
    s.renewals.lookup contentHash = some data → data.account = who → ¬data.paid →
    Admitted s x (.authorized who (.account who)) s
  | promotion :
    x = .general call → dataSizeOk T call.data.len → s.HasRoom →
    Admitted s x .systemAuthorized s
  | free :
    Extrinsic.IsFree x.call → origin = x.plainOrigin → (∀ call, x ≠ .general call) →
    Admitted s x origin s

variable {s s₁ : State T} {who : T.AccountId} {x : Extrinsic T} {origin : Origin T}
  {scope : AuthorizationScope T}

namespace Verdict

theorem sizeAndRoom_eq_ok : sizeAndRoom s size = ok u ↔ dataSizeOk T size ∧ s.HasRoom := by
  simp [sizeAndRoom, bind_eq_ok, ensure_eq_ok, Ledger.blockTransactionsFull]

theorem storeWith_admitted {call : TransactionStorage.Call T}
    (hx : x.call = .transactionStorage call) (hc : call.content = some (data, hashing))
    (hp : x.Payer (T.hash hashing data.bytes) scope) (hr : sizeAndRoom s data.len = ok ())
    (ho : ensureAuthorized origin = ok caller) (h : storeWith s scope data.len = ok v) :
    Admitted s x origin (v.charge.apply s) := by
  have ⟨hs, hr⟩ := sizeAndRoom_eq_ok.mp hr
  have ⟨_, ha, hv⟩ := storeWith_eq_ok.mp h
  exact hv ▸ .store hx hc hp hs hr ha ho

theorem renewWith_admitted (hx : x.call = .dataRenewal (.forceRenew entry))
    (hi : s.resolveTransactionRef entry = some info) (hp : x.Payer info.contentHash scope)
    (hr : sizeAndRoom s info.size = ok ()) (ho : ensureAuthorized origin = ok caller)
    (hn : origin ≠ .root) (h : renewWith s scope info.size = ok v) :
    Admitted s x origin (v.charge.apply s) := by
  have ⟨hs, hr⟩ := sizeAndRoom_eq_ok.mp hr
  have ⟨_, ha, hv⟩ := renewWith_eq_ok.mp h
  exact hv ▸ .forceRenew hx hi hp hs hr ha ho hn

theorem origin_of_storeWith (h : storeWith s scope size = ok v) :
    v.origin who = .authorized who scope := by
  have ⟨_, _, hv⟩ := storeWith_eq_ok.mp h
  exact hv ▸ rfl

theorem origin_of_renewWith (h : renewWith s scope size = ok v) :
    v.origin who = .authorized who scope := by
  have ⟨_, _, hv⟩ := renewWith_eq_ok.mp h
  exact hv ▸ rfl

theorem storageSigned_admitted {call : TransactionStorage.Call T}
    (h : storageSigned s who call = ok v) :
    Admitted s (.signed who (.transactionStorage call)) (v.origin who) (v.charge.apply s) := by
  cases call
  case store | storeWithCidConfig =>
    obtain ⟨_, hr, h⟩ := bind_eq_ok.mp h
    cases orElse_eq_ok.mp h
    case inl h =>
      rw [origin_of_storeWith h]
      exact storeWith_admitted rfl rfl (.inl rfl) hr rfl h
    case inr h =>
      rw [origin_of_storeWith h.right]
      exact storeWith_admitted rfl rfl (.inr ⟨_, _, rfl, rfl⟩) hr rfl h.right
  all_goals
    have hs := storageSigned_of_not_isStore (by simp [TransactionStorage.Call.isStore]) h
    exact hs ▸ .free (by simp [Extrinsic.IsFree, Extrinsic.call, TransactionStorage.Call.isStore]) rfl
      (fun _ hx => by cases hx)

theorem renewalSigned_admitted {call : DataRenewal.Call T} (h : renewalSigned s who call = ok v) :
    Admitted s (.signed who (.dataRenewal call)) (v.origin who) (v.charge.apply s) := by
  cases call
  case renew entry =>
    have ⟨info, hi, h⟩ := bind_eq_ok.mp h
    have ⟨_, hn, h⟩ := bind_eq_ok.mp h
    have ⟨_, ha, hv⟩ := renewWith_eq_ok.mp h
    exact hv ▸ .renew rfl (okOr_eq_ok.mp hi) (by simpa using ensure_eq_ok.mp hn) ha
  case forceRenew entry =>
    have ⟨info, hi, h⟩ := bind_eq_ok.mp h
    have ⟨_, hr, h⟩ := bind_eq_ok.mp h
    cases orElse_eq_ok.mp h
    case inl h =>
      rw [origin_of_renewWith h]
      exact renewWith_admitted rfl (okOr_eq_ok.mp hi) (.inl rfl) hr rfl nofun h
    case inr h =>
      rw [origin_of_renewWith h.right]
      exact renewWith_admitted rfl (okOr_eq_ok.mp hi) (.inr ⟨_, _, rfl, rfl⟩) hr rfl nofun h.right
  case enableAutoRenew contentHash =>
    have ⟨_, hn, h⟩ := bind_eq_ok.mp h
    have ⟨info, hi, h⟩ := bind_eq_ok.mp h
    have ⟨_, ha, hv⟩ := renewWith_eq_ok.mp h
    exact hv ▸ .enableAutoRenew rfl (by simpa using ensure_eq_ok.mp hn) (okOr_eq_ok.mp hi) ha
  case disableAutoRenew contentHash =>
    have ⟨_, hm, h⟩ := bind_eq_ok.mp h
    have ⟨_, hl, hm⟩ := bind_eq_ok.mp hm
    have ⟨_, hw, hm⟩ := bind_eq_ok.mp hm
    cases h
    exact .disableAutoRenew rfl (okOr_eq_ok.mp hl) (ensure_eq_ok.mp hw) (ensure_eq_ok.mp hm)
  case processPendingRenewals => contradiction

theorem tree_admitted (h : tree s who call = ok v) :
    Admitted s (.signed who call) (v.origin who) (v.charge.apply s) := by
  cases call
  case transactionStorage => exact storageSigned_admitted (tree_storage ▸ h)
  case dataRenewal        => exact renewalSigned_admitted (tree_renewal ▸ h)
  all_goals exact tree_unclaimed rfl h ▸ .free trivial rfl (fun _ => nofun)

theorem storageUnsigned_admitted {call : TransactionStorage.Call T}
    (h : storageUnsigned s call = ok v) :
    Admitted s (.unsigned (.transactionStorage call)) .none (v.charge.apply s) := by
  cases call
  case store | storeWithCidConfig =>
    have ⟨_, hr, h⟩ := bind_eq_ok.mp h
    exact storeWith_admitted rfl rfl (.inl rfl) hr rfl h
  case removeExpiredAccountAuthorization | removeExpiredPreimageAuthorization
      | removeExhaustedAuthorizer =>
    have ⟨_, _, h⟩ := bind_eq_ok.mp h
    cases h
    exact .free nofun rfl (fun _ => nofun)
  case applyBlockInherents => cases h; exact .free nofun rfl (fun _ => nofun)
  all_goals contradiction

theorem renewalUnsigned_admitted {call : DataRenewal.Call T} (h : renewalUnsigned s call = ok v) :
    Admitted s (.unsigned (.dataRenewal call)) .none (v.charge.apply s) := by
  cases call
  case forceRenew entry =>
    have ⟨info, hi, h⟩ := bind_eq_ok.mp h
    have ⟨_, hr, h⟩ := bind_eq_ok.mp h
    exact renewWith_admitted rfl (okOr_eq_ok.mp hi) (.inl rfl) hr rfl nofun h
  case processPendingRenewals => cases h; exact .free rfl rfl (fun _ => nofun)
  all_goals contradiction

end Verdict

namespace Extrinsic

theorem admission_signed (s : State T) (who : T.AccountId) (call : RuntimeCall T) :
    (signed who call).admission s = match Verdict.tree s who call with
      | error e => (error e, s)
      | ok v    => (ok (v.origin who), v.charge.apply s) := by
  have hv := validate_carriesOut s who call
  have hp := prepareWalk_carriesOut s who call
  simp only [admission, Check.bind_apply]
  cases ht : Verdict.tree s who call <;> rw [ht] at hv hp
  case error => rw [show _ = _ from hv]
  case ok v =>
    obtain ⟨⟨_, val, origin⟩, ⟨ho, hc⟩, hv⟩ := hv
    obtain ⟨_, _, hp⟩ := hp
    have ho : origin = v.origin who := ho
    subst ho
    simp only [hv, CheckContext.consumeAuthorization]
    cases hc
    case inl hc =>
      cases hc
      simp [prepare, hp, CheckContext.consumeAuthorization, Check.pure_apply]
    case inr hc =>
      obtain ⟨hn, hc⟩ := hc
      cases hn
      simp [prepare, hc, Charge.apply, Check.pure_apply]

theorem admission_unsigned (call : RuntimeCall T) {verdict : Except InvalidTransaction (Verdict T)}
    (hc : CarriesOut call.preDispatch .preDispatch s verdict fun _ _ => True)
    (h : (unsigned call).admission s = (ok origin, s₁)) :
    ∃ v, verdict = ok v ∧ origin = .none ∧ s₁ = v.charge.apply s := by
  have ⟨_, _, hp, h⟩ := Check.bind_eq_ok.mp h
  cases h
  cases verdict
  case error => rw [show _ = _ from hc] at hp; cases hp
  case ok v  =>
    have ⟨_, _, hc⟩ := hc
    rw [hc] at hp
    cases hp
    exact ⟨v, rfl, rfl, rfl⟩

theorem authorizeCommon_admitted
    (h : HopPromotion.authorizeCommon source ts data s = (ok u, s₁)) :
    s₁ = s ∧ dataSizeOk T data.len ∧ s.HasRoom := by
  have ⟨_, t₁, hs, h⟩ := Check.bind_eq_ok.mp h
  have ⟨_, hs⟩ := Check.reading_eq_ok.mp hs
  have ⟨_, t₂, hr, h⟩ := Check.bind_eq_ok.mp h
  have ⟨hr, ht⟩ := Check.reading_eq_ok.mp hr
  have ⟨_, hu⟩ := Check.reading_eq_ok.mp h
  subst hs ht hu
  exact ⟨rfl, Verdict.sizeAndRoom_eq_ok.mp hr⟩

theorem authorize_admitted {call : HopPromotion.Call T}
    (h : HopPromotion.authorize .inBlock call s = (ok v, s₁)) :
    s₁ = s ∧ dataSizeOk T call.data.len ∧ s.HasRoom := by
  cases call
  case promote =>
    have ⟨_, t, hc, h⟩ := Check.bind_eq_ok.mp h
    have ⟨_, _, ha, h⟩ := Check.bind_eq_ok.mp h
    have ⟨_, ha⟩ := Check.reading_eq_ok.mp ha
    have ⟨ht, hc⟩ := authorizeCommon_admitted hc
    cases h
    exact ⟨ha.trans ht, hc⟩
  case promoteV2 =>
    have ⟨_, t, hc, h⟩ := Check.bind_eq_ok.mp h
    have ⟨_, _, he, h⟩ := Check.bind_eq_ok.mp h
    have ⟨_, he⟩ := Check.reading_eq_ok.mp he
    have ⟨_, _, ha, h⟩ := Check.bind_eq_ok.mp h
    have ⟨_, ha⟩ := Check.reading_eq_ok.mp ha
    have ⟨ht, hc⟩ := authorizeCommon_admitted hc
    cases h
    exact ⟨ha.trans (he.trans ht), hc⟩

theorem admission_admitted (h : x.admission s = (ok origin, s₁)) : Admitted s x origin s₁ := by
  cases x
  case signed who call =>
    rw [admission_signed] at h
    cases hv : Verdict.tree s who call <;> rw [hv] at h <;> cases h
    exact Verdict.tree_admitted hv
  case unsigned call =>
    cases call
    case transactionStorage call =>
      have ⟨v, hv, ho, hs⟩ := admission_unsigned (.transactionStorage call)
        TransactionStorage.preDispatch_carriesOut h
      exact ho ▸ hs ▸ Verdict.storageUnsigned_admitted hv
    case dataRenewal call =>
      have ⟨v, hv, ho, hs⟩ := admission_unsigned (.dataRenewal call)
        DataRenewal.preDispatch_carriesOut h
      exact ho ▸ hs ▸ Verdict.renewalUnsigned_admitted hv
    case other =>
      cases h
      exact .free trivial rfl (fun _ => nofun)
    all_goals cases h
  case general call =>
    have ⟨_, _, ha, h⟩ := Check.bind_eq_ok.mp h
    have ⟨hs, hd, hr⟩ := authorize_admitted ha
    cases h
    subst hs
    exact .promotion rfl hd hr

end Extrinsic
end Bulletin
