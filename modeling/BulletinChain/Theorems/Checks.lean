import BulletinChain.Verdict

namespace Bulletin

open Machine Except

variable {T : Config} {s : State T} {context : CheckContext}

theorem State.activeAuthorization_eq {scope : AuthorizationScope T} :
    s.activeAuthorization scope = match s.authorizations.lookup scope with
      | none   => none
      | some a => if a.expired s.blockNumber then none else some a := by
  simp only [activeAuthorization]
  cases s.authorizations.lookup scope <;> simp [Option.filter]
  split <;> simp_all

-- What the metadata of a signed check says when the context wants it.
def Reports (context : CheckContext) (v : Verdict T) (a : TransactionStorage.Validation T) : Prop :=
  context.wantValidTransaction → a.1.isSome ∧ a.2 = v.scope

namespace TransactionStorage

theorem checkAuthorization_eq {scope : AuthorizationScope T} :
    checkAuthorization scope size consume s = match s.activeAuthorization scope with
      | none   => (error .payment, s)
      | some a => (ok (), if consume then s.withAuthorization scope (charged a size) else s) := by
  simp only [checkAuthorization, State.activeAuthorization_eq]
  cases s.authorizations.lookup scope
  case none   => rfl
  case some a =>
    by_cases he : a.expired s.blockNumber
    · simp [he]
    · cases consume <;> simp [he, State.withAuthorization]

theorem checkAuthorization_carriesOut {scope : AuthorizationScope T} :
    CarriesOut (checkAuthorization scope size context.consumeAuthorization) context s
      (Verdict.storeWith s scope size) fun v _ => v.scope = some scope := by
  simp only [CarriesOut, Verdict.storeWith, checkAuthorization_eq]
  cases s.activeAuthorization scope
  case none => rfl
  case some => exact ⟨(), rfl, rfl⟩

theorem checkSizeAndRoom_bind {g : Unit → Check.Of T α} {v : Except InvalidTransaction (Verdict T)}
    (h : CarriesOut (g ()) context s v post) :
    CarriesOut (checkSizeAndRoom size >>= g) context s
      (do Verdict.sizeAndRoom s size; v) post :=
  .reading_bind fun _ _ => h

theorem reports_wanted {v : ValidTransaction} : Reports (T := T) context .free (wanted context v, none) := by
  intro h
  simp [wanted, h, Verdict.free]

theorem checkStoreSigned_carriesOut {who : T.AccountId} :
    CarriesOut (checkStoreSigned who size contentHash context) context s
      (Verdict.storeSigned s who size contentHash) (Reports context) := by
  refine checkSizeAndRoom_bind <| .orElse ?_ ?_
  all_goals
    refine checkAuthorization_carriesOut.mono fun v _ hv hw => ?_
    simp [storeValidation, hw, hv]

theorem checkStoreUnsigned_carriesOut {contentHash : T.ContentHash} :
    CarriesOut (checkStoreUnsigned size contentHash context) context s
      (Verdict.storeUnsigned s size contentHash)
      fun _ a => context.wantValidTransaction → a.isSome := by
  refine checkSizeAndRoom_bind <| checkAuthorization_carriesOut.map fun _ _ _ hw => ?_
  simp [wanted, hw]

theorem checkSigned_carriesOut {who : T.AccountId} {call : Call T} :
    CarriesOut (checkSigned who call context) context s (Verdict.storageSigned s who call)
      (Reports context) := by
  cases call
  case store | storeWithCidConfig => exact checkStoreSigned_carriesOut
  case authorizeAccount | authorizePreimage | refreshAccountAuthorization
      | refreshPreimageAuthorization =>
    exact .reading_bind fun _ _ => .free reports_wanted
  case addAuthorizer | removeAuthorizer => exact .free reports_wanted
  all_goals exact .fail

theorem validateSigned_carriesOut {who : T.AccountId} {call : Call T} :
    CarriesOut (validateSigned who call) .validate s (Verdict.storageSigned s who call)
      fun v a => a.2 = v.scope := by
  refine checkSigned_carriesOut.andThen fun v a s' ha => ?_
  have ⟨hs, hv⟩ := ha rfl
  have ⟨x, hx⟩ := Option.isSome_iff_exists.mp hs
  exact ⟨(x, a.2), hv, by simp [Check.bind_apply, Check.reading_apply, hx, okOr, Check.pure_apply]⟩

theorem preDispatchSigned_carriesOut {who : T.AccountId} {call : Call T} :
    CarriesOut (preDispatchSigned who call) .preDispatch s (Verdict.storageSigned s who call)
      fun _ _ => True :=
  checkSigned_carriesOut.map fun _ _ _ => trivial

theorem checkUnsigned_carriesOut {call : Call T} (hi : ¬call.isInherent) :
    CarriesOut (checkUnsigned call context) context s (Verdict.storageUnsigned s call)
      fun _ a => context.wantValidTransaction → a.isSome := by
  cases call
  case store | storeWithCidConfig => exact checkStoreUnsigned_carriesOut
  case removeExpiredAccountAuthorization | removeExpiredPreimageAuthorization
      | removeExhaustedAuthorizer =>
    exact .reading_bind fun _ _ => .free fun hw => by simp [wanted, hw]
  case applyBlockInherents => contradiction
  all_goals exact .fail

theorem validateUnsigned_carriesOut {call : Call T} (hi : ¬call.isInherent) :
    CarriesOut (validateUnsigned call) .validate s (Verdict.storageUnsigned s call)
      fun _ _ => True := by
  simp only [validateUnsigned, hi]
  refine (checkUnsigned_carriesOut hi).andThen fun v a s' ha => ?_
  have ⟨x, hx⟩ := Option.isSome_iff_exists.mp (ha rfl)
  exact ⟨x, trivial, by simp [Check.reading_apply, hx, okOr]⟩

theorem preDispatch_carriesOut {call : Call T} :
    CarriesOut (preDispatch call) .preDispatch s (Verdict.storageUnsigned s call)
      fun _ _ => True := by
  by_cases hi : call.isInherent
  · cases call <;> first | contradiction | exact .free trivial
  · simp only [preDispatch, hi]
    exact (checkUnsigned_carriesOut hi).map fun _ _ _ => trivial

end TransactionStorage

namespace DataRenewal

open TransactionStorage

theorem checkRenewAuthorization_eq {scope : AuthorizationScope T} :
    checkRenewAuthorization scope size consume s = match s.renewable scope size with
      | error e => (error e, s)
      | ok a    => (ok (), if consume then (Charge.renew scope a size).apply s else s) := by
  simp only [checkRenewAuthorization, State.renewable, State.activeAuthorization_eq]
  cases s.authorizations.lookup scope
  case none   => rfl
  case some a =>
    by_cases he : a.expired s.blockNumber
    · simp [he, okOr]
    · by_cases ha : saturatingAdd u64Max a.extent.extra.bytesPermanent size ≤ a.extent.bytesAllowance
      · by_cases hc : saturatingAdd u64Max s.permanentStorageUsed size ≤ T.maxPermanentStorageSize
        · cases consume <;>
            simp [he, ha, hc, not_lt.mpr ha, not_lt.mpr hc, okOr, ensure, Charge.apply,
              State.withAuthorization]
        · simp [he, ha, hc, not_le.mp hc, okOr, ensure]
      · simp [he, ha, not_le.mp ha, okOr, ensure]

theorem checkRenewAuthorization_carriesOut {scope : AuthorizationScope T} :
    CarriesOut (checkRenewAuthorization scope size context.consumeAuthorization) context s
      (Verdict.renewWith s scope size) fun v _ => v.scope = some scope := by
  simp only [CarriesOut, Verdict.renewWith, checkRenewAuthorization_eq]
  cases s.renewable scope size
  case error => rfl
  case ok    => exact ⟨(), rfl, rfl⟩

theorem authorizeRenew_carriesOut {who : T.AccountId} :
    CarriesOut (authorizeRenew who contentHash size context.consumeAuthorization) context s
      (do
        Verdict.sizeAndRoom s size
        Verdict.orElse (Verdict.renewWith s (.preimage contentHash) size)
          (Verdict.renewWith s (.account who) size))
      fun v scope => v.scope = some scope :=
  checkSizeAndRoom_bind <|
    .orElse checkRenewAuthorization_carriesOut checkRenewAuthorization_carriesOut

theorem checkRenewalSigned_carriesOut {who : T.AccountId} {call : Call T} :
    CarriesOut (checkRenewalSigned who call context) context s (Verdict.renewalSigned s who call)
      fun v a => a.2 = v.scope := by
  cases call
  case renew entry =>
    exact .reading_bind fun _ _ => .reading_bind fun _ _ =>
      checkRenewAuthorization_carriesOut.map fun _ _ h => h.symm
  case forceRenew entry =>
    exact .reading_bind fun _ _ => authorizeRenew_carriesOut.map fun _ _ h => h.symm
  case enableAutoRenew contentHash =>
    exact .reading_bind fun _ _ => .reading_bind fun _ _ =>
      checkRenewAuthorization_carriesOut.map fun _ _ h => h.symm
  case disableAutoRenew contentHash => exact .reading_bind fun _ _ => .free rfl
  case processPendingRenewals       => exact .fail

theorem preDispatchRenewalSigned_carriesOut {who : T.AccountId} {call : Call T} :
    CarriesOut (preDispatchRenewalSigned who call) .preDispatch s (Verdict.renewalSigned s who call)
      fun _ _ => True :=
  checkRenewalSigned_carriesOut.map fun _ _ _ => trivial

theorem checkRenewUnsigned_carriesOut {entry : TransactionRef T} :
    CarriesOut (checkRenewUnsigned entry context) context s
      (Verdict.renewalUnsigned s (.forceRenew entry))
      fun _ a => context.wantValidTransaction → a.isSome :=
  .reading_bind fun _ _ => checkSizeAndRoom_bind <|
    checkRenewAuthorization_carriesOut.map fun _ _ _ hw => by simp [wanted, hw]

theorem validateUnsigned_carriesOut {call : Call T} :
    CarriesOut (validateUnsigned call) .validate s (Verdict.renewalUnsigned s call)
      fun _ _ => True := by
  cases call
  case forceRenew entry =>
    refine checkRenewUnsigned_carriesOut.andThen fun v a s' ha => ?_
    have ⟨x, hx⟩ := Option.isSome_iff_exists.mp (ha rfl)
    exact ⟨x, trivial, by simp [Check.reading_apply, hx, okOr]⟩
  case processPendingRenewals => exact .free trivial
  all_goals exact .fail

theorem preDispatch_carriesOut {call : Call T} :
    CarriesOut (preDispatch call) .preDispatch s (Verdict.renewalUnsigned s call)
      fun _ _ => True := by
  cases call
  case forceRenew             => exact checkRenewUnsigned_carriesOut.map fun _ _ _ => trivial
  case processPendingRenewals => exact .free trivial
  all_goals exact .fail

end DataRenewal
end Bulletin
