import BulletinChain.Theorems.Walk

namespace Bulletin

open Machine Except ValidateAuthorizedCalls

variable {T : Config} {s s' : State T} {who : T.AccountId} {scope : AuthorizationScope T}

-- `s'` differs from `s` in the authorization of `scope`, which has one more transaction used, in the
-- count of permanent bytes and in the events, and in nothing else.
def ChargesOnly (scope : AuthorizationScope T) (s s' : State T) : Prop :=
  ∃ a a' used events, s.activeAuthorization scope = some a ∧
    a'.extent.transactions = saturatingAdd u32Max a.extent.transactions 1 ∧
    s' = { s with
      authorizations       := s.authorizations.insert scope a'
      permanentStorageUsed := used
      events               := events }

-- No charge changes nothing at all, events included.
def Footprint (s s' : State T) : Option (AuthorizationScope T) → Prop
  | some scope => ChargesOnly scope s s'
  | none       => s' = s

-- The scope of the content is charged whenever it passes alone.
def preferred (who : T.AccountId) (contentHash : T.ContentHash) (passes : Prop) [Decidable passes] :
    AuthorizationScope T :=
  if passes then .preimage contentHash else .account who

-- The authorization that pays for a signed call, if it is one that is paid for.
def signedScope (s : State T) (who : T.AccountId) :
    RuntimeCall T → Option (AuthorizationScope T)
  | .transactionStorage call => call.content.map fun (data, hashing) =>
    let contentHash := T.hash hashing data.bytes
    preferred who contentHash
      ((TransactionStorage.checkAuthorization (.preimage contentHash) data.len false).Succeeds s)
  | .dataRenewal (.renew _) | .dataRenewal (.enableAutoRenew _) => some (.account who)
  | .dataRenewal (.forceRenew entry) => (s.resolveTransactionRef entry).map fun info =>
    preferred who info.contentHash
      ((DataRenewal.checkRenewAuthorization (.preimage info.contentHash) info.size false).Succeeds s)
  | _ => none

-- The one that pays for an unsigned call.
def unsignedScope (s : State T) : RuntimeCall T → Option (AuthorizationScope T)
  | .transactionStorage call => call.content.map fun (data, hashing) =>
    .preimage (T.hash hashing data.bytes)
  | .dataRenewal (.forceRenew entry) => (s.resolveTransactionRef entry).map (.preimage ·.contentHash)
  | _ => none

-- A check that only validates and its counterpart that consumes accept the same calls. The first and
-- a rejecting second leave the state alone, and an accepting second leaves the given footprint.
structure Agree (v : Check.Of T α) (p : Check.Of T Unit) (s : State T)
    (scope : Option (AuthorizationScope T)) : Prop where
  succeeds  : v.Succeeds s ↔ p.Succeeds s
  validated : (v s).2 = s
  rejected  : ¬p.Succeeds s → (p s).2 = s
  accepted  : p.Succeeds s → Footprint s (p s).2 scope

theorem CarriesOut.agree {v : Check.Of T α} {p : Check.Of T Unit}
    {verdict : Except InvalidTransaction (Verdict T)} {scope : Option (AuthorizationScope T)}
    (hv : CarriesOut v .validate s verdict post) (hp : CarriesOut p .preDispatch s verdict post')
    (hf : ∀ w, verdict = ok w → Footprint s (w.charge.apply s) scope) : Agree v p s scope := by
  cases verdict
  case error e =>
    simp only [CarriesOut] at hv hp
    constructor <;> simp [Check.Succeeds, hv, hp, Except.isOk, Except.toBool]
  case ok w =>
    obtain ⟨_, _, hv⟩ := hv
    obtain ⟨_, _, hp⟩ := hp
    constructor <;> simp [Check.Succeeds, hv, hp, Except.isOk, Except.toBool,
      CheckContext.consumeAuthorization, hf w rfl]

namespace State

theorem updatePermanentStorageUsed_eq :
    ∃ events, s.updatePermanentStorageUsed f =
      { s with permanentStorageUsed := f s.permanentStorageUsed, events := events } := by
  simp only [updatePermanentStorageUsed]
  split <;> exact ⟨_, rfl⟩

theorem renewable_eq_ok :
    s.renewable scope size = ok a ↔
      s.activeAuthorization scope = some a ∧
      saturatingAdd u64Max a.extent.extra.bytesPermanent size ≤ a.extent.bytesAllowance ∧
      saturatingAdd u64Max s.permanentStorageUsed size ≤ T.maxPermanentStorageSize := by
  simp only [renewable, bind_eq_ok, okOr_eq_ok, ensure_eq_ok, pure_eq_ok]
  constructor
  case mp  => rintro ⟨a, h, _, ha, _, hc, he⟩; exact he ▸ ⟨h, ha, hc⟩
  case mpr => rintro ⟨h, ha, hc⟩; exact ⟨a, h, (), ha, (), hc, rfl⟩

end State

namespace Verdict

theorem storeWith_eq_ok :
    storeWith s scope size = ok v ↔
      ∃ a, s.activeAuthorization scope = some a ∧ ⟨some scope, .store scope a size⟩ = v := by
  simp only [storeWith, bind_eq_ok, okOr_eq_ok, pure_eq_ok]

theorem renewWith_eq_ok :
    renewWith s scope size = ok v ↔
      ∃ a, s.renewable scope size = ok a ∧ ⟨some scope, .renew scope a size⟩ = v := by
  simp only [renewWith, bind_eq_ok, pure_eq_ok]

theorem orElse_eq_ok :
    orElse (T := T) x y = ok v ↔ x = ok v ∨ (∃ e, x = error e) ∧ y = ok v := by
  cases x <;> simp [orElse]

-- A verdict with a charge is on one scope, that of the rewritten origin.
def Charges (v : Verdict T) (s : State T) (scope : AuthorizationScope T) : Prop :=
  v.scope = some scope ∧ ChargesOnly scope s (v.charge.apply s)

theorem charges_of_storeWith (h : storeWith s scope size = ok v) : v.Charges s scope := by
  have ⟨a, ha, hv⟩ := storeWith_eq_ok.mp h
  subst hv
  exact ⟨rfl, a, TransactionStorage.charged a size, _, _, ha, rfl, rfl⟩

theorem charges_of_renewWith (h : renewWith s scope size = ok v) : v.Charges s scope := by
  have ⟨a, ha, hv⟩ := renewWith_eq_ok.mp h
  have ⟨ha, _⟩ := State.renewable_eq_ok.mp ha
  subst hv
  have ⟨events, he⟩ := State.updatePermanentStorageUsed_eq
    (s := s.withAuthorization scope (DataRenewal.charged a size))
    (f := (saturatingAdd u64Max · size))
  exact ⟨rfl, a, DataRenewal.charged a size, _, events, ha, rfl, he⟩

theorem storeWith_isOk :
    (∃ v, storeWith s scope size = ok v) ↔
      (TransactionStorage.checkAuthorization scope size false).Succeeds s := by
  simp only [storeWith_eq_ok, Check.Succeeds, TransactionStorage.checkAuthorization_eq]
  cases s.activeAuthorization scope <;> simp [Except.isOk, Except.toBool]

theorem renewWith_isOk :
    (∃ v, renewWith s scope size = ok v) ↔
      (DataRenewal.checkRenewAuthorization scope size false).Succeeds s := by
  simp only [renewWith_eq_ok, Check.Succeeds, DataRenewal.checkRenewAuthorization_eq]
  cases s.renewable scope size <;> simp [Except.isOk, Except.toBool]

theorem charges_of_orElse {x y : Except InvalidTransaction (Verdict T)} [Decidable p]
    (hp : (∃ v, x = ok v) ↔ p)
    (hx : ∀ v, x = ok v → v.Charges s (.preimage contentHash))
    (hy : ∀ v, y = ok v → v.Charges s (.account who)) (h : orElse x y = ok v) :
    v.Charges s (preferred who contentHash p) := by
  cases orElse_eq_ok.mp h
  case inl h => simpa [preferred, hp.mp ⟨v, h⟩] using hx v h
  case inr h =>
    have ⟨⟨e, he⟩, h⟩ := h
    have hp : ¬p := fun hc => by simp [he] at hp; exact hp hc
    simpa [preferred, hp] using hy v h

theorem tree_storage {call : TransactionStorage.Call T} :
    tree s who (.transactionStorage call) = storageSigned s who call := by
  simp only [tree, leaf, storageLeaf, ensure]
  cases storageSigned s who call <;> rfl

theorem tree_renewal {call : DataRenewal.Call T} :
    tree s who (.dataRenewal call) = renewalSigned s who call := by
  simp only [tree, leaf, renewalLeaf, ensure]
  cases renewalSigned s who call <;> rfl

theorem tree_unclaimed (hl : leaf s who 0 call = ok none) (h : tree s who call = ok v) : v = free := by
  simp only [tree, hl, ok_bind] at h
  split at h
  case h_1 =>
    have ⟨_, _, h⟩ := bind_eq_ok.mp h
    exact (pure_eq_ok.mp h).symm
  case h_2 => exact (pure_eq_ok.mp h).symm

theorem storeSigned_charges (h : storeSigned s who size contentHash = ok v) :
    v.Charges s (preferred who contentHash
      ((TransactionStorage.checkAuthorization (.preimage contentHash) size false).Succeeds s)) := by
  have ⟨_, _, h⟩ := bind_eq_ok.mp h
  exact charges_of_orElse storeWith_isOk (fun _ => charges_of_storeWith)
    (fun _ => charges_of_storeWith) h

theorem tree_charges (h : tree s who call = ok v) :
    match signedScope s who call with
    | some scope => v.Charges s scope
    | none       => v.charge = .nothing := by
  cases call
  case transactionStorage call =>
    rw [tree_storage] at h
    cases call
    case store | storeWithCidConfig => exact storeSigned_charges h
    all_goals
      have hv := storageSigned_of_not_isStore (by simp [TransactionStorage.Call.isStore]) h
      exact hv ▸ rfl
  case dataRenewal call =>
    rw [tree_renewal] at h
    cases call
    case renew entry =>
      have ⟨_, _, h⟩ := bind_eq_ok.mp h
      have ⟨_, _, h⟩ := bind_eq_ok.mp h
      exact charges_of_renewWith h
    case forceRenew entry =>
      have ⟨info, hi, h⟩ := bind_eq_ok.mp h
      have ⟨_, _, h⟩ := bind_eq_ok.mp h
      simp only [signedScope, okOr_eq_ok.mp hi, Option.map_some]
      exact charges_of_orElse renewWith_isOk (fun _ => charges_of_renewWith)
        (fun _ => charges_of_renewWith) h
    case enableAutoRenew contentHash =>
      have ⟨_, _, h⟩ := bind_eq_ok.mp h
      have ⟨_, _, h⟩ := bind_eq_ok.mp h
      exact charges_of_renewWith h
    case disableAutoRenew contentHash =>
      have ⟨_, _, h⟩ := bind_eq_ok.mp h
      exact pure_eq_ok.mp h ▸ rfl
    case processPendingRenewals => contradiction
  all_goals exact tree_unclaimed rfl h ▸ rfl

theorem storageUnsigned_charges {call : TransactionStorage.Call T}
    (h : storageUnsigned s call = ok v) :
    Footprint s (v.charge.apply s) (unsignedScope s (.transactionStorage call)) := by
  cases call
  case store | storeWithCidConfig =>
    have ⟨_, _, h⟩ := bind_eq_ok.mp h
    exact (charges_of_storeWith h).right
  case removeExpiredAccountAuthorization | removeExpiredPreimageAuthorization
      | removeExhaustedAuthorizer =>
    have ⟨_, _, h⟩ := bind_eq_ok.mp h
    exact pure_eq_ok.mp h ▸ rfl
  case applyBlockInherents => exact pure_eq_ok.mp h ▸ rfl
  all_goals contradiction

theorem renewalUnsigned_charges {call : DataRenewal.Call T} (h : renewalUnsigned s call = ok v) :
    Footprint s (v.charge.apply s) (unsignedScope s (.dataRenewal call)) := by
  cases call
  case forceRenew entry =>
    have ⟨info, hi, h⟩ := bind_eq_ok.mp h
    have ⟨_, _, h⟩ := bind_eq_ok.mp h
    simp only [unsignedScope, okOr_eq_ok.mp hi, Option.map_some]
    exact (charges_of_renewWith h).right
  case processPendingRenewals => exact pure_eq_ok.mp h ▸ rfl
  all_goals contradiction

end Verdict

-- Pool validation and block inclusion agree, for the signed calls and for the unsigned ones that are
-- not inherents. The scope that a signed validation writes into the origin is the one that is charged.
theorem validation_agrees_with_inclusion (s : State T) :
    (∀ who call, Agree (validate (.signed who) call) (prepareWalk who call) s (signedScope s who call) ∧
      ((validate (.signed who) call).Succeeds s → ∀ scope, signedScope s who call = some scope →
        ∃ v val, (validate (.signed who) call s).1 = ok (v, val, .authorized who scope))) ∧
    (∀ call : TransactionStorage.Call T, ¬call.isInherent →
      Agree (TransactionStorage.validateUnsigned call) (TransactionStorage.preDispatch call) s
        (unsignedScope s (.transactionStorage call))) ∧
    (∀ call : DataRenewal.Call T, ¬call.isInherent →
      Agree (DataRenewal.validateUnsigned call) (DataRenewal.preDispatch call) s
        (unsignedScope s (.dataRenewal call))) := by
  refine ⟨fun who call => ⟨?_, ?_⟩, fun call hi => ?_, fun call _ => ?_⟩
  · refine (validate_carriesOut s who call).agree (prepareWalk_carriesOut s who call) fun v hv => ?_
    have hc := Verdict.tree_charges hv
    cases hs : signedScope s who call <;> rw [hs] at hc
    case none => exact hc ▸ rfl
    case some => exact hc.right
  · intro hv scope hs
    have h := validate_carriesOut s who call
    cases ht : Verdict.tree s who call <;> rw [ht] at h
    case error => simp [Check.Succeeds, show _ = _ from h, Except.isOk, Except.toBool] at hv
    case ok v =>
      obtain ⟨⟨tx, val, origin⟩, ⟨ho, _⟩, h⟩ := h
      have hc := Verdict.tree_charges ht
      rw [hs] at hc
      exact ⟨tx, val, by simp [h, show origin = _ from ho, Verdict.origin, hc.left]⟩
  · exact (TransactionStorage.validateUnsigned_carriesOut hi).agree
      TransactionStorage.preDispatch_carriesOut fun _ => Verdict.storageUnsigned_charges
  · exact DataRenewal.validateUnsigned_carriesOut.agree
      DataRenewal.preDispatch_carriesOut fun _ => Verdict.renewalUnsigned_charges

end Bulletin
