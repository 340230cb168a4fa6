import BulletinChain.Runtime.Integrity
import BulletinChain.Lib.Codec
import BulletinChain.Theorems.Agreement

namespace Bulletin

open Except

variable {T : Config} {s s' : State T}

-- Accounts and content hashes are arrays of 32 bytes.
structure Config.Arrays (T : Config) : Prop where
  length_accountId      : ∀ who, (T.encodeAccountId who).length = 32
  length_contentHash    : ∀ h, (T.encodeContentHash h).length = 32
  accountId_injective   : Function.Injective T.encodeAccountId
  contentHash_injective : Function.Injective T.encodeContentHash

-- The families of transactions that are tagged.
inductive Family
  | store
  | renew
  | promote
  | removeExpiredAccount
  | removeExpiredPreimage
  | removeExhaustedAuthorizer
deriving DecidableEq

variable (T) in
def Family.params : Family → ValidTransactionParams
  | store                     => T.storeTxParams
  | renew                     => T.renewTxParams
  | promote                   => T.promoteTxParams
  | removeExpiredAccount      => T.removeExpiredAccountAuthorizationTxParams
  | removeExpiredPreimage     => T.removeExpiredPreimageAuthorizationTxParams
  | removeExhaustedAuthorizer => T.removeExhaustedAuthorizerTxParams

-- What a transaction is about: some content at the cost of an account, some content whoever pays, or
-- an account.
inductive Subject (T : Config)
  | charged (who : T.AccountId) (contentHash : T.ContentHash)
  | content (contentHash : T.ContentHash)
  | account (who : T.AccountId)

namespace Subject

def encode : Subject T → List UInt8
  | charged who contentHash => T.encodeAccountId who ++ T.encodeContentHash contentHash
  | content contentHash     => T.encodeContentHash contentHash
  | account who             => T.encodeAccountId who

-- The subject of what is charged to a scope.
def of (contentHash : T.ContentHash) : AuthorizationScope T → Subject T
  | .account who   => charged who contentHash
  | .preimage hash => content hash

end Subject

-- The transactions of the six validators.
inductive Candidate (T : Config)
  | signed (who : T.AccountId) (call : TransactionStorage.Call T)
  | unsigned (call : TransactionStorage.Call T)
  | renewalSigned (who : T.AccountId) (call : DataRenewal.Call T)
  | renewUnsigned (entry : TransactionRef T)
  | promotion (source : TransactionSource) (call : HopPromotion.Call T)

namespace Candidate

def check (context : CheckContext) : Candidate T → Check.Of T (Option ValidTransaction)
  | signed who call        => do return (← TransactionStorage.checkSigned who call context).1
  | unsigned call          => TransactionStorage.checkUnsigned call context
  | renewalSigned who call => do return some (← DataRenewal.checkRenewalSigned who call context).1
  | renewUnsigned entry    => DataRenewal.checkRenewUnsigned entry context
  | promotion source call  => do return some (← HopPromotion.authorize source call)

-- The tags that the pool deduplicates an admitted transaction by.
def provides (context : CheckContext) (s : State T) (x : Candidate T) : List (List UInt8) :=
  match (x.check context s).1 with
  | ok (some v) => v.provides
  | _           => []

def family : Candidate T → Option Family
  | signed _ call => if call.isStore then some .store else none
  | unsigned call =>
    match call with
    | .store _ | .storeWithCidConfig _ _     => some .store
    | .removeExpiredAccountAuthorization _   => some .removeExpiredAccount
    | .removeExpiredPreimageAuthorization _  => some .removeExpiredPreimage
    | .removeExhaustedAuthorizer _           => some .removeExhaustedAuthorizer
    | _                                      => none
  | renewalSigned _ _ | renewUnsigned _ => some .renew
  | promotion _ _                       => some .promote

-- The authorization that pays for the transaction, if one does.
def charged (s : State T) : Candidate T → Option (AuthorizationScope T)
  | signed who call        => signedScope s who (.transactionStorage call)
  | unsigned call          => unsignedScope s (.transactionStorage call)
  | renewalSigned who call => signedScope s who (.dataRenewal call)
  | renewUnsigned entry    => unsignedScope s (.dataRenewal (.forceRenew entry))
  | promotion _ _          => none

-- The content that the transaction stores or renews.
def contentHash (s : State T) : Candidate T → Option T.ContentHash
  | signed _ call | unsigned call =>
    call.content.map fun (data, hashing) => T.hash hashing data.bytes
  | renewalSigned _ (.renew entry) | renewalSigned _ (.forceRenew entry) | renewUnsigned entry =>
    (s.resolveTransactionRef entry).map (·.contentHash)
  | renewalSigned _ (.enableAutoRenew contentHash) =>
    (s.resolveTransactionRef (.contentHash contentHash)).map (·.contentHash)
  | renewalSigned _ _ => none
  | promotion _ call  => some (T.hash .blake2b256 call.data.bytes)

def subject (s : State T) (x : Candidate T) : Option (Subject T) :=
  match x with
  | unsigned (.removeExpiredAccountAuthorization who)   => some (.account who)
  | unsigned (.removeExpiredPreimageAuthorization hash) => some (.content hash)
  | unsigned (.removeExhaustedAuthorizer who)           => some (.account who)
  | promotion ..                                        => (x.contentHash s).map .content
  | _ => do return .of (← x.contentHash s) (← x.charged s)

end Candidate

-- What is returned by a check that tries the content's authorization before the account's.
theorem preferring_eq {x y : Check.Of T Unit} {a b r : α}
    (h : (do
      TransactionStorage.checkSizeAndRoom size
      let used ← x.isOk
      match used with
      | true  => return a
      | false => y; return b : Check.Of T α) s = (ok r, s')) :
    r = if x.Succeeds s then a else b := by
  obtain ⟨_, t, hr, h⟩ := Check.bind_eq_ok.mp h
  cases (Check.reading_eq_ok.mp hr).right
  obtain ⟨used, _, hu, h⟩ := Check.bind_eq_ok.mp h
  rw [Check.isOk_apply] at hu
  have hu : (x s).1.isOk = used := Except.ok.inj (congrArg Prod.fst hu)
  simp only [Check.Succeeds, hu]
  cases used
  case true  => cases h; rfl
  case false =>
    obtain ⟨_, _, _, h⟩ := Check.bind_eq_ok.mp h
    cases h
    rfl

namespace TransactionStorage

theorem succeeds_checkAuthorization (scope : AuthorizationScope T) (size : Nat) (consume : Bool) :
    (checkAuthorization scope size consume).Succeeds s ↔
      (checkAuthorization scope size false).Succeeds s := by
  simp only [Check.Succeeds, checkAuthorization_eq]
  cases s.activeAuthorization scope <;> rfl

-- The tag of a signed store is that of the scope that pays.
theorem checkStoreSigned_tag {v : ValidTransaction} {scope : Option (AuthorizationScope T)}
    (h : checkStoreSigned who size contentHash context s = (ok (some v, scope), s')) :
    v = T.storeTxParams.provides (Subject.of contentHash (preferred who contentHash
      ((checkAuthorization (.preimage contentHash) size false).Succeeds s))).encode := by
  have h := preferring_eq h
  simp only [succeeds_checkAuthorization, storeValidation] at h
  by_cases hp : (checkAuthorization (.preimage contentHash) size false).Succeeds s
  all_goals
    simp only [hp, preferred, if_true, if_false] at h ⊢
    split at h <;> cases h
    rfl

theorem wanted_eq_some {v w : ValidTransaction} (h : wanted context v = some w) : w = v := by
  simp only [wanted] at h
  split at h <;> cases h
  rfl

end TransactionStorage

namespace DataRenewal

theorem succeeds_checkRenewAuthorization (scope : AuthorizationScope T) (size : Nat) (consume : Bool) :
    (checkRenewAuthorization scope size consume).Succeeds s ↔
      (checkRenewAuthorization scope size false).Succeeds s := by
  simp only [Check.Succeeds, checkRenewAuthorization_eq]
  cases s.renewable scope size <;> rfl

theorem authorizeRenew_scope {scope : AuthorizationScope T}
    (h : authorizeRenew who contentHash size consume s = (ok scope, s')) :
    scope = preferred who contentHash
      ((checkRenewAuthorization (.preimage contentHash) size false).Succeeds s) := by
  have h := preferring_eq h
  simpa only [preferred, succeeds_checkRenewAuthorization] using h

theorem mem_metadata {v : ValidTransaction} (h : tag ∈ (metadata context v).provides) :
    tag ∈ v.provides := by
  simp only [metadata] at h
  split at h
  case isTrue  => exact h
  case isFalse => contradiction

theorem resolve_eq_ok {entry : TransactionRef T} (h : resolve entry s = (ok info, s')) :
    s.resolveTransactionRef entry = some info ∧ s' = s := by
  have ⟨h, hs⟩ := Check.reading_eq_ok.mp h
  exact ⟨okOr_eq_ok.mp h, hs⟩

end DataRenewal

theorem ValidTransactionParams.mem_provides {p : ValidTransactionParams} :
    tag ∈ (p.provides subject).provides ↔ tag = Scale.encodeString p.tagPrefix ++ subject := by
  simp [provides]

namespace Candidate

-- A tag is that of the family and of the subject.
def Tagged (x : Candidate T) (s : State T) (tag : List UInt8) : Prop :=
  ∃ f a, x.family = some f ∧ x.subject s = some a ∧
    tag = Scale.encodeString (f.params T).tagPrefix ++ a.encode

variable {tag : List UInt8}

theorem signed_tagged {call : TransactionStorage.Call T} {v : TransactionStorage.Validation T}
    (h : TransactionStorage.checkSigned who call context s = (ok v, s')) (hv : v.1 = some w)
    (ht : tag ∈ w.provides) : (signed who call).Tagged s tag := by
  obtain ⟨_, scope⟩ := v
  cases hv
  cases call
  case store | storeWithCidConfig =>
    have hw := TransactionStorage.checkStoreSigned_tag h
    rw [hw, ValidTransactionParams.mem_provides] at ht
    exact ⟨.store, _, rfl, rfl, ht⟩
  case authorizeAccount | authorizePreimage | refreshAccountAuthorization
      | refreshPreimageAuthorization =>
    have ⟨_, _, _, h⟩ := Check.bind_eq_ok.mp h
    have hw := TransactionStorage.wanted_eq_some (congrArg (·.1) (Except.ok.inj (congrArg Prod.fst h)))
    subst hw
    contradiction
  case addAuthorizer | removeAuthorizer =>
    have hw := TransactionStorage.wanted_eq_some (congrArg (·.1) (Except.ok.inj (congrArg Prod.fst h)))
    subst hw
    contradiction
  all_goals cases h

theorem unsigned_tagged {call : TransactionStorage.Call T}
    (h : TransactionStorage.checkUnsigned call context s = (ok (some v), s'))
    (ht : tag ∈ v.provides) : (unsigned call).Tagged s tag := by
  have hw {w : ValidTransaction} {t : State T}
      (h : (pure (TransactionStorage.wanted context w) : Check.Of T _) t = (ok (some v), s')) :
      v = w :=
    TransactionStorage.wanted_eq_some (Except.ok.inj (congrArg Prod.fst h))
  cases call
  case store | storeWithCidConfig =>
    have ⟨_, _, _, h⟩ := Check.bind_eq_ok.mp h
    have ⟨_, _, _, h⟩ := Check.bind_eq_ok.mp h
    rw [hw h, ValidTransactionParams.mem_provides] at ht
    exact ⟨.store, _, rfl, rfl, ht⟩
  case removeExpiredAccountAuthorization =>
    have ⟨_, _, _, h⟩ := Check.bind_eq_ok.mp h
    rw [hw h, ValidTransactionParams.mem_provides] at ht
    exact ⟨.removeExpiredAccount, _, rfl, rfl, ht⟩
  case removeExpiredPreimageAuthorization =>
    have ⟨_, _, _, h⟩ := Check.bind_eq_ok.mp h
    rw [hw h, ValidTransactionParams.mem_provides] at ht
    exact ⟨.removeExpiredPreimage, _, rfl, rfl, ht⟩
  case removeExhaustedAuthorizer =>
    have ⟨_, _, _, h⟩ := Check.bind_eq_ok.mp h
    rw [hw h, ValidTransactionParams.mem_provides] at ht
    exact ⟨.removeExhaustedAuthorizer, _, rfl, rfl, ht⟩
  all_goals cases h

theorem renewalSigned_tagged {call : DataRenewal.Call T} {v : DataRenewal.RenewalValidation T}
    (h : DataRenewal.checkRenewalSigned who call context s = (ok v, s')) (ht : tag ∈ v.1.provides) :
    (renewalSigned who call).Tagged s tag := by
  cases call
  case renew entry =>
    obtain ⟨info, _, hi, h⟩ := Check.bind_eq_ok.mp h
    obtain ⟨hi, _⟩ := DataRenewal.resolve_eq_ok hi
    obtain ⟨_, _, _, h⟩ := Check.bind_eq_ok.mp h
    obtain ⟨_, _, _, h⟩ := Check.bind_eq_ok.mp h
    cases h
    have ht := ValidTransactionParams.mem_provides.mp (DataRenewal.mem_metadata ht)
    exact ⟨.renew, .charged who info.contentHash, rfl,
      by simp [subject, contentHash, charged, hi, signedScope, Subject.of], ht⟩
  case forceRenew entry =>
    obtain ⟨info, _, hi, h⟩ := Check.bind_eq_ok.mp h
    obtain ⟨hi, hs⟩ := DataRenewal.resolve_eq_ok hi
    obtain ⟨scope, _, ha, h⟩ := Check.bind_eq_ok.mp h
    rw [hs] at ha
    have hp := DataRenewal.authorizeRenew_scope ha
    have hc : (renewalSigned who (.forceRenew entry)).charged s = some scope := by
      rw [hp]
      simp [charged, signedScope, hi]
    cases h
    refine ⟨.renew, .of info.contentHash scope, rfl, by simp [subject, contentHash, hi, hc], ?_⟩
    have ht := DataRenewal.mem_metadata ht
    -- An account that pays is the signer's.
    simp only [preferred] at hp
    split at hp
    all_goals
      subst hp
      exact ValidTransactionParams.mem_provides.mp ht
  case enableAutoRenew hash =>
    obtain ⟨_, _, hn, h⟩ := Check.bind_eq_ok.mp h
    cases (Check.reading_eq_ok.mp hn).right
    obtain ⟨info, _, hi, h⟩ := Check.bind_eq_ok.mp h
    obtain ⟨hi, _⟩ := DataRenewal.resolve_eq_ok hi
    obtain ⟨_, _, _, h⟩ := Check.bind_eq_ok.mp h
    cases h
    have ht := ValidTransactionParams.mem_provides.mp (DataRenewal.mem_metadata ht)
    exact ⟨.renew, .charged who info.contentHash, rfl,
      by simp [subject, contentHash, charged, hi, signedScope, Subject.of], ht⟩
  case disableAutoRenew =>
    obtain ⟨_, _, _, h⟩ := Check.bind_eq_ok.mp h
    cases h
    have ht := DataRenewal.mem_metadata ht
    contradiction
  case processPendingRenewals => cases h

theorem renewUnsigned_tagged {entry : TransactionRef T}
    (h : DataRenewal.checkRenewUnsigned entry context s = (ok (some v), s'))
    (ht : tag ∈ v.provides) : (renewUnsigned entry).Tagged s tag := by
  have ⟨info, _, hi, h⟩ := Check.bind_eq_ok.mp h
  have ⟨hi, _⟩ := DataRenewal.resolve_eq_ok hi
  have ⟨_, _, _, h⟩ := Check.bind_eq_ok.mp h
  have ⟨_, _, _, h⟩ := Check.bind_eq_ok.mp h
  have hv := TransactionStorage.wanted_eq_some (Except.ok.inj (congrArg Prod.fst h))
  rw [hv] at ht
  have ht := ValidTransactionParams.mem_provides.mp ht
  exact ⟨.renew, .content info.contentHash, rfl,
    by simp [subject, contentHash, charged, hi, unsignedScope, Subject.of], ht⟩

theorem promotion_tagged {call : HopPromotion.Call T}
    (h : HopPromotion.authorize source call s = (ok v, s')) (ht : tag ∈ v.provides) :
    (promotion source call).Tagged s tag := by
  have hv : v = HopPromotion.promoteValidity (T.hash .blake2b256 call.data.bytes) := by
    cases call
    case promote =>
      have ⟨_, _, _, h⟩ := Check.bind_eq_ok.mp h
      have ⟨_, _, _, h⟩ := Check.bind_eq_ok.mp h
      cases h
      rfl
    case promoteV2 =>
      have ⟨_, _, _, h⟩ := Check.bind_eq_ok.mp h
      have ⟨_, _, _, h⟩ := Check.bind_eq_ok.mp h
      have ⟨_, _, _, h⟩ := Check.bind_eq_ok.mp h
      cases h
      rfl
  rw [hv] at ht
  exact ⟨.promote, _, rfl, rfl, ValidTransactionParams.mem_provides.mp ht⟩

theorem provides_tagged {x : Candidate T} (h : tag ∈ x.provides context s) : x.Tagged s tag := by
  have ⟨v, h, ht⟩ : ∃ v, (x.check context s).1 = ok (some v) ∧ tag ∈ v.provides := by
    simp only [provides] at h
    split at h
    case h_1 hv => exact ⟨_, hv, h⟩
    case h_2    => contradiction
  have h : x.check context s = (ok (some v), (x.check context s).2) := Prod.ext h rfl
  cases x
  case signed =>
    have ⟨_, _, ha, h⟩ := Check.bind_eq_ok.mp h
    exact signed_tagged ha (Except.ok.inj (congrArg Prod.fst h)) ht
  case unsigned => exact unsigned_tagged h ht
  case renewalSigned =>
    have ⟨_, _, ha, h⟩ := Check.bind_eq_ok.mp h
    cases h
    exact renewalSigned_tagged ha ht
  case renewUnsigned => exact renewUnsigned_tagged h ht
  case promotion =>
    have ⟨_, _, ha, h⟩ := Check.bind_eq_ok.mp h
    cases h
    exact promotion_tagged ha ht

end Candidate

namespace Subject

def isAccount : Subject T → Bool
  | account _ => true
  | _         => false

theorem length_encode_le (hT : T.Arrays) (a : Subject T) : a.encode.length ≤ 64 := by
  cases a <;> simp [encode, hT.length_accountId, hT.length_contentHash]

-- Only an account and a content hash can have the same encoding.
theorem encode_inj (hT : T.Arrays) {a b : Subject T} (hi : a.isAccount = b.isAccount)
    (h : a.encode = b.encode) : a = b := by
  have hl := congrArg List.length h
  cases a <;> cases b
  case charged.charged =>
    have ⟨hw, hc⟩ := List.append_inj h (by rw [hT.length_accountId, hT.length_accountId])
    rw [hT.accountId_injective hw, hT.contentHash_injective hc]
  case content.content => rw [hT.contentHash_injective h]
  case account.account => rw [hT.accountId_injective h]
  case content.account | account.content => contradiction
  all_goals simp [encode, hT.length_accountId, hT.length_contentHash] at hl

theorem isAccount_of (contentHash : T.ContentHash) (scope : AuthorizationScope T) :
    (of contentHash scope).isAccount = false := by
  cases scope <;> rfl

end Subject

def Family.isAboutAccounts : Family → Bool
  | removeExpiredAccount | removeExhaustedAuthorizer => true
  | _                                                => false

namespace Candidate

variable {x : Candidate T} {a : Subject T}

-- The subject of a cleanup is what it removes, and that of the others is their content.
theorem subject_cases (h : x.subject s = some a) :
    x.charged s = none ∧ x.family.map (·.isAboutAccounts) = some a.isAccount ∨
    x.family.all (¬·.isAboutAccounts) ∧ ∃ contentHash scope,
      x.charged s = some scope ∧ a = .of contentHash scope := by
  have hc (h : (do return .of (← x.contentHash s) (← x.charged s)) = some a) :
      ∃ contentHash scope, x.charged s = some scope ∧ a = .of contentHash scope := by
    have ⟨contentHash, _, h⟩ := Option.bind_eq_some_iff.mp h
    have ⟨scope, hs, h⟩ := Option.bind_eq_some_iff.mp h
    exact ⟨contentHash, scope, hs, (Option.some.inj h).symm⟩
  cases x
  case unsigned call =>
    cases call
    case removeExpiredAccountAuthorization | removeExpiredPreimageAuthorization
        | removeExhaustedAuthorizer =>
      cases h
      exact .inl ⟨rfl, rfl⟩
    all_goals exact .inr ⟨rfl, hc h⟩
  case promotion =>
    cases h
    exact .inl ⟨rfl, rfl⟩
  case signed call =>
    refine .inr ⟨?_, hc h⟩
    simp only [family]
    split <;> rfl
  all_goals exact .inr ⟨rfl, hc h⟩

theorem subject_isAccount (hf : x.family = some f) (h : x.subject s = some a) :
    a.isAccount = f.isAboutAccounts := by
  obtain ⟨_, hm⟩ | ⟨hm, contentHash, scope, _, ha⟩ := subject_cases h
  case inl =>
    rw [hf] at hm
    exact (Option.some.inj hm).symm
  case inr =>
    rw [ha, Subject.isAccount_of]
    rw [hf] at hm
    simpa using hm

end Candidate

theorem assertDistinctTagPrefixes_eq_ok {params : List (String × ValidTransactionParams)} :
    assertDistinctTagPrefixes params = ok u ↔
      params.Pairwise fun p q => p.2.tagPrefix ≠ q.2.tagPrefix := by
  induction params
  case nil                 => simp [assertDistinctTagPrefixes]
  case cons p params hi =>
    rw [assertDistinctTagPrefixes, bind_eq_ok, List.pairwise_cons]
    constructor
    case mp =>
      intro ⟨_, hf, h⟩
      exact ⟨fun q hq => ensure_eq_ok.mp (forM_eq_ok.mp hf q hq), hi.mp h⟩
    case mpr =>
      intro ⟨hf, h⟩
      exact ⟨(), forM_eq_ok.mpr fun q hq => ensure_eq_ok.mpr (hf q hq), hi.mpr h⟩

variable (T) in
-- The configuration passes the tests of the three pallets, and tells renewals from promotions.
structure Config.Distinct : Prop where
  storage : TransactionStorage.integrityTest T = ok ()
  renewal : DataRenewal.integrityTest T = ok ()
  hop     : HopPromotion.integrityTest T = ok ()
  renew   : T.renewTxParams.tagPrefix ≠ T.promoteTxParams.tagPrefix

-- No two of the families have the same prefix.
theorem Config.Distinct.tagPrefix_inj (h : T.Distinct) {f g : Family}
    (he : (f.params T).tagPrefix = (g.params T).tagPrefix) : f = g := by
  have hr := assertDistinctTagPrefixes_eq_ok.mp h.renewal
  have ⟨_, _, hp⟩ := bind_eq_ok.mp h.hop
  have hp := assertDistinctTagPrefixes_eq_ok.mp hp
  have hn := h.renew
  simp only [List.singleton_append, List.pairwise_cons, List.forall_mem_cons] at hr hp
  have hall : ([Family.renew, .promote, .store, .removeExpiredAccount, .removeExpiredPreimage,
      .removeExhaustedAuthorizer].map fun f => (f.params T).tagPrefix).Nodup := by
    simp_all [Family.params]
  have hm (f : Family) : f ∈ [Family.renew, .promote, .store, .removeExpiredAccount,
      .removeExpiredPreimage, .removeExhaustedAuthorizer] := by
    cases f <;> decide
  exact List.inj_on_of_nodup_map hall (hm f) (hm g) he

-- Transactions share a tag only if they are of one family and about the same subject, whatever the
-- prefixes of the families are.
theorem shared_tag_same_subject (hT : T.Arrays) (h : T.Distinct) (x y : Candidate T) (s s' : State T)
    (context context' : CheckContext) (tag : List UInt8) (hx : tag ∈ x.provides context s)
    (hy : tag ∈ y.provides context' s') :
    (∃ f a, x.family = some f ∧ y.family = some f ∧ x.subject s = some a ∧ y.subject s' = some a) ∧
    ∀ who contentHash, x.charged s = some (.account who) →
      y.charged s' ≠ some (.preimage contentHash) := by
  have ⟨f, a, hf, ha, ht⟩ := Candidate.provides_tagged hx
  have ⟨g, b, hg, hb, ht'⟩ := Candidate.provides_tagged hy
  have ⟨hp, he⟩ := Scale.encodeString_append_inj (ht.symm.trans ht') (a.length_encode_le hT)
    (b.length_encode_le hT)
  have hfg : f = g := h.tagPrefix_inj hp
  subst hfg
  have hab : a = b := Subject.encode_inj hT
    ((Candidate.subject_isAccount hf ha).trans (Candidate.subject_isAccount hg hb).symm) he
  subst hab
  refine ⟨⟨f, a, hf, hg, ha, hb⟩, fun who contentHash hca hcp => ?_⟩
  obtain ⟨hn, _⟩ | ⟨_, _, _, hs, ha⟩ := Candidate.subject_cases ha
  case inl => cases hn.symm.trans hca
  case inr =>
    cases hs.symm.trans hca
    obtain ⟨hn, _⟩ | ⟨_, _, _, hs, hb⟩ := Candidate.subject_cases hb
    case inl => cases hn.symm.trans hcp
    case inr =>
      cases hs.symm.trans hcp
      cases ha.symm.trans hb

theorem Config.arrays_arrays : Config.arrays.Arrays where
  length_accountId who      := who.property
  length_contentHash h      := h.property
  accountId_injective _ _   := Subtype.ext
  contentHash_injective _ _ := Subtype.ext

theorem Config.arrays_distinct : Config.arrays.Distinct where
  storage := by decide +kernel
  renewal := by decide +kernel
  hop     := by decide +kernel
  renew   := by decide

-- Content that anyone may store has one tag, with a signer or without.
theorem shared_tag_same_subject_store :
    let contentHash := Bytes32.pad [1, 2, 3]
    let g : GenesisConfig .arrays := ⟨3, [], [], [(contentHash, 10)]⟩
    let call : TransactionStorage.Call .arrays := .store ⟨[1, 2, 3], by decide⟩
    let tag := Scale.encodeString "Store" ++ contentHash.toList
    let x : Candidate .arrays := .signed (Bytes32.pad [7]) call
    let y : Candidate .arrays := .unsigned call
    tag ∈ x.provides .validate g.build ∧ tag ∈ y.provides .validate g.build ∧
    ∃ f a, x.family = some f ∧ y.family = some f ∧
      x.subject g.build = some a ∧ y.subject g.build = some a := by
  intro contentHash g call tag x y
  have hx : tag ∈ x.provides .validate g.build := by decide +kernel
  have hy : tag ∈ y.provides .validate g.build := by decide +kernel
  have ⟨h, _⟩ := shared_tag_same_subject Config.arrays_arrays Config.arrays_distinct x y g.build g.build
    .validate .validate tag hx hy
  exact ⟨hx, hy, h⟩

end Bulletin
