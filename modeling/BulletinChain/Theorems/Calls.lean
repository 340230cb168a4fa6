import BulletinChain.Effects

namespace Bulletin

open Machine Except

variable {T : Config} {s s' : State T} {origin : Origin T}

-- The room that appending an entry needs.
abbrev Ledger.HasRoom (l : Ledger T) : Prop :=
  l.blockTransactions.val.length < T.maxBlockTransactions

namespace BlockTransactionsMut

theorem store_eq_some {e : TransactionInfo T} :
    store s e = some (i, s') ↔ ∃ h : s.HasRoom, i = s.blockTransactions.val.length ∧
      s' = { s with
        toLedger        := s.toLedger.appended e h
        indexOperations := s.indexOperations ++ [.index e.extrinsicIndex e.size e.contentHash] } := by
  simp only [store, Option.bind_eq_bind, Option.bind_eq_some_iff, Prod.exists, Ledger.push_eq_some]
  constructor
  case mp =>
    intro ⟨_, _, ⟨h, hi, hl⟩, he⟩
    cases he
    exact ⟨h, hi, hl ▸ rfl⟩
  case mpr =>
    intro ⟨h, hi, hs⟩
    exact ⟨_, _, ⟨h, rfl, rfl⟩, by rw [hi, hs]; rfl⟩

theorem renew_eq_some {info : TransactionInfo T} :
    renew s info x .renew = some (i, s') ↔ ∃ h : s.HasRoom, i = s.blockTransactions.val.length ∧
      s' = { s with
        toLedger        := s.toLedger.appended (info.renewal x) h
        indexOperations := s.indexOperations ++ [.renew x info.contentHash] } := by
  simp only [renew, Option.bind_eq_bind, Option.bind_eq_some_iff, Prod.exists, Ledger.push_eq_some]
  constructor
  case mp =>
    intro ⟨_, _, ⟨h, hi, hl⟩, he⟩
    cases he
    exact ⟨h, hi, hl ▸ rfl⟩
  case mpr =>
    intro ⟨h, hi, hs⟩
    exact ⟨_, _, ⟨h, rfl, rfl⟩, by rw [hi, hs]; rfl⟩

theorem renew_of_not_hasRoom {info : TransactionInfo T} (h : ¬s.HasRoom) :
    renew s info x .renew = none := by
  refine Option.eq_none_iff_forall_ne_some.mpr fun _ hr => ?_
  have ⟨hr, _⟩ := renew_eq_some.mp hr
  exact h hr

end BlockTransactionsMut

-- The calls that write to the ledger succeed exactly when their guards pass, with these states.

namespace State

def storedEntry (data : Data) (cid : CidConfig) (extrinsicIndex : Nat) : TransactionInfo T where
  chunkRoot   := T.orderedRoot (data.bytes.chunksOf chunkSize)
  contentHash := T.hash cid.hashing data.bytes
  hashing     := cid.hashing
  cidCodec    := cid.codec
  size        := data.len
  blockChunks := 0
  kind        := .store
  extrinsicIndex

def stored (s : State T) (data : Data) (cid : CidConfig) (extrinsicIndex : Nat)
    (cidBytes : List UInt8) (h : s.HasRoom) : State T :=
  let contentHash := T.hash cid.hashing data.bytes
  let s' : State T := { s with
    toLedger        := s.toLedger.appended (storedEntry data cid extrinsicIndex) h
    indexOperations := s.indexOperations ++ [.index extrinsicIndex data.len contentHash] }
  s'.deposit (.stored s.blockTransactions.val.length contentHash cidBytes)

def forceRenewed (s : State T) (info : TransactionInfo T) (extrinsicIndex : Nat)
    (h : s.HasRoom) : State T :=
  let s' : State T := { s with
    toLedger        := s.toLedger.appended (info.renewal extrinsicIndex) h
    indexOperations := s.indexOperations ++ [.renew extrinsicIndex info.contentHash] }
  s'.deposit (.renewed s.blockTransactions.val.length info.contentHash)

def registered (s : State T) (contentHash : T.ContentHash) (who : T.AccountId) (recurring : Bool) :
    State T :=
  let s' : State T := { s with toLedger := s.toLedger.register contentHash ⟨who, recurring, true⟩ }
  s'.deposit (.renewalEnabled contentHash who recurring)

def unregistered (s : State T) (contentHash : T.ContentHash) (who : T.AccountId) : State T :=
  let s' : State T := { s with toLedger := s.toLedger.unregister contentHash }
  s'.deposit (.autoRenewalDisabled contentHash who)

theorem calculateCid_eq_some {c : CidData T} :
    calculateCid T data cid = some c ↔
      c = ⟨T.hash cid.hashing data.bytes, cid.hashing, cid.codec⟩ ∧ c.toBytes.isSome := by
  simp only [calculateCid, Option.map_eq_some_iff]
  constructor
  case mp  => intro ⟨_, hb, hc⟩; subst hc; exact ⟨rfl, by simp [hb]⟩
  case mpr =>
    intro ⟨hc, hb⟩
    have ⟨b, hb⟩ := Option.isSome_iff_exists.mp hb
    exact ⟨b, hc ▸ hb, hc.symm⟩

theorem doStore_eq_ok :
    s.doStore data hashing codec = ok s' ↔
      dataSizeOk T data.len ∧ ∃ b x, ∃ h : s.HasRoom,
        T.cidV1 codec hashing.multihashCode (T.hash hashing data.bytes) = some b ∧
        s.extrinsicIndex = some x ∧ s' = s.stored data ⟨codec, hashing⟩ x b h := by
  simp only [doStore, bind_eq_ok, ensure_eq_ok, okOr_eq_ok, calculateCid_eq_some, pure_eq_ok,
    Prod.exists, BlockTransactionsMut.store_eq_some]
  constructor
  case mp =>
    rintro ⟨_, hs, c, ⟨hc, hb⟩, x, hx, i, t, ⟨h, hi, ht⟩, he⟩
    subst hc hi ht he
    obtain ⟨b, hb⟩ := Option.isSome_iff_exists.mp hb
    refine ⟨hs, b, x, h, hb, hx, ?_⟩
    simp only [hb]
    rfl
  case mpr =>
    rintro ⟨hs, b, x, h, hb, hx, he⟩
    refine ⟨(), hs, _, ⟨rfl, ?_⟩, x, hx, _, _, ⟨h, rfl, rfl⟩, ?_⟩
    · simp [CidData.toBytes, hb]
    · simp only [CidData.toBytes, hb, he]
      rfl

theorem ensureAuthorizedSigner_eq_ok :
    ensureAuthorizedSigner origin = ok who ↔ ∃ scope, origin = .authorized who scope := by
  cases origin <;> simp [ensureAuthorizedSigner, ensureAuthorized, pure_eq_ok, throw, throwThe,
    MonadExceptOf.throw]

theorem renew_eq_ok :
    s.renew origin entry = ok s' ↔ ∃ who scope info,
      origin = .authorized who scope ∧ s.resolveTransactionRef entry = some info ∧
      s.renewals.lookup info.contentHash = none ∧
      s' = s.registered info.contentHash who false := by
  simp only [renew, bind_eq_ok, ensure_eq_ok, okOr_eq_ok, pure_eq_ok, ensureAuthorizedSigner_eq_ok,
    Option.isNone_iff_eq_none]
  constructor
  case mp  =>
    intro ⟨who, ⟨scope, ho⟩, info, hi, _, hn, hs⟩
    exact ⟨who, scope, info, ho, hi, hn, hs.symm⟩
  case mpr =>
    intro ⟨who, scope, info, ho, hi, hn, hs⟩
    exact ⟨who, ⟨scope, ho⟩, info, hi, (), hn, hs.symm⟩

theorem enableAutoRenew_eq_ok {contentHash : T.ContentHash} :
    s.enableAutoRenew origin contentHash = ok s' ↔ ∃ who scope info,
      origin = .authorized who scope ∧ s.renewals.lookup contentHash = none ∧
      s.resolveTransactionRef (.contentHash contentHash) = some info ∧
      s' = s.registered contentHash who true := by
  simp only [enableAutoRenew, bind_eq_ok, ensure_eq_ok, okOr_eq_ok, pure_eq_ok,
    ensureAuthorizedSigner_eq_ok, Option.isNone_iff_eq_none, Ledger.resolveTransactionRef,
    Option.bind_eq_bind, Option.bind_eq_some_iff]
  constructor
  case mp  =>
    rintro ⟨who, ⟨scope, ho⟩, _, hn, p, hp, info, hi, hs⟩
    exact ⟨who, scope, info, ho, hn, ⟨p, hp, hi⟩, hs.symm⟩
  case mpr =>
    rintro ⟨who, scope, info, ho, hn, ⟨p, hp, hi⟩, hs⟩
    exact ⟨who, ⟨scope, ho⟩, (), hn, p, hp, info, hi, hs.symm⟩

theorem forceRenew_eq_ok :
    s.forceRenew origin entry = ok s' ↔ ∃ caller info x, ∃ h : s.HasRoom,
      ensureAuthorized origin = ok caller ∧ s.resolveTransactionRef entry = some info ∧
      dataSizeOk T info.size ∧ s.extrinsicIndex = some x ∧ s' = s.forceRenewed info x h := by
  simp only [forceRenew, doRenew, bind_eq_ok, ensure_eq_ok, okOr_eq_ok, pure_eq_ok, Prod.exists,
    BlockTransactionsMut.renew_eq_some]
  constructor
  case mp  =>
    rintro ⟨caller, hc, info, hi, _, hs, _, _, ⟨x, hx, h, hi', ht⟩, he⟩
    subst hi' ht
    exact ⟨caller, info, x, h, hc, hi, hs, hx, he.symm⟩
  case mpr =>
    rintro ⟨caller, info, x, h, hc, hi, hs, hx, he⟩
    exact ⟨caller, hc, info, hi, (), hs, _, _, ⟨x, hx, h, rfl, rfl⟩, he.symm⟩

theorem disableAutoRenew_eq_ok {contentHash : T.ContentHash} :
    s.disableAutoRenew origin contentHash = ok s' ↔ ∃ caller data,
      ensureAuthorized origin = ok caller ∧ s.renewals.lookup contentHash = some data ∧
      mayDisable data caller = ok () ∧ s' = s.unregistered contentHash data.account := by
  simp only [disableAutoRenew, bind_eq_ok, okOr_eq_ok, pure_eq_ok]
  constructor
  case mp  =>
    intro ⟨caller, hc, data, hd, _, hm, hs⟩
    exact ⟨caller, data, hc, hd, hm, hs.symm⟩
  case mpr =>
    intro ⟨caller, data, hc, hd, hm, hs⟩
    exact ⟨caller, hc, data, hd, (), hm, hs.symm⟩

end State
-- The calls that manage authorizations write neither to the ledger nor to the extrinsic index.
structure Keeps (s s' : State T) : Prop where
  ledger         : s'.toLedger = s.toLedger
  extrinsicIndex : s'.extrinsicIndex = s.extrinsicIndex

theorem Keeps.deposit (k : Keeps s s') : Keeps s (s'.deposit e) :=
  ⟨k.ledger, k.extrinsicIndex⟩

namespace State

theorem consumeAuthorizerBudget_keeps (h : s.consumeAuthorizerBudget who n b = ok s') :
    Keeps s s' := by
  simp only [consumeAuthorizerBudget] at h
  split at h
  case h_1 => cases h; exact ⟨rfl, rfl⟩
  case h_2 =>
    split at h
    case h_1 => contradiction
    case h_2 => cases h; exact ⟨rfl, rfl⟩

theorem authorizationAdded_keeps {scope : AuthorizationScope T} :
    Keeps s (s.authorizationAdded scope) := by
  cases scope <;> exact ⟨rfl, rfl⟩

theorem authorizationRemoved_keeps {scope : AuthorizationScope T} :
    Keeps s (s.authorizationRemoved scope) := by
  cases scope <;> exact ⟨rfl, rfl⟩

theorem consumeBudgetOf_keeps (h : s.consumeBudgetOf auth n b = ok s') : Keeps s s' := by
  cases auth
  case none => cases h; exact ⟨rfl, rfl⟩
  case some => exact consumeAuthorizerBudget_keeps h

theorem authorize_keeps (h : s.authorize scope n b auth = ok s') : Keeps s s' := by
  have ⟨t, ht, h⟩ := bind_eq_ok.mp h
  have k := consumeBudgetOf_keeps ht
  split at h <;> cases h
  case h_1 => exact ⟨k.ledger, k.extrinsicIndex⟩
  case h_2 =>
    exact ⟨authorizationAdded_keeps.ledger.trans k.ledger,
      authorizationAdded_keeps.extrinsicIndex.trans k.extrinsicIndex⟩

theorem refreshAuthorization_keeps (h : s.refreshAuthorization scope auth = ok s') : Keeps s s' := by
  simp only [refreshAuthorization] at h
  split at h <;> cases h
  exact ⟨rfl, rfl⟩

theorem removeExpiredAuthorization_keeps (h : s.removeExpiredAuthorization scope = ok s') :
    Keeps s s' := by
  have ⟨_, _, h⟩ := bind_eq_ok.mp h
  have ⟨_, _, h⟩ := bind_eq_ok.mp h
  cases h
  exact ⟨authorizationRemoved_keeps.ledger, authorizationRemoved_keeps.extrinsicIndex⟩

theorem applyBlockInherents_keeps (h : s.applyBlockInherents origin proof = ok s') :
    Keeps s s' := by
  have ⟨_, _, h⟩ := bind_eq_ok.mp h
  cases proof
  case none => cases h; exact ⟨rfl, rfl⟩
  case some proof =>
    have ⟨_, _, h⟩ := bind_eq_ok.mp h
    have ⟨_, _, h⟩ := bind_eq_ok.mp h
    have ⟨_, _, h⟩ := bind_eq_ok.mp h
    have ⟨_, _, h⟩ := bind_eq_ok.mp h
    cases h
    exact ⟨rfl, rfl⟩

end State

theorem TransactionStorage.dispatch_keeps {call : Call T} (hc : ¬call.isStore)
    (h : dispatch s origin call = ok s') : Keeps s s' := by
  cases call
  case store | storeWithCidConfig => contradiction
  case applyBlockInherents => exact State.applyBlockInherents_keeps h
  case authorizeAccount | authorizePreimage =>
    have ⟨_, _, h⟩ := bind_eq_ok.mp h
    have ⟨_, _, h⟩ := bind_eq_ok.mp h
    have ⟨_, hs, h⟩ := bind_eq_ok.mp h
    cases h
    exact (State.authorize_keeps hs).deposit
  case refreshAccountAuthorization | refreshPreimageAuthorization =>
    have ⟨_, _, h⟩ := bind_eq_ok.mp h
    have ⟨_, hs, h⟩ := bind_eq_ok.mp h
    cases h
    exact (State.refreshAuthorization_keeps hs).deposit
  case removeExpiredAccountAuthorization | removeExpiredPreimageAuthorization =>
    have ⟨_, hs, h⟩ := bind_eq_ok.mp h
    cases h
    exact (State.removeExpiredAuthorization_keeps hs).deposit
  case addAuthorizer =>
    have ⟨_, _, h⟩ := bind_eq_ok.mp h
    have ⟨_, _, h⟩ := bind_eq_ok.mp h
    cases h
    constructor <;> dsimp <;> split <;> rfl
  case removeAuthorizer =>
    have ⟨_, _, h⟩ := bind_eq_ok.mp h
    split at h <;> cases h <;> exact ⟨rfl, rfl⟩
  case removeExhaustedAuthorizer =>
    have ⟨_, _, h⟩ := bind_eq_ok.mp h
    have ⟨_, _, h⟩ := bind_eq_ok.mp h
    cases h
    exact ⟨rfl, rfl⟩

end Bulletin
