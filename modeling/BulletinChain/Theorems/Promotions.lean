import BulletinChain.Runtime.Api
import BulletinChain.Theorems.Lookup
import BulletinChain.Theorems.Tags

namespace Bulletin

open Except Machine

variable {T : Config} {s s₁ : State T}

namespace HopPromotion

-- What an account signs for the HOP pallet: that some data may be promoted around some time, on any
-- chain and for any audience, or on the one chain and for the one audience it names.
inductive Intent (T : Config)
  | v1 (data : Data) (submitTimestamp : Nat)
  | v2 (data : Data) (submitTimestamp : Nat) (genesisHash recipientsHash : T.ContentHash)

namespace Intent

def data : Intent T → Data
  | v1 data _ | v2 data .. => data

def submitTimestamp : Intent T → Nat
  | v1 _ ts | v2 _ ts .. => ts

-- The bytes that are hashed into the payload that is signed.
def message : Intent T → List UInt8
  | v1 data ts =>
    hopSubmitContext ++ T.encodeContentHash (T.hash .blake2b256 data.bytes) ++ Scale.littleEndian 8 ts
  | v2 data ts genesisHash recipientsHash =>
    hopSubmitContextV2 ++ T.encodeContentHash (T.hash .blake2b256 data.bytes) ++
      Scale.littleEndian 8 ts ++ T.encodeContentHash genesisHash ++ T.encodeContentHash recipientsHash

def payload (i : Intent T) : T.ContentHash :=
  T.hash .blake2b256 i.message

-- The chain and the audience that an intent names.
def addressee : Intent T → Option (T.ContentHash × T.ContentHash)
  | v1 ..                            => none
  | v2 _ _ genesisHash recipientsHash => some (genesisHash, recipientsHash)

-- All that is hashed on the way to the payload.
def hashed (i : Intent T) : List (List UInt8) :=
  [i.data.bytes, i.message]

-- The timestamps are of 64 bits, and the hash of the host tells apart what is hashed for the intents.
structure Separate (K : Set (Intent T)) : Prop where
  submitTimestamp_le : ∀ {i}, i ∈ K → i.submitTimestamp ≤ u64Max
  hash_injOn         : Set.InjOn (T.hash .blake2b256) { m | ∃ i ∈ K, m ∈ i.hashed }

theorem length_context : hopSubmitContext.length = hopSubmitContextV2.length := by
  decide +kernel

theorem context_ne : hopSubmitContext ≠ hopSubmitContextV2 := by
  decide +kernel

theorem lt_of_le_u64Max {n : Nat} (h : n ≤ u64Max) : n < 256 ^ 8 := by
  simp only [u64Max] at h
  omega

-- The context of a message tells its version, and every field after it has a fixed length.
theorem message_inj (hT : T.Arrays) {i j : Intent T} (hi : i.submitTimestamp ≤ u64Max)
    (hj : j.submitTimestamp ≤ u64Max) (h : i.message = j.message) :
    T.hash .blake2b256 i.data.bytes = T.hash .blake2b256 j.data.bytes ∧
      i.submitTimestamp = j.submitTimestamp ∧ i.addressee = j.addressee := by
  cases i <;> cases j <;> simp only [message, List.append_assoc] at h
  case v1.v1 =>
    obtain ⟨hh, ht⟩ := List.append_inj (List.append_cancel_left h) (by simp [hT.length_contentHash])
    exact ⟨hT.contentHash_injective hh, Scale.littleEndian_inj (lt_of_le_u64Max hi) (lt_of_le_u64Max hj) ht, rfl⟩
  case v1.v2 => exact absurd (List.append_inj_left h length_context) context_ne
  case v2.v1 => exact absurd (List.append_inj_left h length_context.symm).symm context_ne
  case v2.v2 =>
    obtain ⟨hh, h⟩ := List.append_inj (List.append_cancel_left h) (by simp [hT.length_contentHash])
    obtain ⟨ht, h⟩ := List.append_inj h (by simp [Scale.length_littleEndian])
    obtain ⟨hg, hr⟩ := List.append_inj h (by simp [hT.length_contentHash])
    refine ⟨hT.contentHash_injective hh, Scale.littleEndian_inj (lt_of_le_u64Max hi) (lt_of_le_u64Max hj) ht, ?_⟩
    simp only [addressee, hT.contentHash_injective hg, hT.contentHash_injective hr]

theorem ext {i j : Intent T} (hd : i.data = j.data) (ht : i.submitTimestamp = j.submitTimestamp)
    (ha : i.addressee = j.addressee) : i = j := by
  cases i <;> cases j <;> simp_all [data, submitTimestamp, addressee]

-- A payload stands for one intent.
theorem payload_inj (hT : T.Arrays) {K : Set (Intent T)} (h : Separate K) {i j : Intent T} (hi : i ∈ K)
    (hj : j ∈ K) (he : i.payload = j.payload) : i = j := by
  have hm : i.message = j.message :=
    h.hash_injOn ⟨i, hi, by simp [hashed]⟩ ⟨j, hj, by simp [hashed]⟩ he
  obtain ⟨hh, ht, ha⟩ := message_inj hT (h.submitTimestamp_le hi) (h.submitTimestamp_le hj) hm
  have hd : i.data.bytes = j.data.bytes :=
    h.hash_injOn ⟨i, hi, by simp [hashed]⟩ ⟨j, hj, by simp [hashed]⟩ hh
  exact ext (by cases hi : i.data; cases hj : j.data; simp_all) ht ha

end Intent

namespace Call

def signer : Call T → T.MultiSigner
  | promote signer .. | promoteV2 signer .. => signer

def signature : Call T → T.MultiSignature
  | promote _ signature .. | promoteV2 _ signature .. => signature

-- The intent that a call says it carries out.
def intent : Call T → Intent T
  | promote _ _ ts data                  => .v1 data ts
  | promoteV2 _ _ ts recipientsHash data => .v2 data ts T.genesisHash recipientsHash

end Call

-- What the hook asks of a call and of the state, wherever the extrinsic comes from.
structure Admissible (s : State T) (call : Call T) : Prop where
  size      : 0 < call.data.len ∧ call.data.len ≤ HopRuntimeApi.maxPromotionSize T
  room      : ¬s.blockTransactionsFull
  fresh     : absDiff s.timestamp call.intent.submitTimestamp ≤ T.submitTimestampTolerance
  addressed : ∀ a ∈ call.intent.addressee, a.2 ≠ emptyRecipientsHash T
  active    : canAccountPromote s (T.intoAccount call.signer)
  signed    : T.verifySignature call.signature call.intent.payload (T.intoAccount call.signer)

theorem checkSizeAndRoom_eq_ok :
    (TransactionStorage.checkSizeAndRoom size : Check.Of T Unit) s = (ok u, s₁) ↔
      ((0 < size ∧ size ≤ HopRuntimeApi.maxPromotionSize T) ∧ ¬s.blockTransactionsFull) ∧ s₁ = s := by
  simp only [TransactionStorage.checkSizeAndRoom, Check.reading_eq_ok, bind_eq_ok, ensure_eq_ok,
    dataSizeOk_iff, exists_const, HopRuntimeApi.maxPromotionSize]

theorem authorizeCommon_eq_ok : (authorizeCommon source ts data : Check.Of T Unit) s = (ok u, s₁) ↔
    s₁ = s ∧ source ≠ .external ∧ (0 < data.len ∧ data.len ≤ HopRuntimeApi.maxPromotionSize T) ∧
      ¬s.blockTransactionsFull ∧ absDiff s.timestamp ts ≤ T.submitTimestampTolerance := by
  simp only [authorizeCommon, Check.bind_eq_ok, Check.reading_eq_ok, checkSizeAndRoom_eq_ok, ensure_eq_ok]
  constructor
  case mp =>
    rintro ⟨_, _, ⟨hs, rfl⟩, _, _, ⟨⟨hd, hr⟩, rfl⟩, hf, rfl⟩
    exact ⟨rfl, hs, hd, hr, hf⟩
  case mpr =>
    rintro ⟨rfl, hs, hd, hr, hf⟩
    exact ⟨(), _, ⟨hs, rfl⟩, (), _, ⟨⟨hd, hr⟩, rfl⟩, hf, rfl⟩

theorem authorizeSigner_eq_ok {signer : T.MultiSigner} :
    authorizeSigner signer signature payload s = (ok u, s₁) ↔
      s₁ = s ∧ canAccountPromote s (T.intoAccount signer) ∧
        T.verifySignature signature payload (T.intoAccount signer) := by
  simp only [authorizeSigner, Check.reading_eq_ok, bind_eq_ok, ensure_eq_ok, exists_const]
  exact and_comm

-- The hook reads the state and leaves it as it is.
theorem authorize_eq_ok {call : Call T} :
    (∃ v, authorize source call s = (ok v, s₁)) ↔ s₁ = s ∧ source ≠ .external ∧ Admissible s call := by
  cases call
  case promote =>
    simp only [authorize, authorizePromote, Check.bind_eq_ok, authorizeCommon_eq_ok, authorizeSigner_eq_ok]
    constructor
    case mp =>
      rintro ⟨v, _, _, ⟨rfl, hx, hd, hr, hf⟩, _, _, ⟨rfl, ha, hv⟩, he⟩
      cases he
      exact ⟨rfl, hx, hd, hr, hf, fun _ h => (Option.not_mem_none _ h).elim, ha, hv⟩
    case mpr =>
      rintro ⟨rfl, hx, h⟩
      exact ⟨_, (), _, ⟨rfl, hx, h.size, h.room, h.fresh⟩, (), _, ⟨rfl, h.active, h.signed⟩, rfl⟩
  case promoteV2 =>
    simp only [authorize, authorizePromoteV2, Check.bind_eq_ok, authorizeCommon_eq_ok, authorizeSigner_eq_ok,
      Check.reading_eq_ok, ensure_eq_ok]
    constructor
    case mp =>
      rintro ⟨v, _, _, ⟨rfl, hx, hd, hr, hf⟩, _, _, ⟨hn, rfl⟩, _, _, ⟨rfl, ha, hv⟩, he⟩
      cases he
      refine ⟨rfl, hx, hd, hr, hf, fun _ h => ?_, ha, hv⟩
      cases h
      exact hn
    case mpr =>
      rintro ⟨rfl, hx, h⟩
      exact ⟨_, (), _, ⟨rfl, hx, h.size, h.room, h.fresh⟩, (), _, ⟨h.addressed _ rfl, rfl⟩, (), _,
        ⟨rfl, h.active, h.signed⟩, rfl⟩

-- What the hook has established about a call it lets into a block.
structure Vouched (s : State T) (call : Call T) : Prop where
  fresh     : absDiff s.timestamp call.intent.submitTimestamp ≤ T.submitTimestampTolerance
  addressed : ∀ a ∈ call.intent.addressee, a.1 = T.genesisHash ∧ a.2 ≠ emptyRecipientsHash T
  active    : canAccountPromote s (T.intoAccount call.signer)
  signed    : ∃ signature, T.verifySignature signature call.intent.payload (T.intoAccount call.signer)

theorem Admissible.vouched {call : Call T} (h : Admissible s call) : Vouched s call where
  fresh         := h.fresh
  addressed a m := ⟨by cases call <;> cases m; rfl, h.addressed a m⟩
  active        := h.active
  signed        := ⟨_, h.signed⟩

-- A promotion draws on no allowance.
theorem dispatch_frame {call : Call T} (h : dispatch s origin call = ok s₁) :
    s₁.authorizations = s.authorizations ∧ s₁.blockNumber = s.blockNumber := by
  obtain ⟨_, _, h⟩ := bind_eq_ok.mp h
  obtain ⟨_, _, _, _, _, _, rfl⟩ := State.doStore_eq_ok.mp h
  exact ⟨rfl, rfl⟩

end HopPromotion

open HopPromotion

theorem Extrinsic.general_admission {call : Call T} :
    (general call).admission s = (ok origin, s₁) ↔
      s₁ = s ∧ origin = .systemAuthorized ∧ Admissible s call := by
  simp only [admission, Check.bind_eq_ok]
  constructor
  case mp =>
    rintro ⟨v, t, ha, he⟩
    cases he
    obtain ⟨ht, _, h⟩ := authorize_eq_ok.mp ⟨v, ha⟩
    exact ⟨ht, rfl, h⟩
  case mpr =>
    rintro ⟨rfl, rfl, h⟩
    obtain ⟨v, ha⟩ := authorize_eq_ok.mpr ⟨rfl, (by decide : TransactionSource.inBlock ≠ .external), h⟩
    exact ⟨v, _, ha, rfl⟩

theorem Extrinsic.dispatched_frame (s : State T) (origin : Origin T) (call : Call T) :
    (dispatched s origin (.hopPromotion call)).authorizations = s.authorizations ∧
      (dispatched s origin (.hopPromotion call)).blockNumber = s.blockNumber := by
  simp only [dispatched]
  split
  case h_1 h => exact dispatch_frame h
  case h_2   => exact ⟨rfl, rfl⟩

theorem Chain.step_general {c c' : Chain T} {call : Call T} :
    c.step (.extrinsic (.general call)) = some c' ↔ c.inBlock ∧ Admissible c.state call ∧
      c' = ⟨{ Extrinsic.dispatched c.state .systemAuthorized (.hopPromotion call) with
        extrinsicIndex :=
          (Extrinsic.dispatched c.state .systemAuthorized (.hopPromotion call)).extrinsicIndex.map (· + 1) },
        true⟩ := by
  simp only [step, Option.ite_none_right_eq_some, Option.map_eq_some_iff, Extrinsic.apply]
  refine and_congr_right fun _ => ?_
  constructor
  case mp =>
    rintro ⟨s', ha, rfl⟩
    split at ha <;> cases ha
    case h_2 he =>
      obtain ⟨rfl, rfl, h⟩ := Extrinsic.general_admission.mp he
      exact ⟨h, rfl⟩
  case mpr =>
    rintro ⟨h, rfl⟩
    rw [Extrinsic.general_admission.mpr ⟨rfl, rfl, h⟩]
    exact ⟨_, rfl, rfl⟩

-- The intents that the promotions of a run say they carry out.
def intentsOf (as : List (Action T)) : List (Intent T) :=
  as.filterMap fun
    | .extrinsic (.general call) => some call.intent
    | _                          => none

-- Whoever submits the promotions, and whatever else is in the blocks, those of an account are intents
-- that it has signed: that very data, of that version, and for this chain and that audience where the
-- intent names them, around the time that it names.
theorem promotions_intended (hT : T.Arrays) {who : T.AccountId} {intents : Set (Intent T)}
    (hs : ∀ signature payload, T.verifySignature signature payload who →
      ∃ i ∈ intents, i.payload = payload)
    {as : List (Action T)} (hi : Intent.Separate (intents ∪ { i | i ∈ intentsOf as }))
    {guard : Chain T → Action T → Prop} {g : GenesisConfig T} {c : Chain T}
    (h : Runs Chain.step guard g.chain as c) {call : Call T}
    (he : as = before ++ .extrinsic (.general call) :: after) (hw : T.intoAccount call.signer = who) :
    call.intent ∈ intents ∧
    (∀ a ∈ call.intent.addressee, a.1 = T.genesisHash ∧ a.2 ≠ emptyRecipientsHash T) ∧
    ∃ c₁, Runs Chain.step guard g.chain before c₁ ∧ canAccountPromote c₁.state who ∧
      absDiff c₁.state.timestamp call.intent.submitTimestamp ≤ T.submitTimestampTolerance := by
  have hm : call.intent ∈ intentsOf as := by
    simp [he, intentsOf]
  obtain ⟨c₁, c₂, h₁, e, _⟩ := (he ▸ h).middle
  have hv := (Chain.step_general.mp e).right.left.vouched
  obtain ⟨signature, hg⟩ := hv.signed
  obtain ⟨i, hi', hp⟩ := hs _ _ (hw ▸ hg)
  have hii : i = call.intent := Intent.payload_inj hT hi (.inl hi') (.inr hm) hp
  exact ⟨hii ▸ hi', hv.addressed, c₁, h₁, hw ▸ hv.active, hv.fresh⟩

-- A runtime in which one account has signed one intent.
def signedIntent : Intent .arrays :=
  .v2 ⟨[1, 2, 3], length_blob_lt⟩ 700 Config.arrays.genesisHash (.pad [9])

def Config.signing : Config :=
  { Config.arrays with verifySignature _ payload _ := payload = signedIntent.payload }

theorem Config.signing_arrays : Config.signing.Arrays where
  length_accountId who      := who.property
  length_contentHash h      := h.property
  accountId_injective _ _   := Subtype.ext
  contentHash_injective _ _ := Subtype.ext

def promotion : Call .signing :=
  .promoteV2 (.pad [7]) () 700 (.pad [9]) ⟨[1, 2, 3], length_blob_lt⟩

def promoting : List (Action .signing) :=
  [.onInitialize [] 500, .extrinsic (.general promotion)]

theorem promotions_intended_promoting :
    let i := promotion.intent
    let g : GenesisConfig .signing := ⟨3, [], [(.pad [7], 10, 100)], []⟩
    ∃ c c₁ : Chain .signing, Runs Chain.step (fun _ _ => true) g.chain promoting c ∧
      c.state.blockTransactions.val.length = 1 ∧
      Runs Chain.step (fun _ _ => true) g.chain [.onInitialize [] 500] c₁ ∧
      absDiff c₁.state.timestamp i.submitTimestamp ≤ 1000 := by
  intro i g
  obtain ⟨c, hr, hn⟩ := Runs.exists_of_any Chain.step (fun _ _ => true) g.chain promoting
    (fun c => c.state.blockTransactions.val.length = 1) (by decide +kernel)
  have hk : ({i} ∪ { i | i ∈ intentsOf promoting } : Set (Intent .signing)) = {i} := by
    have hp : intentsOf promoting = [i] := rfl
    simp [hp]
  have hs : Intent.Separate ({i} ∪ { i | i ∈ intentsOf promoting }) := by
    rw [hk]
    refine ⟨fun h => ?_, fun m hm n hn he => ?_⟩
    · cases h
      decide
    · obtain ⟨_, rfl, hm⟩ := hm
      obtain ⟨_, rfl, hn⟩ := hn
      have hne : Config.signing.hash .blake2b256 i.data.bytes ≠
          Config.signing.hash .blake2b256 i.message := by
        decide +kernel
      simp only [Intent.hashed, List.mem_pair] at hm hn
      obtain rfl | rfl := hm <;> obtain rfl | rfl := hn
      · rfl
      · exact absurd he hne
      · exact absurd he.symm hne
      · rfl
  have hv (signature : Unit) (payload : Config.arrays.ContentHash)
      (h : Config.signing.verifySignature signature payload (.pad [7])) :
      ∃ j ∈ ({i} : Set (Intent .signing)), j.payload = payload := by
    have h : payload = signedIntent.payload := by simpa [Config.signing] using h
    exact ⟨i, rfl, h.symm⟩
  have he : promoting = [.onInitialize [] 500] ++ .extrinsic (.general promotion) :: [] := rfl
  obtain ⟨_, _, c₁, h₁, _, hf⟩ := promotions_intended Config.signing_arrays hv hs hr he rfl
  exact ⟨c, c₁, hr, hn, h₁, hf⟩

-- In a block a promotion is valid if and only if the hook's checks pass. Whatever the allowance that is
-- left to the account, it is stored, at no cost to any authorization, and nodes are told so for as long
-- as data is retained.
theorem promotions_land (hc : ∀ codec code hash, (T.cidV1 codec code hash).isSome)
    {g : GenesisConfig T} {as : List (Action T)} {c : Chain T}
    (h : Runs Chain.step (Chain.fixed · ·) g.chain as c) (hb : c.inBlock) (call : Call T) :
    ((∃ c', c.step (.extrinsic (.general call)) = some c') ↔ Admissible c.state call) ∧
    ∀ c', c.step (.extrinsic (.general call)) = some c' →
      c'.state.authorizations = c.state.authorizations ∧
      ∀ later c'', Runs Chain.step (Chain.fixed · ·) c' later c'' →
        c''.state.blockNumber ≤ c.state.blockNumber + g.retentionPeriod →
        HopRuntimeApi.isPromotedOnChain c''.state (T.hash .blake2b256 call.data.bytes) := by
  refine ⟨⟨fun hs => ?_, fun ha => ⟨_, Chain.step_general.mpr ⟨hb, ha, rfl⟩⟩⟩, fun c' e => ?_⟩
  · obtain ⟨_, e⟩ := hs
    exact (Chain.step_general.mp e).right.left
  · obtain ⟨_, _, he⟩ := Chain.step_general.mp e
    obtain ⟨ha, hn⟩ := Extrinsic.dispatched_frame c.state .systemAuthorized call
    subst he
    refine ⟨ha, fun later c'' r hle => ?_⟩
    exact Chain.Stored.contained hc (.intro h e rfl hn r) hle

theorem promotions_land_promoting :
    let g : GenesisConfig .signing := ⟨3, [], [(.pad [7], 10, 100)], []⟩
    ∃ c c' c'' : Chain .signing,
      Runs Chain.step (Chain.fixed · ·) g.chain [.onInitialize [] 500] c ∧ Admissible c.state promotion ∧
      c.step (.extrinsic (.general promotion)) = some c' ∧
      c'.state.authorizations = c.state.authorizations ∧
      Runs Chain.step (Chain.fixed · ·) c' [.onFinalize] c'' ∧
      HopRuntimeApi.isPromotedOnChain c''.state (Config.signing.hash .blake2b256 promotion.data.bytes) := by
  intro g
  obtain ⟨c'', h, hn⟩ := Runs.exists_of_any Chain.step (Chain.fixed · ·) g.chain
    ([.onInitialize [] 500] ++ .extrinsic (.general promotion) :: [.onFinalize])
    (fun c => c.state.blockNumber = 1) (by decide +kernel)
  obtain ⟨c, c', h₁, e, h₂⟩ := h.middle
  obtain ⟨hv, hl⟩ := promotions_land (fun _ _ _ => rfl) h₁ (Chain.step_general.mp e).left promotion
  obtain ⟨ha, hp⟩ := hl c' e
  exact ⟨c, c', c'', h₁, hv.mp ⟨c', e⟩, e, ha, h₂, hp _ c'' h₂ (hn.le.trans (Nat.le_add_left 1 _))⟩

end Bulletin
