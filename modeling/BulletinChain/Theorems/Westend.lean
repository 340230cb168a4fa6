import BulletinChain.Migrations.Westend
import BulletinChain.Theorems.MigrateV3
import BulletinChain.Theorems.Relocation

namespace Bulletin

open Scale VersionUncheckedMigrateV1ToV2

section Values

variable {κ : Type} [DecidableEq κ]

-- The map has the bytes of `o` at `k`, and nothing if there is none.
def Encodes (c : Scale.Codec α) (m : Finmap fun _ : κ => List UInt8) (k : κ) (o : Option α) : Prop :=
  m.lookup k = o.map c.encode ∧ ∀ a ∈ o, c.Valid a

-- The value at `k` decodes to that of `o`, and there is none if `o` has none.
def Decodes (c : Scale.Codec α) (m : Finmap fun _ : κ => List UInt8) (k : κ) (o : Option α) : Prop :=
  (m.lookup k).map c.read = o.map some

variable {m : Finmap fun _ : κ => List UInt8} {k : κ} {c : Scale.Codec α} {d : Scale.Codec β}
variable {f : α → Option β}

theorem Encodes.decodes (h : Encodes c m k o) : Decodes c m k o := by
  rw [Decodes, h.left]
  cases o
  case none   => rfl
  case some a => exact congrArg some (Scale.Codec.read_encode (h.right a rfl))

theorem Encodes.read (h : Encodes c m k o) (hr : m.lookup k = some raw) : ∃ a, c.read raw = some a := by
  have ⟨a, ha, he⟩ := Option.map_eq_some_iff.mp (h.left.symm.trans hr)
  exact ⟨a, he ▸ Scale.Codec.read_encode (h.right a ha)⟩

theorem Encodes.singleton (h : c.Valid a) :
    Encodes c (Finmap.singleton k₀ (c.encode a)) k (if k = k₀ then some a else none) := by
  constructor
  case left  => rw [Finmap.lookup_singleton]; split <;> rfl
  case right => intro b hb; split at hb <;> cases hb; exact h

theorem Encodes.translateValues (h : Encodes c m k o) (hv : ∀ a b, c.Valid a → f a = some b → d.Valid b) :
    Encodes d (translateValues c d f m) k (o.bind f) := by
  constructor
  case left =>
    rw [Bulletin.translateValues, Finmap.lookup_translate, h.left]
    cases o
    case none   => rfl
    case some a => simp [Scale.Codec.read_encode (h.right a rfl)]
  case right =>
    intro b hb
    have ⟨a, ha, hf⟩ := Option.bind_eq_some_iff.mp hb
    exact hv a b (h.right a ha) hf

end Values

variable {T : Config} {W : Wire T}

theorem valid_translateAuthorization (ha : V1Authorization.codec.Valid a)
    (h : translateAuthorization now a = some b) : Authorization.codec.Valid b := by
  have ⟨⟨ht, hb⟩, he⟩ := ha
  simp only [translateAuthorization] at h
  split at h
  case isTrue  => cases h
  case isFalse =>
    cases h
    have h₄ : u32.Valid 0 := show 0 < 256 ^ 4 by decide
    have h₈ : u64.Valid 0 := show 0 < 256 ^ 8 by decide
    exact ⟨⟨h₄, ht, h₈, h₈, hb⟩, he⟩

theorem valid_translateBudget (h : V4AuthorizerBudget.codec.Valid b) :
    AuthorizerBudget.codec.Valid (PalletStorage.translateBudget b) :=
  ⟨h.left, h.right.right, List.mem_cons_of_mem _ List.mem_cons_self⟩

-- A budget of version 4 in the current layout: its period is taken for its end, and the byte that says
-- whether it has an end for the flag.
theorem read_v4Budget (h : V4AuthorizerBudget.codec.Valid b) :
    AuthorizerBudget.codec.read (V4AuthorizerBudget.codec.encode b) =
      some ⟨b.quota, b.authorizationPeriod, b.validUntil.isSome⟩ := by
  have ⟨hq, hp, _⟩ := h
  have ⟨rest, hf⟩ : ∃ rest, bool.decode (u32.option.encode b.validUntil) =
      some (b.validUntil.isSome, rest) := by
    cases b.validUntil
    case none   => exact ⟨[], rfl⟩
    case some v => exact ⟨u32.encode v, rfl⟩
  have hd := Scale.Codec.decode_pair hq (Scale.Codec.decode_pair hp hf)
  exact Scale.Codec.read_eq_some.mpr ⟨rest, Decoder.bind_eq_some.mpr ⟨_, rest, hd, rfl⟩⟩

namespace Wire

variable {b : UInt32}

-- A list of version 2 that is empty is the same in both layouts.
theorem outcome_encode_v2 (h : (entriesCodec T W.v1TransactionInfo).Valid l)
    (hb : oldestValid ≤ b.toNat) :
    W.layout.outcome oldestValid b ((entriesCodec T W.v1TransactionInfo).encode l) =
      some ((entriesCodec T W.transactionInfo).encode (l.map translateInfo)) := by
  by_cases hl : l.val = []
  · have hl : l = .empty := BoundedVec.ext hl
    subst hl
    have hr : (entriesCodec T W.transactionInfo).read
        ((entriesCodec T W.transactionInfo).encode .empty) = some .empty :=
      Scale.Codec.read_encode fun _ he => absurd he List.not_mem_nil
    exact outcome_current hr hb
  · exact outcome_v2 ⟨hl, h, rfl⟩ hb

theorem encodes_outcome_v2 {m : RawTransactions} (h : Encodes (entriesCodec T W.v1TransactionInfo) m b o) :
    Encodes (entriesCodec T W.transactionInfo) (m.translate (W.layout.outcome oldestValid)) b
      ((o.map (·.map translateInfo)).filter fun _ => oldestValid ≤ b.toNat) := by
  constructor
  case left =>
    rw [Finmap.lookup_translate, h.left]
    cases o
    case none   => rfl
    case some l =>
      by_cases hb : oldestValid ≤ b.toNat
      · simp [hb, outcome_encode_v2 (h.right l rfl) hb]
      · simp [hb, outcome_eq_none]
  case right =>
    intro l' hl
    have ⟨l, hl, he⟩ := Option.map_eq_some_iff.mp (Option.mem_filter_iff.mp hl).left
    intro e he'
    have ⟨old, ho, he⟩ := List.mem_map.mp (he ▸ he')
    exact he ▸ valid_translateInfo (h.right l hl old ho)

theorem encodes_outcome {m : RawTransactions} (h : Encodes (entriesCodec T W.transactionInfo) m b o) :
    Encodes (entriesCodec T W.transactionInfo) (m.translate (W.layout.outcome oldestValid)) b
      (o.filter fun _ => oldestValid ≤ b.toNat) := by
  constructor
  case left =>
    rw [Finmap.lookup_translate, h.left]
    cases o
    case none   => rfl
    case some l =>
      by_cases hb : oldestValid ≤ b.toNat
      · simp [hb, outcome_current (Scale.Codec.read_encode (h.right l rfl)) hb]
      · simp [hb, outcome_eq_none]
  case right => exact fun l hl => h.right l (Option.mem_filter_iff.mp hl).left

end Wire

namespace PalletStorage

variable {P : RenewalPrefixes} {s s' s₁ : PalletStorage T}

theorem versioned_version {inner : PalletStorage T → Option (PalletStorage T)}
    (h : versioned old new inner s = some s') :
    s'.version = if s.version = old then new else s.version := by
  simp only [versioned] at h
  split at h
  case isTrue hv =>
    have ⟨_, _, h⟩ := Option.map_eq_some_iff.mp h
    rw [if_pos hv, ← h]
  case isFalse hv =>
    cases h
    rw [if_neg hv]

-- The retention period after an upgrade.
def retention (s : PalletStorage T) : Nat :=
  if s.retentionPeriod = 0 then defaultRetentionPeriod else s.retentionPeriod

theorem setRetentionPeriodIfZero_eq (s : PalletStorage T) :
    s.setRetentionPeriodIfZero = { s with retentionPeriod := s.retention } := by
  simp only [setRetentionPeriodIfZero, retention]
  split <;> rfl

theorem singleBlockMigrations_version (h : singleBlockMigrations W P s = some s') :
    max s'.version 3 = 5 ↔ 3 ≤ s.version ∧ s.version ≤ 5 := by
  simp only [singleBlockMigrations, bind, Option.bind_eq_some_iff, pure, Option.some.injEq] at h
  obtain ⟨s₁, h₁, s₂, h₂, s₃, h₃, s₄, h₄, rest, _, h⟩ := h
  have h₁ := versioned_version h₁
  have h₂ := versioned_version h₂
  have h₃ := versioned_version h₃
  have h₄ := versioned_version h₄
  rw [← h, setRetentionPeriodIfZero_eq]
  simp only
  split_ifs at h₁ h₂ h₃ h₄ <;> omega

theorem upgrade_version (h : upgrade W P required limits s = some (.ok s')) :
    s'.version = 5 ↔ 3 ≤ s.version ∧ s.version ≤ 5 := by
  simp only [upgrade, bind, Option.bind_eq_some_iff, pure, Option.some.injEq] at h
  obtain ⟨s₁, hs, r, hr, h⟩ := h
  cases r
  case error => cases h
  case ok p  =>
    cases h
    simp only [MigrateV2ToV3.complete_version hr]
    exact singleBlockMigrations_version hs

theorem singleBlockMigrations_one (W : Wire T) (P : RenewalPrefixes) (h : s.version = 1) :
    ∃ rest, singleBlockMigrations W P s =
      some { migrateV1ToV2 W s with version := 2, retentionPeriod := s.retention, rest } := by
  have ⟨rest, hr, _⟩ := RelocateFromTransactionStorage.onRuntimeUpgrade_relocated W P s.rest
  refine ⟨rest, ?_⟩
  simp [singleBlockMigrations, versioned, h, migrateV1ToV2, hr, setRetentionPeriodIfZero_eq, retention]

theorem singleBlockMigrations_three (W : Wire T) (P : RenewalPrefixes) (h : s.version = 3) :
    ∃ rest, singleBlockMigrations W P s =
      some { migrateV4ToV5 s with version := 5, retentionPeriod := s.retention, rest } := by
  have ⟨rest, hr, _⟩ := RelocateFromTransactionStorage.onRuntimeUpgrade_relocated W P s.rest
  refine ⟨rest, ?_⟩
  simp [singleBlockMigrations, versioned, h, migrateV4ToV5, hr, setRetentionPeriodIfZero_eq, retention]

-- What is left to do once the single block migrations are done.
theorem upgrade_of_single (hs : singleBlockMigrations W P s = some s₁)
    (hr : W.layout.Readable (s₁.blockNumber - s₁.retentionPeriod) s₁.transactions)
    (hl : ∀ k, (limits k).anyLt required = false) :
    upgrade W P required limits s = some (.ok { s₁ with
      transactions := s₁.transactions.translate
        (W.layout.outcome (s₁.blockNumber - s₁.retentionPeriod))
      version      := max s₁.version 3 }) := by
  have hf : s₁.transactions.keys.card < 0 + (s₁.transactions.keys.card + 1) := by omega
  have ⟨p, seen, hp, hf⟩ := MigrateV2ToV3.complete_finishes hr hl
    (MigrateV2ToV3.Paused.start (p := ⟨s₁.transactions, s₁.version, none, []⟩)) hf 0
  have ⟨_, ht⟩ := hf.walk.done_all (by simpa using hf.last)
  simp only [upgrade, hs, hp, bind, Option.bind_some, pure, Except.map, ht, hf.version]

-- A state of some version, in which the authorizations and the entries have some layout and the budgets
-- that of version 4, and what its values are.
structure Holds (version : Nat) (c : Scale.Codec α) (d : Scale.Codec β) (s : PalletStorage T)
    (auths : AuthorizationScope T → Option α)
    (lists : UInt32 → Option (BoundedVec β T.maxBlockTransactions))
    (budgets : T.AccountId → Option V4AuthorizerBudget) : Prop where
  version        : s.version = version
  authorizations : ∀ scope, Encodes c s.authorizations scope (auths scope)
  transactions   : ∀ b, Encodes (entriesCodec T d) s.transactions b (lists b)
  budgets        : ∀ who, Encodes V4AuthorizerBudget.codec s.allowedAuthorizers who (budgets who)

variable {budgets : T.AccountId → Option V4AuthorizerBudget}

theorem retention_eq (h : s'.retentionPeriod = s.retention) : s'.retention = s.retention := by
  simp only [retention] at h ⊢
  split at h <;> simp_all [defaultRetentionPeriod]

theorem upgrade_one {auths : AuthorizationScope T → Option V1Authorization}
    {lists : UInt32 → Option (BoundedVec (V1TransactionInfo T) T.maxBlockTransactions)}
    (h : Holds 1 V1Authorization.codec W.v1TransactionInfo s auths lists budgets)
    (P : RenewalPrefixes) (hl : ∀ k, (limits k).anyLt required = false) :
    ∃ s', upgrade W P required limits s = some (.ok s') ∧ s'.blockNumber = s.blockNumber ∧
      s'.retention = s.retention ∧
      Holds 3 Authorization.codec W.transactionInfo s'
        (fun scope => (auths scope).bind (translateAuthorization s.blockNumber))
        (fun b => ((lists b).map (·.map translateInfo)).filter
          fun _ => s.blockNumber - s.retention ≤ b.toNat) budgets := by
  have ⟨rest, hs⟩ := singleBlockMigrations_one W P h.version
  have hr (oldestValid : Nat) : W.layout.Readable oldestValid s.transactions :=
    fun b raw hr _ => have ⟨l, hl⟩ := (h.transactions b).read hr; .inr (by simp [Wire.layout, hl])
  refine ⟨_, upgrade_of_single hs (hr _) hl, rfl, retention_eq rfl, rfl, fun scope => ?_, fun b => ?_,
    h.budgets⟩
  · exact (h.authorizations scope).translateValues fun _ _ => valid_translateAuthorization
  · exact Wire.encodes_outcome_v2 (h.transactions b)

theorem upgrade_three {auths : AuthorizationScope T → Option Authorization}
    {lists : UInt32 → Option (Entries T)}
    (h : Holds 3 Authorization.codec W.transactionInfo s auths lists budgets)
    (P : RenewalPrefixes) (hl : ∀ k, (limits k).anyLt required = false) :
    ∃ s', upgrade W P required limits s = some (.ok s') ∧ s'.version = 5 ∧
      (∀ scope, Encodes Authorization.codec s'.authorizations scope (auths scope)) ∧
      (∀ b, Encodes (entriesCodec T W.transactionInfo) s'.transactions b
        ((lists b).filter fun _ => s.blockNumber - s.retention ≤ b.toNat)) ∧
      ∀ who, Encodes AuthorizerBudget.codec s'.allowedAuthorizers who
        ((budgets who).map translateBudget) := by
  have ⟨rest, hs⟩ := singleBlockMigrations_three W P h.version
  have hr (oldestValid : Nat) : W.layout.Readable oldestValid s.transactions :=
    fun b raw hr _ => have ⟨l, hl⟩ := (h.transactions b).read hr; .inl (by simp [Wire.layout, hl])
  refine ⟨_, upgrade_of_single hs (hr _) hl, rfl, h.authorizations, fun b => ?_, fun who => ?_⟩
  · exact Wire.encodes_outcome (h.transactions b)
  · have hb := (h.budgets who).translateValues (d := AuthorizerBudget.codec) (f := some ∘ translateBudget)
      fun a b ha hb => Option.some.inj hb ▸ valid_translateBudget ha
    rwa [← Option.map_eq_bind] at hb

-- The budgets of version 4 in the current layout.
theorem decodes_v4Budget {m : Finmap fun _ : T.AccountId => List UInt8}
    (h : Encodes V4AuthorizerBudget.codec m who o) :
    Decodes AuthorizerBudget.codec m who (o.map translateBudget) ↔
      ∀ b ∈ o, b.validUntil.isSome ∧ b.authorizationPeriod = b.validUntil := by
  rw [Decodes, h.left]
  cases o
  case none   => simp
  case some b =>
    simp only [Option.map_some, read_v4Budget (h.right b rfl), Option.some.injEq, translateBudget,
      AuthorizerBudget.mk.injEq, Option.mem_some_iff, forall_eq']
    tauto

-- The authorizations and the lists of `s'` are what those of version 1 in `s` translate to. Those that have
-- expired are gone.
structure Translated (W : Wire T) (s : PalletStorage T)
    (auths : AuthorizationScope T → Option V1Authorization)
    (lists : UInt32 → Option (BoundedVec (V1TransactionInfo T) T.maxBlockTransactions))
    (s' : PalletStorage T) : Prop where
  authorizations : ∀ scope, Decodes Authorization.codec s'.authorizations scope
    ((auths scope).bind (translateAuthorization s.blockNumber))
  transactions   : ∀ b, Decodes (entriesCodec T W.transactionInfo) s'.transactions b
    (((lists b).map (·.map translateInfo)).filter fun _ => s.blockNumber - s.retention ≤ b.toNat)

def BudgetsTranslated (budgets : T.AccountId → Option V4AuthorizerBudget) (s' : PalletStorage T) : Prop :=
  ∀ who, Decodes AuthorizerBudget.codec s'.allowedAuthorizers who ((budgets who).map translateBudget)

end PalletStorage

open PalletStorage

-- An upgrade ends at version 5 only from version 3 on: the migrations from there are single block ones,
-- which have run when the one to version 3 has. From version 1 the authorizations and the lists are
-- translated, but the budgets are left as they were, and read in the current layout they are right only
-- where the period and the end are the same. A second upgrade does the rest.
theorem westend_upgrade {T : Config} (W : Wire T) (P : RenewalPrefixes) (required : Weight)
    (limits : Nat → Weight) (hl : ∀ k, (limits k).anyLt required = false) :
    (∀ s s', upgrade W P required limits s = some (.ok s') →
      (s'.version = 5 ↔ 3 ≤ s.version ∧ s.version ≤ 5)) ∧
    ∀ s auths lists budgets, Holds 1 V1Authorization.codec W.v1TransactionInfo s auths lists budgets →
      ∃ s₁, upgrade W P required limits s = some (.ok s₁) ∧ s₁.version = 3 ∧
        Translated W s auths lists s₁ ∧
        (BudgetsTranslated budgets s₁ ↔
          ∀ who, ∀ b ∈ budgets who, b.validUntil.isSome ∧ b.authorizationPeriod = b.validUntil) ∧
        ∃ s₂, upgrade W P required limits s₁ = some (.ok s₂) ∧ s₂.version = 5 ∧
          Translated W s auths lists s₂ ∧ BudgetsTranslated budgets s₂ := by
  refine ⟨fun s s' => upgrade_version, fun s auths lists budgets h => ?_⟩
  have ⟨s₁, hu₁, hn, hp, h₁⟩ := upgrade_one h P hl
  have ⟨s₂, hu₂, hv, ha, ht, hb⟩ := upgrade_three h₁ P hl
  refine ⟨s₁, hu₁, h₁.version, ⟨fun scope => (h₁.authorizations scope).decodes,
    fun b => (h₁.transactions b).decodes⟩, forall_congr' fun who => decodes_v4Budget (h₁.budgets who),
    s₂, hu₂, hv, ⟨fun scope => (ha scope).decodes, fun b => ?_⟩, fun who => (hb who).decodes⟩
  have ht := (ht b).decodes
  rwa [hn, hp, Option.filter_filter, funext fun _ => Bool.and_self _] at ht

-- A state of version 1: an authorization, a list of the block 7, and a budget that never ends with a
-- period for what it grants.

def RenewalPrefixes.numbered : RenewalPrefixes where
  oldAutoRenewals         := List.replicate 32 0
  renewals                := List.replicate 32 1
  oldPendingAutoRenewals  := List.replicate 32 2
  pendingRenewals         := List.replicate 32 3
  oldPermanentStorageUsed := List.replicate 32 4
  permanentStorageUsed    := List.replicate 32 5
  length_eq               := by decide
  nodup                   := by decide

def authorizer : Config.arrays.AccountId :=
  Bytes32.pad [2]

def PalletStorage.first : PalletStorage .arrays where
  blockNumber        := 10
  version            := 1
  retentionPeriod    := 0
  authorizations     := Finmap.singleton (.account (.pad [1])) (V1Authorization.codec.encode ⟨⟨3, 300⟩, 20⟩)
  allowedAuthorizers := Finmap.singleton authorizer (V4AuthorizerBudget.codec.encode ⟨none, some 5, none⟩)
  transactions       := Finmap.singleton 7
    ((entriesCodec .arrays Wire.arrays.v1TransactionInfo).encode v1List)
  blockTransactions  := none
  providers _        := 0
  rest               := ∅

theorem PalletStorage.holds_first :
    Holds 1 V1Authorization.codec Wire.arrays.v1TransactionInfo first
      (fun scope => if scope = .account (.pad [1]) then some ⟨⟨3, 300⟩, 20⟩ else none)
      (fun b => if b = 7 then some v1List else none)
      (fun who => if who = authorizer then some ⟨none, some 5, none⟩ else none) where
  version          := rfl
  authorizations _ := .singleton ⟨⟨show 3 < 256 ^ 4 by decide, show 300 < 256 ^ 8 by decide⟩,
    show 20 < 256 ^ 4 by decide⟩
  transactions _   := .singleton isList_v1List.valid
  budgets _        := .singleton ⟨nofun, fun _ h => Option.some.inj h ▸ show 5 < 256 ^ 4 by decide, nofun⟩

theorem westend_upgrade_first :
    ∃ s₁, upgrade .arrays .numbered ⟨1, 1⟩ (fun _ => ⟨9, 9⟩) first = some (.ok s₁) ∧ s₁.version = 3 ∧
      ∃ s₂, upgrade .arrays .numbered ⟨1, 1⟩ (fun _ => ⟨9, 9⟩) s₁ = some (.ok s₂) ∧ s₂.version = 5 := by
  have ⟨_, h⟩ := westend_upgrade .arrays .numbered ⟨1, 1⟩ (fun _ => ⟨9, 9⟩) fun _ => rfl
  have ⟨s₁, h₁, hv₁, _, _, s₂, h₂, hv₂, _⟩ := h first _ _ _ holds_first
  exact ⟨s₁, h₁, hv₁, s₂, h₂, hv₂⟩

-- The period of the budget is read as its end, and it is not feeless.
theorem westend_upgrade_stuck :
    ∃ s', upgrade .arrays .numbered ⟨1, 1⟩ (fun _ => ⟨9, 9⟩) first = some (.ok s') ∧ s'.version ≠ 5 ∧
      (s'.allowedAuthorizers.lookup authorizer).map AuthorizerBudget.codec.read =
        some (some ⟨none, some 5, false⟩) ∧
      translateBudget ⟨none, some 5, none⟩ = ⟨none, none, true⟩ := by
  have hl (_ : Nat) : Weight.anyLt ⟨9, 9⟩ ⟨1, 1⟩ = false := rfl
  have ⟨s', h, _, _, hs⟩ := upgrade_one holds_first .numbered hl
  have ⟨hb, hv⟩ := hs.budgets authorizer
  refine ⟨s', h, by simp [hs.version], ?_, rfl⟩
  rw [hb, if_pos rfl, Option.map_some, Option.map_some, read_v4Budget (hv _ (if_pos rfl))]
  rfl

end Bulletin
