import BulletinChain.Migrations.Raw
import BulletinChain.DataRenewal.Migrations

-- The migrations that the Westend runtime wires, over the bytes of the storage.
namespace Bulletin

open Scale

-- What the migrations read and write of the storage pallet, and the rest of the storage, in which the
-- renewals are.
structure PalletStorage (T : Config) where
  blockNumber        : Nat
  version            : Nat
  retentionPeriod    : Nat
  authorizations     : Finmap fun _ : AuthorizationScope T => List UInt8
  allowedAuthorizers : Finmap fun _ : T.AccountId => List UInt8
  transactions       : RawTransactions
  blockTransactions  : Option (List UInt8)
  providers          : T.AccountId → Nat
  rest               : RawStorage

variable {T : Config}

-- `StorageMap::translate`, which leaves a value that does not decode as it is.
def translateValues [DecidableEq κ] (c : Scale.Codec α) (d : Scale.Codec β) (f : α → Option β)
    (m : Finmap fun _ : κ => List UInt8) : Finmap fun _ : κ => List UInt8 :=
  m.translate fun _ raw =>
    match c.read raw with
    | none     => some raw
    | some old => (f old).map d.encode

namespace PalletStorage

def migrateV0ToV1 (W : Wire T) (s : PalletStorage T) : Option (PalletStorage T) := do
  let transactions ← VersionUncheckedMigrateV0ToV1.onRuntimeUpgrade W s.transactions
  return { s with transactions }

open VersionUncheckedMigrateV1ToV2 in
def migrateV1ToV2 (W : Wire T) (s : PalletStorage T) : PalletStorage T :=
  { s with
    authorizations    := translateValues V1Authorization.codec Authorization.codec
      (translateAuthorization s.blockNumber) s.authorizations
    -- `StorageValue::translate`
    blockTransactions := s.blockTransactions.map fun raw =>
      match (entriesCodec T W.v1TransactionInfo).read raw with
      | none     => raw
      | some old => (entriesCodec T W.transactionInfo).encode (old.map translateInfo) }

-- The migration from version 3 to 4 changes the version only.

def translateBudget (old : V4AuthorizerBudget) : AuthorizerBudget where
  quota      := old.quota
  validUntil := old.validUntil
  feeless    := true

def migrateV4ToV5 (s : PalletStorage T) : PalletStorage T :=
  { s with
    allowedAuthorizers := translateValues V4AuthorizerBudget.codec AuthorizerBudget.codec
      (some ∘ translateBudget) s.allowedAuthorizers
    providers who      :=
      let old := (s.allowedAuthorizers.lookup who).bind V4AuthorizerBudget.codec.read
      if old.isSome then s.providers who + 1 else s.providers who }

-- `DEFAULT_RETENTION_PERIOD`
def defaultRetentionPeriod : Nat := 2 * 100800

def setRetentionPeriodIfZero (s : PalletStorage T) : PalletStorage T :=
  if s.retentionPeriod = 0 then { s with retentionPeriod := defaultRetentionPeriod } else s

-- `VersionedMigration`
def versioned (old new : Nat) (inner : PalletStorage T → Option (PalletStorage T))
    (s : PalletStorage T) : Option (PalletStorage T) :=
  if s.version = old then (inner s).map ({ · with version := new }) else some s

-- `SingleBlockMigrations`, as far as they are of the two pallets.
def singleBlockMigrations (W : Wire T) (P : RenewalPrefixes) (s : PalletStorage T) :
    Option (PalletStorage T) := do
  let s ← versioned 0 1 (migrateV0ToV1 W) s
  let s ← versioned 1 2 (some ∘ migrateV1ToV2 W) s
  let s ← versioned 3 4 some s
  let s ← versioned 4 5 (some ∘ migrateV4ToV5) s
  let rest ← RelocateFromTransactionStorage.onRuntimeUpgrade W P s.rest
  return setRetentionPeriodIfZero { s with rest }

-- The upgrade: the single block migrations, and then `MbmMigrations` to its end, with a limit for each
-- of its steps.
def upgrade (W : Wire T) (P : RenewalPrefixes) (required : Weight) (limits : Nat → Weight)
    (s : PalletStorage T) : Option (Except SteppedMigrationError (PalletStorage T)) := do
  let s ← singleBlockMigrations W P s
  let r ← MigrateV2ToV3.complete W.layout required s.blockNumber s.retentionPeriod limits
    (s.transactions.keys.card + 1) 0 ⟨s.transactions, s.version, none, []⟩
  return r.map fun p => { s with transactions := p.transactions, version := p.version }

end PalletStorage
end Bulletin
