import BulletinChain.Migrations.Layout
import BulletinChain.Runtime.Call

-- The migrations of `Transactions`, over the bytes of its values.
namespace Bulletin

open Scale Machine

variable {T : Config}

namespace VersionUncheckedMigrateV0ToV1

def translateInfo (old : OldTransactionInfo T) : V1TransactionInfo T where
  chunkRoot   := old.chunkRoot
  contentHash := old.contentHash
  hashing     := .blake2b256
  cidCodec    := rawCodec
  size        := old.size
  blockChunks := old.blockChunks

-- The `while let` over `next_key`. A value that decodes as it should be now is skipped, one that
-- decodes in neither layout is removed.
def loop (W : Wire T) : Nat → Option UInt32 → RawTransactions → Option RawTransactions
  | 0,        _,           _ => none
  | fuel + 1, previousKey, m =>
    match W.order.next m.keys previousKey with
    | none     => some m
    | some key =>
      match m.lookup key with
      | none     => loop W fuel (some key) m
      | some raw =>
        if ((entriesCodec T W.transactionInfo).read raw).isSome then
          loop W fuel (some key) m
        else
          match (entriesCodec T W.oldTransactionInfo).read raw with
          | some oldTxs =>
            let bounded := oldTxs.map translateInfo
            loop W fuel (some key) (m.insert key ((entriesCodec T W.v1TransactionInfo).encode bounded))
          | none => loop W fuel (some key) (m.erase key)

-- The loop makes a pass for each key and one more to find that there is none left.
def onRuntimeUpgrade (W : Wire T) (m : RawTransactions) : Option RawTransactions :=
  loop W (m.keys.card + 1) none m

end VersionUncheckedMigrateV0ToV1

namespace Weight

def anyLt (w v : Weight) : Bool :=
  w.refTime < v.refTime || w.proofSize < v.proofSize

-- `try_consume` of a meter, of which what remains is all that matters.
def tryConsume (remaining required : Weight) : Option Weight :=
  if remaining.anyLt required then
    none
  else
    some ⟨remaining.refTime - required.refTime, remaining.proofSize - required.proofSize⟩

end Weight

inductive SteppedMigrationError
  | insufficientWeight (required : Weight)
  | failed

-- How `Transactions` is kept: the order of its keys, and what its values decode to. `fromV2` is a value
-- in the layout of version 2, written in the current one.
structure Layout (κ ν : Type) where
  order     : KeyOrder κ (List Nat)
  number    : κ → Nat
  isCurrent : ν → Bool
  fromV2    : ν → Option ν

namespace MigrateV2ToV3

-- The storage that the migration changes and the cursor between its steps, with the keys that it has
-- visited, which nothing depends on.
structure Progress (κ ν : Type) where
  transactions : Finmap fun _ : κ => ν
  version      : Nat
  cursor       : Option κ
  visited      : List κ

variable {κ ν : Type} [DecidableEq κ]

def Progress.visit (p : Progress κ ν) (block : κ) (transactions : Finmap fun _ : κ => ν) :
    Progress κ ν :=
  { p with transactions, cursor := some block, visited := p.visited ++ [block] }

def loop (L : Layout κ ν) (required : Weight) (oldestValid : Nat) :
    Nat → Weight → Progress κ ν → Option (Except SteppedMigrationError (Progress κ ν))
  | 0,        _,         _ => none
  | fuel + 1, remaining, p =>
    match remaining.tryConsume required with
    | none           => some (.ok p)
    | some remaining =>
      match L.order.next p.transactions.keys p.cursor with
      | none =>
        -- The version is never lowered.
        let version := if p.version < 3 then 3 else p.version
        some (.ok { p with version, cursor := none })
      | some block =>
        let next := loop L required oldestValid fuel remaining
        if L.number block < oldestValid then
          next (p.visit block (p.transactions.erase block))
        else
          match p.transactions.lookup block with
          | none     => next (p.visit block p.transactions)
          | some raw =>
            if L.isCurrent raw then
              next (p.visit block p.transactions)
            else
              match L.fromV2 raw with
              | none    => some (.error .failed)
              | some v3 => next (p.visit block (p.transactions.insert block v3))

-- A step makes at most a pass for each key and one more to find that there is none left.
def step (L : Layout κ ν) (required : Weight) (now retentionPeriod : Nat) (limit : Weight)
    (p : Progress κ ν) : Option (Except SteppedMigrationError (Progress κ ν)) :=
  if limit.anyLt required then
    some (.error (.insufficientWeight required))
  else
    loop L required (now - retentionPeriod) (p.transactions.keys.card + 1) limit p

-- The steps of one block number, the `k`-th with the `k`-th limit.
def steps (L : Layout κ ν) (required : Weight) (now retentionPeriod : Nat) (limits : Nat → Weight)
    (p : Progress κ ν) : Nat → Option (Except SteppedMigrationError (Progress κ ν))
  | 0     => some (.ok p)
  | k + 1 =>
    match steps L required now retentionPeriod limits p k with
    | some (.ok p) => step L required now retentionPeriod (limits k) p
    | r            => r

-- The steps until one of them leaves no cursor.
def complete (L : Layout κ ν) (required : Weight) (now retentionPeriod : Nat) (limits : Nat → Weight) :
    Nat → Nat → Progress κ ν → Option (Except SteppedMigrationError (Progress κ ν))
  | 0,        _, _ => none
  | fuel + 1, k, p =>
    match step L required now retentionPeriod (limits k) p with
    | some (.ok p) =>
      if p.cursor.isNone then
        some (.ok p)
      else
        complete L required now retentionPeriod limits fuel (k + 1) p
    | r => r

end MigrateV2ToV3

open VersionUncheckedMigrateV1ToV2 in
def Wire.layout (W : Wire T) : Layout UInt32 (List UInt8) where
  order         := W.order
  number        := UInt32.toNat
  isCurrent raw := ((entriesCodec T W.transactionInfo).read raw).isSome
  fromV2 raw    := do
    let v2 ← (entriesCodec T W.v1TransactionInfo).read raw
    return (entriesCodec T W.transactionInfo).encode (v2.map translateInfo)

open VersionUncheckedMigrateV1ToV2 in
def Wire.transactionsAt (W : Wire T) (m : RawTransactions) (block : UInt32) : Option (Entries T) := do
  let raw ← m.lookup block
  match (entriesCodec T W.transactionInfo).read raw with
  | some txs => return txs
  | none     =>
    let v2 ← (entriesCodec T W.v1TransactionInfo).read raw
    return v2.map translateInfo

end Bulletin
