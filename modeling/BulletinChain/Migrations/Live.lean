import BulletinChain.Migrations.Raw
import BulletinChain.Effects

-- The migration to version 3 among the blocks of a chain.
namespace Bulletin

open VersionUncheckedMigrateV1ToV2

-- A list in the layout of version 2. An empty one has the bytes of an empty list in the current layout,
-- and is one of those.
structure V2List (T : Config) where
  list     : BoundedVec (V2TransactionInfo T) T.maxBlockTransactions
  nonempty : list.val ≠ []

-- A value of `Transactions`, which the bytes of the two layouts tell apart.
inductive Stored (T : Config)
  | v2 (list : V2List T)
  | current (list : Entries T)

-- A chain of which the lists decode, next to those that do not decode yet. There is a cursor until the
-- migration is done, which is `none` in it before the first step.
structure Migrating (T : Config) where
  chain    : Chain T
  v2       : Finmap fun _ : Nat => V2List T
  disjoint : ∀ b ∈ v2, b ∉ chain.state.transactions
  version  : Nat
  cursor   : Option (Option Nat)

variable {T : Config}

def V2List.translated (l : V2List T) : Entries T :=
  l.list.map translateInfo

namespace Stored

def v2? : Stored T → Option (V2List T)
  | v2 l      => some l
  | current _ => none

def current? : Stored T → Option (Entries T)
  | v2 _      => none
  | current l => some l

-- The order of the keys is that of their hashes.
def layout (K : KeyOrder Nat (List Nat)) : Layout Nat (Stored T) where
  order       := K
  number      := id
  isCurrent s := s.current?.isSome
  fromV2 s    := s.v2?.map (current ·.translated)

end Stored

def State.withTransactions (s : State T) (transactions : Finmap fun _ : Nat => Entries T) : State T :=
  { s with transactions }

def Chain.withTransactions (c : Chain T) (transactions : Finmap fun _ : Nat => Entries T) : Chain T :=
  { c with state := c.state.withTransactions transactions }

namespace Migrating

-- What `contains_key` and `transactions_at` find: the lists in both layouts.
def transactions (m : Migrating T) : Finmap fun _ : Nat => Entries T :=
  m.chain.state.transactions ∪ m.v2.translate fun _ l => some l.translated

-- The values, as the migration finds them.
def stored (m : Migrating T) : Finmap fun _ : Nat => Stored T :=
  (m.chain.state.transactions.translate fun _ l => some (.current l)) ∪
    m.v2.translate fun _ l => some (.v2 l)

-- A list that is written takes the place of one that does not decode.
def write (m : Migrating T) (c : Chain T) : Migrating T :=
  { m with
    chain    := c
    v2       := m.v2.restrict (· ∉ c.state.transactions)
    disjoint := fun b hb => by
      rw [Finmap.mem_iff] at hb
      simp only [Finmap.lookup_restrict] at hb
      split at hb
      case isTrue h  => exact h
      case isFalse   => simp at hb }

-- An action that reads the lists in both layouts, and leaves `transactions` of those that decode.
def readingAll (m : Migrating T) (a : Action T) (transactions : Finmap fun _ : Nat => Entries T) :
    Option (Migrating T) := do
  let c ← (m.chain.withTransactions m.transactions).step a
  return m.write (c.withTransactions transactions)

-- The actions of a block in which the migration is not done: there are no calls but the inherents.
-- `take` of `on_initialize` returns nothing for a list that does not decode, and leaves it.
def block (m : Migrating T) : Action T → Option (Migrating T)
  | .onInitialize parentHash moment => (m.chain.step (.onInitialize parentHash moment)).map m.write
  | .extrinsic x =>
    if x.isInherent then m.readingAll (.extrinsic x) m.chain.state.transactions else none
  | .onFinalize =>
    m.readingAll .onFinalize (m.chain.ledger.sealBlock m.chain.ledger.blockNumber).transactions
  | _ => none

def migrated (m : Migrating T) (p : MigrateV2ToV3.Progress Nat (Stored T)) : Migrating T where
  chain    := m.chain.withTransactions (p.transactions.translate fun _ s => s.current?)
  v2       := p.transactions.translate fun _ s => s.v2?
  disjoint := fun b hb hc => by
    simp only [Chain.withTransactions, State.withTransactions, Finmap.mem_iff, Finmap.lookup_translate,
      Option.bind_eq_some_iff] at hb hc
    have ⟨_, s, hs, hb⟩ := hb
    have ⟨_, s', hs', hc⟩ := hc
    cases Option.some.inj (hs.symm.trans hs')
    cases s <;> contradiction
  version  := p.version
  cursor   := p.cursor.map some

-- A step of the migration, unless it is done or the step fails.
def migrate (K : KeyOrder Nat (List Nat)) (required limit : Weight) (m : Migrating T) :
    Option (Migrating T) := do
  let cursor ← m.cursor
  let s := m.chain.state
  match MigrateV2ToV3.step (Stored.layout K) required s.blockNumber s.retentionPeriod limit
    ⟨m.stored, m.version, cursor, []⟩ with
  | some (.ok p) => return m.migrated p
  | _            => none

inductive Action (T : Config)
  | block (a : Bulletin.Action T)
  | migrate (limit : Weight)

def Action.block? : Action T → Option (Bulletin.Action T)
  | block a   => some a
  | migrate _ => none

def step (K : KeyOrder Nat (List Nat)) (required : Weight) (m : Migrating T) :
    Action T → Option (Migrating T)
  | .block a       => m.block a
  | .migrate limit => m.migrate K required limit

end Migrating
end Bulletin
