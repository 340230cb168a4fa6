import BulletinChain.Effects
import BulletinChain.Lib.Run

namespace Bulletin

open Machine

variable {T : Config}

-- What can be known of a chain from its blocks and their events alone.

inductive Record (T : Config)
  | block (number : Nat)
  | event (e : Event T)

structure Observer (T : Config) where
  block    : Nat
  -- The index of the next entry of the block.
  next     : Nat
  latest   : Finmap fun _ : T.ContentHash => Nat × Nat
  renewals : Finmap fun _ : T.ContentHash => RenewalData T
  used     : Nat
  -- The count has just reached the threshold, and the event that says so is due.
  alarm    : Bool

namespace Observer

variable (T) in
def empty : Observer T :=
  ⟨0, 0, ∅, ∅, 0, false⟩

variable (T) in
def threshold : Nat :=
  min (T.maxPermanentStorageSize / 100 * permanentStorageNearCapPercent) u64Max

-- `none` where an event is none that the pallets emit here.

def appended (o : Observer T) (index : Nat) (contentHash : T.ContentHash) : Option (Observer T) :=
  if index = o.next then
    some { o with
      next   := o.next + 1
      latest := o.latest.insert contentHash (o.block, index) }
  else
    none

-- The registration of a content, if it is that of the account.
def registration (o : Observer T) (contentHash : T.ContentHash) (account : T.AccountId) :
    Option (RenewalData T) :=
  (o.renewals.lookup contentHash).filter (·.account = account)

def register (o : Observer T) (contentHash : T.ContentHash) (data : RenewalData T) :
    Option (Observer T) :=
  if (o.renewals.lookup contentHash).isNone then
    some { o with renewals := o.renewals.insert contentHash data }
  else
    none

def unregister (o : Observer T) (contentHash : T.ContentHash) (account : T.AccountId) :
    Option (Observer T) :=
  (o.registration contentHash account).map fun _ =>
    { o with renewals := o.renewals.erase contentHash }

def delivered (o : Observer T) (index : Nat) (contentHash : T.ContentHash) (account : T.AccountId) :
    Option (Observer T) := do
  let data ← o.registration contentHash account
  { o with renewals := settled o.renewals contentHash data }.appended index contentHash

def track (o : Observer T) : Event T → Option (Observer T)
  | .stored index contentHash _                   => o.appended index contentHash
  | .renewed index contentHash                    => o.appended index contentHash
  | .dataRenewed index contentHash account        => o.delivered index contentHash account
  | .renewalEnabled contentHash account recurring => o.register contentHash ⟨account, recurring, true⟩
  | .autoRenewalDisabled contentHash account      => o.unregister contentHash account
  | .renewalFailed contentHash account            => o.unregister contentHash account
  | .permanentStorageUsedUpdated used             =>
    some { o with used, alarm := o.used < threshold T ∧ threshold T ≤ used }
  | _                                             => some o

def see (o : Observer T) : Event T → Option (Observer T)
  | .permanentStorageNearCap used cap =>
    if o.alarm ∧ used = o.used ∧ cap = T.maxPermanentStorageSize then
      some { o with alarm := false }
    else
      none
  | e => if o.alarm then none else o.track e

-- With a new block, the positions that are past the retention period are forgotten.
def observe (period : Nat) (o : Observer T) : Record T → Option (Observer T)
  | .event e      => o.see e
  | .block number =>
    if number = o.block + 1 ∧ ¬o.alarm then
      some { o with
        block  := number
        next   := 0
        latest := o.latest.translate fun _ position =>
          if number ≤ position.1 + period then some position else none }
    else
      none

end Observer

namespace Chain

-- What a step of the chain adds to the log. The events of a block are dropped when the next one opens.
def emitted (c : Chain T) (a : Action T) : List (Record T) :=
  match a, c.step a with
  | .onInitialize .., some c' => .block c'.state.blockNumber :: c'.state.events.map .event
  | _, some c'                => (c'.state.events.drop c.state.events.length).map .event
  | _, none                   => []

def records : Chain T → List (Action T) → List (Record T) :=
  logOf step emitted

end Chain

-- What the observer is to know in a state.
def State.observer (s : State T) : Observer T where
  block    := s.blockNumber
  next     := s.blockTransactions.val.length
  latest   := s.transactionByContentHash
  renewals := s.renewals
  used     := s.permanentStorageUsed
  alarm    := false

end Bulletin
