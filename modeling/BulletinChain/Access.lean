import BulletinChain.Chain
import BulletinChain.Verdict
import BulletinChain.Lib.Run

namespace Bulletin

open Machine Except

variable {T : Config}

-- What the blocks of a chain do to the authorizations, to the authorizers that grant them and to the
-- references that keep their accounts alive.

structure Access (T : Config) where
  authorizations     : Finmap fun _ : AuthorizationScope T => Authorization
  allowedAuthorizers : Finmap fun _ : T.AccountId => AuthorizerBudget
  providers          : T.AccountId → Nat

def State.access (s : State T) : Access T :=
  ⟨s.authorizations, s.allowedAuthorizers, s.providers⟩

-- Something that was done to them. A grant `opens` a window if no authorization was active before,
-- and otherwise adds to the open one.
inductive Deed (T : Config)
  | stored (scope : AuthorizationScope T) (size : Nat)
  | renewed (scope : AuthorizationScope T) (size : Nat)
  | granted (origin : Origin T) (scope : AuthorizationScope T) (transactions bytes : Nat) (opens : Bool)
  | refreshed (origin : Origin T) (scope : AuthorizationScope T)
  | removed (scope : AuthorizationScope T)
  | registered (who : T.AccountId) (budget : AuthorizerBudget)
  | unregistered (who : T.AccountId)

-- The scope whose authorization a deed is about.
def Deed.target : Deed T → Option (AuthorizationScope T)
  | .stored scope _ | .renewed scope _ | .granted _ scope _ _ _ | .refreshed _ scope
  | .removed scope => some scope
  | _              => none

-- The origins that authorize without a budget.
def Origin.authorizesFreely : Origin T → Bool
  | .root       => true
  | .xcm l      => T.isXcmAuthorizer l
  | .signed who => T.isListedAuthorizer who
  | _           => false

-- The caps after a grant to a scope whose authorization is active.
def AuthorizationExtent.raised (scope : AuthorizationScope T) (transactions bytes : Nat)
    (e : AuthorizationExtent) : AuthorizationExtent :=
  match scope with
  | .account _  => { e with
    bytesAllowance        := saturatingAdd u64Max e.bytesAllowance bytes
    transactionsAllowance := saturatingAdd u32Max e.transactionsAllowance transactions }
  | .preimage _ => { e with
    bytesAllowance        := bytes
    transactionsAllowance := transactions }

namespace Access

def active (g : Access T) (now : Nat) (scope : AuthorizationScope T) : Option Authorization :=
  (g.authorizations.lookup scope).filter (!·.expired now)

def write (g : Access T) (scope : AuthorizationScope T) (a : Authorization) : Access T :=
  { g with authorizations := g.authorizations.insert scope a }

def withBudget (g : Access T) (who : T.AccountId) (b : AuthorizerBudget) : Access T :=
  { g with allowedAuthorizers := g.allowedAuthorizers.insert who b }

def acquire (g : Access T) (who : T.AccountId) : Access T :=
  { g with providers := fun w => if w = who then g.providers w + 1 else g.providers w }

def release (g : Access T) (who : T.AccountId) : Access T :=
  { g with providers := fun w => if w = who then g.providers w - 1 else g.providers w }

def create (g : Access T) (scope : AuthorizationScope T) (a : Authorization) : Access T :=
  match scope with
  | .account who => (g.write scope a).acquire who
  | .preimage _  => g.write scope a

def erase (g : Access T) (scope : AuthorizationScope T) : Access T :=
  { g with authorizations := g.authorizations.erase scope }

def remove (g : Access T) (scope : AuthorizationScope T) : Access T :=
  match scope with
  | .account who => (g.erase scope).release who
  | .preimage _  => g.erase scope

-- The first authorization of a scope takes a reference, one in place of another does not.
def put (g : Access T) (scope : AuthorizationScope T) (a : Authorization) : Access T :=
  if (g.authorizations.lookup scope).isSome then g.write scope a else g.create scope a

def register (g : Access T) (who : T.AccountId) (b : AuthorizerBudget) : Access T :=
  if (g.allowedAuthorizers.lookup who).isSome then g.withBudget who b
  else (g.withBudget who b).acquire who

def unregister (g : Access T) (who : T.AccountId) : Access T :=
  { g with allowedAuthorizers := g.allowedAuthorizers.erase who }.release who

-- An authorizer that draws on a budget.
abbrev Issuer (T : Config) := T.AccountId × AuthorizerBudget

-- The origin may authorize at block `now`, and the budget it then draws on.
inductive Issues (now : Nat) (g : Access T) : Origin T → Option (Issuer T) → Prop
  | freely  : origin.authorizesFreely → Issues now g origin none
  | allowed : ¬T.isListedAuthorizer who → g.allowedAuthorizers.lookup who = some b →
    ¬b.isExpired now → Issues now g (.signed who) (some (who, b))

def debited (g : Access T) (transactions bytes : Nat) : Option (Issuer T) → Option (Access T)
  | none          => some g
  | some (who, b) => (b.tryConsume transactions bytes).map (g.withBudget who)

variable (T) in
-- The end of a window that is opened at block `now`.
def expiration (now : Nat) (issuer : Option (Issuer T)) : Nat :=
  let end' := saturatingAdd maxBlockNumber now T.authorizationPeriod
  match issuer.bind (·.2.validUntil) with
  | some validUntil => min end' validUntil
  | none            => end'

end Access

open Access

-- What a deed does at block `now`, and what it takes.
inductive Deed.Does (now : Nat) (g : Access T) : Deed T → Access T → Prop
  | stored :
    g.active now scope = some a →
    Does now g (.stored scope size) (g.write scope (TransactionStorage.charged a size))
  | renewed :
    g.active now scope = some a →
    saturatingAdd u64Max a.extent.extra.bytesPermanent size ≤ a.extent.bytesAllowance →
    Does now g (.renewed scope size) (g.write scope (DataRenewal.charged a size))
  | opened :
    g.Issues now origin issuer → g.debited transactions bytes issuer = some g₁ → 0 < bytes →
    g.active now scope = none →
    Does now g (.granted origin scope transactions bytes true)
      (g₁.put scope (State.freshAuthorization transactions bytes (expiration T now issuer)))
  | added :
    g.Issues now origin issuer → g.debited transactions bytes issuer = some g₁ → 0 < bytes →
    g.active now scope = some a →
    Does now g (.granted origin scope transactions bytes false)
      (g₁.write scope { a with extent := a.extent.raised scope transactions bytes })
  | refreshed :
    g.Issues now origin issuer → g.authorizations.lookup scope = some a →
    Does now g (.refreshed origin scope)
      (g.write scope { a with expiration := expiration T now issuer })
  | removed :
    g.authorizations.lookup scope = some a → a.expired now →
    Does now g (.removed scope) (g.remove scope)
  | registered :
    ¬b.isExpired now →
    Does now g (.registered who b) (g.register who b)
  | unregistered :
    g.allowedAuthorizers.lookup who = some b →
    Does now g (.unregistered who) (g.unregister who)

-- What a deed does to the authorization of one scope.
inductive Deed.Moves (now : Nat) (g : Access T) (scope : AuthorizationScope T) :
    Deed T → Option Authorization → Prop
  | aside :
    d.target ≠ some scope →
    Moves now g scope d (g.authorizations.lookup scope)
  | stored :
    g.active now scope = some a →
    Moves now g scope (.stored scope size) (some (TransactionStorage.charged a size))
  | renewed :
    g.active now scope = some a →
    saturatingAdd u64Max a.extent.extra.bytesPermanent size ≤ a.extent.bytesAllowance →
    Moves now g scope (.renewed scope size) (some (DataRenewal.charged a size))
  | opened :
    g.Issues now origin issuer → g.active now scope = none →
    Moves now g scope (.granted origin scope transactions bytes true)
      (some (State.freshAuthorization transactions bytes (expiration T now issuer)))
  | added :
    g.Issues now origin issuer → g.active now scope = some a →
    Moves now g scope (.granted origin scope transactions bytes false)
      (some { a with extent := a.extent.raised scope transactions bytes })
  | refreshed :
    g.Issues now origin issuer → g.authorizations.lookup scope = some a →
    Moves now g scope (.refreshed origin scope) (some { a with expiration := expiration T now issuer })
  | removed :
    g.authorizations.lookup scope = some a → a.expired now →
    Moves now g scope (.removed scope) none

-- Deeds of one block, one after the other.
inductive Deed.Follows (now : Nat) : Access T → List (Deed T) → Access T → Prop
  | nil  : Follows now g [] g
  | cons : Deed.Does now g d g₁ → Follows now g₁ ds g₂ → Follows now g (d :: ds) g₂

-- The deeds of the calls of the storage pallet, if their dispatch succeeds.
def TransactionStorage.Call.deeds (s : State T) (origin : Origin T) : Call T → List (Deed T)
  | .authorizeAccount who transactions bytes =>
    [.granted origin (.account who) transactions bytes (s.activeAuthorization (.account who)).isNone]
  | .authorizePreimage hash maxSize =>
    [.granted origin (.preimage hash) 1 maxSize (s.activeAuthorization (.preimage hash)).isNone]
  | .refreshAccountAuthorization who          => [.refreshed origin (.account who)]
  | .refreshPreimageAuthorization hash        => [.refreshed origin (.preimage hash)]
  | .removeExpiredAccountAuthorization who    => [.removed (.account who)]
  | .removeExpiredPreimageAuthorization hash  => [.removed (.preimage hash)]
  | .addAuthorizer who budget                 => [.registered who budget]
  | .removeAuthorizer who                     =>
    if (s.allowedAuthorizers.lookup who).isSome then [.unregistered who] else []
  | .removeExhaustedAuthorizer who            => [.unregistered who]
  | _                                         => []

namespace State

-- The charge for a pending renewal that was not prepaid.
def pendingDeed (s : State T) : Pending T → List (Deed T)
  | (_, info, data) =>
    let scope := .account data.account
    if ¬data.paid ∧ (DataRenewal.checkRenewAuthorization scope info.size true).Succeeds s then
      [.renewed scope info.size]
    else
      []

def pendingDeeds (extrinsicIndex : Nat) : State T → List (Pending T) → List (Deed T)
  | _, []            => []
  | s, item :: items =>
    s.pendingDeed item ++ pendingDeeds extrinsicIndex (renewPending extrinsicIndex s item) items

def drainDeeds (s : State T) : List (Deed T) :=
  match s.extrinsicIndex with
  | some extrinsicIndex =>
    pendingDeeds extrinsicIndex { s with pendingRenewals := .empty } s.pendingRenewals.val
  | none => []

end State

namespace RuntimeCall

def deeds (s : State T) (origin : Origin T) : RuntimeCall T → List (Deed T)
  | transactionStorage call              => call.deeds s origin
  | dataRenewal .processPendingRenewals  => s.drainDeeds
  | _                                    => []

-- The deeds of a dispatch.
def dispatchDeeds (s : State T) (origin : Origin T) (call : RuntimeCall T) : List (Deed T) :=
  match call.dispatch s origin with
  | .ok _    => call.deeds s origin
  | .error _ => []

-- The content that a call stores or renews, and its size.
def subject (s : State T) : RuntimeCall T → Option (T.ContentHash × Nat)
  | transactionStorage call =>
    call.content.map fun (data, hashing) => (T.hash hashing data.bytes, data.len)
  | hopPromotion call => some (T.hash .blake2b256 call.data.bytes, call.data.len)
  | dataRenewal (.renew entry) | dataRenewal (.forceRenew entry) =>
    (s.resolveTransactionRef entry).map fun info => (info.contentHash, info.size)
  | dataRenewal (.enableAutoRenew hash) =>
    (s.resolveTransactionRef (.contentHash hash)).map fun info => (hash, info.size)
  | _ => none

-- What paying for a call does, if there is something to pay for and someone who pays.
def payments (s : State T) (payer : Option (AuthorizationScope T)) (call : RuntimeCall T) :
    List (Deed T) :=
  match payer, call.subject s with
  | some scope, some (_, size) =>
    match call with
    | transactionStorage _ => [.stored scope size]
    | _                    => [.renewed scope size]
  | _, _ => []

end RuntimeCall

namespace Extrinsic

-- The scope that pays for an extrinsic that is dispatched with the given origin: that of the
-- rewritten origin or, without a signer, that of the content.
def payer (x : Extrinsic T) (origin : Origin T) (s : State T) : Option (AuthorizationScope T) :=
  match origin with
  | .authorized _ scope => some scope
  | .none               => (x.call.subject s).map (.preimage ·.1)
  | _                   => none

def deeds (x : Extrinsic T) (s : State T) : List (Deed T) :=
  match x.admission s with
  | (.ok origin, s₁) => x.call.payments s (x.payer origin s) ++ x.call.dispatchDeeds s₁ origin
  | (.error _, _)    => []

end Extrinsic

namespace Chain

def deeds (c : Chain T) : Action T → List (Deed T)
  | .extrinsic x          => x.deeds c.state
  | .dispatch origin call => call.dispatchDeeds c.state origin
  | _                     => []

-- The deeds of a run, each with the block that it is done in.
def history : Chain T → List (Action T) → List (Nat × Deed T) :=
  logOf step fun c a => (c.deeds a).map (c.state.blockNumber, ·)

end Chain
end Bulletin
