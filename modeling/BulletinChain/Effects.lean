import BulletinChain.Chain

namespace Bulletin

open Machine

variable {T : Config}

-- What the blocks of a chain do to its ledger, apart from who asks for it and how it is authorized.

-- Data, and the hashing of its content hash.
abbrev Content := Data × HashingAlgorithm

namespace TransactionInfo

-- The entry is one of the content: all its fields but the counters and the kind follow from it.
structure Describes (e : TransactionInfo T) (c : Content) : Prop where
  contentHash : e.contentHash = T.hash c.2 c.1.bytes
  size        : e.size = c.1.len
  chunkRoot   : e.chunkRoot = T.orderedRoot (c.1.bytes.chunksOf chunkSize)
  sizeOk      : dataSizeOk T e.size

-- A renewed copy of an entry.
def renewal (info : TransactionInfo T) (extrinsicIndex : Nat) : TransactionInfo T :=
  { info with extrinsicIndex, kind := .renew }

end TransactionInfo

-- The bytes of a list of entries that count as renewed.
def renewedBytes (es : List (TransactionInfo T)) : Nat :=
  ((es.filter (·.kind.isRenew)).map (·.size)).sum

-- The registrations after a renewal was delivered: a one-shot one is done, and the prepayment of a
-- recurring one is used up.
def settled (renewals : Finmap fun _ : T.ContentHash => RenewalData T)
    (contentHash : T.ContentHash) (data : RenewalData T) :
    Finmap fun _ : T.ContentHash => RenewalData T :=
  if ¬data.recurring then
    renewals.erase contentHash
  else if data.paid then
    match renewals.lookup contentHash with
    | some data => renewals.insert contentHash { data with paid := false }
    | none      => renewals
  else
    renewals

namespace Ledger

def Retains (l : Ledger T) (info : TransactionInfo T) : Prop :=
  ∃ b i, l.transactionInfo b i = some info

-- There is room for `size` more renewed bytes.
def Affords (l : Ledger T) (size : Nat) : Prop :=
  saturatingAdd u64Max l.permanentStorageUsed size ≤ T.maxPermanentStorageSize

def charge (l : Ledger T) (size : Nat) : Ledger T :=
  { l with permanentStorageUsed := saturatingAdd u64Max l.permanentStorageUsed size }

def refund (l : Ledger T) (size : Nat) : Ledger T :=
  { l with permanentStorageUsed := l.permanentStorageUsed - size }

def register (l : Ledger T) (hash : T.ContentHash) (data : RenewalData T) : Ledger T :=
  { l with renewals := l.renewals.insert hash data }

def unregister (l : Ledger T) (hash : T.ContentHash) : Ledger T :=
  { l with renewals := l.renewals.erase hash }

def settle (l : Ledger T) (contentHash : T.ContentHash) (data : RenewalData T) : Ledger T :=
  { l with renewals := settled l.renewals contentHash data }

-- The pending renewals are taken before they are served.
def taken (l : Ledger T) : Ledger T :=
  { l with pendingRenewals := .empty }

def extended (l : Ledger T) (period : Nat) : Ledger T :=
  { l with retentionPeriod := period }

-- The block that opening the next one drops.
def obsolete (l : Ledger T) : Nat :=
  l.blockNumber - l.retentionPeriod

end Ledger

-- What a call does. The last two effects are those of Root alone, and `forces` and `drops` say that
-- Root asks for them.
inductive Effect (D : Set Content) (forces drops : Prop) (l : Ledger T) : Ledger T → Prop
  | none :
    Effect D forces drops l l
  | stored :
    c ∈ D → e.Describes c → e.kind = .store → (h : _) →
    Effect D forces drops l (l.appended e h)
  | renewed :
    l.Retains info → l.Affords info.size → (h : _) →
    Effect D forces drops l ((l.charge info.size).appended (info.renewal x) h)
  | registered :
    l.resolveTransactionRef r = some info → contentHash = info.contentHash ∨ r = .contentHash contentHash →
    l.renewals.lookup contentHash = .none → l.Affords info.size →
    Effect D forces drops l ((l.charge info.size).register contentHash ⟨who, recurring, true⟩)
  | unregistered :
    l.renewals.lookup contentHash = some data → ¬data.paid →
    Effect D forces drops l (l.unregister contentHash)
  | forced :
    forces → l.Retains info → (h : _) →
    Effect D forces drops l (l.appended (info.renewal x) h)
  | dropped :
    drops → l.renewals.lookup contentHash = some data →
    Effect D forces drops l (l.unregister contentHash)

-- How a pending renewal is paid for: when it was registered, or now.
inductive Pays (l : Ledger T) (data : RenewalData T) (size : Nat) : Ledger T → Prop
  | prepaid : data.paid → Pays l data size l
  | charged : ¬data.paid → l.Affords size → Pays l data size (l.charge size)

-- What serving a pending renewal does. Without room in the block the payment is given back.
inductive Served (l : Ledger T) : Pending T → Ledger T → Prop
  | delivered :
    Pays l data info.size l₁ → (h : _) →
    Served l (contentHash, info, data) ((l₁.appended (info.renewal x) h).settle contentHash data)
  | failed :
    ¬data.paid →
    Served l (contentHash, info, data) (l.unregister contentHash)
  | overflowed :
    Pays l data info.size l₁ → T.maxBlockTransactions ≤ l.blockTransactions.val.length →
    Served l (contentHash, info, data) ((l₁.refund info.size).unregister contentHash)

inductive Serves : Ledger T → List (Pending T) → Ledger T → Prop
  | nil  : Serves l [] l
  | cons : Served l item l₁ → Serves l₁ items l₂ → Serves l (item :: items) l₂

-- What a call leaves of the fields that do not hold entries.
def Ledger.accounts (l : Ledger T) (renewals : Finmap fun _ : T.ContentHash => RenewalData T)
    (used : Nat) : Ledger T :=
  { l with renewals, permanentStorageUsed := used }

-- The effect on the entries alone: at most one is appended.
inductive Grows (P : TransactionInfo T → Prop) (l : Ledger T) : Ledger T → Prop
  | same   : Grows P l (l.accounts renewals used)
  | append : P e → (h : _) → Grows P l ((l.accounts renewals used).appended e h)

-- The sweep over the entries of the obsolete block: the index loses the contents that it found there,
-- and `latest` holds one entry for each of them.
structure Swept (obsolete : Nat) (index index' : Finmap fun _ : T.ContentHash => Nat × Nat)
    (es latest : List (TransactionInfo T)) : Prop where
  sublist : latest.Sublist es
  lookup  : ∀ hash, index'.lookup hash =
    if hash ∈ es.map (·.contentHash) then (index.lookup hash).filter (·.1 ≠ obsolete)
    else index.lookup hash
  points  : ∀ e ∈ latest, ∃ i, index.lookup e.contentHash = some (obsolete, i)
  covers  : ∀ e ∈ es, index.lookup e.contentHash = some (obsolete, i) →
    e.contentHash ∈ latest.map (·.contentHash)
  nodup   : (latest.map (·.contentHash)).Nodup

-- The renewals to serve after the sweep.
def queued (renewals : Finmap fun _ : T.ContentHash => RenewalData T)
    (latest : List (TransactionInfo T)) : List (Pending T) :=
  latest.filterMap fun e => (renewals.lookup e.contentHash).map (e.contentHash, e, ·)

-- What opening the next block does.
inductive Opened (l : Ledger T) : Ledger T → Prop
  | kept :
    l.obsolete = 0 ∨ l.transactions.lookup l.obsolete = none →
    Opened l { l with blockNumber := l.blockNumber + 1 }
  | swept {pending : BoundedVec (Pending T) T.maxBlockTransactions} :
    0 < l.obsolete → l.transactions.lookup l.obsolete = some es →
    Swept l.obsolete l.transactionByContentHash index es.val latest →
    pending.val = queued l.renewals latest →
    Opened l { l with
      blockNumber              := l.blockNumber + 1
      transactions             := l.transactions.erase l.obsolete
      transactionByContentHash := index
      pendingRenewals          := pending
      permanentStorageUsed     := l.permanentStorageUsed - min (renewedBytes es.val) u64Max }

def RuntimeCall.content : RuntimeCall T → Option Content
  | transactionStorage call => call.content
  | hopPromotion call       => some (call.data, .blake2b256)
  | _                       => none

-- The extrinsics that a block author adds. Those of other pallets are unsigned calls of them.
def Extrinsic.isInherent : Extrinsic T → Bool
  | unsigned (.other _) => true
  | unsigned call       => call.isInherent
  | _                   => false

namespace Action

def content : Action T → Option Content
  | extrinsic x     => x.call.content
  | dispatch _ call => call.content
  | _               => none

-- The inherent that serves the pending renewals.
def drains : Action T → Bool
  | extrinsic (.unsigned (.dataRenewal .processPendingRenewals)) => true
  | _                                                            => false

-- The actions that come after the inherents.
def isCall : Action T → Bool
  | extrinsic x  => !x.isInherent
  | dispatch _ _ => true
  | _            => false

-- A renewal that nobody is charged for.
def forcesRenew : Action T → Bool
  | dispatch .root (.dataRenewal (.forceRenew _)) => true
  | _                                             => false

-- The removal of a registration that was charged for and not served.
def dropsPaid (l : Ledger T) : Action T → Bool
  | dispatch .root (.dataRenewal (.disableAutoRenew hash)) => (l.renewals.lookup hash).any (·.paid)
  | _                                                      => false

end Action

namespace Chain

abbrev ledger (c : Chain T) : Ledger T :=
  c.state.toLedger

-- What an action does to the ledger of a chain.
inductive Evolves (D : Set Content) (c : Chain T) : Action T → Chain T → Prop
  | opened :
    ¬c.inBlock → c'.inBlock → Opened c.ledger c'.ledger → c.ledger.blockNumber < maxBlockNumber →
    Evolves D c (.onInitialize parentHash moment) c'
  | idle :
    c'.inBlock = c.inBlock → c'.ledger = c.ledger →
    Evolves D c a c'
  | called :
    c.inBlock → c'.inBlock → a.isCall →
    Effect D a.forcesRenew (a.dropsPaid c.ledger) c.ledger c'.ledger →
    Evolves D c a c'
  | drained :
    c.inBlock → c'.inBlock → a.drains →
    Serves c.ledger.taken c.ledger.pendingRenewals.val c'.ledger →
    Evolves D c a c'
  | extended :
    c'.inBlock = c.inBlock → c'.ledger = c.ledger.extended period →
    Evolves D c (.setRetentionPeriod period) c'
  | sealed :
    c.inBlock → ¬c'.inBlock → c.ledger.pendingRenewals.val = [] →
    c'.ledger = c.ledger.sealBlock c.ledger.blockNumber →
    Evolves D c .onFinalize c'

end Chain
end Bulletin
