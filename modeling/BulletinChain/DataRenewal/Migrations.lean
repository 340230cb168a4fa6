import BulletinChain.Migrations.Layout

namespace Bulletin

open Scale

-- The storage of the runtime, as the trie holds it.
abbrev RawStorage := Finmap fun _ : List UInt8 => List UInt8

-- Where the renewals were and where they are. A storage prefix is the hash of the name of the pallet and
-- that of the name of the item.
structure RenewalPrefixes where
  oldAutoRenewals         : List UInt8
  renewals                : List UInt8
  oldPendingAutoRenewals  : List UInt8
  pendingRenewals         : List UInt8
  oldPermanentStorageUsed : List UInt8
  permanentStorageUsed    : List UInt8
  length_eq               : ∀ p ∈ [oldAutoRenewals, renewals, oldPendingAutoRenewals, pendingRenewals,
    oldPermanentStorageUsed, permanentStorageUsed], p.length = 32
  nodup                   : [oldAutoRenewals, renewals, oldPendingAutoRenewals, pendingRenewals,
    oldPermanentStorageUsed, permanentStorageUsed].Nodup

variable {T : Config}

namespace RelocateFromTransactionStorage

-- The value to write for one of `AutoRenewals`: the same if it is current, or else that of a recurring
-- renewal that is not prepaid, for an account on its own.
def relocated (W : Wire T) (raw : List UInt8) : Option (List UInt8) :=
  if (W.renewalData.read raw).isSome then
    some raw
  else
    (W.accountId.read raw).map fun account => W.renewalData.encode ⟨account, true, false⟩

def loop (W : Wire T) (P : RenewalPrefixes) : Nat → List UInt8 → RawStorage → Option RawStorage
  | 0,        _,        _ => none
  | fuel + 1, previous, s =>
    match (KeyOrder.bytes.next s.keys (some previous)).filter (P.oldAutoRenewals.isPrefixOf ·) with
    | none     => some s
    | some key =>
      match s.lookup key with
      | none     => loop W P fuel key s
      | some raw =>
        match relocated W raw with
        | none       => loop W P fuel key s
        | some value =>
          let newKey := P.renewals ++ key.drop P.oldAutoRenewals.length
          loop W P fuel key ((s.insert newKey value).erase key)

def moveValue (s : RawStorage) (oldKey newKey : List UInt8) : RawStorage :=
  match s.lookup oldKey with
  | some raw => (s.insert newKey raw).erase oldKey
  | none     => s

-- The loop makes a pass for each key that it visits and one more to find that there is none left.
def onRuntimeUpgrade (W : Wire T) (P : RenewalPrefixes) (s : RawStorage) : Option RawStorage := do
  let s ← loop W P (s.keys.card + 1) P.oldAutoRenewals s
  let s := moveValue s P.oldPendingAutoRenewals P.pendingRenewals
  return moveValue s P.oldPermanentStorageUsed P.permanentStorageUsed

end RelocateFromTransactionStorage
end Bulletin
