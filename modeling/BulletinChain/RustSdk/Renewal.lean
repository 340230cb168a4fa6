import BulletinChain.RustSdk.Transaction

namespace Bulletin

open Machine Except

namespace RustSdk

structure StorageRef where
  block : Nat
  index : Nat
deriving DecidableEq

structure RenewalOperation where
  storageRef : StorageRef

namespace RenewalOperation

def new (storageRef : StorageRef) : RenewalOperation :=
  ⟨storageRef⟩

def validate (op : RenewalOperation) : Except SubmissionError Unit :=
  ensure (op.storageRef.block ≠ 0) (.renewalFailed "Block 0 is not a valid renewal target")

end RenewalOperation

def BulletinClient.prepareRenew (_client : BulletinClient) (storageRef : StorageRef) :
    Except SubmissionError RenewalOperation := do
  let op := RenewalOperation.new storageRef
  op.validate
  return op

structure TrackedEntry where
  storageRef  : StorageRef
  contentHash : List UInt8
  size        : Nat
  expiresAt   : Nat

structure RenewalTracker where
  entries : List TrackedEntry

namespace RenewalTracker

def new : RenewalTracker :=
  ⟨[]⟩

def track (t : RenewalTracker) (storageRef : StorageRef) (contentHash : List UInt8) (size : Nat)
    (retentionPeriod : Nat) : RenewalTracker :=
  let expiresAt := saturatingAdd u32Max storageRef.block retentionPeriod
  ⟨t.entries ++ [⟨storageRef, contentHash, size, expiresAt⟩]⟩

-- The loop of `update_after_renewal`: the first entry of the old reference is updated.
def updateFirst (oldRef newRef : StorageRef) (retentionPeriod : Nat) :
    List TrackedEntry → Bool × List TrackedEntry
  | []               => (false, [])
  | entry :: entries =>
    if entry.storageRef.block = oldRef.block ∧ entry.storageRef.index = oldRef.index then
      let expiresAt := saturatingAdd u32Max newRef.block retentionPeriod
      (true, { entry with storageRef := newRef, expiresAt } :: entries)
    else
      let (found, entries) := updateFirst oldRef newRef retentionPeriod entries
      (found, entry :: entries)

def updateAfterRenewal (t : RenewalTracker) (oldRef newRef : StorageRef) (retentionPeriod : Nat) :
    Bool × RenewalTracker :=
  let (found, entries) := updateFirst oldRef newRef retentionPeriod t.entries
  (found, ⟨entries⟩)

def expiringBefore (t : RenewalTracker) (block : Nat) : List TrackedEntry :=
  t.entries.filter (·.expiresAt ≤ block)

def removeByContentHash (t : RenewalTracker) (contentHash : List UInt8) : Bool × RenewalTracker :=
  let initialLen := t.entries.length
  let entries := t.entries.filter (·.contentHash ≠ contentHash)
  (entries.length ≠ initialLen, ⟨entries⟩)

def clear (_t : RenewalTracker) : RenewalTracker :=
  ⟨[]⟩

end RenewalTracker
end RustSdk
end Bulletin
