import BulletinChain.Runtime.Call

namespace Bulletin

open Except

variable {T : Config}

def maxWrapperDepth : Nat := 8

-- One pallet's part in the walk over a call tree. A leaf it does not claim is `none`, or `false`.
structure LeafValidator (T : Config) where
  validateLeaf : T.AccountId → RuntimeCall T → Nat →
    Check.Of T (Option (ValidTransaction × Option (AuthorizationScope T)))
  prepareLeaf  : T.AccountId → RuntimeCall T → Nat → Check.Of T Bool

namespace LeafValidator

-- A tuple of validators offers each leaf to its elements in order, until one claims it.
def tuple : List (LeafValidator T) → LeafValidator T
  | []      => ⟨fun _ _ _ => return none, fun _ _ _ => return false⟩
  | v :: vs => {
    validateLeaf who call depth := do
      match ← v.validateLeaf who call depth with
      | some result => return some result
      | none        => (tuple vs).validateLeaf who call depth
    prepareLeaf who call depth := do
      match ← v.prepareLeaf who call depth with
      | true  => return true
      | false => (tuple vs).prepareLeaf who call depth }

end LeafValidator

variable (T) in
def storageLeaves : LeafValidator T where
  validateLeaf who call depth :=
    match call with
    | .transactionStorage inner => do
      .reading fun _ => ensure (¬(0 < depth ∧ inner.isStore)) .call
      return some (← TransactionStorage.validateSigned who inner)
    | _ => return none
  prepareLeaf who call depth :=
    match call with
    | .transactionStorage inner => do
      .reading fun _ => ensure (¬(0 < depth ∧ inner.isStore)) .call
      TransactionStorage.preDispatchSigned who inner
      return true
    | _ => return false

variable (T) in
def renewalLeaves : LeafValidator T where
  validateLeaf who call depth :=
    match call with
    | .dataRenewal inner => do
      .reading fun _ => ensure (¬0 < depth) .call
      return some (← DataRenewal.validateRenewalSigned who inner)
    | _ => return none
  prepareLeaf who call depth :=
    match call with
    | .dataRenewal inner => do
      .reading fun _ => ensure (¬0 < depth) .call
      DataRenewal.preDispatchRenewalSigned who inner
      return true
    | _ => return false

namespace ValidateAuthorizedCalls

-- The validators that both runtimes wire.
variable (T) in
def leaves : LeafValidator T :=
  .tuple [storageLeaves T, renewalLeaves T]

-- Offers each node to the visitor and descends into unclaimed wrappers. The source counts the depth up
-- to `maxWrapperDepth`; here `left` is what is left of it, and at 0 an unclaimed node is rejected.
def walk {σ : Type} (visitor : RuntimeCall T → Nat → Check σ InvalidTransaction Bool)
    (left : Nat) (call : RuntimeCall T) : Check σ InvalidTransaction Unit := do
  match ← visitor call (maxWrapperDepth - left) with
  | true  => return
  | false =>
    match left with
    | 0        => throw .call
    | left + 1 =>
      match call.inspectWrapper with
      | some innerCalls => innerCalls.forM (walk visitor left)
      | none            => return

-- The variables that the visitor of `validate` captures.
structure Found (T : Config) where
  combined   : ValidTransaction
  lastScope  : Option (AuthorizationScope T)
  visitedAny : Bool

def Found.nothing : Found T where
  combined   := .default
  lastScope  := none
  visitedAny := false

def Found.add (found : Found T) (v : ValidTransaction × Option (AuthorizationScope T)) : Found T where
  combined   := found.combined.combineWith v.1
  lastScope  := v.2 <|> found.lastScope
  visitedAny := true

def validateVisitor (who : T.AccountId) (call : RuntimeCall T) (depth : Nat) :
    Check (State T × Found T) InvalidTransaction Bool := fun (s, found) =>
  match (leaves T).validateLeaf who call depth s with
  | (.error e, s)     => (.error e, (s, found))
  | (.ok none, s)     => (.ok false, (s, found))
  | (.ok (some v), s) => (.ok true, (s, found.add v))

def asSystemOriginSigner : Origin T → Option T.AccountId
  | .signed who => some who
  | _           => none

def validate (origin : Origin T) (call : RuntimeCall T) :
    Check.Of T (ValidTransaction × Option T.AccountId × Origin T) := fun s =>
  match asSystemOriginSigner origin with
  | none     => (.ok (.default, none, origin), s)
  | some who =>
    match walk (validateVisitor who) maxWrapperDepth call (s, .nothing) with
    | (.error e, (s, _))   => (.error e, s)
    | (.ok _, (s, found)) =>
      let origin := match found.lastScope with
        | some scope => .authorized who scope
        | none       => origin
      (.ok (found.combined, if found.visitedAny then some who else none, origin), s)

def prepareWalk (who : T.AccountId) (call : RuntimeCall T) : Check.Of T Unit :=
  walk ((leaves T).prepareLeaf who) maxWrapperDepth call

def prepare (val : Option T.AccountId) (call : RuntimeCall T) : Check.Of T Unit :=
  match val with
  | none     => return
  | some who => prepareWalk who call

end ValidateAuthorizedCalls

namespace StorageCallInspector

-- Like `walk`, with what is left of the depth. The calls of the storage pallet are recognised at any
-- depth, and everything else that is too deep counts as mutating.
def isStorageMutatingCall (left : Nat) (call : RuntimeCall T) : Bool :=
  match call with
  | .transactionStorage innerCall => innerCall.isStore
  | _ =>
    match left with
    | 0        => true
    | left + 1 =>
      match call.inspectWrapper with
      | some innerCalls => innerCalls.any (isStorageMutatingCall left)
      | none            => false

-- What `EverythingBut` keeps from being dispatched by XCM.
def contains (call : RuntimeCall T) : Bool :=
  isStorageMutatingCall maxWrapperDepth call

end StorageCallInspector
end Bulletin
