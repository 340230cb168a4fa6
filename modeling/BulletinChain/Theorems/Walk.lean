import BulletinChain.Theorems.Checks

namespace Bulletin

open Except ValidateAuthorizedCalls

variable {T : Config} {s : State T} {who : T.AccountId} {call : RuntimeCall T}

namespace Verdict

theorem storageSigned_of_not_isStore {call : TransactionStorage.Call T} (hs : ¬call.isStore)
    (h : storageSigned s who call = ok v) : v = free := by
  cases call
  case store | storeWithCidConfig => contradiction
  case authorizeAccount | authorizePreimage | refreshAccountAuthorization
      | refreshPreimageAuthorization =>
    have ⟨_, _, h⟩ := bind_eq_ok.mp h
    exact (pure_eq_ok.mp h).symm
  case addAuthorizer | removeAuthorizer => exact (pure_eq_ok.mp h).symm
  all_goals contradiction

-- Inside a wrapper only calls that charge nothing are admitted.

theorem storageLeaf_of_pos {call : TransactionStorage.Call T} (hd : 0 < depth)
    (h : storageLeaf s who depth call = ok v) :
    v = free ∧ ¬call.isStore := by
  have ⟨_, hs, h⟩ := bind_eq_ok.mp h
  have hs : ¬call.isStore := fun hc => ensure_eq_ok.mp hs ⟨hd, hc⟩
  exact ⟨storageSigned_of_not_isStore hs h, hs⟩

theorem renewalLeaf_of_pos {call : DataRenewal.Call T} (hd : 0 < depth) :
    renewalLeaf s who depth call ≠ ok v := by
  intro h
  have ⟨_, hs, _⟩ := bind_eq_ok.mp h
  exact ensure_eq_ok.mp hs hd

theorem leaf_of_pos (hd : 0 < depth) (h : leaf s who depth call = ok (some v)) : v = free := by
  cases call
  case transactionStorage call =>
    have ⟨v', hv, he⟩ := map_eq_ok.mp h
    exact Option.some.inj he ▸ (storageLeaf_of_pos hd hv).left
  case dataRenewal call =>
    have ⟨_, hv, _⟩ := map_eq_ok.mp h
    exact absurd hv (renewalLeaf_of_pos hd)
  all_goals simp [leaf] at h

end Verdict

namespace ValidateAuthorizedCalls

theorem storageLeaves_prepareLeaf (s : State T) (who : T.AccountId)
    (call : TransactionStorage.Call T) (depth : Nat) :
    CarriesOut ((storageLeaves T).prepareLeaf who (.transactionStorage call) depth) .preDispatch s
      (Verdict.storageLeaf s who depth call) fun _ claimed => claimed = true :=
  .reading_bind fun _ _ => TransactionStorage.preDispatchSigned_carriesOut.map fun _ _ _ => rfl

theorem renewalLeaves_prepareLeaf (s : State T) (who : T.AccountId) (call : DataRenewal.Call T)
    (depth : Nat) :
    CarriesOut ((renewalLeaves T).prepareLeaf who (.dataRenewal call) depth) .preDispatch s
      (Verdict.renewalLeaf s who depth call) fun _ claimed => claimed = true :=
  .reading_bind fun _ _ => DataRenewal.preDispatchRenewalSigned_carriesOut.map fun _ _ _ => rfl

-- The metadata of a leaf that is claimed.
def Claims (v : Verdict T) (a : Option (ValidTransaction × Option (AuthorizationScope T))) : Prop :=
  ∃ x, a = some x ∧ x.2 = v.scope

theorem storageLeaves_validateLeaf (s : State T) (who : T.AccountId)
    (call : TransactionStorage.Call T) (depth : Nat) :
    CarriesOut ((storageLeaves T).validateLeaf who (.transactionStorage call) depth) .validate s
      (Verdict.storageLeaf s who depth call) Claims :=
  .reading_bind fun _ _ =>
    TransactionStorage.validateSigned_carriesOut.map fun _ x h => ⟨x, rfl, h⟩

theorem renewalLeaves_validateLeaf (s : State T) (who : T.AccountId) (call : DataRenewal.Call T)
    (depth : Nat) :
    CarriesOut ((renewalLeaves T).validateLeaf who (.dataRenewal call) depth) .validate s
      (Verdict.renewalLeaf s who depth call) Claims :=
  .reading_bind fun _ _ => DataRenewal.checkRenewalSigned_carriesOut.map fun _ x h => ⟨x, rfl, h⟩

-- What the tuple of the two validators does with a node, given the verdict on it.

def Prepares (verdict : Except InvalidTransaction (Option (Verdict T))) (s : State T)
    (check : Check.Of T Bool) : Prop :=
  match verdict with
  | error e     => check s = (error e, s)
  | ok none     => check s = (ok false, s)
  | ok (some v) => check s = (ok true, v.charge.apply s)

def Validates (verdict : Except InvalidTransaction (Option (Verdict T))) (s : State T)
    (check : Check.Of T (Option (ValidTransaction × Option (AuthorizationScope T)))) : Prop :=
  match verdict with
  | error e     => check s = (error e, s)
  | ok none     => check s = (ok none, s)
  | ok (some v) => ∃ a, a.2 = v.scope ∧ check s = (ok (some a), s)

theorem prepares_of_carriesOut {verdict : Except InvalidTransaction (Verdict T)}
    {x y : Check.Of T Bool} (h : CarriesOut x .preDispatch s verdict fun _ claimed => claimed = true) :
    Prepares (verdict.map some) s (do
      match ← x with
      | true  => return true
      | false => y) := by
  cases verdict
  case error =>
    simp only [CarriesOut] at h
    simp [Prepares, Except.map, Check.bind_apply, h]
  case ok v =>
    obtain ⟨_, hc, h⟩ := h
    subst hc
    simp [Prepares, Except.map, Check.bind_apply, h, CheckContext.consumeAuthorization,
      Check.pure_apply]

theorem validates_of_carriesOut {verdict : Except InvalidTransaction (Verdict T)}
    {x y : Check.Of T (Option (ValidTransaction × Option (AuthorizationScope T)))}
    (h : CarriesOut x .validate s verdict Claims) :
    Validates (verdict.map some) s (do
      match ← x with
      | some result => return some result
      | none        => y) := by
  cases verdict
  case error =>
    simp only [CarriesOut] at h
    simp [Validates, Except.map, Check.bind_apply, h]
  case ok v =>
    obtain ⟨_, ⟨a, ha, hs⟩, h⟩ := h
    subst ha
    exact ⟨a, hs, by simp [Check.bind_apply, h, CheckContext.consumeAuthorization, Check.pure_apply]⟩

theorem leaves_prepares (s : State T) (who : T.AccountId) (call : RuntimeCall T) (depth : Nat) :
    Prepares (Verdict.leaf s who depth call) s ((leaves T).prepareLeaf who call depth) := by
  cases call
  case transactionStorage call =>
    exact prepares_of_carriesOut <| storageLeaves_prepareLeaf s who call depth
  case dataRenewal call =>
    have h := prepares_of_carriesOut (y := pure false) <| renewalLeaves_prepareLeaf s who call depth
    exact h
  all_goals rfl

theorem leaves_validates (s : State T) (who : T.AccountId) (call : RuntimeCall T) (depth : Nat) :
    Validates (Verdict.leaf s who depth call) s ((leaves T).validateLeaf who call depth) := by
  cases call
  case transactionStorage call =>
    exact validates_of_carriesOut <| storageLeaves_validateLeaf s who call depth
  case dataRenewal call =>
    have h := validates_of_carriesOut (y := pure none) <| renewalLeaves_validateLeaf s who call depth
    exact h
  all_goals rfl

-- A visitor that keeps `I` and claims the nodes that the verdicts claim walks the inner calls of a
-- wrapper as the verdict on them says.
theorem walk_inner {σ : Type} {I : σ → Prop} {t : σ}
    {visitor : RuntimeCall T → Nat → Check σ InvalidTransaction Bool}
    (hv : ∀ call depth t, 0 < depth → I t →
      ∃ t', I t' ∧ visitor call depth t = ((Verdict.leaf s who depth call).map Option.isSome, t'))
    (hl : left < maxWrapperDepth) (ht : I t) :
    ∃ t', I t' ∧ walk visitor left call t = (Verdict.inner s who left call, t') := by
  induction left generalizing call t
  all_goals
    have ⟨t', ht', hc⟩ := hv call _ t (Nat.sub_pos_of_lt hl) ht
    unfold walk Verdict.inner
    simp only [Check.bind_apply, hc]
    generalize Verdict.leaf s who _ call = verdict
    rcases verdict with _ | _ | _
  case zero.error | succ.error         => exact ⟨t', ht', rfl⟩
  case zero.ok.none                    => exact ⟨t', ht', rfl⟩
  case zero.ok.some | succ.ok.some     => exact ⟨t', ht', rfl⟩
  case succ.ok.none left hi =>
    cases call.inspectWrapper
    case none       => exact ⟨t', ht', rfl⟩
    case some inner =>
      exact Check.forM_apply (fun call _ t ht => hi (Nat.lt_of_succ_lt hl) ht) ht'

theorem prepareLeaf_inner (who : T.AccountId) (call : RuntimeCall T) (hd : 0 < depth) (ht : t = s) :
    ∃ t', t' = s ∧ (leaves T).prepareLeaf who call depth t =
      ((Verdict.leaf s who depth call).map Option.isSome, t') := by
  subst ht
  refine ⟨t, rfl, ?_⟩
  have h := leaves_prepares t who call depth
  rcases hv : Verdict.leaf t who depth call with _ | _ | v <;> rw [hv] at h
  case error | ok.none => exact h
  case ok.some         => rw [Verdict.leaf_of_pos hd hv] at h; exact h

theorem validateVisitor_inner {t : State T × Found T} (who : T.AccountId) (call : RuntimeCall T)
    (hd : 0 < depth) (ht : t.1 = s ∧ t.2.lastScope = scope) :
    ∃ t', (t'.1 = s ∧ t'.2.lastScope = scope) ∧ validateVisitor who call depth t =
      ((Verdict.leaf s who depth call).map Option.isSome, t') := by
  have ⟨t, found⟩ := t
  have ⟨hs, hf⟩ := ht
  subst hs hf
  have h := leaves_validates t who call depth
  simp only [validateVisitor]
  rcases hv : Verdict.leaf t who depth call with _ | _ | v <;> rw [hv] at h
  case error | ok.none =>
    simp only [Validates] at h
    rw [h]
    exact ⟨_, ⟨rfl, rfl⟩, rfl⟩
  case ok.some =>
    have ⟨a, hs, h⟩ := h
    rw [h]
    refine ⟨(t, found.add a), ⟨rfl, ?_⟩, rfl⟩
    simp [Found.add, hs, Verdict.leaf_of_pos hd hv, Verdict.free]

theorem walk_inners {σ : Type} {I : σ → Prop} {t : σ}
    {visitor : RuntimeCall T → Nat → Check σ InvalidTransaction Bool} (calls : List (RuntimeCall T))
    (hv : ∀ call depth t, 0 < depth → I t →
      ∃ t', I t' ∧ visitor call depth t = ((Verdict.leaf s who depth call).map Option.isSome, t'))
    (ht : I t) :
    ∃ t', I t' ∧ calls.forM (walk visitor 7) t = (calls.forM (Verdict.inner s who 7), t') :=
  Check.forM_apply (fun _ _ _ => walk_inner hv (by decide)) ht

theorem prepareWalk_carriesOut (s : State T) (who : T.AccountId) (call : RuntimeCall T) :
    CarriesOut (prepareWalk who call) .preDispatch s (Verdict.tree s who call) fun _ _ => True := by
  have h := leaves_prepares s who call 0
  unfold prepareWalk maxWrapperDepth walk Verdict.tree
  simp only [CarriesOut, Check.bind_apply, maxWrapperDepth, Nat.sub_self]
  rcases hv : Verdict.leaf s who 0 call with _ | _ | v <;> rw [hv] at h <;> rw [show _ = _ from h]
  case error   => rfl
  case ok.some => exact ⟨(), trivial, rfl⟩
  case ok.none =>
    cases call.inspectWrapper
    case none       => exact ⟨(), trivial, rfl⟩
    case some calls =>
      obtain ⟨t, ht, hw⟩ := walk_inners (I := (· = s)) calls
        (fun call _ _ hd ht => prepareLeaf_inner who call hd ht) rfl
      subst ht
      simp only [Nat.reduceSub]
      rw [hw]
      cases calls.forM (Verdict.inner t who 7)
      case error => rfl
      case ok    => exact ⟨(), trivial, rfl⟩

theorem validate_carriesOut (s : State T) (who : T.AccountId) (call : RuntimeCall T) :
    CarriesOut (validate (.signed who) call) .validate s (Verdict.tree s who call)
      fun v a => a.2.2 = v.origin who ∧ (a.2.1 = some who ∨ a.2.1 = none ∧ v.charge = .nothing) := by
  have h := leaves_validates s who call 0
  unfold validate maxWrapperDepth walk Verdict.tree
  simp only [CarriesOut, asSystemOriginSigner, Check.bind_apply, maxWrapperDepth, Nat.sub_self,
    validateVisitor]
  rcases hv : Verdict.leaf s who 0 call with _ | _ | v <;> rw [hv] at h
  case error   => rw [show _ = _ from h]; rfl
  case ok.some =>
    obtain ⟨a, hs, h⟩ := h
    rw [h]
    refine ⟨_, ⟨?_, .inl rfl⟩, rfl⟩
    simp only [Found.add, Found.nothing, hs, Verdict.origin]
    cases v.scope <;> rfl
  case ok.none =>
    rw [show _ = _ from h]
    cases call.inspectWrapper
    case none       => exact ⟨_, ⟨rfl, .inr ⟨rfl, rfl⟩⟩, rfl⟩
    case some calls =>
      obtain ⟨t, ⟨ht, hn⟩, hw⟩ := walk_inners (t := (s, Found.nothing))
        (I := fun t : State T × Found T => t.1 = s ∧ t.2.lastScope = none) calls
        (fun call _ _ hd ht => validateVisitor_inner who call hd ht) ⟨rfl, rfl⟩
      subst ht
      simp only [Nat.reduceSub]
      rw [hw]
      cases calls.forM (Verdict.inner t.1 who 7)
      case error => rfl
      case ok    =>
        refine ⟨_, ⟨?_, ?_⟩, rfl⟩
        · simp [hn, Verdict.origin, Verdict.free]
        · cases t.2.visitedAny
          case false => exact .inr ⟨rfl, rfl⟩
          case true  => exact .inl rfl

end ValidateAuthorizedCalls
end Bulletin
