import BulletinChain.Theorems.Wrappers
import BulletinChain.Theorems.Renewals

namespace Bulletin

open Machine Except ValidateAuthorizedCalls

variable {T : Config} {s : State T} {who : T.AccountId}

-- How what the transaction layer accepts compares with what a dispatch, or a runtime API, says.

-- The calls that clear what is expired or used up.
def TransactionStorage.Call.isCleanup : TransactionStorage.Call T → Bool
  | removeExpiredAccountAuthorization _ | removeExpiredPreimageAuthorization _
  | removeExhaustedAuthorizer _ => true
  | _                           => false

namespace State

theorem removeExpiredAuthorization_isOk {scope : AuthorizationScope T} :
    (∃ s', s.removeExpiredAuthorization scope = ok s') ↔ Verdict.expired s scope = ok () := by
  simp only [removeExpiredAuthorization, Verdict.expired, bind_eq_ok, okOr_eq_ok, ensure_eq_ok]
  constructor
  case mp  => rintro ⟨_, a, ha, _, he, _⟩; exact ⟨a, ha, he⟩
  case mpr => rintro ⟨a, ha, he⟩; exact ⟨_, a, ha, (), he, rfl⟩

theorem removeExhaustedAuthorizer_isOk :
    (∃ s', s.removeExhaustedAuthorizer who = ok s') ↔ Verdict.inactive s who = ok () := by
  simp only [removeExhaustedAuthorizer, Verdict.inactive, bind_eq_ok, okOr_eq_ok, ensure_eq_ok]
  constructor
  case mp  => rintro ⟨_, b, hb, _, hi, _⟩; exact ⟨b, hb, hi⟩
  case mpr => rintro ⟨b, hb, hi⟩; exact ⟨_, b, hb, (), hi, rfl⟩

end State

namespace Verdict

variable {call : TransactionStorage.Call T} {tree node : RuntimeCall T}

-- The unsigned verdict on a cleanup mirrors its dispatch.
theorem storageUnsigned_cleanup (origin : Origin T) (hc : call.isCleanup) :
    (∃ v, storageUnsigned s call = ok v) ↔
      ∃ s', TransactionStorage.dispatch s origin call = ok s' := by
  have hv {x : Except InvalidTransaction Unit} :
      (∃ v, (x >>= fun _ => pure (free (T := T))) = ok v) ↔ x = ok () := by
    cases x <;> simp [pure, Except.pure]
  have hd {x : Except DispatchError (State T)} {e : Event T} :
      (∃ s', (x >>= fun s => pure (s.deposit e)) = ok s') ↔ ∃ s', x = ok s' := by
    cases x <;> simp [pure, Except.pure]
  cases call
  case removeExpiredAccountAuthorization | removeExpiredPreimageAuthorization =>
    exact hv.trans <| State.removeExpiredAuthorization_isOk.symm.trans hd.symm
  case removeExhaustedAuthorizer => exact hv.trans State.removeExhaustedAuthorizer_isOk.symm
  all_goals contradiction

-- The walk passes every claimed node that it can reach.
theorem inner_leaf (h : inner s who left tree = ok ()) (hr : tree.Reaches depth node)
    (hc : node.isClaimed) : ∃ d v, leaf s who d node = ok (some v) := by
  induction left generalizing tree depth
  all_goals
    unfold inner at h
    obtain ⟨verdict, hv, h⟩ := bind_eq_ok.mp h
    cases verdict
  case zero.none => contradiction
  case succ.none left hi _ =>
    obtain _ | ⟨hw, hm, hr⟩ := hr
    case here  => exact absurd hc (leaf_eq_none hv)
    case inner =>
      simp only [hw] at h
      exact hi (forM_eq_ok.mp h _ hm) hr
  case zero.some v | succ.some v =>
    obtain ⟨_, hn⟩ := hr.of_isClaimed (isClaimed_of_leaf hv)
    exact hn ▸ ⟨_, v, hv⟩

theorem tree_leaf (h : Verdict.tree s who tree = ok v) (hr : tree.Reaches depth node)
    (hc : node.isClaimed) : ∃ d v, leaf s who d node = ok (some v) := by
  have ⟨verdict, hv, h⟩ := bind_eq_ok.mp h
  cases verdict
  case some v =>
    have ⟨_, hn⟩ := hr.of_isClaimed (isClaimed_of_leaf hv)
    exact hn ▸ ⟨_, v, hv⟩
  case none =>
    obtain _ | ⟨hw, hm, hr⟩ := hr
    case here  => exact absurd hc (leaf_eq_none hv)
    case inner =>
      simp only [hw] at h
      have ⟨_, h, _⟩ := bind_eq_ok.mp h
      exact inner_leaf (forM_eq_ok.mp h _ hm) hr hc

-- No signer passes a cleanup.
theorem leaf_cleanup (hc : call.isCleanup) : leaf s who depth (.transactionStorage call) ≠ ok (some v) := by
  intro h
  have ⟨_, h, _⟩ := map_eq_ok.mp h
  have ⟨_, _, h⟩ := bind_eq_ok.mp h
  cases call <;> contradiction

end Verdict

-- What it means for a cleanup to be open to anyone: if it can be dispatched, it is accepted unsigned
-- and in the given tree of a signer, and if it cannot be dispatched, it is not accepted unsigned.
def OpenToAnyone (s : State T) (who : T.AccountId) (origin : Origin T) (tree : RuntimeCall T)
    (call : TransactionStorage.Call T) : Prop :=
  ((∃ s', TransactionStorage.dispatch s origin call = ok s') →
    (TransactionStorage.validateUnsigned call).Succeeds s ∧ (validate (.signed who) tree).Succeeds s) ∧
  ((¬∃ s', TransactionStorage.dispatch s origin call = ok s') →
    ¬(TransactionStorage.validateUnsigned call).Succeeds s)

-- A cleanup is accepted unsigned exactly if it can be dispatched. It is not accepted signed, neither on
-- its own nor within wrappers, so that it is open to anyone only when there is nothing to clean up.
theorem cleanup_acceptance {call : TransactionStorage.Call T} {tree : RuntimeCall T} (s : State T)
    (who : T.AccountId) (origin : Origin T) (hc : call.isCleanup)
    (hr : tree.Reaches depth (.transactionStorage call)) :
    ((TransactionStorage.validateUnsigned call).Succeeds s ↔
      ∃ s', TransactionStorage.dispatch s origin call = ok s') ∧
    ¬(validate (.signed who) tree).Succeeds s ∧
    (OpenToAnyone s who origin tree call ↔
      ¬∃ s', TransactionStorage.dispatch s origin call = ok s') := by
  have hi : ¬call.isInherent := by cases call <;> first | contradiction | nofun
  have hu : (TransactionStorage.validateUnsigned call).Succeeds s ↔
      ∃ s', TransactionStorage.dispatch s origin call = ok s' :=
    (TransactionStorage.validateUnsigned_carriesOut hi).succeeds_iff.trans
      (Verdict.storageUnsigned_cleanup origin hc)
  have hs : ¬(validate (.signed who) tree).Succeeds s := fun h =>
    have ⟨_, h⟩ := (validate_carriesOut s who tree).succeeds_iff.mp h
    have ⟨_, _, h⟩ := Verdict.tree_leaf h hr rfl
    Verdict.leaf_cleanup hc h
  exact ⟨hu, hs, fun ho hd => hs (ho.left hd).right, fun hd => ⟨fun h => absurd h hd, fun _ => mt hu.mp hd⟩⟩

-- An authorization at the end of its period, and its removal, wrapped seven times.

def lapsed : State .mock :=
  { GenesisConfig.build ⟨3, [], [((7 : Nat), 1, 10)], []⟩ with blockNumber := 10 }

def wrapped : Nat → RuntimeCall T → RuntimeCall T
  | 0,     call => call
  | n + 1, call => .batch [wrapped n call]

theorem wrapped_reaches (n : Nat) (call : RuntimeCall T) : (wrapped n call).Reaches n call := by
  induction n
  case zero      => exact .here
  case succ _ hi => exact .inner rfl (List.mem_singleton.mpr rfl) hi

theorem cleanup_acceptance_wrapped :
    let call : TransactionStorage.Call .mock := .removeExpiredAccountAuthorization (7 : Nat)
    (TransactionStorage.validateUnsigned call).Succeeds lapsed ∧
      ¬(validate (.signed (1 : Nat)) (wrapped 7 (.transactionStorage call))).Succeeds lapsed := by
  intro call
  have hc : call.isCleanup := rfl
  have h := cleanup_acceptance lapsed (1 : Nat) .none hc (wrapped_reaches 7 _)
  exact ⟨by decide +kernel, h.right.left⟩

-- The removal can be dispatched, and is accepted unsigned, but not from a signer.
theorem cleanup_not_open :
    let call : TransactionStorage.Call .mock := .removeExpiredAccountAuthorization (7 : Nat)
    (TransactionStorage.dispatch lapsed (.signed (1 : Nat)) call).isOk ∧
      (TransactionStorage.validateUnsigned call).Succeeds lapsed ∧
      ¬(validate (.signed (1 : Nat)) (.transactionStorage call)).Succeeds lapsed ∧
      ¬(validate (.signed (1 : Nat)) (wrapped 7 (.transactionStorage call))).Succeeds lapsed := by
  decide +kernel

-- The two predicates of the runtime API.

theorem State.accountHasActiveAuthorization_iff :
    s.accountHasActiveAuthorization who ↔ (s.activeAuthorization (.account who)).isSome := by
  simp only [accountHasActiveAuthorization, activeAuthorization_eq]
  cases s.authorizations.lookup (.account who)
  case none   => simp
  case some a => cases he : a.expired s.blockNumber <;> simp [he]

namespace Verdict

theorem sizeAndRoom_of_empty (h : s.blockTransactions.val = []) :
    sizeAndRoom s size = ok () ↔ dataSizeOk T size := by
  have hr : ¬s.blockTransactionsFull := by
    simpa [Ledger.blockTransactionsFull, h] using T.maxBlockTransactions_pos.ne'
  simp only [sizeAndRoom, bind_eq_ok, ensure_eq_ok]
  constructor
  case mp  => rintro ⟨_, h, _⟩; exact h
  case mpr => intro h; exact ⟨(), h, hr⟩

theorem storeWith_isSome (scope : AuthorizationScope T) (size : Nat) :
    (∃ v, storeWith s scope size = ok v) ↔ (s.activeAuthorization scope).isSome := by
  simp only [storeWith_eq_ok]
  cases s.activeAuthorization scope <;> simp

theorem orElse_isOk {x y : Except InvalidTransaction (Verdict T)} :
    (∃ v, orElse x y = ok v) ↔ (∃ v, x = ok v) ∨ ∃ v, y = ok v := by
  cases x <;> simp [orElse]

theorem storeSigned_isOk (h : s.blockTransactions.val = []) :
    (∃ v, storeSigned s who size contentHash = ok v) ↔
      dataSizeOk T size ∧ ((s.activeAuthorization (.preimage contentHash)).isSome ∨
        (s.activeAuthorization (.account who)).isSome) := by
  rw [← sizeAndRoom_of_empty h, ← storeWith_isSome (.preimage contentHash) size,
    ← storeWith_isSome (.account who) size, ← orElse_isOk]
  simp only [storeSigned, bind_eq_ok]
  constructor
  case mp  => intro ⟨v, _, hs, h⟩; exact ⟨hs, v, h⟩
  case mpr => intro ⟨hs, v, h⟩; exact ⟨v, (), hs, h⟩

theorem renewSigned_isOk {entry : TransactionRef T} :
    (∃ v, renewalSigned s who (.renew entry) = ok v) ↔
      ∃ info, s.resolveTransactionRef entry = some info ∧ s.renewals.lookup info.contentHash = none ∧
        (DataRenewal.checkRenewAuthorization (.account who) info.size false).Succeeds s := by
  simp only [renewalSigned, resolved, notRegistered, bind_eq_ok, okOr_eq_ok, ensure_eq_ok,
    Option.isNone_iff_eq_none, ← renewWith_isOk]
  constructor
  case mp  => rintro ⟨v, info, hi, _, hn, h⟩; exact ⟨info, hi, hn, v, h⟩
  case mpr => rintro ⟨info, hi, hn, v, h⟩; exact ⟨v, info, hi, (), hn, h⟩

end Verdict

theorem DataRenewal.canRenew_iff {entry : TransactionRef T} :
    canRenew s who entry ↔ ∃ info, s.resolveTransactionRef entry = some info ∧ dataSizeOk T info.size ∧
      (checkRenewAuthorization (.account who) info.size false).Succeeds s := by
  simp only [canRenew]
  cases s.resolveTransactionRef entry <;> simp

theorem TransactionStorage.canStore_iff :
    canStore s who size ↔ dataSizeOk T size ∧ (s.activeAuthorization (.account who)).isSome := by
  simp [canStore, ← State.accountHasActiveAuthorization_iff]

-- The entries of every run have a size in range.
theorem Chain.resolved_dataSizeOk {g : GenesisConfig T} {as : List (Action T)} {c : Chain T}
    {guard : Chain T → Action T → Prop} (h : Runs step guard g.chain as c)
    (hi : c.state.resolveTransactionRef entry = some info) : dataSizeOk T info.size := by
  have ⟨b, i, hi⟩ := Ledger.retains_of_resolve hi
  have ⟨es, hb, hi⟩ := Option.bind_eq_some_iff.mp hi
  have ⟨_, _, hd⟩ := ((holds_of_runs h).sealed hb).isOf info (List.mem_of_getElem? hi)
  exact hd.sizeOk

-- The predicates of the runtime API, for every state of a run without entries in its current block.
-- The one for stores is exact unless the content is authorized and the account is not. The one for
-- renewals is exact unless the account may renew a content that is already registered.
theorem predicates_exact_iff {g : GenesisConfig T} {as : List (Action T)} {c : Chain T}
    {guard : Chain T → Action T → Prop} (h : Runs Chain.step guard g.chain as c)
    (hb : c.state.blockTransactions.val = []) (who : T.AccountId) :
    (∀ data : Data,
      (TransactionStorage.canStore c.state who data.len ↔
        (TransactionStorage.validateSigned who (.store data)).Succeeds c.state) ↔
      ¬(dataSizeOk T data.len ∧ c.state.activeAuthorization (.account who) = none ∧
        (c.state.activeAuthorization (.preimage (T.hash .blake2b256 data.bytes))).isSome)) ∧
    ∀ entry : TransactionRef T,
      (DataRenewal.canRenew c.state who entry ↔
        (DataRenewal.validateRenewalSigned who (.renew entry)).Succeeds c.state) ↔
      ¬∃ info, c.state.resolveTransactionRef entry = some info ∧
        (c.state.renewals.lookup info.contentHash).isSome ∧
        (DataRenewal.checkRenewAuthorization (.account who) info.size false).Succeeds c.state := by
  refine ⟨fun data => ?_, fun entry => ?_⟩
  · rw [TransactionStorage.canStore_iff, TransactionStorage.validateSigned_carriesOut.succeeds_iff,
      Verdict.storageSigned, Verdict.storeSigned_isOk hb, ← Option.not_isSome_iff_eq_none]
    tauto
  · rw [DataRenewal.canRenew_iff, DataRenewal.validateRenewalSigned,
      DataRenewal.checkRenewalSigned_carriesOut.succeeds_iff, Verdict.renewSigned_isOk]
    cases hi : c.state.resolveTransactionRef entry
    case none => simp
    case some info =>
      have hs := Chain.resolved_dataSizeOk h hi
      simp only [Option.some.injEq, exists_eq_left', hs, true_and, ← Option.not_isSome_iff_eq_none]
      tauto

-- The owner of a registration may store, and the predicate says so.
theorem predicates_exact_iff_registered :
    let g : GenesisConfig .mock := ⟨3, [], [(renter, 10, 100)], []⟩
    ∃ c, Runs Chain.step (fun _ _ => true) g.chain registered c ∧ c.state.blockTransactions.val = [] ∧
      ∀ data : Data, (TransactionStorage.canStore c.state renter data.len ↔
        (TransactionStorage.validateSigned renter (.store data)).Succeeds c.state) := by
  intro g
  have ⟨c, hr, hb, ha⟩ := Runs.exists_of_any Chain.step (fun _ _ => true) g.chain registered
    (fun c => c.state.blockTransactions.val.length = 0 ∧
      (c.state.activeAuthorization (.account renter)).isSome) (by decide +kernel)
  have hb := List.eq_nil_of_length_eq_zero hb
  refine ⟨c, hr, hb, fun data => ((predicates_exact_iff hr hb renter).left data).mpr fun h => ?_⟩
  simp [h.right.left] at ha

-- The data of an authorized content is accepted from an account that may not store, and a content that
-- is registered is not accepted for renewal from an account that may renew.
theorem predicates_not_exact :
    let g : GenesisConfig .mock := ⟨3, [], [(renter, 10, 100)], [([1, 2, 3], 3)]⟩
    let data : Data := ⟨[1, 2, 3], by decide⟩
    ∃ c, Runs Chain.step (fun _ _ => true) g.chain registered c ∧
      (¬c.inBlock ∧ c.state.blockTransactions.val.length = 0 ∧
        ¬TransactionStorage.canStore c.state (1 : Nat) data.len ∧
        (TransactionStorage.validateSigned (1 : Nat) (.store data)).Succeeds c.state ∧
        DataRenewal.canRenew c.state renter (.position 1 0) ∧
        ¬(DataRenewal.validateRenewalSigned renter (.renew (.position 1 0))).Succeeds c.state) := by
  intro g data
  exact Runs.exists_of_any Chain.step (fun _ _ => true) g.chain registered _ (by decide +kernel)

end Bulletin
