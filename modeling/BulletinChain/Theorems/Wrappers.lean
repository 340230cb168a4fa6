import BulletinChain.Theorems.Agreement
import BulletinChain.Chain

namespace Bulletin

open Except ValidateAuthorizedCalls RuntimeCall

variable {T : Config} {s : State T} {who : T.AccountId}

namespace RuntimeCall

-- The nodes that the inspection of wrappers finds, by their depth.
inductive Reaches : RuntimeCall T → Nat → RuntimeCall T → Prop
  | here  : Reaches call 0 call
  | inner : call.inspectWrapper = some calls → child ∈ calls → Reaches child depth node →
    Reaches call (depth + 1) node

variable {call node : RuntimeCall T}

def isClaimed : RuntimeCall T → Bool
  | transactionStorage _ | dataRenewal _ => true
  | _                                    => false

def isDirectOnly : RuntimeCall T → Bool
  | transactionStorage call => call.isStore
  | dataRenewal _           => true
  | _                       => false

-- The calls that are dispatched with the origin of the storage pallet.
def isAuthorized : RuntimeCall T → Bool
  | transactionStorage call => call.isStore
  | dataRenewal call        => !call.isInherent
  | _                       => false

theorem isClaimed_of_isDirectOnly (h : call.isDirectOnly) : call.isClaimed := by
  cases call
  case transactionStorage | dataRenewal => rfl
  all_goals contradiction

theorem isClaimed_of_isAuthorized (h : call.isAuthorized) : call.isClaimed := by
  cases call
  case transactionStorage | dataRenewal => rfl
  all_goals contradiction

theorem inspectWrapper_of_isClaimed (h : call.isClaimed) : call.inspectWrapper = none := by
  cases call
  case transactionStorage | dataRenewal => rfl
  all_goals contradiction

-- A claimed node is no wrapper, so that the walk misses nothing when it stops there.
theorem Reaches.of_isClaimed (hc : call.isClaimed) (h : Reaches call depth node) :
    depth = 0 ∧ node = call := by
  obtain _ | ⟨hw, _, _⟩ := h
  case here  => exact ⟨rfl, rfl⟩
  case inner =>
    rw [inspectWrapper_of_isClaimed hc] at hw
    contradiction

-- What is said of every node is said of the call itself and of every node of the calls in it.
theorem forall_reaches {p : Nat → RuntimeCall T → Prop} :
    (∀ depth node, call.Reaches depth node → p depth node) ↔
      p 0 call ∧ ∀ calls, call.inspectWrapper = some calls → ∀ child ∈ calls,
        ∀ depth node, child.Reaches depth node → p (depth + 1) node := by
  constructor
  case mp =>
    intro h
    exact ⟨h 0 call .here, fun _ hw _ hm _ _ hr => h _ _ (.inner hw hm hr)⟩
  case mpr =>
    rintro ⟨h₀, h⟩ depth node hr
    obtain _ | ⟨hw, hm, hr⟩ := hr
    case here  => exact h₀
    case inner => exact h _ hw _ hm _ _ hr

theorem forall_reaches_of_isClaimed {p : Nat → RuntimeCall T → Prop} (hc : call.isClaimed) :
    (∀ depth node, call.Reaches depth node → p depth node) ↔ p 0 call := by
  rw [forall_reaches, inspectWrapper_of_isClaimed hc]
  simp

end RuntimeCall

variable {call node : RuntimeCall T}

namespace Verdict

theorem leaf_eq_none (h : leaf s who depth call = ok none) : ¬call.isClaimed := by
  cases call
  case transactionStorage | dataRenewal =>
    have ⟨_, _, h⟩ := map_eq_ok.mp h
    contradiction
  all_goals simp [isClaimed]

theorem isClaimed_of_leaf (h : leaf s who depth call = ok (some v)) : call.isClaimed := by
  cases call
  case transactionStorage | dataRenewal => rfl
  all_goals simp [leaf] at h

theorem not_isDirectOnly_of_leaf (hd : 0 < depth) (h : leaf s who depth call = ok (some v)) :
    ¬call.isDirectOnly := by
  cases call
  case transactionStorage call =>
    have ⟨_, hv, _⟩ := map_eq_ok.mp h
    exact (storageLeaf_of_pos hd hv).right
  case dataRenewal call =>
    have ⟨_, hv, _⟩ := map_eq_ok.mp h
    exact absurd hv (renewalLeaf_of_pos hd)
  all_goals simp [leaf] at h

-- Of the inner calls that pass with `left` levels to go, none is direct-only, and those that are not
-- claimed are less than `left` levels away.
theorem inner_reaches (hl : left < maxWrapperDepth) (h : inner s who left call = ok ())
    (hr : call.Reaches depth node) : ¬node.isDirectOnly ∧ (node.isClaimed ∨ depth < left) := by
  induction left generalizing call depth
  all_goals
    unfold inner at h
    obtain ⟨verdict, hv, h⟩ := bind_eq_ok.mp h
    have hd := Nat.sub_pos_of_lt hl
    cases verdict
  case zero.none             => contradiction
  case succ.none left hi _   =>
    have hn := leaf_eq_none hv
    obtain _ | ⟨hw, hm, hr⟩ := hr
    case here  => exact ⟨fun hc => hn (isClaimed_of_isDirectOnly hc), .inr (Nat.succ_pos _)⟩
    case inner =>
      simp only [hw] at h
      obtain ⟨hd, hc⟩ := hi (Nat.lt_of_succ_lt hl) (forM_eq_ok.mp h _ hm) hr
      exact ⟨hd, hc.imp_right Nat.succ_lt_succ⟩
  case zero.some | succ.some =>
    have hc := isClaimed_of_leaf hv
    obtain ⟨_, hr⟩ := hr.of_isClaimed hc
    exact hr ▸ ⟨not_isDirectOnly_of_leaf hd hv, .inl hc⟩

theorem tree_reaches (h : tree s who call = ok v) (hd : 0 < depth) (hr : call.Reaches depth node) :
    ¬node.isDirectOnly ∧ (node.isClaimed ∨ depth < maxWrapperDepth) := by
  have ⟨verdict, hv, h⟩ := bind_eq_ok.mp h
  cases verdict
  case some => exact absurd (hr.of_isClaimed (isClaimed_of_leaf hv)).left hd.ne'
  case none =>
    obtain _ | ⟨hw, hm, hr⟩ := hr
    case here  => contradiction
    case inner =>
      simp only [hw] at h
      have ⟨_, h, _⟩ := bind_eq_ok.mp h
      have ⟨hd, hc⟩ := inner_reaches (by decide) (forM_eq_ok.mp h _ hm) hr
      exact ⟨hd, hc.imp_right Nat.succ_lt_succ⟩

theorem renewWith_scope {scope : AuthorizationScope T} (h : renewWith s scope size = ok v) :
    v.scope.isSome := by
  simp [(charges_of_renewWith h).left]

theorem renewalSigned_scope {call : DataRenewal.Call T} (h : renewalSigned s who call = ok v) :
    v.scope.isSome := by
  cases call
  case renew | enableAutoRenew =>
    have ⟨_, _, h⟩ := bind_eq_ok.mp h
    have ⟨_, _, h⟩ := bind_eq_ok.mp h
    exact renewWith_scope h
  case forceRenew entry =>
    have ⟨_, _, h⟩ := bind_eq_ok.mp h
    have ⟨_, _, h⟩ := bind_eq_ok.mp h
    cases orElse_eq_ok.mp h
    case inl h => exact renewWith_scope h
    case inr h => exact renewWith_scope h.right
  case disableAutoRenew contentHash =>
    have ⟨_, _, h⟩ := bind_eq_ok.mp h
    exact pure_eq_ok.mp h ▸ rfl
  case processPendingRenewals => contradiction

theorem tree_scope (h : tree s who call = ok v) : v.scope.isSome ↔ call.isAuthorized := by
  have hc := tree_charges h
  cases call
  case transactionStorage call =>
    rw [tree_storage] at h
    cases call
    case store | storeWithCidConfig => simp [show v.scope = _ from hc.left, isAuthorized,
      TransactionStorage.Call.isStore]
    all_goals
      have hv := storageSigned_of_not_isStore (by simp [TransactionStorage.Call.isStore]) h
      simp [hv, free, isAuthorized, TransactionStorage.Call.isStore]
  case dataRenewal call =>
    rw [tree_renewal] at h
    cases call
    case processPendingRenewals => contradiction
    all_goals simp [renewalSigned_scope h, isAuthorized, DataRenewal.Call.isInherent]
  all_goals simp [tree_unclaimed rfl h, free, isAuthorized]

end Verdict

-- Direct-only calls cannot be hidden in wrappers. Of a tree that passes, no inner node is direct-only
-- and no unclaimed node is as deep as the limit. The origin is rewritten, for the signer, exactly if
-- the tree is itself one of the calls that need it, and so never for what a wrapper dispatches.
theorem validate_direct_only (h : (validate (.signed who) call).Succeeds s) :
    (∀ depth node, 0 < depth → call.Reaches depth node → ¬node.isDirectOnly) ∧
    (∀ depth node, maxWrapperDepth ≤ depth → call.Reaches depth node → node.isClaimed) ∧
    ∃ v val origin, (validate (.signed who) call s).1 = ok (v, val, origin) ∧
      ((∃ who' scope, origin = .authorized who' scope) ↔ call.isAuthorized) ∧
      (∀ who' scope, origin = .authorized who' scope → who' = who) ∧
      (call.inspectWrapper.isSome → origin = .signed who) := by
  have hv := validate_carriesOut s who call
  cases ht : Verdict.tree s who call <;> rw [ht] at hv
  case error => simp [Check.Succeeds, show _ = _ from hv, Except.isOk, Except.toBool] at h
  case ok v =>
    obtain ⟨⟨tx, val, origin⟩, ⟨ho, _⟩, hv⟩ := hv
    have hs := Verdict.tree_scope ht
    refine ⟨?_, ?_, tx, val, origin, by rw [hv], ?_⟩
    · exact fun _ _ hd hr => (Verdict.tree_reaches ht hd hr).left
    · intro depth node hd hr
      have hr := Verdict.tree_reaches ht (Nat.lt_of_lt_of_le (by decide) hd) hr
      exact hr.right.resolve_right (Nat.not_lt_of_le hd)
    · have ho : origin = v.origin who := ho
      subst ho
      rw [← hs]
      cases hv : v.scope
      case none       => simp [Verdict.origin, hv]
      case some scope =>
        simp only [Verdict.origin, hv, Option.isSome_some, iff_true]
        refine ⟨⟨who, scope, rfl⟩, fun _ _ h => by cases h; rfl, fun hw => ?_⟩
        have hc := isClaimed_of_isAuthorized (hs.mp (by simp [hv]))
        simp [inspectWrapper_of_isClaimed hc] at hw

-- A batch of a listed authorizer.
theorem validate_batch_direct_only :
    let call : RuntimeCall .mock :=
      .batch [.transactionStorage (.authorizeAccount (1 : Nat) 1 1), .other []]
    let s : State .mock := GenesisConfig.build ⟨1, [], [], []⟩
    (validate (.signed (0 : Nat)) call).Succeeds s ∧
      ∀ depth node, 0 < depth → call.Reaches depth node → ¬node.isDirectOnly := by
  intro call s
  have h : (validate (.signed (0 : Nat)) call).Succeeds s := by decide +kernel
  exact ⟨h, (validate_direct_only h).left⟩

namespace RuntimeCall

def isStore : RuntimeCall T → Bool
  | transactionStorage call => call.isStore
  | _                       => false

def isStorage : RuntimeCall T → Bool
  | transactionStorage _ => true
  | _                    => false

def isRenewal : RuntimeCall T → Bool
  | dataRenewal (.renew _) | dataRenewal (.forceRenew _) | dataRenewal (.enableAutoRenew _) => true
  | _                                                                                       => false

-- The calls that are paid for with an authorization.
def isStorageMutating (call : RuntimeCall T) : Bool :=
  call.isStore || call.isRenewal

theorem isStorage_of_isStore {call : RuntimeCall T} (h : call.isStore) : call.isStorage := by
  cases call
  case transactionStorage => rfl
  all_goals contradiction

theorem isStorage_eq_false {call : RuntimeCall T} (h : ∀ inner, call ≠ transactionStorage inner) :
    call.isStorage = false := by
  cases call
  case transactionStorage inner => exact absurd rfl (h inner)
  all_goals rfl

end RuntimeCall

namespace StorageCallInspector

-- Exactly this is let through: no store at any depth, and below the limit calls of the storage pallet
-- only. Those are looked at before the depth is, and everything else that is too deep is kept back.
theorem isStorageMutatingCall_eq_false : isStorageMutatingCall left call = false ↔
    ∀ depth node, call.Reaches depth node → ¬node.isStore ∧ (depth < left ∨ node.isStorage) := by
  induction left generalizing call
  case zero =>
    unfold isStorageMutatingCall
    split
    case h_1 =>
      rw [forall_reaches_of_isClaimed rfl]
      simp [isStore, isStorage]
    case h_2 hn =>
      rw [forall_reaches]
      simp [isStorage_eq_false hn]
  case succ left hi =>
    unfold isStorageMutatingCall
    split
    case h_1 =>
      rw [forall_reaches_of_isClaimed rfl]
      simp [isStore, isStorage]
    case h_2 hn =>
      have hs : ¬call.isStore := fun h => by simpa [isStorage_eq_false hn] using isStorage_of_isStore h
      rw [forall_reaches]
      cases hw : call.inspectWrapper
      case none       => simp [hs]
      case some calls => simp [hs, hi]

end StorageCallInspector

-- The filter lets a tree through exactly if no node of it is a store and what is too deep is of the
-- storage pallet, whatever renewals it has: it does not look for those. So what it lets through is free
-- of storage-mutating calls exactly if it is free of renewals.
theorem filter_blocks_stores (call : RuntimeCall T) :
    (StorageCallInspector.contains call = false ↔ ∀ depth node, call.Reaches depth node →
      ¬node.isStore ∧ (depth < maxWrapperDepth ∨ node.isStorage)) ∧
    (StorageCallInspector.contains call = false →
      (∀ depth node, call.Reaches depth node → ¬node.isStore) ∧
        ((∀ depth node, call.Reaches depth node → ¬node.isStorageMutating) ↔
          ∀ depth node, call.Reaches depth node → ¬node.isRenewal)) := by
  have hc : StorageCallInspector.contains call = false ↔ _ :=
    StorageCallInspector.isStorageMutatingCall_eq_false
  refine ⟨hc, fun h => ?_⟩
  have hs : ∀ depth node, call.Reaches depth node → ¬node.isStore := fun depth node hr =>
    (hc.mp h depth node hr).left
  refine ⟨hs, forall_congr' fun depth => forall_congr' fun node => ?_⟩
  refine imp_congr_right fun hr => ?_
  simp [isStorageMutating, hs depth node hr]

theorem filter_blocks_stores_batch :
    let call : RuntimeCall .mock :=
      .batch [.transactionStorage (.authorizeAccount (1 : Nat) 1 1), .other []]
    StorageCallInspector.contains call = false ∧
      ∀ depth node, call.Reaches depth node → ¬node.isStore := by
  intro call
  have h : StorageCallInspector.contains call = false := by decide
  exact ⟨h, ((filter_blocks_stores call).right h).left⟩

-- The filter lets a renewal through, in a wrapper or not.
theorem filter_passes_renewals :
    let node : RuntimeCall .mock := .dataRenewal (.renew (.position 1 0))
    StorageCallInspector.contains node = false ∧
      StorageCallInspector.contains (.batch [node]) = false ∧
      Reaches node 0 node ∧ Reaches (.batch [node]) 1 node ∧ node.isStorageMutating := by
  intro node
  exact ⟨by decide, by decide, .here, .inner rfl (List.mem_singleton.mpr rfl) .here, by decide⟩

end Bulletin
