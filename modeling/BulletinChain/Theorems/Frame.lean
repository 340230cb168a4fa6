import BulletinChain.Migrations.Live
import BulletinChain.Theorems.Window
import BulletinChain.Theorems.Accounting

namespace Bulletin

open Machine Except

variable {T : Config} (s : State T) (t : Finmap fun _ : Nat => Entries T)

-- What the hooks and the inherents read of `Transactions` is the list of one block: with other lists of
-- the other blocks they do the same.

namespace State

theorem updatePermanentStorageUsed_withTransactions (f : Nat → Nat) :
    (s.withTransactions t).updatePermanentStorageUsed f =
      (s.updatePermanentStorageUsed f).withTransactions t := by
  have hu : (s.withTransactions t).permanentStorageUsed = s.permanentStorageUsed := rfl
  simp only [updatePermanentStorageUsed, hu]
  split_ifs <;> rfl

theorem handleObsolete_withTransactions (items : List (TransactionInfo T × Bool)) :
    (s.withTransactions t).handleObsolete items = (s.handleObsolete items).withTransactions t := by
  have hq (s : State T) : handleObsolete.queue (s.withTransactions t) = handleObsolete.queue s := rfl
  have hp (s : State T) : (s.withTransactions t).pendingRenewals = s.pendingRenewals := rfl
  simp only [handleObsolete, updatePermanentStorageUsed_withTransactions]
  by_cases hr : 0 < (items.filter (·.1.kind.isRenew)).foldl
    (fun acc item => saturatingAdd u64Max acc item.1.size) 0
  · simp only [if_pos hr, hq, hp]
    split_ifs <;> rfl
  · simp only [if_neg hr, hq, hp]
    split_ifs <;> rfl

theorem checkRenewAuthorization_withTransactions (scope : AuthorizationScope T) (size : Nat) :
    DataRenewal.checkRenewAuthorization scope size true (s.withTransactions t) =
      (DataRenewal.checkRenewAuthorization scope size true s).map id (withTransactions · t) := by
  have ha : (s.withTransactions t).authorizations = s.authorizations := rfl
  have hn : (s.withTransactions t).blockNumber = s.blockNumber := rfl
  have hu : (s.withTransactions t).permanentStorageUsed = s.permanentStorageUsed := rfl
  simp only [DataRenewal.checkRenewAuthorization, ha, hn, hu]
  cases s.authorizations.lookup scope
  case none   => rfl
  case some a =>
    simp only [if_true]
    split_ifs <;> try rfl
    exact congrArg (Prod.mk _) (updatePermanentStorageUsed_withTransactions
      { s with authorizations := s.authorizations.insert scope (DataRenewal.charged a size) } t _)

theorem chargePending_withTransactions (info : TransactionInfo T) (data : RenewalData T) :
    (s.withTransactions t).chargePending info data =
      (s.chargePending info data).map id (withTransactions · t) := by
  simp only [chargePending, checkRenewAuthorization_withTransactions]
  split_ifs <;> rfl

theorem settlePending_withTransactions (contentHash : T.ContentHash) (data : RenewalData T) :
    (s.withTransactions t).settlePending contentHash data =
      (s.settlePending contentHash data).withTransactions t := by
  have hr : (s.withTransactions t).renewals = s.renewals := rfl
  simp only [settlePending, hr]
  split_ifs <;> try rfl
  cases s.renewals.lookup contentHash <;> rfl

theorem renew_withTransactions (info : TransactionInfo T) (x : Nat) (kind : EntryKind) :
    BlockTransactionsMut.renew (s.withTransactions t) info x kind =
      (BlockTransactionsMut.renew s info x kind).map (·.map id (withTransactions · t)) := by
  have hb : (s.withTransactions t).blockTransactions = s.blockTransactions := rfl
  simp only [BlockTransactionsMut.renew, BlockTransactionsMut.push, BlockTransactionsMut.counted, hb]
  cases s.blockTransactions.tryPush _ <;> rfl

theorem renewPending_withTransactions (x : Nat) (item : Pending T) :
    renewPending x (s.withTransactions t) item = (renewPending x s item).withTransactions t := by
  have ⟨contentHash, info, data⟩ := item
  simp only [renewPending, chargePending_withTransactions, Prod.map_fst, Prod.map_snd, id]
  cases (s.chargePending info data).1
  case false => rfl
  case true  =>
    simp only [if_true, renew_withTransactions]
    cases BlockTransactionsMut.renew (s.chargePending info data).2 info x .renew
    case none   =>
      simp only [Option.map_none, updatePermanentStorageUsed_withTransactions]
      rfl
    case some r =>
      simp only [Option.map_some, Prod.map, settlePending_withTransactions]
      rfl

theorem doProcessPendingRenewals_withTransactions :
    (s.withTransactions t).doProcessPendingRenewals = s.doProcessPendingRenewals.withTransactions t := by
  have hf (s : State T) (pending : List (Pending T)) :
      pending.foldl failPending (s.withTransactions t) =
        (pending.foldl failPending s).withTransactions t :=
    List.foldl_hom (withTransactions · t) fun _ _ => rfl
  have hr (x : Nat) (s : State T) (pending : List (Pending T)) :
      pending.foldl (renewPending x) (s.withTransactions t) =
        (pending.foldl (renewPending x) s).withTransactions t :=
    List.foldl_hom (withTransactions · t) (renewPending_withTransactions · t x)
  cases hx : s.extrinsicIndex
  case none =>
    have hx' : (s.withTransactions t).extrinsicIndex = none := hx
    rw [doProcessPendingRenewals_of_none hx, doProcessPendingRenewals_of_none hx', ← hf]
    rfl
  case some x =>
    have hx' : (s.withTransactions t).extrinsicIndex = some x := hx
    rw [doProcessPendingRenewals_of_some hx, doProcessPendingRenewals_of_some hx', ← hr]
    rfl

variable {s t}

-- The block whose chunks are proved.
abbrev target (s : State T) : Nat :=
  s.blockNumber - s.retentionPeriod

theorem doCheckProof_withTransactions (ht : t.lookup s.target = s.transactions.lookup s.target)
    (proof : TransactionStorageProof T) :
    (s.withTransactions t).doCheckProof proof = (s.doCheckProof proof).map (withTransactions · t) := by
  have hl : (s.withTransactions t).transactions.lookup s.target = s.transactions.lookup s.target := ht
  simp only [doCheckProof, bind_map]
  rw [← hl]
  rfl

theorem sealBlock_withTransactions (s : State T) (t : Finmap fun _ : Nat => Entries T) (n : Nat) :
    (s.withTransactions t).toLedger.sealBlock n = { s.toLedger.sealBlock n with
      transactions := ((s.withTransactions t).toLedger.sealBlock n).transactions } := by
  have hb : (s.withTransactions t).blockTransactions = s.blockTransactions := rfl
  simp only [Ledger.sealBlock, hb]
  split_ifs <;> rfl

theorem finalized_withTransactions (ht : t.lookup s.target = s.transactions.lookup s.target) :
    Chain.finalized (s.withTransactions t) = (Chain.finalized s).map
      (withTransactions · ((s.withTransactions t).toLedger.sealBlock s.blockNumber).transactions) := by
  have hok : State.proofOk { s.withTransactions t with extrinsicIndex := none } s.blockNumber =
      State.proofOk { s with extrinsicIndex := none } s.blockNumber := by
    have hl : (s.withTransactions t).transactions.lookup s.target = s.transactions.lookup s.target := ht
    simp only [proofOk]
    rw [← hl]
    rfl
  have hn : (s.withTransactions t).blockNumber = s.blockNumber := rfl
  simp only [Chain.finalized, onFinalize, storageOnFinalize, hn, hok]
  split
  case isFalse => rfl
  case isTrue  =>
    have hp : (s.withTransactions t).pendingRenewals = s.pendingRenewals := rfl
    simp only [Option.bind_eq_bind, Option.bind_some, renewalOnFinalize,
      Ledger.sealBlock_pendingRenewals, hp]
    split
    case isFalse => rfl
    case isTrue  =>
      rw [Option.map_some]
      refine congrArg some ?_
      have h := sealBlock_withTransactions s t s.blockNumber
      simp only [withTransactions] at h ⊢
      rw [h]

-- What `on_initialize` does with the list of the obsolete block.

theorem onInitialize_of_some {list : Entries T}
    (ho : n - saturatingAdd maxBlockNumber s.retentionPeriod 1 = obsolete) (hp : 0 < obsolete)
    (hl : s.transactions.lookup obsolete = some list) :
    let swept := list.val.foldl (sweepEntry obsolete) (s.transactionByContentHash, .empty)
    s.onInitialize n = handleObsolete { s with
      transactions             := s.transactions.erase obsolete
      transactionByContentHash := swept.1 } swept.2.val := by
  simp only [onInitialize, storageOnInitialize]
  rw [ho, if_pos hp]
  simp only [hl]

theorem onInitialize_of_none (ho : n - saturatingAdd maxBlockNumber s.retentionPeriod 1 = obsolete)
    (h : ¬0 < obsolete ∨ s.transactions.lookup obsolete = none) : s.onInitialize n = s := by
  simp only [onInitialize, storageOnInitialize]
  rw [ho]
  split
  case isTrue hp => simp only [h.resolve_left (not_not.mpr hp)]
  case isFalse   => rfl

theorem onInitialize_withTransactions
    (ho : n - saturatingAdd maxBlockNumber s.retentionPeriod 1 = obsolete)
    (ht : t.lookup obsolete = s.transactions.lookup obsolete) :
    (s.withTransactions t).onInitialize n =
      (s.onInitialize n).withTransactions (if 0 < obsolete then t.erase obsolete else t) := by
  by_cases hp : 0 < obsolete
  · rw [if_pos hp]
    cases hl : s.transactions.lookup obsolete
    case none =>
      rw [onInitialize_of_none ho (.inr hl), Finmap.erase_of_lookup_eq_none (ht.trans hl)]
      exact onInitialize_of_none ho (.inr (ht.trans hl))
    case some list =>
      rw [onInitialize_of_some ho hp hl, ← handleObsolete_withTransactions]
      exact onInitialize_of_some ho hp (ht.trans hl)
  · rw [if_neg hp, onInitialize_of_none ho (.inl hp)]
    exact onInitialize_of_none ho (.inl hp)

end State

namespace Extrinsic

variable {s t} {x : Extrinsic T}

theorem dispatched_withTransactions {call : RuntimeCall T}
    (h : call.dispatch (s.withTransactions t) origin =
      (call.dispatch s origin).map (State.withTransactions · t)) :
    dispatched (s.withTransactions t) origin call = (dispatched s origin call).withTransactions t := by
  simp only [dispatched, h]
  cases call.dispatch s origin <;> rfl

-- An inherent is admitted whatever the state is.
theorem apply_of_isInherent (hx : x.isInherent) (s : State T) :
    x.apply s = some { dispatched s .none x.call with
      extrinsicIndex := (dispatched s .none x.call).extrinsicIndex.map (· + 1) } := by
  cases x
  case unsigned call =>
    cases call
    case transactionStorage call => cases call <;> first | contradiction | rfl
    case dataRenewal call        => cases call <;> first | contradiction | rfl
    all_goals first | contradiction | rfl
  all_goals contradiction

theorem dispatch_withTransactions (hx : x.isInherent)
    (ht : t.lookup s.target = s.transactions.lookup s.target) :
    x.call.dispatch (s.withTransactions t) .none =
      (x.call.dispatch s .none).map (State.withTransactions · t) := by
  cases x
  case unsigned call =>
    cases call
    case transactionStorage call =>
      cases call
      case applyBlockInherents proof =>
        cases proof
        case none       => rfl
        case some proof => exact State.doCheckProof_withTransactions ht proof
      all_goals contradiction
    case dataRenewal call =>
      cases call
      case processPendingRenewals =>
        exact congrArg ok (State.doProcessPendingRenewals_withTransactions s t)
      all_goals contradiction
    all_goals first | contradiction | rfl
  all_goals contradiction

theorem apply_withTransactions (hx : x.isInherent)
    (ht : t.lookup s.target = s.transactions.lookup s.target) :
    x.apply (s.withTransactions t) = (x.apply s).map (State.withTransactions · t) := by
  simp only [apply_of_isInherent hx, dispatched_withTransactions (dispatch_withTransactions hx ht)]
  rfl

end Extrinsic

namespace Chain

variable {c : Chain T} {t}

theorem step_extrinsic_withTransactions (hx : x.isInherent)
    (ht : t.lookup c.state.target = c.state.transactions.lookup c.state.target) :
    (c.withTransactions t).step (.extrinsic x) =
      (c.step (.extrinsic x)).map (·.withTransactions t) := by
  have hb : (c.withTransactions t).inBlock = c.inBlock := rfl
  have ha : x.apply (c.withTransactions t).state = (x.apply c.state).map (·.withTransactions t) :=
    Extrinsic.apply_withTransactions hx ht
  simp only [step, hb, ha]
  split
  case isTrue  => cases x.apply c.state <;> rfl
  case isFalse => rfl

-- The lists after a block is sealed.
def sealedLists (c : Chain T) (t : Finmap fun _ : Nat => Entries T) : Finmap fun _ : Nat => Entries T :=
  ((c.withTransactions t).ledger.sealBlock c.ledger.blockNumber).transactions

theorem lookup_sealedLists : (c.sealedLists t).lookup b =
    if totalChunks c.state.blockTransactions.val ≠ 0 ∧ b = c.ledger.blockNumber then
      some c.state.blockTransactions
    else
      t.lookup b := by
  have hb : (c.withTransactions t).ledger.blockTransactions = c.state.blockTransactions := rfl
  simp only [sealedLists, Ledger.sealBlock, hb]
  split
  case isTrue hc  => exact Finmap.lookup_insert_eq.trans (if_congr (by simp [hc]) rfl rfl)
  case isFalse hc => exact (if_neg fun h => hc h.left).symm

theorem step_onFinalize_withTransactions
    (ht : t.lookup c.state.target = c.state.transactions.lookup c.state.target) :
    (c.withTransactions t).step .onFinalize =
      (c.step .onFinalize).map (·.withTransactions (c.sealedLists t)) := by
  have hb : (c.withTransactions t).inBlock = c.inBlock := rfl
  have hf : finalized (c.withTransactions t).state =
      (finalized c.state).map (·.withTransactions (c.sealedLists t)) :=
    State.finalized_withTransactions ht
  simp only [step, hb, hf]
  split
  case isTrue  => cases finalized c.state <;> rfl
  case isFalse => rfl

-- The lists after the next block is opened.
def openedLists (c : Chain T) (t : Finmap fun _ : Nat => Entries T) : Finmap fun _ : Nat => Entries T :=
  if 0 < c.ledger.obsolete then t.erase c.ledger.obsolete else t

theorem lookup_openedLists : (c.openedLists t).lookup b =
    if 0 < c.ledger.obsolete ∧ b = c.ledger.obsolete then none else t.lookup b := by
  rw [openedLists]
  by_cases ho : 0 < c.ledger.obsolete
  · simp only [ho, if_true, true_and, Finmap.lookup_erase_eq]
  · simp only [ho, if_false, false_and]

theorem step_onInitialize_withTransactions (parentHash : List UInt8) (moment : Nat)
    (ht : t.lookup c.ledger.obsolete = c.state.transactions.lookup c.ledger.obsolete) :
    (c.withTransactions t).step (.onInitialize parentHash moment) =
      (c.step (.onInitialize parentHash moment)).map (·.withTransactions (c.openedLists t)) := by
  have hb : (c.withTransactions t).inBlock = c.inBlock := rfl
  have hn : (c.withTransactions t).state.blockNumber = c.state.blockNumber := rfl
  simp only [step, hb, hn]
  split
  case isFalse   => rfl
  case isTrue hm =>
    have hi : initialized (c.withTransactions t).state parentHash moment =
        (initialized c.state parentHash moment).withTransactions (c.openedLists t) :=
      State.onInitialize_withTransactions
        (s := { c.state with
          blockNumber     := c.state.blockNumber + 1
          parentHash      := parentHash
          timestamp       := moment
          extrinsicIndex  := some 0
          indexOperations := []
          events          := [] }) (State.obsolete_eq (l := c.ledger) hm.right) ht
    rw [hi]
    rfl

-- What becomes of the lists themselves.

theorem withTransactions_self (c : Chain T) : c.withTransactions c.state.transactions = c :=
  rfl

variable {c' : Chain T} {a : Action T}

theorem transactions_eq (h : c.step a = some c')
    (hs : (c.withTransactions c.state.transactions).step a = (c.step a).map (·.withTransactions t)) :
    c'.state.transactions = t := by
  rw [withTransactions_self, h] at hs
  exact congrArg (·.state.transactions) (Option.some.inj hs)

theorem transactions_extrinsic (h : c.step (.extrinsic x) = some c') (hx : x.isInherent) :
    c'.state.transactions = c.state.transactions :=
  transactions_eq h <| step_extrinsic_withTransactions hx rfl

theorem transactions_onFinalize (h : c.step .onFinalize = some c') :
    c'.state.transactions = c.sealedLists c.state.transactions :=
  transactions_eq h <| step_onFinalize_withTransactions rfl

theorem transactions_onInitialize (h : c.step (.onInitialize parentHash moment) = some c') :
    c'.state.transactions = c.openedLists c.state.transactions :=
  transactions_eq h <| step_onInitialize_withTransactions parentHash moment rfl

-- The oldest block that is retained, which opening the next block drops.

theorem obsolete_of_opened (r : c.Ready) (h : c.step (.onInitialize parentHash moment) = some c') :
    c'.ledger.obsolete = c.ledger.blockNumber + 1 - c.ledger.retentionPeriod := by
  have e := (step_evolves (D := Set.univ) r (fun _ _ => trivial) h).left
  simp only [step] at h
  split at h <;> cases h
  case isTrue hb =>
    obtain ⟨_, _, ho⟩ | ⟨hn, _⟩ | ⟨hc, _⟩ | ⟨hc, _⟩ := e
    case opened  => rw [Ledger.obsolete, ho.blockNumber, ho.retentionPeriod]
    case idle    => exact absurd hn.symm hb.left
    case called  => exact absurd hc hb.left
    case drained => exact absurd hc hb.left

-- Within a block the oldest block that is retained stays the same.
theorem obsolete_of_inBlock (r : c.Ready) (ha : (∃ x, a = .extrinsic x ∧ x.isInherent) ∨ a = .onFinalize)
    (h : c.step a = some c') : c'.ledger.obsolete = c.ledger.obsolete := by
  have hb : c.inBlock := by
    by_contra hb
    obtain ⟨x, ha, _⟩ | ha := ha <;> simp [ha, step, hb] at h
  have hD : ∀ x ∈ a.content, x ∈ (Set.univ : Set Content) := fun _ _ => trivial
  cases (step_evolves r hD h).left
  case opened hn _ _ _   => exact absurd hb hn
  case idle hl           => rw [hl]
  case called hc _       => cases a <;> simp_all [Action.isCall]
  case drained hs        =>
    have hn := hs.blockNumber
    have hp := hs.retentionPeriod
    rw [Ledger.obsolete, hn, hp]
    rfl
  case extended          => simp at ha
  case sealed _ hl       =>
    rw [hl, Ledger.obsolete, Ledger.sealBlock_blockNumber, Ledger.sealBlock_retentionPeriod]
    rfl

end Chain
end Bulletin
