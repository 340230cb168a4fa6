import BulletinChain.Theorems.Admission

namespace Bulletin

open Machine Except

-- One iteration of the drain, and the reason why a renewal fails.
inductive Drained (x : Nat) (s : State T) : Pending T → State T → Prop
  | delivered :
    Pays s.toLedger data info.size l → (h : _) →
    s'.toLedger = (l.appended (info.renewal x) h).settle contentHash data →
    Drained x s (contentHash, info, data) s'
  | failed :
    ¬data.paid →
    ¬(DataRenewal.checkRenewAuthorization (.account data.account) info.size true).Succeeds s →
    s'.toLedger = s.toLedger.unregister contentHash →
    .renewalFailed contentHash data.account ∈ s'.events →
    Drained x s (contentHash, info, data) s'
  | overflowed :
    Pays s.toLedger data info.size l → T.maxBlockTransactions ≤ s.blockTransactions.val.length →
    s'.toLedger = (l.refund info.size).unregister contentHash →
    Drained x s (contentHash, info, data) s'

variable {T : Config} {s s' : State T} {info : TransactionInfo T} {data : RenewalData T}

theorem Drained.served (h : Drained x s item s') : Served s.toLedger item s'.toLedger := by
  obtain ⟨hp, h, hl⟩ | ⟨hp, _, hl, _⟩ | ⟨hp, h, hl⟩ := h
  case delivered  => exact hl ▸ .delivered hp h
  case failed     => exact hl ▸ .failed hp
  case overflowed => exact hl ▸ .overflowed hp h

-- What the charge for a renewal does to the ledger.
structure Charged (s s₁ : State T) (size : Nat) : Prop where
  ledger         : s₁.toLedger = s.toLedger.charge size
  extrinsicIndex : s₁.extrinsicIndex = s.extrinsicIndex

theorem Charge.renew_charged (s : State T) (scope : AuthorizationScope T) (a : Authorization)
    (size : Nat) : Charged s ((Charge.renew scope a size).apply s) size := by
  have ⟨_, he⟩ := State.updatePermanentStorageUsed_eq
    (s := s.withAuthorization scope (DataRenewal.charged a size))
    (f := (saturatingAdd u64Max · size))
  simp only [apply, he]
  exact ⟨rfl, rfl⟩

-- A charge leaves the entries and the registrations as they are.

theorem Charged.hasRoom (h : Charged s s₁ size) (hr : s.HasRoom) : s₁.HasRoom := by
  rw [h.ledger]
  exact hr

theorem Charged.lookup (h : Charged s s₁ size) (contentHash : T.ContentHash) :
    s₁.renewals.lookup contentHash = s.renewals.lookup contentHash := by
  rw [h.ledger]
  rfl

theorem Pays.blockTransactions {l l₁ : Ledger T} (h : Pays l data size l₁) :
    l₁.blockTransactions = l.blockTransactions := by
  cases h <;> rfl

theorem State.affords_of_renewable (h : s.renewable scope size = ok a) : s.toLedger.Affords size :=
  (renewable_eq_ok.mp h).right.right

namespace State

-- The charge succeeds, or it fails and leaves no trace.
theorem chargePending_cases (s : State T) (info : TransactionInfo T) (data : RenewalData T) :
    (∃ s₁, s.chargePending info data = (true, s₁) ∧
      Pays s.toLedger data info.size s₁.toLedger ∧ s₁.extrinsicIndex = s.extrinsicIndex) ∨
    (s.chargePending info data = (false, s) ∧ ¬data.paid ∧
      ¬(DataRenewal.checkRenewAuthorization (.account data.account) info.size true).Succeeds s) := by
  simp only [chargePending, Check.Succeeds, DataRenewal.checkRenewAuthorization_eq]
  by_cases hp : data.paid
  · exact .inl ⟨s, by simp [hp], .prepaid hp, rfl⟩
  · cases hr : s.renewable (.account data.account) info.size
    case error e => exact .inr ⟨by simp [hp, Except.isOk, Except.toBool], hp, Bool.false_ne_true⟩
    case ok a =>
      have hc := Charge.renew_charged s (.account data.account) a info.size
      refine .inl ⟨(Charge.renew (.account data.account) a info.size).apply s, ?_, ?_,
        hc.extrinsicIndex⟩
      · simp [hp, Except.isOk, Except.toBool]
      · rw [hc.ledger]
        exact .charged hp (affords_of_renewable hr)

theorem settlePending_eq :
    s.settlePending contentHash data =
      { s with toLedger := s.toLedger.settle contentHash data } := by
  simp only [settlePending, Ledger.settle, settled]
  split
  case isTrue => rfl
  case isFalse =>
    split
    case isTrue  => cases s.renewals.lookup contentHash <;> rfl
    case isFalse => rfl

theorem renewPending_drained (x : Nat) (s : State T) (item : Pending T) :
    Drained x s item (renewPending x s item) ∧
      (renewPending x s item).extrinsicIndex = s.extrinsicIndex := by
  obtain ⟨contentHash, info, data⟩ := item
  simp only [renewPending]
  obtain ⟨s₁, hc, hp, hx⟩ | ⟨hc, hp, hf⟩ := chargePending_cases s info data
  · simp only [hc, if_true]
    by_cases hr : s₁.HasRoom
    · rw [BlockTransactionsMut.renew_eq_some.mpr ⟨hr, rfl, rfl⟩]
      simp only [settlePending_eq]
      exact ⟨.delivered hp hr rfl, hx⟩
    · obtain ⟨_, hu⟩ := updatePermanentStorageUsed_eq (s := s₁) (f := (· - info.size))
      rw [BlockTransactionsMut.renew_of_not_hasRoom hr]
      simp only [hu]
      exact ⟨.overflowed hp (hp.blockTransactions ▸ Nat.le_of_not_lt hr) rfl, hx⟩
  · simp only [hc]
    exact ⟨.failed hp hf rfl (by simp), rfl⟩

theorem foldl_renewPending_serves (x : Nat) (s : State T) (items : List (Pending T)) :
    Serves s.toLedger items (items.foldl (renewPending x) s).toLedger ∧
      (items.foldl (renewPending x) s).extrinsicIndex = s.extrinsicIndex := by
  induction items generalizing s
  case nil => exact ⟨.nil, rfl⟩
  case cons item items hi =>
    have ⟨h, hx⟩ := renewPending_drained x s item
    have ⟨hs, hx'⟩ := hi (renewPending x s item)
    exact ⟨.cons h.served hs, hx'.trans hx⟩

-- In a block, every pending renewal is served.
theorem doProcessPendingRenewals_serves (hx : s.extrinsicIndex = some x) :
    Serves s.toLedger.taken s.pendingRenewals.val
        s.doProcessPendingRenewals.toLedger ∧
      s.doProcessPendingRenewals.extrinsicIndex = some x := by
  rw [doProcessPendingRenewals_of_some hx]
  have ⟨hs, hi⟩ := foldl_renewPending_serves x { s with pendingRenewals := .empty } s.pendingRenewals.val
  exact ⟨hs, hi.trans hx⟩

end State
end Bulletin
