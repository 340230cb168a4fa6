import BulletinChain.Theorems.Access

namespace Bulletin

open Machine Except Deed

variable {T : Config}

-- What a deed takes from the budget of an authorizer.
def Deed.spends (who : T.AccountId) : Deed T → Quota
  | .granted (.signed w) _ transactions bytes _ => if w = who then ⟨transactions, bytes⟩ else ⟨0, 0⟩
  | _                                           => ⟨0, 0⟩

-- The deeds that start or end a registration of the authorizer.
def Deed.registers (who : T.AccountId) : Deed T → Bool
  | .registered w _ | .unregistered w => w = who
  | _                                 => false

-- What an authorizer has handed out in a history.
def spentBy (who : T.AccountId) (log : List (Nat × Deed T)) : Quota where
  transactions := (log.map fun e => (e.2.spends who).transactions).sum
  bytes        := (log.map fun e => (e.2.spends who).bytes).sum

-- The calls that grant authorizations, and those that fail.

def Action.grants : Action T → Bool
  | .extrinsic x     => isGrant x.call
  | .dispatch _ call => isGrant call
  | _                => false
where
  isGrant : RuntimeCall T → Bool
    | .transactionStorage (.authorizeAccount ..) | .transactionStorage (.authorizePreimage ..) => true
    | _ => false

def Chain.fails (c : Chain T) : Action T → Bool
  | .extrinsic x =>
    match x.admission c.state with
    | (.ok origin, s) => !(x.call.dispatch s origin).isOk
    | (.error _, _)   => true
  | .dispatch origin call => !(call.dispatch c.state origin).isOk
  | _                     => false

variable {g g' : Access T} {who : T.AccountId} {scope : AuthorizationScope T}
  {issuer : Option (Access.Issuer T)}

namespace AuthorizerBudget

theorem tryConsume_eq_some {b b' : AuthorizerBudget} (hq : b.quota = some q) :
    b.tryConsume transactions bytes = some b' ↔
      transactions ≤ q.transactions ∧ bytes ≤ q.bytes ∧
        b' = { b with quota := some ⟨q.transactions - transactions, q.bytes - bytes⟩ } := by
  simp only [tryConsume, hq, Option.bind_eq_bind, Option.bind_eq_some_iff, checkedSub_eq_some]
  constructor
  case mp =>
    rintro ⟨_, ⟨ht, hn⟩, _, ⟨hb, hm⟩, h⟩
    subst hn hm
    cases h
    exact ⟨ht, hb, rfl⟩
  case mpr =>
    rintro ⟨ht, hb, h⟩
    exact ⟨_, ⟨ht, rfl⟩, _, ⟨hb, rfl⟩, h ▸ rfl⟩

end AuthorizerBudget

namespace Access

@[simp]
theorem put_allowedAuthorizers : (g.put scope a).allowedAuthorizers = g.allowedAuthorizers := by
  simp only [put]
  split
  case isTrue  => rfl
  case isFalse => cases scope <;> rfl

@[simp]
theorem remove_allowedAuthorizers : (g.remove scope).allowedAuthorizers = g.allowedAuthorizers := by
  cases scope <;> rfl

@[simp]
theorem register_lookup (w : T.AccountId) :
    (g.register w b).allowedAuthorizers.lookup who =
      if who = w then some b else g.allowedAuthorizers.lookup who := by
  simp only [register]
  split <;> exact Finmap.lookup_insert_eq

-- The budget of an authorizer, apart from what is left of it.
structure Holds (g : Access T) (who : T.AccountId) (budget : AuthorizerBudget) (quota spent : Quota) :
    Prop where
  transactions_le : spent.transactions ≤ quota.transactions
  bytes_le        : spent.bytes ≤ quota.bytes
  lookup          : g.allowedAuthorizers.lookup who = some { budget with
    quota := some ⟨quota.transactions - spent.transactions, quota.bytes - spent.bytes⟩ }

namespace Holds

variable {budget : AuthorizerBudget} {quota spent : Quota}

-- A grant takes from the budget of its signer, and from no other.
theorem debited (scope : AuthorizationScope T) (opens : Bool) (hl : ¬T.isListedAuthorizer who)
    (h : g.Holds who budget quota spent) (hi : g.Issues now origin issuer)
    (hd : g.debited transactions bytes issuer = some g') :
    g'.Holds who budget quota
      ⟨spent.transactions + ((Deed.granted origin scope transactions bytes opens).spends who).transactions,
        spent.bytes + ((Deed.granted origin scope transactions bytes opens).spends who).bytes⟩ := by
  cases hi
  case freely ho =>
    have hw : (Deed.granted origin scope transactions bytes opens).spends who = ⟨0, 0⟩ := by
      cases origin
      case signed w =>
        have hw : w ≠ who := fun hw => hl (hw ▸ ho)
        simp [spends, hw]
      all_goals rfl
    cases hd
    simpa [hw] using h
  case allowed w b _ hb _ =>
    have ⟨b', hc, hd⟩ := Option.map_eq_some_iff.mp hd
    subst hd
    simp only [spends]
    by_cases hw : w = who
    · subst hw
      have hb := Option.some.inj (h.lookup.symm.trans hb)
      subst hb
      have ⟨ht, hn, hb⟩ := (AuthorizerBudget.tryConsume_eq_some rfl).mp hc
      simp only [if_true]
      refine ⟨?_, ?_, ?_⟩
      · have := h.transactions_le
        dsimp at ht ⊢
        omega
      · have := h.bytes_le
        dsimp at hn ⊢
        omega
      · rw [withBudget, Finmap.lookup_insert, hb]
        simp [Nat.sub_sub]
    · simp only [hw, if_false, Nat.add_zero]
      exact ⟨h.transactions_le, h.bytes_le,
        (Finmap.lookup_insert_of_ne _ (Ne.symm hw)).trans h.lookup⟩

theorem does (hl : ¬T.isListedAuthorizer who) (h : g.Holds who budget quota spent)
    (hr : ¬d.registers who) (hd : Does now g d g') :
    g'.Holds who budget quota
      ⟨spent.transactions + (d.spends who).transactions, spent.bytes + (d.spends who).bytes⟩ := by
  cases hd
  case opened scope hi hd _ _ =>
    have h := debited scope true hl h hi hd
    exact ⟨h.transactions_le, h.bytes_le, by rw [put_allowedAuthorizers]; exact h.lookup⟩
  case added scope _ hi hd _ _ =>
    have h := debited scope false hl h hi hd
    exact ⟨h.transactions_le, h.bytes_le, h.lookup⟩
  case registered w b _ =>
    have hw : who ≠ w := fun hw => hr (by simp [registers, hw])
    exact ⟨h.transactions_le, h.bytes_le, by rw [register_lookup, if_neg hw]; exact h.lookup⟩
  case unregistered w b _ =>
    have hw : who ≠ w := fun hw => hr (by simp [registers, hw])
    exact ⟨h.transactions_le, h.bytes_le, (Finmap.lookup_erase_ne hw).trans h.lookup⟩
  case removed =>
    exact ⟨h.transactions_le, h.bytes_le, by rw [remove_allowedAuthorizers]; exact h.lookup⟩
  all_goals exact ⟨h.transactions_le, h.bytes_le, h.lookup⟩

end Holds
end Access

namespace Chain

variable {c c' : Chain T} {a : Action T}

-- A grant that fails does nothing at all.
theorem deeds_of_fails (hg : a.grants) (hf : c.fails a) : c.deeds a = [] := by
  cases a
  case extrinsic x =>
    simp only [deeds, Extrinsic.deeds]
    simp only [fails] at hf
    split
    case h_2 => rfl
    case h_1 origin s₁ ha =>
      have hs : x.call.subject c.state = none := by
        simp only [Action.grants, Action.grants.isGrant] at hg
        split at hg
        case h_1 hc | h_2 hc => rw [hc]; rfl
        case h_3             => contradiction
      rw [ha] at hf
      rw [RuntimeCall.payments_of_none (.inr hs), List.nil_append, RuntimeCall.dispatchDeeds]
      cases hd : x.call.dispatch s₁ origin
      case error => rfl
      case ok    => simp [hd, Except.isOk, Except.toBool] at hf
  case dispatch origin call =>
    simp only [fails] at hf
    simp only [deeds, RuntimeCall.dispatchDeeds]
    cases hd : call.dispatch c.state origin
    case error => rfl
    case ok    => simp [hd, Except.isOk, Except.toBool] at hf
  all_goals contradiction

theorem access_of_fails (hg : a.grants) (hf : c.fails a) (h : c.step a = some c') :
    c'.state.access = c.state.access := by
  have h := deeds_of_fails hg hf ▸ step_advances h
  obtain ⟨hf, _⟩ | ⟨_, ha, _, _⟩ := h
  case acts  => exact hf.nil_eq
  case opens => exact ha

end Chain

-- From its registration on, the budget of an authorizer is what it was registered with less what the
-- authorizer has handed out since, on both axes. A grant that fails changes nothing.
theorem budget_conserved {guard : Chain T → Action T → Prop} {c c' : Chain T} (who : T.AccountId)
    (hl : ¬T.isListedAuthorizer who)
    (hb : c.state.allowedAuthorizers.lookup who = some ⟨some quota, validUntil, feeless⟩)
    (r : Runs Chain.step guard c as c') (hr : ∀ e ∈ c.history as, ¬e.2.registers who) :
    let spent := spentBy who (c.history as)
    c'.state.allowedAuthorizers.lookup who = some ⟨some ⟨quota.transactions - spent.transactions,
        quota.bytes - spent.bytes⟩, validUntil, feeless⟩ ∧
      spent.transactions ≤ quota.transactions ∧ spent.bytes ≤ quota.bytes ∧
      ∀ a c'', a.grants → c'.fails a → c'.step a = some c'' → c''.state.access = c'.state.access := by
  have h := Chain.runs_history (I := fun _ g log => (∀ e ∈ log, ¬e.2.registers who) →
      g.Holds who ⟨some quota, validUntil, feeless⟩ quota (spentBy who log))
    (fun _ => ⟨Nat.zero_le _, Nat.zero_le _, hb⟩)
    (fun {_ _ d _ log} h hd hr => by
      rw [List.forall_mem_append, List.forall_mem_singleton] at hr
      simpa [spentBy] using (h hr.left).does hl hr.right hd)
    (fun h _ => h) r hr
  exact ⟨h.lookup, h.transactions_le, h.bytes_le, fun _ _ => Chain.access_of_fails⟩

theorem budget_conserved_granting :
    let g : GenesisConfig .mock := ⟨3, [((8 : Nat), 10, 100)], [], []⟩
    let as := granting.eraseIdx 1
    ∃ c, Runs Chain.step (fun _ _ => true) g.chain as c ∧
      spentBy (8 : Nat) (g.chain.history as) = ⟨3, 50⟩ ∧
      c.state.allowedAuthorizers.lookup (8 : Nat) = some ⟨some ⟨7, 50⟩, none, true⟩ := by
  intro g as
  have ⟨c, r, _⟩ := Runs.exists_of_any Chain.step (fun _ _ => true) g.chain as (fun _ => True)
    (by decide +kernel)
  have hs : spentBy (8 : Nat) (g.chain.history as) = ⟨3, 50⟩ := by decide +kernel
  have h := (budget_conserved (8 : Nat) (by decide) rfl r (by decide +kernel)).left
  simp only [hs] at h
  exact ⟨c, r, hs, h⟩

namespace AuthorizerBudget

variable {b : AuthorizerBudget}

-- A budget covers what is within its quota on both axes. No quota covers everything.
def Covers (b : AuthorizerBudget) (transactions bytes : Nat) : Prop :=
  ∀ q, b.quota = some q → transactions ≤ q.transactions ∧ bytes ≤ q.bytes

theorem tryConsume_isSome : (∃ b', b.tryConsume transactions bytes = some b') ↔
    b.Covers transactions bytes := by
  cases hq : b.quota
  case none =>
    simp [tryConsume, Covers, hq]
  case some q =>
    simp only [tryConsume_eq_some hq, Covers, hq, Option.some.injEq, forall_eq']
    constructor
    case mp  => intro ⟨_, ht, hb, _⟩; exact ⟨ht, hb⟩
    case mpr => intro ⟨ht, hb⟩; exact ⟨_, ht, hb, rfl⟩

theorem isExhausted_iff :
    b.isExhausted ↔ ∃ q, b.quota = some q ∧ (q.transactions = 0 ∨ q.bytes = 0) := by
  cases hq : b.quota <;> simp [isExhausted, hq]

-- With one axis at zero only a grant of nothing on that axis is covered.
theorem Covers.of_isExhausted (h : b.Covers transactions bytes) (he : b.isExhausted) (hb : 0 < bytes) :
    transactions = 0 := by
  have ⟨q, hq, hz⟩ := isExhausted_iff.mp he
  have ⟨ht, hn⟩ := h q hq
  omega

theorem covers_one (h : ¬b.isExhausted) : b.Covers 1 1 := by
  intro q hq
  have hz : ¬(q.transactions = 0 ∨ q.bytes = 0) := fun hz => h <| isExhausted_iff.mpr ⟨q, hq, hz⟩
  omega

end AuthorizerBudget

namespace State

variable {s : State T}

theorem authorize_isOk {auth : Option (AuthorizationOrigin T)} :
    (∃ s', s.authorize scope transactions bytes auth = ok s') ↔
      ∃ s', s.consumeBudgetOf auth transactions bytes = ok s' := by
  simp only [authorize, bind_eq_ok]
  constructor
  case mp => intro ⟨_, s', h, _⟩; exact ⟨s', h⟩
  case mpr =>
    intro ⟨s₁, h⟩
    cases ha : s₁.authorizations.lookup scope
    case none   => exact ⟨_, s₁, h, by rw [ha]; rfl⟩
    case some a => exact ⟨_, s₁, h, by rw [ha]; rfl⟩

theorem consumeAuthorizerBudget_isOk {b : AuthorizerBudget}
    (hb : s.allowedAuthorizers.lookup who = some b) :
    (∃ s', s.consumeAuthorizerBudget who transactions bytes = ok s') ↔
      b.Covers transactions bytes := by
  rw [← AuthorizerBudget.tryConsume_isSome]
  simp only [consumeAuthorizerBudget, hb]
  cases b.tryConsume transactions bytes <;> simp

theorem ensureAuthorizer_signed {b : AuthorizerBudget} (hl : ¬T.isListedAuthorizer who)
    (hb : s.allowedAuthorizers.lookup who = some b) :
    s.ensureAuthorizer (.signed who) =
      if b.isExpired s.blockNumber then none else some (some ⟨who, b.validUntil, b.feeless⟩) := by
  simp only [ensureAuthorizer, ensureAllowedAuthorizers, hl, hb]
  rfl

end State

namespace TransactionStorage.Call

-- The calls that grant an authorization, with what they grant.
def grant : Call T → Option Quota
  | authorizeAccount _ transactions bytes => some ⟨transactions, bytes⟩
  | authorizePreimage _ maxSize           => some ⟨1, maxSize⟩
  | _                                     => none

end TransactionStorage.Call

-- The body that the two granting calls share, for an authorizer that has no other right than its
-- budget.
theorem State.issue_isOk {s : State T} {b : AuthorizerBudget} (hl : ¬T.isListedAuthorizer who)
    (hb : s.allowedAuthorizers.lookup who = some b) (e : Event T) :
    (∃ s', (do
      let authorizer ← okOr (s.ensureAuthorizer (.signed who)) .badOrigin
      ensure (0 < bytes) .badDataSize
      let s ← s.authorize scope transactions bytes authorizer
      return s.deposit e : Except DispatchError (State T)) = ok s') ↔
    ¬b.isExpired s.blockNumber ∧ 0 < bytes ∧ b.Covers transactions bytes := by
  rw [ensureAuthorizer_signed hl hb, ← consumeAuthorizerBudget_isOk hb]
  simp only [bind_eq_ok, okOr_eq_ok, ensure_eq_ok, pure_eq_ok]
  by_cases he : b.isExpired s.blockNumber
  · simp [he]
  · rw [if_neg he]
    constructor
    case mp =>
      rintro ⟨_, _, ha, _, hn, s₁, h, _⟩
      cases ha
      exact ⟨he, hn, authorize_isOk.mp ⟨s₁, h⟩⟩
    case mpr =>
      rintro ⟨_, hn, h⟩
      have h : ∃ s₁, s.authorize scope transactions bytes (some ⟨who, b.validUntil, b.feeless⟩) = ok s₁ :=
        authorize_isOk.mpr h
      exact ⟨_, _, rfl, (), hn, _, h.choose_spec, rfl⟩

theorem grant_isOk {s : State T} {b : AuthorizerBudget} {call : TransactionStorage.Call T}
    (hl : ¬T.isListedAuthorizer who) (hb : s.allowedAuthorizers.lookup who = some b)
    (hg : call.grant = some q) :
    (∃ s', TransactionStorage.dispatch s (.signed who) call = ok s') ↔
      ¬b.isExpired s.blockNumber ∧ 0 < q.bytes ∧ b.Covers q.transactions q.bytes := by
  cases call
  case authorizeAccount | authorizePreimage =>
    cases hg
    exact State.issue_isOk hl hb _
  all_goals contradiction

-- The call fails, and the storage layer of its dispatch leaves nothing behind.
def FailsCleanly (s : State T) (origin : Origin T) (call : TransactionStorage.Call T) : Prop :=
  (∃ e, TransactionStorage.dispatch s origin call = error e) ∧
    Extrinsic.dispatched s origin (.transactionStorage call) = s

theorem failsCleanly_iff {s : State T} {call : TransactionStorage.Call T} :
    FailsCleanly s origin call ↔ ¬∃ s', TransactionStorage.dispatch s origin call = ok s' := by
  have hd : RuntimeCall.dispatch s origin (.transactionStorage call) =
    TransactionStorage.dispatch s origin call := rfl
  simp only [FailsCleanly, Extrinsic.dispatched, hd]
  cases TransactionStorage.dispatch s origin call <;> simp

-- The grants of an authorizer that has no other right than its budget. An inactive budget backs no
-- grant but one of bytes alone, when the transactions are used up and the bytes are not. An active one
-- backs the smallest grant. Inactive authorizers pay fees and can be removed by anyone.
theorem inactive_budget_grants {s : State T} {budget : AuthorizerBudget} (who : T.AccountId)
    (hl : ¬T.isListedAuthorizer who) (hb : s.allowedAuthorizers.lookup who = some budget) :
    (budget.isInactive s.blockNumber →
      (∀ w transactions bytes,
        FailsCleanly s (.signed who) (.authorizeAccount w transactions bytes) ↔
          budget.isExpired s.blockNumber ∨ transactions ≠ 0 ∨ bytes = 0 ∨
            ∃ q, budget.quota = some q ∧ q.bytes < bytes) ∧
      (∀ contentHash maxSize,
        FailsCleanly s (.signed who) (.authorizePreimage contentHash maxSize)) ∧
      ¬s.isFeelessAuthorizer (.signed who) ∧ ∃ s', s.removeExhaustedAuthorizer who = ok s') ∧
    (¬budget.isInactive s.blockNumber → ∀ w contentHash,
      (∃ s', TransactionStorage.dispatch s (.signed who) (.authorizeAccount w 1 1) = ok s') ∧
      ∃ s', TransactionStorage.dispatch s (.signed who) (.authorizePreimage contentHash 1) = ok s') := by
  have hi : budget.isInactive s.blockNumber ↔ budget.isExhausted ∨ budget.isExpired s.blockNumber := by
    simp [AuthorizerBudget.isInactive]
  refine ⟨fun h => ⟨fun w transactions bytes => ?_, fun contentHash maxSize => ?_, ?_, ?_⟩,
    fun h w contentHash => ?_⟩
  · rw [failsCleanly_iff, grant_isOk hl hb rfl]
    by_cases he : budget.isExpired s.blockNumber
    · simp [he]
    · have hx := (hi.mp h).resolve_right he
      obtain ⟨q, hq, hz⟩ := AuthorizerBudget.isExhausted_iff.mp hx
      simp only [he, hq, AuthorizerBudget.Covers, Option.some.injEq, exists_eq_left', forall_eq',
        Bool.false_eq_true, not_false_eq_true, true_and, false_or]
      omega
  · rw [failsCleanly_iff, grant_isOk hl hb rfl]
    rintro ⟨he, hn, hc⟩
    exact absurd (hc.of_isExhausted ((hi.mp h).resolve_right he) hn) nofun
  · simp only [State.isFeelessAuthorizer, State.ensureAuthorizer_signed hl hb]
    split
    case h_1 ctx hc =>
      split at hc
      case isTrue  => contradiction
      case isFalse => cases hc; simp [hb, h]
    case h_2 => simp
  · simp [State.removeExhaustedAuthorizer, hb, h, okOr, ensure, pure, Except.pure]
  · obtain ⟨hx, he⟩ := not_or.mp <| mt hi.mpr h
    have hc := AuthorizerBudget.covers_one hx
    exact ⟨(grant_isOk hl hb rfl).mpr ⟨he, Nat.one_pos, hc⟩,
      (grant_isOk hl hb rfl).mpr ⟨he, Nat.one_pos, hc⟩⟩

-- An authorizer with transactions for two grants that used them up.
def exhausting : List (Action .mock) :=
  granting.eraseIdx 1

theorem inactive_budget_grants_exhausting :
    let g : GenesisConfig .mock := ⟨3, [((8 : Nat), 3, 100)], [], []⟩
    ∃ c, Runs Chain.step (fun _ _ => true) g.chain exhausting c ∧
      c.state.allowedAuthorizers.lookup (8 : Nat) = some ⟨some ⟨0, 50⟩, none, true⟩ ∧
      ¬Config.mock.isListedAuthorizer (8 : Nat) ∧
      FailsCleanly c.state (.signed (8 : Nat)) (.authorizeAccount (7 : Nat) 1 50) := by
  intro g
  have ⟨c, r, hb⟩ := Runs.exists_of_any Chain.step (fun _ _ => true) g.chain exhausting
    (fun c => c.state.allowedAuthorizers.lookup (8 : Nat) = some ⟨some ⟨0, 50⟩, none, true⟩)
    (by decide +kernel)
  have hl : ¬Config.mock.isListedAuthorizer (8 : Nat) := by decide
  have hi : AuthorizerBudget.isInactive ⟨some ⟨0, 50⟩, none, true⟩ c.state.blockNumber := rfl
  have h := ((inactive_budget_grants (T := .mock) (8 : Nat) hl hb).left hi).left (7 : Nat) 1 50
  exact ⟨c, r, hb, hl, h.mpr (.inr (.inl Nat.one_ne_zero))⟩

-- Their budget is inactive, and yet they grant the bytes that are left.
theorem inactive_budget_still_grants :
    let g : GenesisConfig .mock := ⟨3, [((8 : Nat), 3, 100)], [], []⟩
    ∃ c, Runs Chain.step (fun _ _ => true) g.chain exhausting c ∧
      ((c.state.allowedAuthorizers.lookup (8 : Nat)).any (·.isInactive c.state.blockNumber) ∧
        ¬Config.mock.isListedAuthorizer (8 : Nat) ∧
        (TransactionStorage.dispatch c.state (.signed (8 : Nat))
          (.authorizeAccount (7 : Nat) 0 50)).isOk) := by
  intro g
  exact Runs.exists_of_any Chain.step (fun _ _ => true) g.chain exhausting _ (by decide +kernel)

end Bulletin
