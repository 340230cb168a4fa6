import BulletinChain.Runtime.Boost
import BulletinChain.Theorems.Access

namespace Bulletin

open Machine Except Access

variable {T : Config} {e e' : AuthorizationExtent}

namespace AuthorizationExtent

-- The counters and the allowances fit their types, `u32` for transactions and `u64` for bytes.
structure InRange (e : AuthorizationExtent) : Prop where
  transactions          : e.transactions ≤ u32Max
  transactionsAllowance : e.transactionsAllowance ≤ u32Max
  bytes                 : e.bytes ≤ u64Max
  bytesAllowance        : e.bytesAllowance ≤ u64Max

-- From `e` to `e'` the counters only grow and the allowances only get smaller.
structure Tightens (e e' : AuthorizationExtent) : Prop where
  transactions          : e.transactions ≤ e'.transactions
  transactionsAllowance : e'.transactionsAllowance ≤ e.transactionsAllowance
  bytes                 : e.bytes ≤ e'.bytes
  bytesAllowance        : e'.bytesAllowance ≤ e.bytesAllowance

-- Without an allowance of bytes, or with more used than allowed on one of the axes.
def Overdrawn (e : AuthorizationExtent) : Prop :=
  e.bytesAllowance < e.bytes ∨ e.transactionsAllowance < e.transactions ∨ e.bytesAllowance = 0

theorem inBudget_iff : e.inBudget = true ↔ ¬e.Overdrawn := by
  simp only [inBudget, Overdrawn]
  split <;> simp_all

theorem Overdrawn.inBudget (h : e.Overdrawn) : e.inBudget = false :=
  Bool.eq_false_iff.mpr fun hb => inBudget_iff.mp hb h

theorem default_inRange : default.InRange :=
  ⟨Nat.zero_le _, Nat.zero_le _, Nat.zero_le _, Nat.zero_le _⟩

-- The extent after a store, as the charge for it leaves it.
def stored (e : AuthorizationExtent) (size : Nat) : AuthorizationExtent :=
  { e with
    bytes        := saturatingAdd u64Max e.bytes size
    transactions := saturatingAdd u32Max e.transactions 1 }

theorem InRange.stored (h : e.InRange) (size : Nat) : (e.stored size).InRange where
  transactions          := saturatingAdd_le
  transactionsAllowance := h.transactionsAllowance
  bytes                 := saturatingAdd_le
  bytesAllowance        := h.bytesAllowance

namespace Tightens

theorem refl (e : AuthorizationExtent) : e.Tightens e :=
  ⟨Nat.le_refl _, Nat.le_refl _, Nat.le_refl _, Nat.le_refl _⟩

theorem trans {e'' : AuthorizationExtent} (h : e.Tightens e') (h' : e'.Tightens e'') :
    e.Tightens e'' where
  transactions          := Nat.le_trans h.transactions h'.transactions
  transactionsAllowance := Nat.le_trans h'.transactionsAllowance h.transactionsAllowance
  bytes                 := Nat.le_trans h.bytes h'.bytes
  bytesAllowance        := Nat.le_trans h'.bytesAllowance h.bytesAllowance

theorem stored (h : e.Tightens e') (size : Nat) : (e.stored size).Tightens (e'.stored size) where
  transactions          := saturatingAdd_mono h.transactions
  transactionsAllowance := h.transactionsAllowance
  bytes                 := saturatingAdd_mono h.bytes
  bytesAllowance        := h.bytesAllowance

theorem overdrawn (h : e.Tightens e') (ho : e.Overdrawn) : e'.Overdrawn := by
  have ⟨_, _, _, _⟩ := h
  simp only [Overdrawn] at ho ⊢
  omega

end Tightens
end AuthorizationExtent

open AuthorizationExtent

-- What is asked of a strategy: it has a value for every extent, in the bounds of the boost, and no
-- more for less of an allowance.
structure BoostStrategy.Lawful (B : BoostStrategy) : Prop where
  total     : ∀ {e}, e.InRange → ∃ p, B e = some p ∧ p ≤ allowancePriorityBoost
  overdrawn : ∀ {e}, e.InRange → e.Overdrawn → B e = some 0
  antitone  : ∀ {e e' p p'}, e.InRange → e'.InRange → e.Tightens e' →
    B e = some p → B e' = some p' → p' ≤ p

namespace ProportionalBoost

-- The lesser of the two shares. The quotient by an allowance of zero is zero.
def share (e : AuthorizationExtent) : Nat :=
  min (allowancePriorityBoost * (e.bytesAllowance - e.bytes) / e.bytesAllowance)
    (allowancePriorityBoost * (e.transactionsAllowance - e.transactions) / e.transactionsAllowance)

theorem share_le : share e ≤ allowancePriorityBoost :=
  Nat.le_trans (Nat.min_le_left ..) (share_le_self _)

theorem share_antitone (h : e.Tightens e') : share e' ≤ share e :=
  min_le_min (Machine.share_le _ h.bytes h.bytesAllowance)
    (Machine.share_le _ h.transactions h.transactionsAllowance)

-- The products of the boost with a `u64` fit `u128`.
theorem product_le (h : n ≤ u64Max) (m : Nat) : allowancePriorityBoost * (n - m) ≤ u128Max := by
  simp only [allowancePriorityBoost, u64Max, u128Max] at h ⊢
  omega

theorem boost_eq (h : e.InRange) : boost e = some (if e.inBudget then share e else 0) := by
  simp only [boost]
  split
  case isTrue hb  => simp_all
  case isFalse hb =>
    have hb : e.inBudget = true := by simpa using hb
    have ha : 0 < e.bytesAllowance := by
      have hn := inBudget_iff.mp hb
      simp only [Overdrawn] at hn
      omega
    have ht : e.transactionsAllowance ≤ u64Max := Nat.le_trans h.transactionsAllowance (by decide)
    have hc : share e % 2 ^ 64 = share e :=
      Nat.mod_eq_of_lt <| Nat.lt_of_le_of_lt share_le (by decide)
    simp only [checkedMul_of_le (product_le h.bytesAllowance _), checkedMul_of_le (product_le ht _),
      checkedDiv_of_pos ha, Option.bind_eq_bind, Option.bind_some, Option.pure_def, hb, if_true]
    split
    case isTrue hz =>
      rw [show min _ 0 = share e by simp [share, hz]]
      exact congrArg some hc
    case isFalse hz =>
      rw [checkedDiv_of_pos (Nat.pos_of_ne_zero hz)]
      exact congrArg some hc

end ProportionalBoost

theorem FlatBoost.boost_eq :
    FlatBoost.boost e = some (if e.inBudget then allowancePriorityBoost else 0) := by
  simp only [FlatBoost.boost]
  split <;> rfl

namespace BoostStrategy

-- A strategy that only looks at an extent in budget, where its value is bounded and antitone.
theorem Lawful.of_inBudget {B : BoostStrategy} (f : AuthorizationExtent → Nat)
    (h : ∀ {e}, e.InRange → B e = some (if e.inBudget then f e else 0))
    (hb : ∀ {e}, f e ≤ allowancePriorityBoost) (ha : ∀ {e e'}, e.Tightens e' → f e' ≤ f e) :
    B.Lawful where
  total hr := by
    refine ⟨_, h hr, ?_⟩
    split
    case isTrue  => exact hb
    case isFalse => exact Nat.zero_le _
  overdrawn hr ho := by simp [h hr, ho.inBudget]
  antitone {e e' p p'} hr hr' ht hp hp' := by
    rw [h hr] at hp
    rw [h hr'] at hp'
    cases hp
    cases hp'
    split
    case isFalse     => exact Nat.zero_le _
    case isTrue hb'  =>
      have hb : e.inBudget = true := inBudget_iff.mpr fun ho => inBudget_iff.mp hb' (ht.overdrawn ho)
      rw [if_pos hb]
      exact ha ht

theorem proportional_lawful : Lawful ProportionalBoost.boost :=
  .of_inBudget _ ProportionalBoost.boost_eq ProportionalBoost.share_le
    ProportionalBoost.share_antitone

theorem flat_lawful : Lawful FlatBoost.boost :=
  .of_inBudget (fun _ => allowancePriorityBoost) (fun _ => FlatBoost.boost_eq) (Nat.le_refl _)
    fun _ => Nat.le_refl _

end BoostStrategy

-- The authorization of a scope, if there is one, is at most what is left of the extent `e`.
def Access.Within (g : Access T) (scope : AuthorizationScope T) (e : AuthorizationExtent) : Prop :=
  ∀ a, g.authorizations.lookup scope = some a → e.Tightens a.extent ∧ a.extent.InRange

-- Every deed but a grant to the scope keeps it so. A refresh moves the end of the window only.
theorem Access.Within.does {g g' : Access T} {scope : AuthorizationScope T} {d : Deed T}
    (h : g.Within scope e) (hd : Deed.Does now g d g')
    (hg : ∀ origin transactions bytes opens, d ≠ .granted origin scope transactions bytes opens) :
    g'.Within scope e := by
  have hm := hd.moves scope
  simp only [Within]
  generalize g'.authorizations.lookup scope = x at hm
  intro a' ha
  cases hm
  case aside => exact h a' ha
  case stored a size hl =>
    cases ha
    have ⟨ht, hr⟩ := h a (active_eq_some.mp hl).left
    exact ⟨ht.trans ⟨le_saturatingAdd hr.transactions, Nat.le_refl _, le_saturatingAdd hr.bytes,
      Nat.le_refl _⟩, hr.stored size⟩
  case renewed a size hl _ =>
    cases ha
    have ⟨ht, hr⟩ := h a (active_eq_some.mp hl).left
    exact ⟨ht.trans ⟨le_saturatingAdd hr.transactions, Nat.le_refl _, Nat.le_refl _, Nat.le_refl _⟩,
      saturatingAdd_le, hr.transactionsAllowance, hr.bytes, hr.bytesAllowance⟩
  case opened | added => exact absurd rfl (hg _ _ _ _)
  case refreshed hl =>
    cases ha
    have ⟨ht, hr⟩ := h _ hl
    exact ⟨ht, hr⟩
  case removed => contradiction

theorem Chain.runs_within {guard : Chain T → Action T → Prop} {c c' : Chain T} {as : List (Action T)}
    {scope : AuthorizationScope T} (h : c.state.access.Within scope e)
    (r : Runs Chain.step guard c as c')
    (hg : ∀ x ∈ c.history as, ∀ origin transactions bytes opens,
      x.2 ≠ .granted origin scope transactions bytes opens) :
    c'.state.access.Within scope e := by
  let I (_ : Nat) (g : Access T) (log : List (Nat × Deed T)) : Prop :=
    (∀ x ∈ log, ∀ origin transactions bytes opens,
      x.2 ≠ .granted origin scope transactions bytes opens) → g.Within scope e
  refine Chain.runs_history (I := I) (fun _ => h) ?_ (fun h _ => h) r hg
  intro now g d g' log h hd hg
  have hl := h fun x hx => hg x (List.mem_append_left _ hx)
  exact hl.does hd (hg (now, d) (List.mem_append_right _ (List.mem_singleton_self _)))

namespace AllowanceBasedPriority

variable {B : BoostStrategy} {s : State T} {call : TransactionStorage.Call T}

theorem validate_eq (hc : call.content = some (data, hashing)) (origin : Origin T) :
    validate B s origin (.transactionStorage call) =
      (priority B s origin data.len).map fun priority =>
        ({ ValidTransaction.default with priority }, origin) := by
  cases call <;> cases hc
  case store | storeWithCidConfig => cases h : priority B s origin data.len <;> simp [validate, h]

theorem priority_account (who w : T.AccountId) (size : Nat) :
    priority B s (.authorized who (.account w)) size =
      B ((s.accountAuthorizationExtent who).stored size) :=
  rfl

end AllowanceBasedPriority

theorem State.lookup_of_active {s : State T} {scope : AuthorizationScope T}
    (h : s.activeAuthorization scope = some a) :
    s.authorizations.lookup scope = some a ∧ a.expired s.blockNumber = false :=
  active_eq_some.mp <| active_access.trans h

theorem State.authorizationExtent_of_active {s : State T} {scope : AuthorizationScope T}
    (h : s.activeAuthorization scope = some a) : s.authorizationExtent scope = a.extent := by
  have ⟨hl, he⟩ := lookup_of_active h
  simp [authorizationExtent, hl, he]

-- What is read of a scope is its authorization's extent, or the empty one.
theorem State.authorizationExtent_cases (s : State T) (scope : AuthorizationScope T) :
    s.authorizationExtent scope = .default ∨
      ∃ a, s.authorizations.lookup scope = some a ∧ s.authorizationExtent scope = a.extent := by
  simp only [authorizationExtent]
  split
  case h_1      => exact .inl rfl
  case h_2 a ha =>
    split
    case isTrue  => exact .inl rfl
    case isFalse => exact .inr ⟨a, ha, rfl⟩

-- A store that is charged to an account finds the account's authorization active.
theorem ValidateAuthorizedCalls.validate_active {s : State T} {call : TransactionStorage.Call T}
    (hc : call.content = some (data, hashing))
    (h : (validate (.signed who) (.transactionStorage call) s).1 =
      ok (v, val, .authorized who (.account who))) :
    ∃ a, s.activeAuthorization (.account who) = some a := by
  have hv := validate_carriesOut s who (.transactionStorage call)
  rw [Verdict.tree_storage] at hv
  cases hs : Verdict.storageSigned s who call
  case error =>
    rw [hs] at hv
    rw [show _ = _ from hv] at h
    contradiction
  case ok w =>
    rw [hs] at hv
    have ⟨x, ⟨ho, _⟩, hx⟩ := hv
    rw [hx] at h
    cases h
    have hw : Verdict.storeSigned s who data.len (T.hash hashing data.bytes) = ok w := by
      cases call <;> cases hc <;> exact hs
    have ⟨_, _, hw⟩ := bind_eq_ok.mp hw
    obtain hw | ⟨_, hw⟩ := Verdict.orElse_eq_ok.mp hw
    all_goals
      have ⟨a, ha, hw⟩ := Verdict.storeWith_eq_ok.mp hw
      subst hw
      cases ho
    exact ⟨a, ha⟩

-- A store that is validated once more after any run without a grant to the account.
theorem BoostStrategy.Lawful.runs {B : BoostStrategy} (hB : B.Lawful)
    {guard : Chain T → Action T → Prop} {c c' : Chain T} {as : List (Action T)} {who : T.AccountId}
    (r : Runs Chain.step guard c as c') (ha : c.state.activeAuthorization (.account who) = some a)
    (hr : a.extent.InRange)
    (hg : ∀ x ∈ c.history as, ∀ origin transactions bytes opens,
      x.2 ≠ .granted origin (.account who) transactions bytes opens) (size : Nat) :
    ∃ p p', AllowanceBasedPriority.priority B c.state (.authorized who (.account who)) size = some p ∧
      AllowanceBasedPriority.priority B c'.state (.authorized who (.account who)) size = some p' ∧
      p' ≤ p := by
  have hl : c.state.authorizations.lookup (.account who) = some a := (State.lookup_of_active ha).left
  have hw : c.state.access.Within (.account who) a.extent := by
    intro a' ha'
    cases hl.symm.trans ha'
    exact ⟨.refl _, hr⟩
  have hw := Chain.runs_within hw r hg
  have ⟨p, hp, _⟩ := hB.total (hr.stored size)
  simp only [AllowanceBasedPriority.priority_account, State.accountAuthorizationExtent,
    State.authorizationExtent_of_active ha]
  refine ⟨p, ?_⟩
  obtain he | ⟨a', ha', he⟩ := c'.state.authorizationExtent_cases (.account who)
  case inl =>
    rw [he]
    exact ⟨0, hp, hB.overdrawn (default_inRange.stored size) (.inr (.inr rfl)), Nat.zero_le p⟩
  case inr =>
    have ⟨ht, hr'⟩ := hw a' ha'
    have ⟨p', hp', _⟩ := hB.total (hr'.stored size)
    rw [he]
    exact ⟨p', hp, hp', hB.antitone (hr.stored size) (hr'.stored size) (ht.stored size) hp hp'⟩

open ValidateAuthorizedCalls in
-- Both strategies are exact and lawful, the proportional one is at most the flat one, and a store that
-- is charged to an account is not boosted more when the same data is validated again later, unless
-- there was a grant to the account in between.
theorem boost_laws (T : Config) :
    (∀ e : AuthorizationExtent, e.InRange → ∃ p f,
      ProportionalBoost.boost e = some p ∧ p = (if e.inBudget then ProportionalBoost.share e else 0) ∧
      FlatBoost.boost e = some f ∧ p ≤ f ∧ f ≤ 10 ^ 9) ∧
    ∀ B : BoostStrategy, B = ProportionalBoost.boost ∨ B = FlatBoost.boost → B.Lawful ∧
      ∀ (guard : Chain T → Action T → Prop) (c c' : Chain T) (as : List (Action T)) (who : T.AccountId)
        (call call' : TransactionStorage.Call T) (data : Data) (hashing hashing' : HashingAlgorithm),
        let origin : Origin T := .authorized who (.account who)
        call.content = some (data, hashing) → call'.content = some (data, hashing') →
        (∃ v val, (validate (.signed who) (.transactionStorage call) c.state).1 = ok (v, val, origin)) →
        (∀ a, c.state.authorizations.lookup (.account who) = some a → a.extent.InRange) →
        Runs Chain.step guard c as c' →
        (∀ x ∈ c.history as, ∀ granter transactions bytes opens,
          x.2 ≠ .granted granter (.account who) transactions bytes opens) →
        ∃ w w',
          AllowanceBasedPriority.validate B c.state origin (.transactionStorage call) =
            some (w, origin) ∧
          AllowanceBasedPriority.validate B c'.state origin (.transactionStorage call') =
            some (w', origin) ∧
          w'.priority ≤ w.priority := by
  refine ⟨fun e hr => ?_, fun B hB => ?_⟩
  · refine ⟨_, _, ProportionalBoost.boost_eq hr, rfl, FlatBoost.boost_eq, ?_, ?_⟩
    · split
      case isTrue  => exact ProportionalBoost.share_le
      case isFalse => exact Nat.le_refl 0
    · split <;> decide
  · have hB : B.Lawful := by
      cases hB
      case inl h => exact h ▸ BoostStrategy.proportional_lawful
      case inr h => exact h ▸ BoostStrategy.flat_lawful
    refine ⟨hB, ?_⟩
    intro guard c c' as who call call' data _ _ origin hc hc' ⟨_, _, hv⟩ hr r hg
    have ⟨a, ha⟩ := validate_active hc hv
    have ⟨p, p', hp, hp', h⟩ := hB.runs r ha (hr a (State.lookup_of_active ha).left) hg data.len
    simp only [AllowanceBasedPriority.validate_eq hc, AllowanceBasedPriority.validate_eq hc']
    rw [hp, hp']
    exact ⟨_, _, rfl, rfl, h⟩

-- What is decided of the run below: who pays, and whether there are grants.

def Origin.paysItself (who : T.AccountId) : Origin T → Bool
  | .authorized w (.account v) => w = who ∧ v = who
  | _                          => false

def Deed.isGrant : Deed T → Bool
  | .granted .. => true
  | _           => false

theorem Origin.eq_of_paysItself {who : T.AccountId} {origin : Origin T} (h : origin.paysItself who) :
    origin = .authorized who (.account who) := by
  cases origin
  case authorized w scope =>
    cases scope
    case account v =>
      have ⟨hw, hv⟩ := of_decide_eq_true h
      rw [hw, hv]
    case preimage => contradiction
  all_goals contradiction

-- An account with room for one store of three bytes is boosted once.
theorem boost_laws_storing :
    let g : GenesisConfig .mock := ⟨3, [], [((7 : Nat), 2, 3)], []⟩
    let call : TransactionStorage.Call .mock := .store ⟨[1, 2, 3], by decide⟩
    let origin : Origin .mock := .authorized (7 : Nat) (.account (7 : Nat))
    let c := ⟨Chain.initialized g.build [] 0, true⟩
    ∃ c' w w', Runs Chain.step (fun _ _ => true) c
        [.extrinsic (.signed (7 : Nat) (.transactionStorage call))] c' ∧
      AllowanceBasedPriority.validate FlatBoost.boost c.state origin (.transactionStorage call) =
        some (w, origin) ∧
      AllowanceBasedPriority.validate FlatBoost.boost c'.state origin (.transactionStorage call) =
        some (w', origin) ∧
      w'.priority ≤ w.priority := by
  intro g call origin c
  obtain ⟨c', r, _⟩ := Runs.exists_of_any Chain.step (fun _ _ => true) c
    [.extrinsic (.signed (7 : Nat) (.transactionStorage call))] (fun _ => True) (by decide +kernel)
  have hv : ∃ v val, (ValidateAuthorizedCalls.validate (.signed (7 : Nat))
      (.transactionStorage call) c.state).1 = ok (v, val, origin) := by
    have hs : (ValidateAuthorizedCalls.validate (.signed (7 : Nat)) (.transactionStorage call)
        c.state).1.toOption.any (·.2.2.paysItself (7 : Nat)) := by decide +kernel
    obtain ⟨⟨v, val, o⟩, hv, ho⟩ := (Option.any_eq_true ..).mp hs
    cases Origin.eq_of_paysItself ho
    exact ⟨v, val, toOption_eq_some.mp hv⟩
  have hg : (c.history [.extrinsic (.signed (7 : Nat) (.transactionStorage call))]).all
      (!·.2.isGrant) := by decide +kernel
  obtain ⟨_, h⟩ := (boost_laws .mock).right FlatBoost.boost (.inr rfl)
  obtain ⟨w, w', h⟩ := h (fun _ _ => true) c c' _ (7 : Nat) call call _ _ _ rfl rfl hv
    (by
      intro a ha
      cases ha
      exact ⟨by decide, by decide, by decide, by decide⟩) r
    (by
      intro x hx _ _ _ _ he
      have hn := List.all_eq_true.mp hg x hx
      rw [he] at hn
      contradiction)
  exact ⟨c', w, w', r, h⟩

end Bulletin
