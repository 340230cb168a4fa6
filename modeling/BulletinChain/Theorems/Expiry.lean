import BulletinChain.Theorems.Budgets

namespace Bulletin

open Machine Except Deed Access

variable {T : Config}

namespace TransactionStorage.Call

-- The scope whose authorization a call grants or refreshes.
def authorizes : Call T → Option (AuthorizationScope T)
  | .authorizeAccount who _ _ | .refreshAccountAuthorization who   => some (.account who)
  | .authorizePreimage hash _ | .refreshPreimageAuthorization hash => some (.preimage hash)
  | _                                                              => none

def isRefresh : Call T → Bool
  | .refreshAccountAuthorization _ | .refreshPreimageAuthorization _ => true
  | _                                                                => false

end TransactionStorage.Call

-- Somebody other than the authorizer grants or refreshes the scope, or lets the authorizer go on for
-- longer.
def Deed.prolongs (who : T.AccountId) (scope : AuthorizationScope T) : Deed T → Prop
  | .granted origin s _ _ _ | .refreshed origin s => s = scope ∧ origin ≠ .signed who
  | .registered w _                               => w = who
  | _                                             => False

variable {s s' : State T} {g g' : Access T} {scope : AuthorizationScope T} {who : T.AccountId}
  {origin : Origin T} {issuer : Option (Issuer T)} {d : Deed T} {call : TransactionStorage.Call T}

namespace Access

theorem expiration_le : expiration T now issuer ≤
    saturatingAdd maxBlockNumber now T.authorizationPeriod := by
  simp only [expiration]
  split
  case h_1 => exact Nat.min_le_left ..
  case h_2 => exact Nat.le_refl _

theorem expiration_allowed (h : b.validUntil = some t) :
    expiration T now (some (who, b)) =
      min (saturatingAdd maxBlockNumber now T.authorizationPeriod) t := by
  simp [expiration, h]

theorem expiration_unlimited (h : ∀ i ∈ issuer, i.2.validUntil = none) :
    expiration T now issuer = saturatingAdd maxBlockNumber now T.authorizationPeriod := by
  cases issuer
  case none   => rfl
  case some i => simp [expiration, h i rfl]

-- An account that is not listed authorizes with its own budget.
theorem Issues.of_signed (h : g.Issues now (.signed who) issuer) (hl : ¬T.isListedAuthorizer who) :
    ∃ b, g.allowedAuthorizers.lookup who = some b ∧ issuer = some (who, b) := by
  cases h
  case freely h         => exact absurd h hl
  case allowed b _ _ hb => exact ⟨b, hb, rfl⟩

end Access

theorem AuthorizerBudget.tryConsume_validUntil {b b' : AuthorizerBudget}
    (h : b.tryConsume transactions bytes = some b') : b'.validUntil = b.validUntil := by
  cases hq : b.quota
  case none =>
    simp only [tryConsume, hq] at h
    cases h
    rfl
  case some q =>
    obtain ⟨_, _, h⟩ := (tryConsume_eq_some hq).mp h
    exact h ▸ rfl

namespace TransactionStorage

-- A grant or a refresh is one deed.
theorem dispatch_authorizes (hc : call.authorizes = some scope)
    (h : dispatch s origin call = ok s') :
    (call.isRefresh ∧ Does s.blockNumber s.access (.refreshed origin scope) s'.access) ∨
      ∃ transactions bytes, call.isRefresh = false ∧ Does s.blockNumber s.access
        (.granted origin scope transactions bytes (s.activeAuthorization scope).isNone) s'.access := by
  have h := dispatch_follows h
  cases call <;> cases hc
  case authorizeAccount | authorizePreimage => exact .inr ⟨_, _, rfl, h.does⟩
  case refreshAccountAuthorization | refreshPreimageAuthorization => exact .inl ⟨rfl, h.does⟩

end TransactionStorage

namespace Deed

theorem Does.debited_validUntil (h : g.debited transactions bytes issuer = some g')
    (hi : g.Issues now origin issuer) (hb : g'.allowedAuthorizers.lookup who = some b) :
    ∃ b', g.allowedAuthorizers.lookup who = some b' ∧ b.validUntil = b'.validUntil := by
  cases hi
  case freely =>
    cases h
    exact ⟨b, hb, rfl⟩
  case allowed w b' _ hw _ =>
    have ⟨b'', hc, h⟩ := Option.map_eq_some_iff.mp h
    subst h
    simp only [withBudget, Finmap.lookup_insert_eq] at hb
    split at hb
    case isFalse => exact ⟨b, hb, rfl⟩
    case isTrue he =>
      cases hb
      exact ⟨b', he ▸ hw, AuthorizerBudget.tryConsume_validUntil hc⟩

-- The end of an authorizer's time is set by its registration only.
theorem Does.validUntil (h : Does now g d g') (hr : ∀ b, d ≠ .registered who b)
    (hb : g'.allowedAuthorizers.lookup who = some b) :
    ∃ b', g.allowedAuthorizers.lookup who = some b' ∧ b.validUntil = b'.validUntil := by
  cases h
  case opened hi hd _ _ => exact debited_validUntil hd hi (put_allowedAuthorizers ▸ hb)
  case added hi hd _ _  => exact debited_validUntil hd hi hb
  case removed          => exact ⟨b, remove_allowedAuthorizers ▸ hb, rfl⟩
  case registered w b' _ =>
    have hw : who ≠ w := fun hw => hr b' (hw ▸ rfl)
    rw [register_lookup, if_neg hw] at hb
    exact ⟨b, hb, rfl⟩
  case unregistered =>
    have hb := Finmap.lookup_erase_eq (m := g.allowedAuthorizers) ▸ hb
    split at hb
    case isTrue  => contradiction
    case isFalse => exact ⟨b, hb, rfl⟩
  all_goals exact ⟨b, hb, rfl⟩

end Deed

-- An authorization ends when it did before, unless its window is opened or it is refreshed.
theorem Deed.Moves.expiration_cases (m : Moves now g scope d (some a)) :
    (∃ a', g.authorizations.lookup scope = some a' ∧ a.expiration = a'.expiration) ∨
      ∃ origin issuer, g.Issues now origin issuer ∧ a.expiration = expiration T now issuer ∧
        (d = .refreshed origin scope ∨ ∃ n b, d = .granted origin scope n b true) := by
  generalize he : some a = e at m
  cases m
  case aside   => exact .inl ⟨a, he.symm, rfl⟩
  case removed => contradiction
  case stored ha | renewed ha _ | added ha =>
    cases he
    exact .inl ⟨_, (active_eq_some.mp ha).left, rfl⟩
  case opened hi _ =>
    cases he
    exact .inr ⟨_, _, hi, rfl, .inr ⟨_, _, rfl⟩⟩
  case refreshed hi _ =>
    cases he
    exact .inr ⟨_, _, hi, rfl, .inl rfl⟩

-- The authorization of a scope ends with the time of an authorizer.
structure Access.Ends (g : Access T) (who : T.AccountId) (scope : AuthorizationScope T) (t : Nat) :
    Prop where
  authorization : ∀ a, g.authorizations.lookup scope = some a → a.expiration ≤ t
  authorizer    : ∀ b, g.allowedAuthorizers.lookup who = some b → b.validUntil = some t

theorem Access.Ends.does (hl : ¬T.isListedAuthorizer who) (h : g.Ends who scope t)
    (hp : ¬d.prolongs who scope) (hd : Does now g d g') : g'.Ends who scope t := by
  refine ⟨fun a ha => ?_, fun b hb => ?_⟩
  · obtain ⟨a', ha', he⟩ | ⟨origin, issuer, hi, he, hr⟩ := (ha ▸ hd.moves scope).expiration_cases
    · exact he ▸ h.authorization a' ha'
    · have ho : origin = .signed who := by
        obtain hr | ⟨_, _, hr⟩ := hr <;> simpa [hr, prolongs] using hp
      subst ho
      have ⟨b, hb, hs⟩ := hi.of_signed hl
      rw [he, hs, expiration_allowed (h.authorizer b hb)]
      exact Nat.min_le_right ..
  · have ⟨b', hb', he⟩ := hd.validUntil (fun b hr => hp (hr ▸ rfl)) hb
    exact he.trans (h.authorizer b' hb')

-- What an authorizer with a limited time grants or refreshes ends with that time, unless the grant adds
-- to an authorization that was to end later. Such an authorization is of no use from then on.
theorem grant_ends_with_grantor (who : T.AccountId) (scope : AuthorizationScope T)
    (hl : ¬T.isListedAuthorizer who)
    (hb : s.allowedAuthorizers.lookup who = some ⟨quota, some t, feeless⟩)
    (hc : call.authorizes = some scope)
    (h : TransactionStorage.dispatch s (.signed who) call = ok s') :
    ∃ a', s'.authorizations.lookup scope = some a' ∧
      (a'.expiration ≤ t ↔
        call.isRefresh ∨ ∀ a, s.activeAuthorization scope = some a → a.expiration ≤ t) ∧
      (a'.expiration ≤ t → ∀ (guard : Chain T → Action T → Prop) as c c', c.state = s' →
        Runs Chain.step guard c as c' → (∀ e ∈ c.history as, ¬e.2.prolongs who scope) →
        t ≤ c'.state.blockNumber → c'.state.activeAuthorization scope = none) := by
  have hd := TransactionStorage.dispatch_authorizes hc h
  -- The authorization that the call leaves.
  have ⟨a', ha', he⟩ : ∃ a', s'.authorizations.lookup scope = some a' ∧ (a'.expiration ≤ t ↔
      call.isRefresh ∨ ∀ a, s.activeAuthorization scope = some a → a.expiration ≤ t) := by
    have hi {issuer} (hi : s.access.Issues s.blockNumber (.signed who) issuer) :
        expiration T s.blockNumber issuer ≤ t := by
      have ⟨b, hb', he⟩ := hi.of_signed hl
      cases hb.symm.trans hb'
      rw [he, expiration_allowed rfl]
      exact Nat.min_le_right ..
    obtain ⟨hr, hd⟩ | ⟨transactions, bytes, hr, hd⟩ := hd
    · have m := hd.moves scope
      change Moves _ _ _ _ (s'.authorizations.lookup scope) at m
      generalize s'.authorizations.lookup scope = e at m
      cases m
      case aside ht     => exact absurd rfl ht
      case refreshed hs => exact ⟨_, rfl, by simp [hr, hi hs]⟩
    · have m := hd.moves scope
      change Moves _ _ _ _ (s'.authorizations.lookup scope) at m
      generalize s'.authorizations.lookup scope = e at m
      generalize ho : (s.activeAuthorization scope).isNone = opens at m
      cases m
      case aside ht => exact absurd rfl ht
      case opened ha hs =>
        rw [State.active_access] at ha
        exact ⟨_, rfl, by simp [hr, ha, State.freshAuthorization, hi hs]⟩
      case added ha _ =>
        rw [State.active_access] at ha
        exact ⟨_, rfl, by simp [hr, ha]⟩
  refine ⟨a', ha', he, fun ht guard as c c' hs r hp hn => ?_⟩
  have hv : s'.access.Ends who scope t := by
    refine ⟨fun a ha => ?_, fun b hb' => ?_⟩
    · cases ha'.symm.trans ha
      exact ht
    · obtain ⟨_, hd⟩ | ⟨_, _, _, hd⟩ := hd
      all_goals
        have ⟨b', h, he⟩ := hd.validUntil nofun hb'
        cases hb.symm.trans h
        exact he
  subst hs
  have h := Chain.runs_history (I := fun _ g log => (∀ e ∈ log, ¬e.2.prolongs who scope) →
      g.Ends who scope t) (fun _ => hv)
    (fun h hd hp => by
      rw [List.forall_mem_append, List.forall_mem_singleton] at hp
      exact (h hp.left).does hl hp.right hd)
    (fun h _ => h) r hp
  rw [State.activeAuthorization, Option.filter_eq_none_iff]
  intro a ha
  simpa [Authorization.expired] using (h.authorization a ha).trans hn

-- An authorizer whose time ends at block 3 opens an authorization that Root would have opened until
-- block 11.
def lending : List (Action .mock) := [
  .onInitialize [] 0,
  .dispatch .root (.transactionStorage (.addAuthorizer (8 : Nat) ⟨none, some 3, false⟩))]

theorem grant_ends_with_grantor_lending :
    let g : GenesisConfig .mock := ⟨3, [], [], []⟩
    ∃ c s' a', Runs Chain.step (fun _ _ => true) g.chain lending c ∧
      TransactionStorage.dispatch c.state (.signed (8 : Nat)) (.authorizeAccount (7 : Nat) 1 10) =
        ok s' ∧
      s'.authorizations.lookup (.account (7 : Nat)) = some a' ∧ a'.expiration ≤ 3 := by
  intro g
  obtain ⟨c, r, h⟩ := Runs.exists_of_any Chain.step (fun _ _ => true) g.chain lending
    (fun c => c.state.allowedAuthorizers.lookup (8 : Nat) = some ⟨none, some 3, false⟩ ∧
      c.state.activeAuthorization (.account (7 : Nat)) = none ∧
      (TransactionStorage.dispatch c.state (.signed (8 : Nat))
        (.authorizeAccount (7 : Nat) 1 10)).isOk) (by decide +kernel)
  obtain ⟨hb, ha, hk⟩ := h
  cases hd : TransactionStorage.dispatch c.state (.signed (8 : Nat))
    (.authorizeAccount (7 : Nat) 1 10)
  case error => simp [hd, Except.isOk, Except.toBool] at hk
  case ok s' =>
    obtain ⟨a', h, he, _⟩ := grant_ends_with_grantor (T := .mock) (8 : Nat) (.account (7 : Nat))
      (by decide) hb rfl hd
    exact ⟨c, s', a', r, hd, h, he.mpr (.inr (by simp [ha]))⟩

-- The same authorizer adds to what Root has opened, and this lasts until block 11.
theorem grant_outlives_grantor :
    let g : GenesisConfig .mock := ⟨3, [], [], []⟩
    let as : List (Action .mock) := lending ++ [
      .dispatch .root (.transactionStorage (.authorizeAccount (7 : Nat) 1 10)),
      .extrinsic (.signed (8 : Nat) (.transactionStorage (.authorizeAccount (7 : Nat) 1 10)))]
    ∃ c a, Runs Chain.step (fun _ _ => true) g.chain as c ∧
      c.state.allowedAuthorizers.lookup (8 : Nat) = some ⟨none, some 3, false⟩ ∧
      c.state.authorizations.lookup (.account (7 : Nat)) = some a ∧
      a.extent.bytesAllowance = 20 ∧ 3 < a.expiration := by
  intro g as
  have ⟨c, r, hb, ha⟩ := Runs.exists_of_any Chain.step (fun _ _ => true) g.chain as
    (fun c => c.state.allowedAuthorizers.lookup (8 : Nat) = some ⟨none, some 3, false⟩ ∧
      c.state.authorizations.lookup (.account (7 : Nat)) = some ⟨⟨0, 2, 0, ⟨0⟩, 20⟩, 11⟩)
    (by decide +kernel)
  exact ⟨c, _, r, hb, ha, rfl, by decide⟩

-- No authorization lasts for longer than one that is opened now.
theorem Chain.expiration_le {guard : Chain T → Action T → Prop} {g : GenesisConfig T}
    (r : Runs Chain.step guard g.chain as c) (ha : c.state.authorizations.lookup scope = some a) :
    a.expiration ≤ saturatingAdd maxBlockNumber c.state.blockNumber T.authorizationPeriod := by
  refine Chain.runs_history (I := fun now g _ => ∀ a, g.authorizations.lookup scope = some a →
      a.expiration ≤ saturatingAdd maxBlockNumber now T.authorizationPeriod)
    (fun a ha => ?_) (fun {now g d g' _} h hd a ha => ?_) (fun {now g _} h _ a ha => ?_) r a ha
  · have ⟨_, _, hf⟩ := g.build_fresh ha
    subst hf
    have := T.authorizationPeriod_le
    simp only [State.freshAuthorization, saturatingAdd]
    omega
  · obtain ⟨a', ha', he⟩ | ⟨_, _, _, he, _⟩ := (ha ▸ hd.moves scope).expiration_cases
    · exact he ▸ h a' ha'
    · exact he ▸ Access.expiration_le
  · have := h a ha
    simp only [saturatingAdd] at this ⊢
    omega

-- A refresh changes the end of the authorization and nothing else. It cuts the authorization short
-- exactly if the time of the authorizer ends before it.
theorem refresh_extends {guard : Chain T → Action T → Prop} (g : GenesisConfig T)
    (r : Runs Chain.step guard g.chain as c) (hc : call.authorizes = some scope)
    (hr : call.isRefresh) (h : TransactionStorage.dispatch c.state origin call = ok s') :
    ∃ a e, c.state.authorizations.lookup scope = some a ∧
      s'.authorizations = c.state.authorizations.insert scope { a with expiration := e } ∧
      (a.expiration ≤ e ↔ ∀ who b t, origin = .signed who → ¬T.isListedAuthorizer who →
        c.state.allowedAuthorizers.lookup who = some b → b.validUntil = some t →
        a.expiration ≤ t) := by
  obtain ⟨_, hd⟩ | ⟨_, _, hn, _⟩ := TransactionStorage.dispatch_authorizes hc h
  case inr => simp [hr] at hn
  have ⟨a, issuer, ha, hi, hs⟩ : ∃ a issuer, c.state.authorizations.lookup scope = some a ∧
      c.state.access.Issues c.state.blockNumber origin issuer ∧
      s'.access = c.state.access.write scope
        { a with expiration := expiration T c.state.blockNumber issuer } := by
    generalize he : s'.access = g' at hd
    cases hd
    case refreshed a hi ha => exact ⟨a, _, ha, hi, rfl⟩
  refine ⟨a, _, ha, congrArg Access.authorizations hs, ?_⟩
  have hl := Chain.expiration_le r ha
  constructor
  case mp =>
    intro hx who b t ho hn hb ht
    subst ho
    have ⟨b', hb', he⟩ := hi.of_signed hn
    cases hb.symm.trans hb'
    rw [he, expiration_allowed ht] at hx
    exact hx.trans (Nat.min_le_right ..)
  case mpr =>
    intro hx
    cases hi
    case freely => exact hl
    case allowed who b hn hb _ =>
      cases ht : b.validUntil
      case none =>
        rw [expiration_unlimited (by simp [ht])]
        exact hl
      case some t =>
        rw [expiration_allowed ht]
        exact Nat.le_min.mpr ⟨hl, hx who b t rfl hn hb ht⟩

-- Root refreshes in block 2 what it has opened in block 1.
def refreshing : List (Action .mock) := lending ++ [
  .dispatch .root (.transactionStorage (.authorizeAccount (7 : Nat) 1 10)),
  .onFinalize,
  .onInitialize [] 0]

theorem refresh_extends_root :
    let g : GenesisConfig .mock := ⟨3, [], [], []⟩
    ∃ c s' a a', Runs Chain.step (fun _ _ => true) g.chain refreshing c ∧
      TransactionStorage.dispatch c.state .root (.refreshAccountAuthorization (7 : Nat)) = ok s' ∧
      c.state.authorizations.lookup (.account (7 : Nat)) = some a ∧
      s'.authorizations.lookup (.account (7 : Nat)) = some a' ∧ a.expiration ≤ a'.expiration := by
  intro g
  obtain ⟨c, r, h⟩ := Runs.exists_of_any Chain.step (fun _ _ => true) g.chain refreshing
    (fun c => (TransactionStorage.dispatch c.state .root
      (.refreshAccountAuthorization (7 : Nat))).isOk) (by decide +kernel)
  cases hd : TransactionStorage.dispatch c.state .root (.refreshAccountAuthorization (7 : Nat))
  case error => simp [hd, Except.isOk, Except.toBool] at h
  case ok s' =>
    obtain ⟨a, e, ha, hs, he⟩ := refresh_extends g r rfl rfl hd
    have ha' : s'.authorizations.lookup (.account (7 : Nat)) = some { a with expiration := e } := by
      rw [hs, Finmap.lookup_insert]
    exact ⟨c, s', a, _, r, hd, ha, ha', he.mpr fun _ _ _ ho => by cases ho⟩

-- The authorizer refreshes the authorization that Root has opened, which then ends 8 blocks earlier.
theorem refresh_cuts_short :
    let g : GenesisConfig .mock := ⟨3, [], [], []⟩
    let as : List (Action .mock) :=
      [.extrinsic (.signed (8 : Nat) (.transactionStorage (.refreshAccountAuthorization (7 : Nat))))]
    ∃ c c' a a', Runs Chain.step (fun _ _ => true) g.chain refreshing c ∧
      Runs Chain.step (fun _ _ => true) g.chain (refreshing ++ as) c' ∧
      c.state.authorizations.lookup (.account (7 : Nat)) = some a ∧
      c'.state.authorizations.lookup (.account (7 : Nat)) = some a' ∧
      a'.expiration < a.expiration := by
  intro g as
  have ⟨c, r, h⟩ := Runs.exists_of_any Chain.step (fun _ _ => true) g.chain refreshing
    (fun c => c.state.authorizations.lookup (.account (7 : Nat)) =
      some ⟨⟨0, 1, 0, ⟨0⟩, 10⟩, 11⟩) (by decide +kernel)
  have ⟨c', r', h'⟩ := Runs.exists_of_any Chain.step (fun _ _ => true) g.chain (refreshing ++ as)
    (fun c => c.state.authorizations.lookup (.account (7 : Nat)) =
      some ⟨⟨0, 1, 0, ⟨0⟩, 10⟩, 3⟩) (by decide +kernel)
  exact ⟨c, c', _, _, r, r', h, h', by decide⟩

end Bulletin
