import BulletinChain.Theorems.Access

namespace Bulletin

open Machine Deed

variable {T : Config} {g g' : Access T} {scope : AuthorizationScope T} {who : T.AccountId}

namespace Access

-- Each account is kept alive once for its authorization and once for its registration.
def Mirrors (g : Access T) : Prop :=
  ∀ w, g.providers w =
    (g.authorizations.lookup (.account w)).isSome.toNat + (g.allowedAuthorizers.lookup w).isSome.toNat

namespace Mirrors

theorem write (h : g.authorizations.lookup scope = some a) (m : g.Mirrors) :
    (g.write scope b).Mirrors := by
  intro w
  simp only [Access.write, Finmap.isSome_lookup_insert h]
  exact m w

theorem create (h : g.authorizations.lookup scope = none) (m : g.Mirrors) :
    (g.create scope b).Mirrors := by
  cases scope
  case preimage hash =>
    intro w
    simp only [Access.create, Access.write, Finmap.lookup_insert_eq, reduceCtorEq, if_false]
    exact m w
  case account who =>
    intro w
    have mw := m w
    simp only [Access.create, Access.write, acquire, Finmap.lookup_insert_eq,
      AuthorizationScope.account.injEq]
    split
    case isTrue hw =>
      subst hw
      simp only [h, Option.isSome_none, Bool.toNat_false] at mw
      simp only [Option.isSome_some, Bool.toNat_true]
      omega
    case isFalse => exact mw

theorem put (m : g.Mirrors) : (g.put scope b).Mirrors := by
  cases h : g.authorizations.lookup scope
  case none   => exact put_of_none h ▸ m.create h
  case some a => exact put_of_some h ▸ m.write h

theorem remove (h : g.authorizations.lookup scope = some a) (m : g.Mirrors) :
    (g.remove scope).Mirrors := by
  cases scope
  case preimage hash =>
    intro w
    simp only [Access.remove, erase, Finmap.lookup_erase_eq, reduceCtorEq, if_false]
    exact m w
  case account who =>
    intro w
    have mw := m w
    simp only [Access.remove, erase, release, Finmap.lookup_erase_eq,
      AuthorizationScope.account.injEq]
    split
    case isTrue hw =>
      subst hw
      simp only [h, Option.isSome_some, Bool.toNat_true] at mw
      simp only [Option.isSome_none, Bool.toNat_false]
      omega
    case isFalse => exact mw

theorem withBudget (h : g.allowedAuthorizers.lookup who = some b) (m : g.Mirrors) :
    (g.withBudget who b').Mirrors := by
  intro w
  simp only [Access.withBudget, Finmap.isSome_lookup_insert h]
  exact m w

theorem debited (hi : g.Issues now origin issuer) (h : g.debited transactions bytes issuer = some g')
    (m : g.Mirrors) : g'.Mirrors := by
  cases hi
  case freely => cases h; exact m
  case allowed who b _ hb _ =>
    have ⟨_, _, h⟩ := Option.map_eq_some_iff.mp h
    exact h ▸ m.withBudget hb

theorem register (m : g.Mirrors) : (g.register who b).Mirrors := by
  simp only [Access.register]
  cases h : g.allowedAuthorizers.lookup who
  case some => exact m.withBudget h
  case none =>
    intro w
    have mw := m w
    simp only [Access.withBudget, acquire, Option.isSome_none, Bool.false_eq_true, if_false,
      Finmap.lookup_insert_eq]
    split
    case isTrue hw =>
      subst hw
      simp only [h, Option.isSome_none, Bool.toNat_false] at mw
      simp only [Option.isSome_some, Bool.toNat_true]
      omega
    case isFalse => exact mw

theorem unregister (h : g.allowedAuthorizers.lookup who = some b) (m : g.Mirrors) :
    (g.unregister who).Mirrors := by
  intro w
  have mw := m w
  simp only [Access.unregister, release, Finmap.lookup_erase_eq]
  split
  case isTrue hw =>
    subst hw
    simp only [h, Option.isSome_some, Bool.toNat_true] at mw
    simp only [Option.isSome_none, Bool.toNat_false]
    omega
  case isFalse => exact mw

theorem does (m : g.Mirrors) (h : Does now g d g') : g'.Mirrors := by
  cases h
  case stored ha | renewed ha _ => exact m.write (active_eq_some.mp ha).left
  case opened hi hd _ _ => exact (m.debited hi hd).put
  case added hi hd _ ha =>
    rw [active_eq_some, ← debited_authorizations hd] at ha
    exact (m.debited hi hd).write ha.left
  case refreshed ha => exact m.write ha
  case removed ha _ => exact m.remove ha
  case registered => exact m.register
  case unregistered hb => exact m.unregister hb

end Mirrors
end Access

namespace GenesisConfig

variable {s : State T}

theorem foldl_buildAccount_mirrors {xs : List (T.AccountId × Nat × Nat)}
    (hn : (xs.map (·.1)).Nodup) (m : s.access.Mirrors)
    (h : ∀ x ∈ xs, s.authorizations.lookup (.account x.1) = none) :
    (xs.foldl buildAccount s).access.Mirrors := by
  induction xs generalizing s
  case nil => exact m
  case cons x xs hi =>
    rw [List.map_cons, List.nodup_cons] at hn
    refine hi hn.right ?_ fun y hy => ?_
    · rw [buildAccount_access]
      exact m.create (h x List.mem_cons_self)
    · have hx : y.1 ≠ x.1 := fun hx => hn.left <| hx ▸ List.mem_map_of_mem hy
      change (s.authorizations.insert (.account x.1) _).lookup (.account y.1) = none
      rw [Finmap.lookup_insert_eq, if_neg (by simpa using hx)]
      exact h y (List.mem_cons_of_mem _ hy)

theorem buildPreimage_mirrors (x : T.ContentHash × Nat) (m : s.access.Mirrors) :
    (buildPreimage s x).access.Mirrors := by
  intro w
  simp only [buildPreimage_access, Access.write, Finmap.lookup_insert_eq, reduceCtorEq, if_false]
  exact m w

theorem build_mirrors (g : GenesisConfig T) (h : (g.accountAuthorizations.map (·.1)).Nodup) :
    g.build.access.Mirrors := by
  have m : (empty g.retentionPeriod : State T).access.Mirrors := fun _ => rfl
  have m := foldl_buildAccount_mirrors h m fun _ _ => rfl
  have m := foldl_access buildPreimage g.preimageAuthorizations
    (fun _ x _ m => buildPreimage_mirrors x m) m
  exact foldl_access buildAuthorizer _ (fun _ x _ m => buildAuthorizer_access x ▸ m.register) m

end GenesisConfig

-- The references that the pallet holds on an account are one for its authorization and one for its
-- registration as an authorizer, so that an account is kept alive exactly as long as it has either.
theorem providers_mirror {guard : Chain T → Action T → Prop} (g : GenesisConfig T)
    (hg : (g.accountAuthorizations.map (·.1)).Nodup) (r : Runs Chain.step guard g.chain as c)
    (w : T.AccountId) :
    c.state.providers w = (c.state.authorizations.lookup (.account w)).isSome.toNat +
        (c.state.allowedAuthorizers.lookup w).isSome.toNat ∧
      (0 < c.state.providers w ↔ (c.state.authorizations.lookup (.account w)).isSome ∨
        (c.state.allowedAuthorizers.lookup w).isSome) := by
  have m : c.state.access.Mirrors :=
    Chain.runs_history (I := fun _ g _ => g.Mirrors) (GenesisConfig.build_mirrors g hg)
      (fun m h => m.does h) (fun m _ => m) r
  refine ⟨m w, ?_⟩
  rw [show c.state.providers w = (c.state.authorizations.lookup (.account w)).isSome.toNat +
    (c.state.allowedAuthorizers.lookup w).isSome.toNat from m w]
  cases (c.state.authorizations.lookup (.account w)).isSome <;>
    cases (c.state.allowedAuthorizers.lookup w).isSome <;> simp

-- The authorizer has an authorization of its own from genesis.
theorem providers_mirror_granting :
    let g : GenesisConfig .mock := ⟨3, [], [((8 : Nat), 1, 1)], []⟩
    ∃ c, Runs Chain.step (fun _ _ => true) g.chain granting c ∧ c.state.providers (8 : Nat) = 2 ∧
      c.state.providers (7 : Nat) = 1 ∧ (0 < c.state.providers (8 : Nat) ↔
        (c.state.authorizations.lookup (.account (8 : Nat))).isSome ∨
        (c.state.allowedAuthorizers.lookup (8 : Nat)).isSome) := by
  intro g
  have ⟨c, r, h₈, h₇⟩ := Runs.exists_of_any Chain.step (fun _ _ => true) g.chain granting
    (fun c => c.state.providers (8 : Nat) = 2 ∧ c.state.providers (7 : Nat) = 1) (by decide +kernel)
  exact ⟨c, r, h₈, h₇, (providers_mirror g (by decide) r (8 : Nat)).right⟩

end Bulletin
