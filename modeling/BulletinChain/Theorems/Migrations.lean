import BulletinChain.Migrations
import BulletinChain.Chain

namespace Bulletin

open VersionUncheckedMigrateV1ToV2

variable {T : Config}

namespace VersionUncheckedMigrateV1ToV2

theorem translateAuthorization_of_live (hb : 0 < a.extent.bytes) (he : a.expired now = false) :
    translateAuthorization now a =
      some ⟨⟨0, a.extent.transactions, 0, ⟨0⟩, a.extent.bytes⟩, a.expiration⟩ := by
  simp [translateAuthorization, he, hb.ne']

theorem isSome_translateAuthorization :
    (translateAuthorization now a).isSome ↔ 0 < a.extent.bytes ∧ a.expired now = false := by
  simp [translateAuthorization, Nat.pos_iff_ne_zero]

theorem lookup_onRuntimeUpgrade (s : V1Storage T) (scope : AuthorizationScope T) :
    (onRuntimeUpgrade s).authorizations.lookup scope =
      (s.authorizations.lookup scope).bind (translateAuthorization s.rest.blockNumber) :=
  Finmap.lookup_translate fun _ => translateAuthorization s.rest.blockNumber

-- The references are left as they are, so that those of an account are still right exactly if it had
-- no authorization or has kept it.
theorem providers_onRuntimeUpgrade {s : V1Storage T} {w : T.AccountId} {n : Nat}
    (h : s.rest.providers w = (s.authorizations.lookup (.account w)).isSome.toNat + n) :
    (onRuntimeUpgrade s).providers w =
        ((onRuntimeUpgrade s).authorizations.lookup (.account w)).isSome.toNat + n ↔
      ∀ a, s.authorizations.lookup (.account w) = some a →
        0 < a.extent.bytes ∧ a.expired s.rest.blockNumber = false := by
  rw [lookup_onRuntimeUpgrade, show (onRuntimeUpgrade s).providers w = s.rest.providers w from rfl, h]
  cases s.authorizations.lookup (.account w)
  case none   => simp
  case some a =>
    simp only [Option.some.injEq, forall_eq', ← isSome_translateAuthorization, Option.bind_some]
    cases translateAuthorization s.rest.blockNumber a <;> simp

end VersionUncheckedMigrateV1ToV2

-- The migration keeps exactly the authorizations that are of use, with what was left of them as their
-- caps. It never touches the references, of which `others` are held for other reasons than an
-- authorization, and so leaves those of an account in step exactly if it drops no authorization of it.
theorem migration_keeps_authorizations (s : V1Storage T) (others : T.AccountId → Nat)
    (hp : ∀ w, s.rest.providers w =
      (s.authorizations.lookup (.account w)).isSome.toNat + others w) :
    (∀ scope a, s.authorizations.lookup scope = some a → 0 < a.extent.bytes →
      a.expired s.rest.blockNumber = false →
      (onRuntimeUpgrade s).authorizations.lookup scope =
        some ⟨⟨0, a.extent.transactions, 0, ⟨0⟩, a.extent.bytes⟩, a.expiration⟩) ∧
    (∀ scope, (∀ a, s.authorizations.lookup scope = some a →
        ¬(0 < a.extent.bytes ∧ a.expired s.rest.blockNumber = false)) →
      (onRuntimeUpgrade s).authorizations.lookup scope = none) ∧
    ∀ w, (onRuntimeUpgrade s).providers w =
        ((onRuntimeUpgrade s).authorizations.lookup (.account w)).isSome.toNat + others w ↔
      ∀ a, s.authorizations.lookup (.account w) = some a →
        0 < a.extent.bytes ∧ a.expired s.rest.blockNumber = false := by
  refine ⟨fun scope a ha hb he => ?_, fun scope h => ?_, fun w => providers_onRuntimeUpgrade (hp w)⟩
  · rw [lookup_onRuntimeUpgrade, ha]
    exact translateAuthorization_of_live hb he
  · rw [lookup_onRuntimeUpgrade, Option.bind_eq_none_iff]
    intro a ha
    rw [← Option.not_isSome_iff_eq_none, isSome_translateAuthorization]
    exact h a ha

-- The storage of a chain with one account, which has an authorization.
def oneAccount (transactions bytes : Nat) : V1Storage .mock where
  rest              := GenesisConfig.build ⟨3, [], [((7 : Nat), transactions, bytes)], []⟩
  authorizations    := Finmap.singleton (.account (7 : Nat)) ⟨⟨transactions, bytes⟩, 10⟩
  blockTransactions := none

theorem oneAccount_providers (transactions bytes : Nat) (w : Nat) :
    (oneAccount transactions bytes).rest.providers w =
      ((oneAccount transactions bytes).authorizations.lookup (.account w)).isSome.toNat := by
  by_cases hw : w = 7
  · subst hw
    rfl
  · have hl : (oneAccount transactions bytes).authorizations.lookup (.account w) = none := by
      rw [Finmap.lookup_eq_none, oneAccount, Finmap.mem_singleton]
      exact fun h => hw (AuthorizationScope.account.inj h)
    rw [hl]
    exact if_neg hw

theorem migration_keeps_authorizations_one :
    (onRuntimeUpgrade (oneAccount 2 5)).providers (7 : Nat) =
      ((onRuntimeUpgrade (oneAccount 2 5)).authorizations.lookup (.account (7 : Nat))).isSome.toNat + 0 :=
  ((migration_keeps_authorizations (oneAccount 2 5) (fun _ => 0)
    (oneAccount_providers 2 5)).right.right _).mpr (by decide)

-- A drained authorization is dropped and its reference is left behind.
theorem migration_leaks_reference :
    (∀ w : Nat, (oneAccount 2 0).rest.providers w =
      ((oneAccount 2 0).authorizations.lookup (.account w)).isSome.toNat) ∧
    (onRuntimeUpgrade (oneAccount 2 0)).authorizations.lookup (.account (7 : Nat)) = none ∧
      (onRuntimeUpgrade (oneAccount 2 0)).providers (7 : Nat) = 1 :=
  ⟨oneAccount_providers 2 0, by decide, by decide⟩

end Bulletin
