import BulletinChain.Theorems.Access
import BulletinChain.Theorems.Indexing

namespace Bulletin

open Machine Except RuntimeCall

namespace RuntimeCall

variable {T : Config}

-- The calls that register a renewal, and those that are paid for before they are dispatched.

def registers : RuntimeCall T → Bool
  | dataRenewal (.renew _) | dataRenewal (.enableAutoRenew _) => true
  | _                                                         => false

def isPaid : RuntimeCall T → Bool
  | transactionStorage call        => call.isStore
  | dataRenewal (.forceRenew _)    => true
  | call                           => call.registers

theorem not_isPaid_of_isFree {call : RuntimeCall T} (h : Extrinsic.IsFree call) :
    ¬call.isPaid := by
  cases call
  case transactionStorage call => exact h
  case dataRenewal call => cases call <;> first | contradiction | exact nofun
  all_goals exact nofun

end RuntimeCall

namespace Extrinsic

variable {T : Config}

-- What a dispatch creates for a content: an entry, or a registration of the signer that is paid.
inductive Creates (x : Extrinsic T) (contentHash : T.ContentHash) (size : Nat) (l : Ledger T) :
    Ledger T → Prop
  | entry :
    ¬x.call.registers → e.contentHash = contentHash → e.size = size → (h : _) →
    Creates x contentHash size l (l.appended e h)
  | registration {call : RuntimeCall T} :
    x.call.registers → x = signed who call → l.renewals.lookup contentHash = none →
    Creates x contentHash size l (l.register contentHash ⟨who, recurring, true⟩)

-- Between the two states there is one charge of `size` bytes, to the content or the signer, and no
-- other.
def ChargedFor (x : Extrinsic T) (s s₁ : State T) (contentHash : T.ContentHash) (size : Nat) :
    Prop :=
  ∃ scope, x.Payer contentHash scope ∧
    (Enacts s [.stored scope size] s₁ ∨ Enacts s [.renewed scope size] s₁)

-- From the second state to the third nothing is created, or what is created was charged for between
-- the first two.
inductive Covered (x : Extrinsic T) (s s₁ s' : State T) : Prop
  | nothing :
    s'.blockTransactions = s₁.blockTransactions →
    (∀ hash data, s'.renewals.lookup hash = some data → s₁.renewals.lookup hash = some data) →
    Covered x s s₁ s'
  | charged :
    x.call.subject s = some (contentHash, size) →
    x.Creates contentHash size s₁.toLedger s'.toLedger →
    x.ChargedFor s s₁ contentHash size → Covered x s s₁ s'

end Extrinsic

variable {T : Config} {origin : Origin T} {s s₁ s' : State T} {x : Extrinsic T}

namespace Extrinsic

-- What is paid for is done: after the checks nothing is left that could fail.

theorem stored_creates (data : Data) (cid : CidConfig) (h : s.HasRoom) (hx : ¬x.call.registers) :
    x.Creates (T.hash cid.hashing data.bytes) data.len s.toLedger
      (s.stored data cid i b h).toLedger :=
  .entry (e := State.storedEntry data cid i) hx rfl rfl h

theorem doStore_creates (data : Data) (hashing : HashingAlgorithm) (codec : CidCodec)
    (hc : ∀ codec code hash, (T.cidV1 codec code hash).isSome)
    (hi : s.extrinsicIndex = some i) (hs : dataSizeOk T data.len) (hr : s.HasRoom)
    (hx : ¬x.call.registers) :
    ∃ s', s.doStore data hashing codec = ok s' ∧
      x.Creates (T.hash hashing data.bytes) data.len s.toLedger s'.toLedger := by
  have ⟨b, hb⟩ := Option.isSome_iff_exists.mp <|
    hc codec hashing.multihashCode (T.hash hashing data.bytes)
  refine ⟨_, State.doStore_eq_ok.mpr ⟨hs, b, i, hr, hb, hi, rfl⟩, ?_⟩
  exact stored_creates data ⟨codec, hashing⟩ hr hx

theorem forceRenewed_creates (h : s.HasRoom) (hx : ¬x.call.registers) :
    x.Creates info.contentHash info.size s.toLedger (s.forceRenewed info i h).toLedger :=
  .entry (e := info.renewal i) hx rfl rfl h

theorem registered_creates {call : RuntimeCall T} (hx : x.call.registers) (hw : x = signed who call)
    (hn : s.renewals.lookup contentHash = none) :
    x.Creates contentHash size s.toLedger (s.registered contentHash who recurring).toLedger :=
  .registration hx hw hn

theorem admitted_creates (hc : ∀ codec code hash, (T.cidV1 codec code hash).isSome)
    (hi : s.extrinsicIndex = some i) (hp : x.call.isPaid ∨ ∃ call, x = general call)
    (ha : Admitted s x origin s₁) :
    ∃ s' hash size, x.call.dispatch s₁ origin = ok s' ∧ x.call.subject s = some (hash, size) ∧
      x.Creates hash size s₁.toLedger s'.toLedger := by
  cases ha
  case store call data hashing scope a caller hx hd _ hs hr _ ho =>
    obtain ⟨codec, hdo⟩ := TransactionStorage.dispatch_store hd ho
    obtain ⟨s', hs', h⟩ := doStore_creates (s := (Charge.store scope a data.len).apply s) (x := x)
      data hashing codec hc hi hs hr (by simp [hx, registers])
    exact ⟨s', _, _, by rw [hx]; exact (hdo _).trans hs', by simp [hx, subject, hd], h⟩
  case forceRenew entry info scope a caller hx hr _ hs hroom ha ho _ =>
    have hg := Charge.renew_charged s scope a info.size
    have hroom := hg.hasRoom hroom
    exact ⟨_, _, _, by rw [hx]; exact dispatch_forceRenew hg hi ho hr hs hroom,
      by simp [hx, subject, hr], forceRenewed_creates hroom (by simp [hx, registers])⟩
  case renew who entry info a hx hr hn ha =>
    have hg := Charge.renew_charged s (.account who) a info.size
    subst hx
    exact ⟨_, _, info.size, dispatch_renew hg hr hn, by simp [call, subject, hr],
      registered_creates rfl rfl ((hg.lookup _).trans hn)⟩
  case enableAutoRenew who contentHash info a hx hn hr ha =>
    have hg := Charge.renew_charged s (.account who) a info.size
    subst hx
    exact ⟨_, _, info.size, dispatch_enableAutoRenew hg hr hn, by simp [call, subject, hr],
      registered_creates rfl rfl ((hg.lookup _).trans hn)⟩
  case promotion call hx hs hr =>
    subst hx
    obtain ⟨s', hs', h⟩ := doStore_creates (x := general call) call.data .blake2b256 rawCodec
      hc hi hs hr Bool.false_ne_true
    exact ⟨s', _, _, hs', rfl, h⟩
  case disableAutoRenew hx _ _ _ =>
    subst hx
    obtain hp | ⟨_, hp⟩ := hp <;> contradiction
  case free hf hg _ =>
    obtain hp | ⟨call, hx⟩ := hp
    · exact absurd hp (not_isPaid_of_isFree hf)
    · exact absurd hx (hg call)

-- What is done was paid for.

theorem Covered.of_keeps (k : Keeps s₁ s') : Covered x s s₁ s' :=
  .nothing (by rw [k.ledger]) (by rw [k.ledger]; exact fun _ _ h => h)

theorem admitted_covered (ha : Admitted s x origin s₁) (hm : ∀ call, x ≠ general call)
    (hd : ¬(Action.extrinsic x).drains) (h : x.call.dispatch s₁ origin = ok s') :
    Covered x s s₁ s' := by
  cases ha
  case store call data hashing scope a caller hx hc hp _ _ ha ho =>
    obtain ⟨codec, hdo⟩ := TransactionStorage.dispatch_store hc ho
    rw [hx] at h
    obtain ⟨_, b, i, hr, _, _, hs⟩ := State.doStore_eq_ok.mp ((hdo _).symm.trans h)
    subst hs
    refine .charged (by simp only [hx, subject, hc]; rfl)
      (stored_creates data ⟨codec, hashing⟩ hr ?_)
      ⟨scope, hp, .inl <| Charge.store_apply_enacts ha⟩
    simp [hx, registers]
  case forceRenew entry info scope a caller hx hr hp _ _ ha _ _ =>
    have hg := Charge.renew_charged s scope a info.size
    rw [hx] at h
    obtain ⟨_, info', i, hroom, _, hr', _, _, hs⟩ := State.forceRenew_eq_ok.mp h
    rw [hg.ledger, Ledger.charge_resolveTransactionRef] at hr'
    cases hr.symm.trans hr'
    subst hs
    refine .charged (by simp [hx, subject, hr]) (forceRenewed_creates hroom ?_)
      ⟨scope, hp, .inr <| Charge.renew_apply_enacts ha⟩
    simp [hx, registers]
  case renew who entry info a hx hr hn ha =>
    have hg := Charge.renew_charged s (.account who) a info.size
    subst hx
    cases (dispatch_renew hg hr hn).symm.trans h
    exact .charged (by simp [call, subject, hr])
      (registered_creates rfl rfl <| (hg.lookup _).trans hn)
      ⟨.account who, .inr ⟨_, _, rfl, rfl⟩, .inr <| Charge.renew_apply_enacts ha⟩
  case enableAutoRenew who contentHash info a hx hn hr ha =>
    have hg := Charge.renew_charged s (.account who) a info.size
    subst hx
    cases (dispatch_enableAutoRenew hg hr hn).symm.trans h
    exact .charged (by simp [call, subject, hr])
      (registered_creates rfl rfl <| (hg.lookup _).trans hn)
      ⟨.account who, .inr ⟨_, _, rfl, rfl⟩, .inr <| Charge.renew_apply_enacts ha⟩
  case disableAutoRenew who contentHash data hx _ _ _ =>
    subst hx
    obtain ⟨_, _, _, _, _, hs⟩ := State.disableAutoRenew_eq_ok.mp h
    subst hs
    refine .nothing rfl fun hash _ h => ?_
    exact (Option.ite_none_left_eq_some.mp <| Finmap.lookup_erase_eq.symm.trans h).right
  case promotion call hx _ _ => exact absurd hx (hm call)
  case free hf hg ho =>
    have hk : Keeps s (dispatched s origin x.call) :=
      dispatched_keeps hf (ho ▸ plainOrigin_cases hg) fun hc hn => hd (drains_of_call hc (ho ▸ hn))
    exact .of_keeps (dispatched_of_ok h ▸ hk)

-- A wrapper of a signer creates nothing without Root.
theorem wrapper_covered {sdk : Sdk T} {codec : CallCodec T} {e : Execution T}
    (h : Executes sdk codec origin rest s₁ (.call x.call) e) (ha : Admitted s x origin s₁)
    (hl : ¬x.call.isLeaf) (hr : ∀ d ∈ e.trace, d.origin ≠ .root) (he : e.result = some s') :
    Covered x s s₁ s' := by
  have ⟨_, ho⟩ := ha.wrapper hl
  obtain ho | ⟨who, ho⟩ := ho <;> subst ho
  · rw [h.failed_of_none hl] at he
    contradiction
  · exact .of_keeps <| h.keeps_of_signed he (h.signed_of_signed hr)

end Extrinsic

-- Charge if and only if effect. An extrinsic that was admitted, and so charged, is dispatched with
-- success and creates one entry or one registration of the content and the size it was checked for.
-- And what an extrinsic creates, however its call is wrapped and whatever its execution does with the
-- wrapped calls, was charged for when it was admitted.
theorem charge_iff_effect (ha : x.admission s = (ok origin, s₁)) :
    ((∀ codec code hash, (T.cidV1 codec code hash).isSome) → s.extrinsicIndex.isSome →
      x.call.isPaid ∨ (∃ call, x = .general call) →
      ∃ s' hash size, x.call.dispatch s₁ origin = ok s' ∧ x.call.subject s = some (hash, size) ∧
        x.Creates hash size s₁.toLedger s'.toLedger) ∧
    (∀ sdk codec e, Executes sdk codec origin [] s₁ (.call x.call) e → (∀ call, x ≠ .general call) →
      x ≠ .unsigned (.dataRenewal .processPendingRenewals) →
      (∀ d ∈ e.trace, d.origin ≠ .root) → x.Covered s s₁ (e.result.getD s₁)) := by
  have ha := Extrinsic.admission_admitted ha
  constructor
  case left =>
    intro hc hi hp
    have ⟨i, hi⟩ := Option.isSome_iff_exists.mp hi
    exact Extrinsic.admitted_creates hc hi hp ha
  case right =>
    intro sdk codec e h hm hx hr
    cases he : e.result
    case none => exact .of_keeps ⟨rfl, rfl⟩
    case some s' =>
      by_cases hl : x.call.isLeaf
      · have hd : ¬(Action.extrinsic x).drains := fun hd => hx (Chain.drains_eq hd)
        exact Extrinsic.admitted_covered ha hm hd (h.dispatch_of_isLeaf hl he)
      · exact Extrinsic.wrapper_covered h ha hl hr he

-- A store of account 1 at its own expense.
theorem charge_iff_effect_store :
    let x : Extrinsic .mock := .signed (1 : Nat)
      (.transactionStorage (.store ⟨[1, 2, 3], by decide⟩))
    ∃ origin s₁ s' e, x.admission .opened = (ok origin, s₁) ∧
      x.call.dispatch s₁ origin = ok s' ∧ x.Creates [1, 2, 3] 3 s₁.toLedger s'.toLedger ∧
      Executes .mock .mock origin [] s₁ (.call x.call) e ∧
      x.Covered .opened s₁ (e.result.getD s₁) := by
  intro x
  have ⟨origin, s₁, ha, hr⟩ := x.exists_admission .opened
    (fun origin s₁ => ∀ d ∈ (x.call.execute .mock .mock origin [] s₁).trace, d.origin ≠ .root)
    (by decide +kernel)
  have ⟨hp, hc⟩ := charge_iff_effect ha
  have ⟨s', hash, size, hd, hs, h⟩ := hp (fun _ _ _ => rfl) rfl (.inl rfl)
  cases hs
  have he := execute_executes .mock .mock origin [] s₁ x.call
  exact ⟨origin, s₁, s', _, ha, hd, h, he, hc .mock .mock _ he nofun nofun hr⟩

end Bulletin
