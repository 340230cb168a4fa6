import BulletinChain.Runtime.Inherents
import BulletinChain.Theorems.Events

namespace Bulletin

open Except

variable {T : Config} {D : Set Content} {l l' : Ledger T} {s s' : State T} {c c' : Chain T}
  {a : Action T}

theorem Grows.transactions {P : TransactionInfo T → Prop} (h : Grows P l l') :
    l'.transactions = l.transactions := by
  cases h <;> rfl

theorem Serves.transactions (h : Serves l items l') : l'.transactions = l.transactions := by
  induction h
  case nil         => rfl
  case cons h _ hi => exact hi.trans h.grows.transactions

namespace State

theorem doCheckProof_eq_ok (h : s.doCheckProof proof = ok s') :
    s' = { s with proofChecked := true }.deposit .proofChecked := by
  obtain ⟨_, _, h⟩ := bind_eq_ok.mp h
  obtain ⟨_, _, h⟩ := bind_eq_ok.mp h
  obtain ⟨_, _, h⟩ := bind_eq_ok.mp h
  obtain ⟨_, _, h⟩ := bind_eq_ok.mp h
  exact (pure_eq_ok.mp h).symm

theorem handleObsolete_proofChecked (items : List (TransactionInfo T × Bool)) :
    (s.handleObsolete items).proofChecked = s.proofChecked := by
  obtain ⟨events, hu⟩ := s.refunded_eq ((items.filter (·.1.kind.isRenew)).foldl
    (fun acc item => Machine.saturatingAdd Machine.u64Max acc item.1.size) 0)
  simp only [handleObsolete, hu]
  split <;> rfl

theorem onInitialize_proofChecked (n : Nat) : (s.onInitialize n).proofChecked = s.proofChecked := by
  simp only [onInitialize, storageOnInitialize]
  split
  case isFalse => rfl
  case isTrue =>
    split
    case h_1 => exact handleObsolete_proofChecked _
    case h_2 => rfl

-- The hooks at the end of a block pass once the proof that is due was checked and the pending renewals
-- were served.
theorem finalized_isSome (hp : s.Demands s.blockNumber → s.proofChecked)
    (hr : s.pendingRenewals.val = []) : (Chain.finalized s).isSome := by
  have hs : ∃ s', State.storageOnFinalize { s with extrinsicIndex := none } s.blockNumber = some s' := by
    rw [← Option.isSome_iff_exists]
    by_cases hc : s.proofChecked
    · simp [storageOnFinalize, proofOk, hc]
    · by_contra hn
      have hn := (storageOnFinalize_eq_none (s := { s with extrinsicIndex := none }) hc).mp
        (Option.not_isSome_iff_eq_none.mp hn)
      exact hc (hp hn)
  obtain ⟨s', hs⟩ := hs
  have hs' := hs
  simp only [storageOnFinalize] at hs'
  split at hs' <;> cases hs'
  simp only [Chain.finalized, onFinalize, hs]
  simp [renewalOnFinalize, hr]

end State

-- A proof is due in the current block.
def Ledger.Due (l : Ledger T) : Prop :=
  l.retentionPeriod < l.blockNumber ∧
    (l.transactions.lookup (l.blockNumber - l.retentionPeriod)).isSome

namespace Ledger.Due

theorem of_eq (h : l'.Due) (hp : l'.retentionPeriod = l.retentionPeriod)
    (hn : l'.blockNumber = l.blockNumber) (ht : l'.transactions = l.transactions) : l.Due := by
  rwa [Due, hp, hn, ht] at h

-- A longer retention period demands no proof that the shorter one did not.
theorem of_extended (v : (l.log isOpen).Valid contentKey) (hp : l.retentionPeriod ≤ period)
    (h : (l.extended period).Due) : l.Due := by
  obtain ⟨hn, hs⟩ := h
  obtain ⟨es, he⟩ := Option.isSome_iff_exists.mp hs
  have hb : (l.log isOpen).blocks (l.blockNumber - period) = some es.val :=
    Ledger.log_blocks_eq_some.mpr ⟨es, he, rfl⟩
  have hk : l.blockNumber ≤ l.blockNumber - period + l.retentionPeriod := v.window.kept hb
  have hn : period < l.blockNumber := hn
  have hq : period = l.retentionPeriod := by omega
  subst hq
  exact ⟨hn, hs⟩

end Ledger.Due

namespace Chain

-- What the end of the block asks for has been done.
structure Complete (c : Chain T) : Prop where
  inBlock : c.inBlock
  proof   : c.ledger.Due → c.state.proofChecked
  pending : c.ledger.pendingRenewals.val = []

theorem Complete.onFinalize (h : c.Complete) : (c.step .onFinalize).isSome := by
  simp only [Chain.step, h.inBlock, if_true, Option.isSome_map]
  exact State.finalized_isSome h.proof h.pending

theorem Complete.step (h : c.Complete) (t : c.Tidy D) (r : c.Ready) (hb : a.isBody)
    (g : c.steady a) (hD : ∀ x ∈ a.content, x ∈ D) (hs : c.step a = some c') : c'.Complete := by
  have hp (hd : c.ledger.Due) : c'.state.proofChecked :=
    (step_emits t r hb hs).proofChecked (h.proof hd)
  obtain ⟨_, _, ho⟩ | ⟨hi, hl⟩ | ⟨_, hi, _, he⟩ | ⟨_, hi, _, hv⟩ | ⟨hi, hl⟩ | ⟨_, _, _, _⟩ :=
    (step_evolves r hD hs).left
  case opened | sealed => contradiction
  case idle =>
    exact ⟨hi.trans h.inBlock, fun hd => hp (hl ▸ hd), hl ▸ h.pending⟩
  case called =>
    refine ⟨hi, fun hd => hp ?_, he.grows.pendingRenewals ▸ h.pending⟩
    exact hd.of_eq he.grows.retentionPeriod he.grows.blockNumber he.grows.transactions
  case drained =>
    refine ⟨hi, fun hd => hp ?_, by rw [hv.pendingRenewals]; rfl⟩
    exact hd.of_eq hv.retentionPeriod hv.blockNumber hv.transactions
  case extended period =>
    refine ⟨hi.trans h.inBlock, fun hd => hp ?_, hl ▸ h.pending⟩
    rw [hl] at hd
    exact hd.of_extended t.log (of_decide_eq_true g)

end Chain

theorem GenesisConfig.build_proofChecked (g : GenesisConfig T) : g.build.proofChecked = false := by
  have hf {α : Type} (f : State T → α → State T)
      (h : ∀ s a, (f s a).proofChecked = s.proofChecked) (xs : List α) (s : State T) :
      (xs.foldl f s).proofChecked = s.proofChecked := by
    induction xs generalizing s
    case nil           => rfl
    case cons a xs hi => rw [List.foldl_cons, hi, h]
  rw [build, hf buildAuthorizer fun s a => ?_, hf buildPreimage fun _ _ => rfl,
    hf buildAccount fun _ _ => rfl]
  · rfl
  · simp only [buildAuthorizer]
    split <;> rfl

namespace Chain

theorem finalized_proofChecked (h : finalized s = some s') : s'.proofChecked = false := by
  obtain ⟨t, ht, h⟩ := Option.bind_eq_some_iff.mp h
  simp only [State.storageOnFinalize] at ht
  split at ht <;> cases ht
  simp only [State.renewalOnFinalize] at h
  split at h <;> cases h
  rfl

-- Every block has to check a proof of its own.
theorem not_proofChecked {guard : Chain T → Action T → Prop} {g : GenesisConfig T}
    {as : List (Action T)} (h : Runs step guard g.chain as c) (hb : ¬c.inBlock) :
    c.state.proofChecked = false := by
  refine h.invariant (fun c => ¬c.inBlock → c.state.proofChecked = false)
    (fun _ => g.build_proofChecked) (fun {c a c'} h _ hs hb => ?_) hb
  cases a
  case setRetentionPeriod =>
    cases hs
    exact h hb
  case onFinalize =>
    simp only [step] at hs
    split at hs
    case isFalse => contradiction
    case isTrue =>
      obtain ⟨s', hf, hc⟩ := Option.map_eq_some_iff.mp hs
      subst hc
      exact finalized_proofChecked hf
  case onInitialize | dispatch =>
    simp only [step] at hs
    split at hs <;> cases hs
    exact absurd rfl hb
  case extrinsic =>
    simp only [step] at hs
    split at hs
    case isFalse => contradiction
    case isTrue =>
      obtain ⟨s', _, hc⟩ := Option.map_eq_some_iff.mp hs
      subst hc
      exact absurd rfl hb

-- The inherents are admitted without a check.
theorem mandatory_eq_some {call : RuntimeCall T} (hb : c.inBlock)
    (ha : (Extrinsic.unsigned call).admission c.state = (ok .none, c.state))
    (hd : call.dispatch c.state .none = ok s') :
    c.mandatory call = some ⟨{ s' with extrinsicIndex := s'.extrinsicIndex.map (· + 1) }, true⟩ := by
  simp only [mandatory, hd, step, hb, if_true, Extrinsic.apply, ha, Extrinsic.call,
    Extrinsic.dispatched_of_ok hd, Option.map_some]

theorem mandatory_proof (hb : c.inBlock) (hp : c.state.doCheckProof proof = ok s') :
    c.mandatory (.transactionStorage (.applyBlockInherents (some proof))) =
      some ⟨{ s' with extrinsicIndex := s'.extrinsicIndex.map (· + 1) }, true⟩ :=
  mandatory_eq_some hb rfl hp

theorem mandatory_drain (hb : c.inBlock) :
    c.mandatory (.dataRenewal .processPendingRenewals) =
      let s' := c.state.doProcessPendingRenewals
      some ⟨{ s' with extrinsicIndex := s'.extrinsicIndex.map (· + 1) }, true⟩ :=
  mandatory_eq_some hb rfl rfl

theorem step_of_mandatory (h : c.mandatory call = some c') :
    c.step (.extrinsic (.unsigned call)) = some c' := by
  simp only [mandatory] at h
  split at h
  case h_1 => exact h
  case h_2 => contradiction

theorem Tidy.step (t : c.Tidy Set.univ) (r : c.Ready) (g : c.orderly a) (h : c.step a = some c') :
    c'.Tidy Set.univ ∧ c'.Ready :=
  have ⟨e, r⟩ := step_evolves r (fun _ _ => trivial) h
  ⟨e.tidy t g, r⟩

-- The proof that is due can be given, and without one that is due none is given.
theorem exists_proof (hT : Sampling T) (hb : c.inBlock) (hc : c.state.proofChecked = false)
    (t : c.Tidy Set.univ) (r : c.Ready) :
    ∃ proof c', (proof.isSome ↔ c.ledger.Due) ∧
      Runs mandatory (fun _ _ => True) c
        ((TransactionStorage.createInherent proof).toList.map .transactionStorage) c' ∧
      c'.inBlock ∧ c'.Tidy Set.univ ∧ c'.Ready ∧ c'.ledger = c.ledger ∧
      (c'.ledger.Due → c'.state.proofChecked) := by
  by_cases hd : c.ledger.Due
  case neg =>
    exact ⟨none, c, by simp [hd], .nil, hb, t, r, rfl, fun h => absurd h hd⟩
  case pos =>
    obtain ⟨proof, s', hp, _⟩ := State.exists_doCheckProof (n := 0) (by simp [hc]) t.holds hT hd
    have hs := State.doCheckProof_eq_ok hp
    have hm := mandatory_proof hb hp
    obtain ⟨t', r'⟩ := t.step r rfl (step_of_mandatory hm)
    refine ⟨some proof, _, by simp [hd], .cons trivial hm .nil, rfl, t', r', ?_, fun _ => ?_⟩
    · rw [hs]
      rfl
    · rw [hs]
      rfl

-- The pending renewals are served.
theorem exists_drain (hb : c.inBlock) (t : c.Tidy Set.univ) (r : c.Ready)
    (hp : c.ledger.Due → c.state.proofChecked) :
    ∃ c', Runs mandatory (fun _ _ => True) c
        ((DataRenewal.createInherent c.state).toList.map .dataRenewal) c' ∧
      c'.Complete ∧ c'.Tidy Set.univ ∧ c'.Ready := by
  by_cases he : c.ledger.pendingRenewals.val = []
  case pos =>
    have hi : DataRenewal.createInherent c.state = none := by simp [DataRenewal.createInherent, he]
    exact ⟨c, hi ▸ .nil, ⟨hb, hp, he⟩, t, r⟩
  case neg =>
    have hi : DataRenewal.createInherent c.state = some .processPendingRenewals := by
      simp [DataRenewal.createInherent, he]
    have hm := mandatory_drain hb
    have hs := step_of_mandatory hm
    obtain ⟨t', r'⟩ := t.step r rfl hs
    obtain ⟨x, hx⟩ := r.index hb
    obtain ⟨hv, _⟩ := State.doProcessPendingRenewals_serves hx
    have e := step_emits t r rfl hs
    refine ⟨_, hi ▸ .cons trivial hm .nil, ⟨rfl, fun hd => ?_, ?_⟩, t', r'⟩
    · exact e.proofChecked (hp (hd.of_eq hv.retentionPeriod hv.blockNumber hv.transactions))
    · exact (congrArg BoundedVec.val hv.pendingRenewals).trans rfl

end Chain

-- No block gets stuck. After any run in which the authors served the pending renewals first, the next
-- block can be opened, the inherents that the pallets create for it succeed, with a proof if and only
-- if one is due, and whatever calls then make up its body, the hooks at its end pass.
theorem blocks_complete {g : GenesisConfig T} {as : List (Action T)} {c : Chain T} (hT : Sampling T)
    (h : Runs Chain.step (Chain.orderly · ·) g.chain as c) (hb : ¬c.inBlock)
    (hn : c.state.blockNumber < maxBlockNumber) (parentHash : List UInt8) (moment : Nat) :
    ∃ c₁ proof c₂, c.step (.onInitialize parentHash moment) = some c₁ ∧
      (proof.isSome ↔ c₁.state.Demands c₁.state.blockNumber) ∧
      Runs Chain.mandatory (fun _ _ => True) c₁ (createInherents c₁.state proof) c₂ ∧
      ∀ body c₃, Runs Chain.step (fun c a => c.orderly a ∧ a.isBody) c₂ body c₃ →
        (c₃.step .onFinalize).isSome := by
  have hf := Chain.not_proofChecked h hb
  have h : Runs Chain.step (fun c a => c.orderly a ∧ ∀ x ∈ a.content, x ∈ Set.univ) g.chain as c :=
    h.mono fun g => ⟨g, fun _ _ => trivial⟩
  obtain ⟨t, r⟩ := Chain.tidy_of_runs h
  have hs : c.step (.onInitialize parentHash moment) =
      some ⟨Chain.initialized c.state parentHash moment, true⟩ := by
    simp [Chain.step, hb, hn]
  obtain ⟨t₁, r₁⟩ := t.step r rfl hs
  have hc : (Chain.initialized c.state parentHash moment).proofChecked = false :=
    (State.onInitialize_proofChecked _).trans hf
  obtain ⟨proof, c', hd, hp, hb', t', r', hl, hk⟩ := Chain.exists_proof hT rfl hc t₁ r₁
  obtain ⟨c₂, hm, hc₂, t₂, r₂⟩ := Chain.exists_drain hb' t' r' hk
  have hi : DataRenewal.createInherent c'.state =
      DataRenewal.createInherent (Chain.initialized c.state parentHash moment) := by
    simp only [DataRenewal.createInherent, show c'.state.toLedger = _ from hl]
  refine ⟨_, proof, c₂, hs, hd, hp.append (hi ▸ hm), fun body c₃ hr => ?_⟩
  refine Chain.Complete.onFinalize ?_
  refine (hr.invariant (fun c => c.Complete ∧ c.Tidy Set.univ ∧ c.Ready) ⟨hc₂, t₂, r₂⟩ ?_).left
  rintro c a c' ⟨hc, t, r⟩ ⟨g, ha⟩ hs
  exact ⟨hc.step t r ha (Chain.steady_of_orderly g) (fun _ _ => trivial) hs, t.step r g hs⟩

theorem blocks_complete_copies :
    let g : GenesisConfig .mock := ⟨1, [], [], []⟩
    ∃ c, Runs Chain.step (Chain.orderly · ·) g.chain (copies.take 4) c ∧ ¬c.inBlock ∧
      ∃ c₁ proof c₂, c.step (.onInitialize [] 0) = some c₁ ∧
        (proof.isSome ↔ c₁.state.Demands c₁.state.blockNumber) ∧
        Runs Chain.mandatory (fun _ _ => True) c₁ (createInherents c₁.state proof) c₂ ∧
        ∀ body c₃, Runs Chain.step (fun c a => c.orderly a ∧ a.isBody) c₂ body c₃ →
          (c₃.step .onFinalize).isSome := by
  intro g
  have ⟨c, hr, hb, hn⟩ := Runs.exists_of_any Chain.step Chain.orderly g.chain (copies.take 4)
    (fun c => ¬c.inBlock ∧ c.state.blockNumber < maxBlockNumber) (by decide +kernel)
  exact ⟨c, hr, hb, blocks_complete .mock hr hb hn [] 0⟩

end Bulletin
