import BulletinChain.Theorems.Access

namespace Bulletin

open Machine Deed

variable {T : Config}

-- The renewed bytes that a scope was charged for in its current window, after one more deed.
def Deed.tally (scope : AuthorizationScope T) (n : Nat) : Deed T → Nat
  | .renewed s size       => if s = scope then n + size else n
  | .granted _ s _ _ true => if s = scope then 0 else n
  | .removed s            => if s = scope then 0 else n
  | _                     => n

def windowCharges (scope : AuthorizationScope T) (log : List (Nat × Deed T)) : Nat :=
  log.foldl (fun n e => e.2.tally scope n) 0

-- The deeds that leave the count of renewed bytes alone: stores, refreshes and additional grants.
def Deed.keepsQuota : Deed T → Bool
  | .stored .. | .refreshed .. | .granted _ _ _ _ false => true
  | _                                                   => false

variable {g g' : Access T} {scope : AuthorizationScope T} {w : T.AccountId} {d : Deed T}
  {log : List (Nat × Deed T)}

theorem Deed.tally_of_target_ne (h : d.target ≠ some scope) : d.tally scope n = n := by
  cases d
  case granted opens => cases opens <;> simp_all [tally, target]
  all_goals simp_all [tally, target]

theorem windowCharges_concat :
    windowCharges scope (log ++ [(now, d)]) = d.tally scope (windowCharges scope log) := by
  simp [windowCharges]

namespace Authorization

abbrev used (a : Authorization) : Nat := a.extent.extra.bytesPermanent

abbrev cap (a : Authorization) : Nat := a.extent.bytesAllowance

-- The renewed bytes that an account's authorization has counted are within its cap, and they are the
-- `n` bytes that it was charged for unless the cap is the largest one that there is.
structure Counts (a : Authorization) (n : Nat) : Prop where
  le_cap : a.used ≤ a.cap
  le_max : a.used ≤ u64Max
  exact  : a.cap < u64Max → a.used = n

variable {a : Authorization}

namespace Counts

theorem fresh : Counts (State.freshAuthorization transactions bytes e) 0 :=
  ⟨Nat.zero_le _, Nat.zero_le _, fun _ => rfl⟩

theorem renewed (h : a.Counts n) (hr : saturatingAdd u64Max a.used size ≤ a.cap) :
    (DataRenewal.charged a size).Counts (n + size) := by
  refine ⟨hr, saturatingAdd_le, fun hc => ?_⟩
  have he : a.cap < u64Max := hc
  have hs := (saturatingAdd_not_gt_iff he).mp (Nat.not_lt.mpr hr)
  calc
    saturatingAdd u64Max a.used size = a.used + size := saturatingAdd_of_le (by omega)
    _ = n + size                                     := by rw [h.exact he]

-- Both the bytes and the caps are those of a 64-bit counter, so that raising the cap of an account
-- never puts it below the bytes.
theorem raised (h : a.Counts n) :
    Counts { a with extent := a.extent.raised (.account w) transactions bytes } n := by
  refine ⟨?_, h.le_max, fun hc => h.exact ?_⟩
  · exact Nat.le_min.mpr ⟨h.le_cap.trans (Nat.le_add_right ..), h.le_max⟩
  · simp only [cap, AuthorizationExtent.raised, saturatingAdd] at hc
    simp only [cap]
    omega

end Counts
end Authorization

namespace Deed.Moves

theorem counts (h : ∀ a, g.authorizations.lookup (.account w) = some a → a.Counts n)
    (m : Moves now g (.account w) d e) : ∀ a, e = some a → a.Counts (d.tally (.account w) n) := by
  intro a ha
  cases m
  case aside hd => exact tally_of_target_ne hd ▸ h a ha
  case stored hl =>
    cases ha
    have h := h _ (Access.active_eq_some.mp hl).left
    exact ⟨h.le_cap, h.le_max, h.exact⟩
  case renewed hl hr =>
    cases ha
    simpa [tally] using (h _ (Access.active_eq_some.mp hl).left).renewed hr
  case opened =>
    cases ha
    simpa [tally] using Authorization.Counts.fresh
  case added hl =>
    cases ha
    exact (h _ (Access.active_eq_some.mp hl).left).raised
  case refreshed hl =>
    cases ha
    have h := h _ hl
    exact ⟨h.le_cap, h.le_max, h.exact⟩
  case removed => contradiction

theorem used_of_keepsQuota (m : Moves now g scope d e) (hk : d.target = some scope → d.keepsQuota)
    (h : g.authorizations.lookup scope = some a) : ∃ a', e = some a' ∧ a'.used = a.used := by
  cases m
  case aside => exact ⟨a, h, rfl⟩
  case stored hl | added hl =>
    cases h.symm.trans (Access.active_eq_some.mp hl).left
    refine ⟨_, rfl, ?_⟩
    cases scope <;> rfl
  case refreshed hl =>
    cases h.symm.trans hl
    exact ⟨_, rfl, rfl⟩
  case renewed | opened | removed => exact absurd (hk rfl) nofun

end Deed.Moves

namespace Chain

variable {c c' : Chain T}

theorem step_keepsQuota {action : Action T} (h : c.step action = some c')
    (hk : ∀ d ∈ c.deeds action, d.target = some scope → d.keepsQuota)
    (ha : c.state.authorizations.lookup scope = some a) :
    ∃ a', c'.state.authorizations.lookup scope = some a' ∧ a'.used = a.used := by
  obtain ⟨hf, _⟩ | ⟨_, hs, _, _⟩ := step_advances h
  case opens => exact ⟨a, (congrArg (·.authorizations.lookup scope) hs).trans ha, rfl⟩
  case acts =>
    refine hf.invariant (I := fun g log => (∀ e ∈ log, e.2.target = some scope → e.2.keepsQuota) →
      ∃ a', g.authorizations.lookup scope = some a' ∧ a'.used = a.used) [] (fun _ => ⟨a, ha, rfl⟩)
      (fun h hd hk => ?_) ?_
    · rw [List.forall_mem_append, List.forall_mem_singleton] at hk
      have ⟨a₁, ha₁, hu₁⟩ := h hk.left
      have ⟨a₂, ha₂, hu₂⟩ := (hd.moves scope).used_of_keepsQuota hk.right ha₁
      exact ⟨a₂, ha₂, hu₂.trans hu₁⟩
    · simpa using hk

theorem counts_of_runs {guard : Chain T → Action T → Prop} {g : GenesisConfig T} {w : T.AccountId}
    (r : Runs step guard g.chain as c) (ha : c.state.authorizations.lookup (.account w) = some a) :
    a.Counts (windowCharges (.account w) (g.chain.history as)) :=
  runs_history (I := fun _ g log => ∀ a, g.authorizations.lookup (.account w) = some a →
      a.Counts (windowCharges (.account w) log))
    (fun a ha => by
      have ⟨_, _, ha⟩ := g.build_fresh ha
      exact ha ▸ .fresh)
    (fun h hd => windowCharges_concat ▸ (hd.moves (.account w)).counts h)
    (fun h _ => h) r a ha

end Chain

-- The renewed bytes that the authorization of an account counts are exactly those that it was charged
-- for in its window and never more than its cap. Nothing else changes them.
theorem permanent_quota_exact {guard : Chain T → Action T → Prop} (g : GenesisConfig T)
    (r : Runs Chain.step guard g.chain as c) (w : T.AccountId) (a : Authorization)
    (ha : c.state.authorizations.lookup (.account w) = some a) :
    a.extent.extra.bytesPermanent ≤ a.extent.bytesAllowance ∧
      (a.extent.bytesAllowance < u64Max →
        a.extent.extra.bytesPermanent = windowCharges (.account w) (g.chain.history as)) ∧
      ∀ action c', c.step action = some c' →
        (∀ d ∈ c.deeds action, d.target = some (.account w) → d.keepsQuota) →
        ∃ a', c'.state.authorizations.lookup (.account w) = some a' ∧
          a'.extent.extra.bytesPermanent = a.extent.extra.bytesPermanent := by
  have h := Chain.counts_of_runs r ha
  exact ⟨h.le_cap, h.exact, fun _ _ hs hk => Chain.step_keepsQuota hs hk ha⟩

-- A content is stored, then renewed at once and once more for later.
def renewing : List (Action .mock) := [
  .onInitialize [] 0,
  .extrinsic (.signed (7 : Nat) (.transactionStorage (.store ⟨[1, 2, 3], length_blob_lt⟩))),
  .onFinalize,
  .onInitialize [] 0,
  .extrinsic (.signed (7 : Nat) (.dataRenewal (.forceRenew (.position 1 0)))),
  .extrinsic (.signed (7 : Nat) (.dataRenewal (.renew (.position 1 0))))]

theorem permanent_quota_exact_renewing :
    let g : GenesisConfig .mock := ⟨3, [], [((7 : Nat), 10, 100)], []⟩
    let a : Authorization := ⟨⟨3, 10, 3, ⟨6⟩, 100⟩, 10⟩
    ∃ c, Runs Chain.step (fun _ _ => true) g.chain renewing c ∧
      c.state.authorizations.lookup (.account (7 : Nat)) = some a ∧
      a.extent.extra.bytesPermanent = windowCharges (.account (7 : Nat)) (g.chain.history renewing) := by
  intro g a
  have ⟨c, r, h⟩ := Runs.exists_of_any Chain.step (fun _ _ => true) g.chain renewing
    (fun c => c.state.authorizations.lookup (.account (7 : Nat)) = some a) (by decide +kernel)
  exact ⟨c, r, h, (permanent_quota_exact g r (7 : Nat) a h).right.left (by decide)⟩

end Bulletin
