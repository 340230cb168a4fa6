import BulletinChain.DataRenewal.Migrations

namespace Bulletin

open Scale KeyOrder RelocateFromTransactionStorage

variable {T : Config} {W : Wire T} {P : RenewalPrefixes} {s s' : RawStorage} {k suffix : List UInt8}

namespace RenewalPrefixes

theorem oldAutoRenewals_length (P : RenewalPrefixes) : P.oldAutoRenewals.length = 32 :=
  P.length_eq _ (by simp)

theorem renewals_length (P : RenewalPrefixes) : P.renewals.length = 32 :=
  P.length_eq _ (by simp)

theorem renewals_ne (P : RenewalPrefixes) : P.oldAutoRenewals ≠ P.renewals := by
  have := P.nodup
  simp_all

-- The items that are single values: their old and their new keys.
def values (P : RenewalPrefixes) : List (List UInt8 × List UInt8) :=
  [(P.oldPendingAutoRenewals, P.pendingRenewals), (P.oldPermanentStorageUsed, P.permanentStorageUsed)]

theorem values_length (P : RenewalPrefixes) (h : v ∈ P.values) :
    v.1.length = 32 ∧ v.2.length = 32 := by
  have hl := P.length_eq
  simp only [values, List.mem_cons, List.not_mem_nil, or_false] at h hl
  cases h <;> simp_all

theorem not_under_renewals (P : RenewalPrefixes) (suffix : List UInt8) :
    ¬P.oldAutoRenewals <+: P.renewals ++ suffix := by
  intro ⟨r, h⟩
  exact P.renewals_ne (List.append_inj_left h (P.oldAutoRenewals_length.trans P.renewals_length.symm))

end RenewalPrefixes

namespace RelocateFromTransactionStorage

-- What is left under the old key.
def kept (W : Wire T) (raw : List UInt8) : Option (List UInt8) :=
  if (relocated W raw).isSome then none else some raw

-- The old entries of a storage.
abbrev old (P : RenewalPrefixes) (s : RawStorage) : RawStorage :=
  s.restrict (P.oldAutoRenewals <+: ·)

-- The storage after the keys in `seen` have been visited.
structure Moving (W : Wire T) (P : RenewalPrefixes) (s₀ : RawStorage) (seen : List (List UInt8))
    (s : RawStorage) : Prop where
  walk    : bytes.Walk (fun _ => kept W) (some P.oldAutoRenewals) (old P s₀) seen (old P s)
  moved   : ∀ suffix ≠ [], P.oldAutoRenewals ++ suffix ∈ seen → s.lookup (P.renewals ++ suffix) =
    ((s₀.lookup (P.oldAutoRenewals ++ suffix)).bind (relocated W)).or
      (s₀.lookup (P.renewals ++ suffix))
  unmoved : ∀ suffix ≠ [], P.oldAutoRenewals ++ suffix ∉ seen →
    s.lookup (P.renewals ++ suffix) = s₀.lookup (P.renewals ++ suffix)
  others  : ∀ k, ¬P.oldAutoRenewals <+: k → (∀ suffix ≠ [], k ≠ P.renewals ++ suffix) →
    s.lookup k = s₀.lookup k

-- The storage after all of them have.
structure Moved (W : Wire T) (P : RenewalPrefixes) (s₀ s : RawStorage) : Prop where
  old    : ∀ suffix ≠ [], s.lookup (P.oldAutoRenewals ++ suffix) =
    (s₀.lookup (P.oldAutoRenewals ++ suffix)).bind (kept W)
  moved  : ∀ suffix ≠ [], s.lookup (P.renewals ++ suffix) =
    ((s₀.lookup (P.oldAutoRenewals ++ suffix)).bind (relocated W)).or
      (s₀.lookup (P.renewals ++ suffix))
  others : ∀ k, (∀ suffix ≠ [], k ≠ P.oldAutoRenewals ++ suffix ∧ k ≠ P.renewals ++ suffix) →
    s.lookup k = s₀.lookup k

theorem lookup_old (P : RenewalPrefixes) (s : RawStorage) (h : P.oldAutoRenewals <+: k) :
    (old P s).lookup k = s.lookup k := by
  rw [Finmap.lookup_restrict, if_pos h]

theorem Moving.start : Moving W P s [] s where
  walk    := .start
  moved   := by simp
  unmoved := by simp
  others  := by simp

theorem Moving.done (h : Moving W P s₀ seen s)
    (hn : bytes.next (old P s).keys (seen.getLast?.or (some P.oldAutoRenewals)) = none) :
    Moved W P s₀ s := by
  have hunseen {suffix : List UInt8} (hs : suffix ≠ []) (hu : P.oldAutoRenewals ++ suffix ∉ seen) :
      s₀.lookup (P.oldAutoRenewals ++ suffix) = none := by
    rw [h.walk.done hn, bytes_after_append, ← Finmap.mem_keys, Finmap.keys_restrict] at hu
    rw [Finmap.lookup_eq_none, ← Finmap.mem_keys]
    exact fun hm => hu ⟨Finset.mem_filter.mpr ⟨hm, List.prefix_append _ _⟩, hs⟩
  refine ⟨fun suffix hs => ?_, fun suffix hs => ?_, fun k hk => ?_⟩
  · have hp := List.prefix_append P.oldAutoRenewals suffix
    by_cases hm : P.oldAutoRenewals ++ suffix ∈ seen
    · rw [← lookup_old P s hp, h.walk.lookup_of_mem hm, lookup_old P s₀ hp]
    · rw [← lookup_old P s hp, h.walk.lookup_of_notMem hm, lookup_old P s₀ hp, hunseen hs hm]
      rfl
  · by_cases hm : P.oldAutoRenewals ++ suffix ∈ seen
    · exact h.moved suffix hs hm
    · rw [h.unmoved suffix hs hm, hunseen hs hm]
      rfl
  · by_cases hp : P.oldAutoRenewals <+: k
    · -- This is the common part itself, after which the walk starts.
      have hm : k ∉ seen := by
        obtain ⟨suffix, rfl⟩ := hp
        intro hm
        have ha := ((h.walk.mem _).mp hm).right.left
        exact (hk suffix (bytes_after_append.mp ha)).left rfl
      rw [← lookup_old P s hp, h.walk.lookup_of_notMem hm, lookup_old P s₀ hp]
    · exact h.others k hp fun suffix hs => (hk suffix hs).right

-- The next key is that of an old entry, which is still as it was.
theorem Moving.next_key (h : Moving W P s₀ seen s)
    (hn : bytes.next (old P s).keys (seen.getLast?.or (some P.oldAutoRenewals)) = some key) :
    ∃ suffix raw, suffix ≠ [] ∧ key = P.oldAutoRenewals ++ suffix ∧ key ∉ seen ∧
      (old P s).lookup key = some raw ∧ s.lookup key = some raw ∧ s₀.lookup key = some raw := by
  have ⟨hk, ha, _⟩ := next_eq_some.mp hn
  rw [Finmap.keys_restrict] at hk
  have hp := (Finset.mem_filter.mp hk).right
  have ⟨raw, hr, hr₀⟩ := h.walk.next_lookup hn
  have hs := h.walk.after_start ha
  have hu : key ∉ seen := fun hm => ((h.walk.mem key).mp hm).right.right ha
  obtain ⟨suffix, rfl⟩ := hp
  have hp := List.prefix_append P.oldAutoRenewals suffix
  exact ⟨suffix, raw, bytes_after_append.mp hs, rfl, hu, hr, lookup_old P s hp ▸ hr,
    lookup_old P s₀ hp ▸ hr₀⟩

theorem Moving.keep (h : Moving W P s₀ seen s)
    (hn : bytes.next (old P s).keys (seen.getLast?.or (some P.oldAutoRenewals)) = some key)
    (hr : s.lookup key = some raw) (hm : relocated W raw = none) :
    Moving W P s₀ (seen ++ [key]) s := by
  have ⟨suffix, raw', hs, hk, hu, ho, hr', hr₀⟩ := h.next_key hn
  cases hr.symm.trans hr'
  refine ⟨h.walk.keep hn ho (by simp [kept, hm]), fun suffix' hs' hmem => ?_,
    fun suffix' hs' hmem => ?_, h.others⟩
  · rw [List.mem_append, List.mem_singleton] at hmem
    cases hmem
    case inl hmem => exact h.moved suffix' hs' hmem
    case inr heq  =>
      rw [heq, hr₀, Option.bind_some, hm, Option.none_or]
      exact h.unmoved suffix' hs' (heq ▸ hu)
  · exact h.unmoved suffix' hs' fun h => hmem (List.mem_append_left _ h)

theorem Moving.move (h : Moving W P s₀ seen s)
    (hn : bytes.next (old P s).keys (seen.getLast?.or (some P.oldAutoRenewals)) = some key)
    (hr : s.lookup key = some raw) (hm : relocated W raw = some value) :
    Moving W P s₀ (seen ++ [key])
      ((s.insert (P.renewals ++ key.drop P.oldAutoRenewals.length) value).erase key) := by
  have ⟨suffix, raw', hs, hk, hu, ho, hr', hr₀⟩ := h.next_key hn
  cases hr.symm.trans hr'
  subst hk
  rw [List.drop_left]
  -- A new key is neither the one that is cleared, nor that of another entry.
  have hnew (suffix' : List UInt8) :
      ((s.insert (P.renewals ++ suffix) value).erase (P.oldAutoRenewals ++ suffix)).lookup
        (P.renewals ++ suffix') = if suffix' = suffix then some value
          else s.lookup (P.renewals ++ suffix') := by
    have hne : P.renewals ++ suffix' ≠ P.oldAutoRenewals ++ suffix := fun he =>
      P.not_under_renewals suffix' (he ▸ List.prefix_append _ _)
    rw [Finmap.lookup_erase_eq, if_neg hne, Finmap.lookup_insert_eq]
    simp
  refine ⟨h.walk.visit hn ho fun j => ?_, fun suffix' hs' hmem => ?_, fun suffix' hs' hmem => ?_,
    fun k hk hk' => ?_⟩
  · rw [Finmap.lookup_restrict, Finmap.lookup_restrict, Finmap.lookup_erase_eq,
      Finmap.lookup_insert_eq]
    by_cases hj : P.oldAutoRenewals <+: j
    · have hne : j ≠ P.renewals ++ suffix := fun he => P.not_under_renewals suffix (he ▸ hj)
      simp [hj, hne, kept, hm]
    · have hne : j ≠ P.oldAutoRenewals ++ suffix := fun he => hj (he ▸ List.prefix_append _ _)
      simp [hj, hne]
  · rw [hnew]
    rw [List.mem_append, List.mem_singleton, List.append_cancel_left_eq] at hmem
    by_cases he : suffix' = suffix
    · subst he
      simp [hr₀, hm]
    · rw [if_neg he]
      exact h.moved suffix' hs' (hmem.resolve_right he)
  · rw [List.mem_append, List.mem_singleton, List.append_cancel_left_eq, not_or] at hmem
    rw [hnew, if_neg hmem.right]
    exact h.unmoved suffix' hs' hmem.left
  · have hne : k ≠ P.oldAutoRenewals ++ suffix := fun he => hk (he ▸ List.prefix_append _ _)
    rw [Finmap.lookup_erase_eq, if_neg hne, Finmap.lookup_insert_eq, if_neg (hk' suffix hs)]
    exact h.others k hk hk'

theorem loop_moved (h : Moving W P s₀ seen s) (hf : (old P s₀).keys.card < seen.length + fuel)
    (hp : seen.getLast?.or (some P.oldAutoRenewals) = some previous) :
    ∃ s', loop W P fuel previous s = some s' ∧ Moved W P s₀ s' := by
  induction fuel generalizing seen s previous
  case zero         => exact absurd h.walk.length_le (by omega)
  case succ fuel hi =>
    have hunder : P.oldAutoRenewals <+: previous := by
      cases hl : seen.getLast?
      case none   => simp_all
      case some a =>
        have ha := ((h.walk.mem a).mp (List.mem_of_getLast? hl)).left
        rw [← Finmap.mem_keys, Finmap.keys_restrict] at ha
        simp_all
    rw [loop, bytes_next_under hunder, ← Finmap.keys_restrict, ← hp]
    cases hn : bytes.next (old P s).keys (seen.getLast?.or (some P.oldAutoRenewals))
    case none     => exact ⟨s, rfl, h.done hn⟩
    case some key =>
      have ⟨suffix, raw, _, _, _, _, hr, _⟩ := h.next_key hn
      have hi {s₁ : RawStorage} (h : Moving W P s₀ (seen ++ [key]) s₁) :
          ∃ s', loop W P fuel key s₁ = some s' ∧ Moved W P s₀ s' :=
        hi h (by simp; omega) (by simp)
      simp only [hr]
      cases hm : relocated W raw
      case none       => exact hi <| h.keep hn hr hm
      case some value => exact hi <| h.move hn hr hm

theorem lookup_moveValue :
    (moveValue s oldKey newKey).lookup k =
      if k = oldKey then none
      else if k = newKey then (s.lookup oldKey).or (s.lookup newKey)
      else s.lookup k := by
  rw [moveValue]
  cases ho : s.lookup oldKey
  case some raw => simp [Finmap.lookup_erase_eq, Finmap.lookup_insert_eq]
  case none     =>
    by_cases hk : k = oldKey
    · rw [if_pos hk, hk, ho]
    · by_cases hk' : k = newKey
      · subst hk'
        simp [hk]
      · simp [hk, hk']

def moveValues (P : RenewalPrefixes) (s : RawStorage) : RawStorage :=
  moveValue (moveValue s P.oldPendingAutoRenewals P.pendingRenewals)
    P.oldPermanentStorageUsed P.permanentStorageUsed

theorem lookup_moveValues (s : RawStorage) (h : v ∈ P.values) :
    (moveValues P s).lookup v.1 = none ∧
      (moveValues P s).lookup v.2 = (s.lookup v.1).or (s.lookup v.2) := by
  have hd := P.nodup
  simp only [List.nodup_cons, List.mem_cons, List.not_mem_nil, or_false, not_or] at hd
  have ⟨_, _, ⟨hab, hac, had⟩, ⟨hbc, hbd⟩, hcd, _⟩ := hd
  simp only [RenewalPrefixes.values, List.mem_cons, List.not_mem_nil, or_false] at h
  cases h <;> subst v
  all_goals
    simp [moveValues, lookup_moveValue, hac, had, hbc, hbd, Ne.symm hab, Ne.symm hac, Ne.symm had,
      Ne.symm hbc, Ne.symm hbd, Ne.symm hcd]

theorem lookup_moveValues_of_ne (s : RawStorage) (h : ∀ v ∈ P.values, k ≠ v.1 ∧ k ≠ v.2) :
    (moveValues P s).lookup k = s.lookup k := by
  simp only [RenewalPrefixes.values, List.forall_mem_cons] at h
  simp [moveValues, lookup_moveValue, h]

-- The storage after the migration.
structure Relocated (W : Wire T) (P : RenewalPrefixes) (s₀ s : RawStorage) : Prop where
  old    : ∀ suffix ≠ [], s.lookup (P.oldAutoRenewals ++ suffix) =
    (s₀.lookup (P.oldAutoRenewals ++ suffix)).bind (kept W)
  moved  : ∀ suffix ≠ [], s.lookup (P.renewals ++ suffix) =
    ((s₀.lookup (P.oldAutoRenewals ++ suffix)).bind (relocated W)).or
      (s₀.lookup (P.renewals ++ suffix))
  values : ∀ v ∈ P.values, s.lookup v.1 = none ∧ s.lookup v.2 = (s₀.lookup v.1).or (s₀.lookup v.2)
  others : ∀ k, (∀ suffix ≠ [], k ≠ P.oldAutoRenewals ++ suffix ∧ k ≠ P.renewals ++ suffix) →
    (∀ v ∈ P.values, k ≠ v.1 ∧ k ≠ v.2) → s.lookup k = s₀.lookup k

-- The key of a value is as long as the prefixes of the entries, and so not the key of one.
theorem value_ne_entry (P : RenewalPrefixes) (hk : k.length = 32) (hs : suffix ≠ []) :
    k ≠ P.oldAutoRenewals ++ suffix ∧ k ≠ P.renewals ++ suffix := by
  have := List.length_pos_iff.mpr hs
  constructor
  all_goals
    intro he
    have hl := congrArg List.length he
    rw [List.length_append] at hl
  · rw [P.oldAutoRenewals_length] at hl; omega
  · rw [P.renewals_length] at hl; omega

theorem onRuntimeUpgrade_relocated (W : Wire T) (P : RenewalPrefixes) (s : RawStorage) :
    ∃ s', onRuntimeUpgrade W P s = some s' ∧ Relocated W P s s' := by
  have hf : (old P s).keys.card < 0 + (s.keys.card + 1) := by
    have := Finset.card_filter_le s.keys (P.oldAutoRenewals <+: ·)
    rw [Finmap.keys_restrict]
    omega
  have ⟨s₁, hl, hm⟩ : ∃ s₁, loop W P (s.keys.card + 1) P.oldAutoRenewals s = some s₁ ∧ Moved W P s s₁ :=
    loop_moved .start hf rfl
  refine ⟨moveValues P s₁, by rw [onRuntimeUpgrade, hl]; rfl, ?_⟩
  have hentry {suffix : List UInt8} (hs : suffix ≠ []) (v) (hv : v ∈ P.values) :=
    And.intro (value_ne_entry P (P.values_length hv).left hs)
      (value_ne_entry P (P.values_length hv).right hs)
  refine ⟨fun suffix hs => ?_, fun suffix hs => ?_, fun v hv => ?_, fun k hk hv => ?_⟩
  · rw [lookup_moveValues_of_ne, hm.old suffix hs]
    exact fun v hv => ⟨(hentry hs v hv).left.left.symm, (hentry hs v hv).right.left.symm⟩
  · rw [lookup_moveValues_of_ne, hm.moved suffix hs]
    exact fun v hv => ⟨(hentry hs v hv).left.right.symm, (hentry hs v hv).right.right.symm⟩
  · have hs₁ (k : List UInt8) (hk : k.length = 32) : s₁.lookup k = s.lookup k :=
      hm.others k fun suffix hs => value_ne_entry P hk hs
    rw [← hs₁ v.1 (P.values_length hv).left, ← hs₁ v.2 (P.values_length hv).right]
    exact lookup_moveValues s₁ hv
  · rw [lookup_moveValues_of_ne s₁ hv, hm.others k hk]

theorem bind_kept {o : Option (List UInt8)} (h : o.bind (relocated W) = none) : o.bind (kept W) = o := by
  cases o
  case none     => rfl
  case some raw => simpa [kept] using h

theorem bind_kept_relocated (o : Option (List UInt8)) :
    (o.bind (kept W)).bind (relocated W) = none := by
  cases o
  case none     => rfl
  case some raw => cases hm : relocated W raw <;> simp [kept, hm]

-- A key is as it was, unless it is that of an old entry which can be read, or of a value under its old
-- key, or the new key of one of them.
theorem Relocated.lookup_eq (h : Relocated W P s₀ s)
    (he : ∀ suffix ≠ [], k = P.oldAutoRenewals ++ suffix ∨ k = P.renewals ++ suffix →
      (s₀.lookup (P.oldAutoRenewals ++ suffix)).bind (relocated W) = none)
    (hv : ∀ v ∈ P.values, k = v.1 ∨ k = v.2 → s₀.lookup v.1 = none) : s.lookup k = s₀.lookup k := by
  by_cases hold : ∃ suffix ≠ [], k = P.oldAutoRenewals ++ suffix
  · have ⟨suffix, hne, hk⟩ := hold
    rw [hk, h.old suffix hne, bind_kept (he suffix hne (.inl hk))]
  · by_cases hnew : ∃ suffix ≠ [], k = P.renewals ++ suffix
    · have ⟨suffix, hne, hk⟩ := hnew
      rw [hk, h.moved suffix hne, he suffix hne (.inr hk), Option.none_or]
    · by_cases hval : ∃ v ∈ P.values, k = v.1 ∨ k = v.2
      · have ⟨v, hm, hk⟩ := hval
        have ⟨ho, hn⟩ := h.values v hm
        have hnone := hv v hm hk
        cases hk
        case inl hk => rw [hk, ho, hnone]
        case inr hk => rw [hk, hn, hnone, Option.none_or]
      · push Not at hold hnew hval
        exact h.others k (fun suffix hs => ⟨hold suffix hs, hnew suffix hs⟩) hval

-- What a first run leaves, a second run leaves as well.
theorem Relocated.again (h : Relocated W P s₀ s) (h' : Relocated W P s s') : s' = s := by
  apply Finmap.ext_lookup
  intro k
  refine h'.lookup_eq (fun suffix hne _ => ?_) fun v hv _ => (h.values v hv).left
  rw [h.old suffix hne]
  exact bind_kept_relocated _

end RelocateFromTransactionStorage

-- The migration ends, and moves what it can read: an entry of `AutoRenewals` as it is, or with its
-- account, under the same key suffix. What it cannot read stays, and so does everything that is neither
-- an entry nor one of the two values. To run it again changes nothing.
theorem relocation_moves_once {T : Config} (W : Wire T) (P : RenewalPrefixes) (s : RawStorage) :
    ∃ s', onRuntimeUpgrade W P s = some s' ∧
      (∀ suffix raw, suffix ≠ [] → s.lookup (P.oldAutoRenewals ++ suffix) = some raw →
        ((W.renewalData.read raw).isSome →
          s'.lookup (P.renewals ++ suffix) = some raw ∧
          s'.lookup (P.oldAutoRenewals ++ suffix) = none) ∧
        (∀ account, W.renewalData.read raw = none → W.accountId.read raw = some account →
          s'.lookup (P.renewals ++ suffix) = some (W.renewalData.encode ⟨account, true, false⟩) ∧
          s'.lookup (P.oldAutoRenewals ++ suffix) = none) ∧
        (W.renewalData.read raw = none → W.accountId.read raw = none →
          s'.lookup (P.oldAutoRenewals ++ suffix) = some raw ∧
          s'.lookup (P.renewals ++ suffix) = s.lookup (P.renewals ++ suffix))) ∧
      (∀ raw, s.lookup P.oldPendingAutoRenewals = some raw →
        s'.lookup P.pendingRenewals = some raw ∧ s'.lookup P.oldPendingAutoRenewals = none) ∧
      (∀ raw, s.lookup P.oldPermanentStorageUsed = some raw →
        s'.lookup P.permanentStorageUsed = some raw ∧
        s'.lookup P.oldPermanentStorageUsed = none) ∧
      (∀ k, (∀ suffix ≠ [], k = P.oldAutoRenewals ++ suffix ∨ k = P.renewals ++ suffix →
          ∀ raw, s.lookup (P.oldAutoRenewals ++ suffix) = some raw →
            W.renewalData.read raw = none ∧ W.accountId.read raw = none) →
        (k = P.oldPendingAutoRenewals ∨ k = P.pendingRenewals →
          s.lookup P.oldPendingAutoRenewals = none) →
        (k = P.oldPermanentStorageUsed ∨ k = P.permanentStorageUsed →
          s.lookup P.oldPermanentStorageUsed = none) →
        s'.lookup k = s.lookup k) ∧
      onRuntimeUpgrade W P s' = some s' := by
  have ⟨s', hs, h⟩ := onRuntimeUpgrade_relocated W P s
  have ⟨s'', hs', h'⟩ := onRuntimeUpgrade_relocated W P s'
  refine ⟨s', hs, fun suffix raw hne hr => ?_, ?_, ?_, ?_, h.again h' ▸ hs'⟩
  · rw [h.old suffix hne, h.moved suffix hne, hr, Option.bind_some, Option.bind_some]
    refine ⟨fun hd => ?_, fun account hd ha => ?_, fun hd ha => ?_⟩
    · simp [kept, relocated, hd]
    · simp [kept, relocated, hd, ha]
    · simp [kept, relocated, hd, ha]
  · intro raw hr
    have ⟨ho, hn⟩ := h.values (P.oldPendingAutoRenewals, P.pendingRenewals) List.mem_cons_self
    exact ⟨by rw [hn, hr, Option.some_or], ho⟩
  · intro raw hr
    have ⟨ho, hn⟩ := h.values (P.oldPermanentStorageUsed, P.permanentStorageUsed)
      (List.mem_cons_of_mem _ List.mem_cons_self)
    exact ⟨by rw [hn, hr, Option.some_or], ho⟩
  · intro k he hpending hused
    refine h.lookup_eq (fun suffix hne hk => ?_) fun v hv hk => ?_
    · cases hr : s.lookup (P.oldAutoRenewals ++ suffix)
      case none     => rfl
      case some raw =>
        have ⟨hd, ha⟩ := he suffix hne hk raw hr
        simp [relocated, hd, ha]
    · simp only [RenewalPrefixes.values, List.mem_cons, List.not_mem_nil, or_false] at hv
      cases hv <;> subst v
      · exact hpending hk
      · exact hused hk

end Bulletin
