import BulletinChain.Theorems.MigrateV1

namespace Bulletin

open Scale MigrateV2ToV3

namespace Layout

variable {κ ν : Type} [DecidableEq κ]

-- What a visit makes of the value of a key.
def outcome (L : Layout κ ν) (oldestValid : Nat) (block : κ) (raw : ν) : Option ν :=
  if L.number block < oldestValid then none else if L.isCurrent raw then some raw else L.fromV2 raw

-- Every value that is not dropped is in one of the two layouts.
def Readable (L : Layout κ ν) (oldestValid : Nat) (m : Finmap fun _ : κ => ν) : Prop :=
  ∀ block raw, m.lookup block = some raw → oldestValid ≤ L.number block →
    L.isCurrent raw ∨ (L.fromV2 raw).isSome

end Layout

namespace MigrateV2ToV3

variable {κ ν : Type} [DecidableEq κ] {L : Layout κ ν} {oldestValid : Nat} {p₀ p q : Progress κ ν}
  {seen : List κ}

-- The storage that a run from `p₀` has come to after `seen` more keys.
structure Reached (L : Layout κ ν) (oldestValid : Nat) (p₀ : Progress κ ν) (seen : List κ)
    (p : Progress κ ν) : Prop where
  walk    : L.order.Walk (L.outcome oldestValid) p₀.cursor p₀.transactions seen p.transactions
  visited : p.visited = p₀.visited ++ seen

structure Paused (L : Layout κ ν) (oldestValid : Nat) (p₀ : Progress κ ν) (seen : List κ)
    (p : Progress κ ν) : Prop extends Reached L oldestValid p₀ seen p where
  cursor  : p.cursor = seen.getLast?.or p₀.cursor
  version : p.version = p₀.version

structure Finished (L : Layout κ ν) (oldestValid : Nat) (p₀ : Progress κ ν) (seen : List κ)
    (p : Progress κ ν) : Prop extends Reached L oldestValid p₀ seen p where
  last    : L.order.next p.transactions.keys (seen.getLast?.or p₀.cursor) = none
  cursor  : p.cursor = none
  version : p.version = max p₀.version 3

theorem Paused.start : Paused L oldestValid p [] p where
  walk    := .start
  visited := by simp
  cursor  := by simp
  version := rfl

theorem Paused.visit (h : Paused L oldestValid p₀ seen p)
    (w : L.order.Walk (L.outcome oldestValid) p₀.cursor p₀.transactions (seen ++ [block]) m) :
    Paused L oldestValid p₀ (seen ++ [block]) (p.visit block m) where
  walk    := w
  visited := by simp [Progress.visit, h.visited]
  cursor  := by simp [Progress.visit]
  version := h.version

-- A result that continues a run which has `seen` some keys. It sees another one if there is weight for
-- it, unless the run is at its end.
def Advances (L : Layout κ ν) (oldestValid : Nat) (p₀ : Progress κ ν) (seen : List κ) (weight : Prop)
    (r : Option (Except SteppedMigrationError (Progress κ ν))) : Prop :=
  ∃ q seen', r = some (.ok q) ∧ seen.length ≤ seen'.length ∧
    (Paused L oldestValid p₀ seen' q ∧ (weight → seen.length < seen'.length) ∨
      Finished L oldestValid p₀ seen' q)

theorem Advances.of_visit (h : Advances L oldestValid p₀ (seen ++ [block]) weight' r) :
    Advances L oldestValid p₀ seen weight r := by
  have ⟨q, seen', hq, hl, h⟩ := h
  rw [List.length_append, List.length_singleton] at hl
  exact ⟨q, seen', hq, by omega, h.imp_left fun h => ⟨h.left, fun _ => hl⟩⟩

theorem loop_advances (required remaining : Weight) (hr : L.Readable oldestValid p₀.transactions)
    (h : Paused L oldestValid p₀ seen p) (hf : p₀.transactions.keys.card < seen.length + fuel) :
    Advances L oldestValid p₀ seen (remaining.anyLt required = false)
      (loop L required oldestValid fuel remaining p) := by
  induction fuel generalizing remaining seen p
  case zero         => exact absurd h.walk.length_le (by omega)
  case succ fuel hi =>
    cases hw : remaining.tryConsume required
    case none =>
      have hw' : remaining.anyLt required := by
        by_contra hc
        simp [Weight.tryConsume, hc] at hw
      exact ⟨p, seen, by rw [loop, hw], le_rfl, .inl ⟨h, by simp [hw']⟩⟩
    case some rest =>
      cases hn : L.order.next p.transactions.keys p.cursor
      case none =>
        refine ⟨{ p with version := if p.version < 3 then 3 else p.version, cursor := none }, seen,
          by simp only [loop, hw, hn], le_rfl, .inr ⟨⟨h.walk, h.visited⟩, h.cursor ▸ hn, rfl, ?_⟩⟩
        simp only [h.version]
        split <;> omega
      case some block =>
        have hn' := h.cursor ▸ hn
        have ⟨raw, hraw, hraw₀⟩ := h.walk.next_lookup hn'
        -- However the visit goes, the rest of the loop goes on from it.
        have hi {m : Finmap fun _ : κ => ν}
            (w : L.order.Walk (L.outcome oldestValid) p₀.cursor p₀.transactions (seen ++ [block]) m) :
            Advances L oldestValid p₀ seen (remaining.anyLt required = false)
              (loop L required oldestValid fuel rest (p.visit block m)) :=
          (hi rest (h.visit w) (by simp; omega)).of_visit
        by_cases hs : L.number block < oldestValid
        · simp only [loop, hw, hn, if_pos hs]
          exact hi <| h.walk.erase hn' hraw <| if_pos hs
        · simp only [loop, hw, hn, if_neg hs, hraw]
          cases hc : L.isCurrent raw
          case true  => exact hi <| h.walk.keep hn' hraw <| by simp [Layout.outcome, hs, hc]
          case false =>
            have ⟨v3, hv⟩ := Option.isSome_iff_exists.mp <|
              (hr block raw hraw₀ (by omega)).resolve_left (by simp [hc])
            simp only [hv]
            exact hi <| h.walk.insert hn' hraw <| by simpa [Layout.outcome, hs, hc] using hv

theorem limit_of_step (h : step L required now period limit p = some (.ok q)) :
    limit.anyLt required = false := by
  simp only [step] at h
  split at h
  case isTrue     => cases h
  case isFalse hl => simpa using hl

theorem step_advances (hr : L.Readable (now - period) p₀.transactions)
    (h : Paused L (now - period) p₀ seen p) (hl : limit.anyLt required = false) :
    Advances L (now - period) p₀ seen True (step L required now period limit p) := by
  have hf := h.walk.card_le
  have ⟨q, seen', hq, hs, h⟩ := loop_advances required limit hr h
    (show _ < seen.length + (p.transactions.keys.card + 1) by omega)
  exact ⟨q, seen', by rwa [step, hl], hs, h.imp_left fun h => ⟨h.left, fun _ => h.right hl⟩⟩

-- Each step sees another key or finishes, so that there is a step which does.
theorem steps_finish (p₀ : Progress κ ν) (hr : L.Readable (now - period) p₀.transactions)
    (hl : ∀ k, (limits k).anyLt required = false) :
    ∃ n q seen, steps L required now period limits p₀ (n + 1) = some (.ok q) ∧
      Finished L (now - period) p₀ seen q ∧
      ∀ k ≤ n, ∃ q seen, steps L required now period limits p₀ k = some (.ok q) ∧
        Paused L (now - period) p₀ seen q ∧ k ≤ seen.length := by
  by_contra hc
  have hp (k : Nat) : ∀ j ≤ k, ∃ q seen, steps L required now period limits p₀ j = some (.ok q) ∧
      Paused L (now - period) p₀ seen q ∧ j ≤ seen.length := by
    induction k
    case zero =>
      intro j hj
      rw [Nat.le_zero.mp hj]
      exact ⟨p₀, [], rfl, .start, le_rfl⟩
    case succ k hi =>
      intro j hj
      cases Nat.le_succ_iff.mp hj
      case inl hj => exact hi j hj
      case inr hj =>
        subst hj
        have ⟨p, seen, hk, hp, hs⟩ := hi k le_rfl
        have ⟨q, seen', hq, _, h⟩ := step_advances hr hp (hl k)
        have hq : steps L required now period limits p₀ (k + 1) = some (.ok q) := by
          simp only [steps, hk, hq]
        cases h
        case inl h => exact ⟨q, seen', hq, h.left, by have := h.right trivial; omega⟩
        case inr h => exact absurd ⟨k, q, seen', hq, h, hi⟩ hc
  have ⟨q, seen, _, h, hs⟩ := hp _ (p₀.transactions.keys.card + 1) le_rfl
  exact absurd h.walk.length_le (by omega)

theorem complete_finishes (hr : L.Readable (now - period) p₀.transactions)
    (hl : ∀ k, (limits k).anyLt required = false) (h : Paused L (now - period) p₀ seen p)
    (hf : p₀.transactions.keys.card < seen.length + fuel) (k : Nat) :
    ∃ q seen', complete L required now period limits fuel k p = some (.ok q) ∧
      Finished L (now - period) p₀ seen' q := by
  induction fuel generalizing seen p k
  case zero         => exact absurd h.walk.length_le (by omega)
  case succ fuel hi =>
    have ⟨q, seen', hq, _, ha⟩ := step_advances hr h (hl k)
    simp only [complete, hq]
    cases ha
    case inr hfin => exact ⟨q, seen', by simp [hfin.cursor], hfin⟩
    case inl ha   =>
      have hs := ha.right trivial
      have hn : seen' ≠ [] := List.ne_nil_of_length_pos (by omega)
      rw [if_neg (by simp [ha.left.cursor, hn])]
      exact hi ha.left (by omega) (k + 1)

-- A loop that had a cursor, or weight for a pass, ends without one only where there is no key left.
theorem loop_version (h : loop L required oldestValid fuel remaining p = some (.ok q))
    (hp : p.cursor = none → remaining.anyLt required = false) :
    q.version = if q.cursor.isNone then max p.version 3 else p.version := by
  induction fuel generalizing remaining p
  case zero         => cases h
  case succ fuel hi =>
    have hi {m : Finmap fun _ : κ => ν} {block : κ} {rest : Weight}
        (h : loop L required oldestValid fuel rest (p.visit block m) = some (.ok q)) :
        q.version = if q.cursor.isNone then max p.version 3 else p.version := by
      have h := hi h nofun
      exact h
    simp only [loop] at h
    split at h
    case h_1 hw =>
      cases h
      have hc : q.cursor.isNone = false := by
        cases hc : q.cursor
        case none   => simp [Weight.tryConsume, hp hc] at hw
        case some _ => rfl
      rw [hc]
      rfl
    case h_2 =>
      split at h
      case h_1 =>
        cases h
        simp only [Option.isNone_none, if_true]
        split <;> omega
      case h_2 =>
        split at h
        case isTrue  => exact hi h
        case isFalse =>
          split at h
          case h_1 => exact hi h
          case h_2 =>
            split at h
            case isTrue  => exact hi h
            case isFalse =>
              split at h
              case h_1 => cases h
              case h_2 => exact hi h

theorem complete_version (h : complete L required now period limits fuel k p = some (.ok q)) :
    q.version = max p.version 3 := by
  induction fuel generalizing k p
  case zero         => cases h
  case succ fuel hi =>
    simp only [complete] at h
    split at h
    case h_1 p₁ hs =>
      simp only [step] at hs
      split at hs
      case isTrue     => cases hs
      case isFalse hl =>
        have hv := loop_version hs fun _ => by simpa using hl
        split at h
        case isTrue hc =>
          cases h
          rwa [if_pos hc] at hv
        case isFalse hc =>
          rw [if_neg hc] at hv
          rw [hi h, hv]
    case h_2 hs => exact absurd h (hs q)

end MigrateV2ToV3

open VersionUncheckedMigrateV1ToV2

namespace Wire

variable {T : Config} {W : Wire T}

theorem valid_translateInfo (h : W.v1TransactionInfo.Valid old) :
    W.transactionInfo.Valid (translateInfo old) := by
  have ⟨hr, hc, hh, hd, hs, hb⟩ := h
  have hx : u32.Valid Machine.u32Max := show Machine.u32Max < 256 ^ 4 by decide
  exact ⟨hr, hc, hh, hd, hs, hx, hb, List.mem_cons_self⟩

theorem isList_translate (h : IsList T W.v1TransactionInfo raw l) :
    IsList T W.transactionInfo ((entriesCodec T W.transactionInfo).encode (l.map translateInfo))
      (l.map translateInfo) where
  nonempty   := by simpa using h.nonempty
  valid e he := by
    have ⟨o, ho, he⟩ := List.mem_map.mp he
    exact he ▸ valid_translateInfo (h.valid o ho)
  encoded    := rfl

-- The entries of version 2 are shorter than the current ones.
theorem read_v2 (h : IsList T W.v1TransactionInfo raw l) :
    (entriesCodec T W.transactionInfo).read raw = none :=
  h.read_eq_none W.v1TransactionInfo_sized W.transactionInfo_sized (by decide)

theorem outcome_eq_none (hb : ¬oldestValid ≤ b.toNat) : W.layout.outcome oldestValid b raw = none :=
  if_pos (not_le.mp hb)

theorem outcome_v2 (h : IsList T W.v1TransactionInfo raw l) (hb : oldestValid ≤ b.toNat) :
    W.layout.outcome oldestValid b raw =
      some ((entriesCodec T W.transactionInfo).encode (l.map translateInfo)) := by
  have hs : ¬W.layout.number b < oldestValid := not_lt.mpr hb
  have hc : W.layout.isCurrent raw = false := by simp [layout, read_v2 h]
  simp only [Layout.outcome, hs, hc]
  simp [layout, h.read]

theorem outcome_current (h : (entriesCodec T W.transactionInfo).read raw = some l)
    (hb : oldestValid ≤ b.toNat) : W.layout.outcome oldestValid b raw = some raw := by
  have hs : ¬W.layout.number b < oldestValid := not_lt.mpr hb
  have hc : W.layout.isCurrent raw := by simp [layout, h]
  simp only [Layout.outcome, hs, hc]
  simp

-- A map whose values are lists of the two layouts.
def IsMixed (W : Wire T) (m : RawTransactions) : Prop :=
  ∀ b raw, m.lookup b = some raw →
    (∃ l, IsList T W.v1TransactionInfo raw l) ∨ ∃ l, IsList T W.transactionInfo raw l

theorem IsMixed.readable (h : W.IsMixed m) (oldestValid : Nat) : W.layout.Readable oldestValid m := by
  intro b raw hr _
  cases h b raw hr
  case inl h => have ⟨l, h⟩ := h; exact .inr (by simp [layout, h.read])
  case inr h => have ⟨l, h⟩ := h; exact .inl (by simp [layout, h.read])

-- A visit does not change what is read at a block that is still retained.
theorem transactionsAt_of_walk (hm : W.IsMixed m) (hb : oldestValid ≤ b.toNat)
    (w : W.order.Walk (W.layout.outcome oldestValid) c₀ m seen m') :
    W.transactionsAt m' b = W.transactionsAt m b := by
  simp only [transactionsAt, w.lookup b]
  split
  case isFalse => rfl
  case isTrue  =>
    cases hr : m.lookup b
    case none     => rfl
    case some raw =>
      cases hm b raw hr
      case inl hi =>
        have ⟨l, hi⟩ := hi
        rw [Option.bind_some, outcome_v2 hi hb]
        simp [read_v2 hi, hi.read, (isList_translate hi).read]
      case inr hi =>
        have ⟨l, hi⟩ := hi
        rw [Option.bind_some, outcome_current hi.read hb]

theorem outcome_isSome (hm : W.IsMixed m) (hr : m.lookup b = some raw) :
    (W.layout.outcome oldestValid b raw).isSome ↔ oldestValid ≤ b.toNat := by
  by_cases hb : oldestValid ≤ b.toNat
  · cases hm b raw hr
    case inl hi => have ⟨l, hi⟩ := hi; simp [outcome_v2 hi hb, hb]
    case inr hi => have ⟨l, hi⟩ := hi; simp [outcome_current hi.read hb, hb]
  · simp [outcome_eq_none hb, hb]

end Wire

-- The migration of a map in any mixture of the two layouts, with whatever weight for each of its steps.
-- It visits each key once and in order, ends, and has then dropped what is no longer retained, rewritten
-- what was in the layout of version 2, and left the rest. Before, between and after the steps, the list
-- of a retained block reads the same.
theorem migration_steps {T : Config} (W : Wire T) (required : Weight) (now period version : Nat)
    (m : RawTransactions) (limits : Nat → Weight) (hm : W.IsMixed m)
    (hl : ∀ k, (limits k).anyLt required = false) :
    let run := steps W.layout required now period limits ⟨m, version, none, []⟩
    (∀ raw l, IsList T W.v1TransactionInfo raw l →
      (entriesCodec T W.transactionInfo).read raw = none) ∧
    ∃ n p, run (n + 1) = some (.ok p) ∧ p.cursor = none ∧ p.version = max version 3 ∧
      p.visited.Pairwise (W.order.rank · < W.order.rank ·) ∧ (∀ b, b ∈ p.visited ↔ b ∈ m) ∧
      (∀ b, b ∈ p.transactions ↔ b ∈ m ∧ now - period ≤ b.toNat) ∧
      (∀ b raw l, now - period ≤ b.toNat → m.lookup b = some raw →
        IsList T W.v1TransactionInfo raw l → p.transactions.lookup b =
          some ((entriesCodec T W.transactionInfo).encode (l.map translateInfo))) ∧
      (∀ b raw l, now - period ≤ b.toNat → m.lookup b = some raw →
        IsList T W.transactionInfo raw l → p.transactions.lookup b = some raw) ∧
      ∀ k ≤ n + 1, ∃ q, run k = some (.ok q) ∧ (q.cursor = none ↔ k = 0 ∨ k = n + 1) ∧
        ∀ b, now - period ≤ b.toNat → W.transactionsAt q.transactions b = W.transactionsAt m b := by
  intro run
  have ⟨n, p, seen, hp, hf, hs⟩ :=
    steps_finish ⟨m, version, none, []⟩ (hm.readable (now - period)) hl
  have ⟨hall, ht⟩ := hf.walk.done_all (by simpa using hf.last)
  have hv : p.visited = seen := by simpa using hf.visited
  have hlookup (b : UInt32) :
      p.transactions.lookup b = (m.lookup b).bind (W.layout.outcome (now - period) b) := by
    rw [ht, Finmap.lookup_translate]
  refine ⟨fun _ _ => Wire.read_v2, n, p, hp, hf.cursor, hf.version, hv ▸ hf.walk.sorted,
    hv ▸ hall, fun b => ?_, fun b raw l hb hr hi => ?_, fun b raw l hb hr hi => ?_, fun k hk => ?_⟩
  · rw [Finmap.mem_iff, Finmap.mem_iff, hlookup]
    cases hr : m.lookup b
    case none     => simp
    case some raw =>
      simp only [Option.bind_some, ← Option.isSome_iff_exists, Wire.outcome_isSome hm hr]
      simp
  · rw [hlookup, hr, Option.bind_some, Wire.outcome_v2 hi hb]
  · rw [hlookup, hr, Option.bind_some, Wire.outcome_current hi.read hb]
  · cases Nat.le_succ_iff.mp hk
    case inr hk =>
      subst hk
      exact ⟨p, hp, by simp [hf.cursor], fun b hb => Wire.transactionsAt_of_walk hm hb hf.walk⟩
    case inl hk =>
      have ⟨q, seen, hq, h, hs⟩ := hs k hk
      refine ⟨q, hq, ?_, fun b hb => Wire.transactionsAt_of_walk hm hb h.walk⟩
      have hc : q.cursor = none ↔ seen = [] := by simp [h.cursor]
      rw [hc, ← List.length_eq_zero_iff]
      cases k
      case zero   => cases hq; simpa using hc.mp rfl
      case succ k => omega

-- Two lists of version 2, of which one is no longer retained, and weight for one key a step.
theorem migration_steps_two :
    let encoded := (entriesCodec .arrays Wire.arrays.v1TransactionInfo).encode v1List
    let m : RawTransactions := (Finmap.singleton 7 encoded).insert 4 encoded
    ∃ n p, steps Wire.arrays.layout ⟨1, 1⟩ 10 5 (fun _ => ⟨1, 1⟩) ⟨m, 2, none, []⟩ (n + 1) =
        some (.ok p) ∧ p.cursor = none ∧ p.version = 3 ∧ 4 ∉ p.transactions ∧
      p.transactions.lookup 7 = some ((entriesCodec .arrays Wire.arrays.transactionInfo).encode
        (v1List.map translateInfo)) := by
  intro encoded m
  have hm : Wire.arrays.IsMixed m := by
    intro b raw hr
    rw [Finmap.lookup_insert_eq, Finmap.lookup_singleton] at hr
    split at hr
    case isTrue  => exact .inl ⟨v1List, Option.some.inj hr ▸ isList_v1List⟩
    case isFalse =>
      split at hr
      case isTrue  => exact .inl ⟨v1List, Option.some.inj hr ▸ isList_v1List⟩
      case isFalse => cases hr
  have ⟨_, n, p, hp, hc, hv, _, _, hk, ho, _⟩ :=
    migration_steps .arrays ⟨1, 1⟩ 10 5 2 m (fun _ => ⟨1, 1⟩) hm (fun _ => rfl)
  exact ⟨n, p, hp, hc, hv, fun h => absurd ((hk 4).mp h).right (by decide),
    ho 7 encoded v1List (by decide) (by decide) isList_v1List⟩

end Bulletin
