import Mathlib.Data.Finset.Max
import Mathlib.Data.List.Lex
import BulletinChain.Lib.FiniteMap

-- Walking the keys of a map in order while rewriting it.

-- An order of keys, such as that of the bytes under which a store keeps them.
structure KeyOrder (κ : Type u) (ο : Type v) where
  rank      : κ → ο
  injective : Function.Injective rank

namespace KeyOrder

variable {κ : Type u} {ο : Type v} [LinearOrder ο]

abbrev linearOrder (K : KeyOrder κ ο) : LinearOrder κ :=
  .lift' K.rank K.injective

-- The keys after the cursor, all of them if there is none.
def After (K : KeyOrder κ ο) (cursor : Option κ) (k : κ) : Prop :=
  ∀ a ∈ cursor, K.rank a < K.rank k

instance (K : KeyOrder κ ο) (cursor : Option κ) : DecidablePred (K.After cursor) :=
  fun k => match cursor with
    | none   => isTrue nofun
    | some a => decidable_of_iff (K.rank a < K.rank k) (by simp [After])

-- The first key after the cursor.
def next (K : KeyOrder κ ο) (keys : Finset κ) (cursor : Option κ) : Option κ :=
  let later := keys.filter (K.After cursor)
  if h : later.Nonempty then some (@Finset.min' κ K.linearOrder later h) else none

variable {K : KeyOrder κ ο} {keys : Finset κ} {cursor : Option κ} {j k : κ}

theorem next_eq_none : K.next keys cursor = none ↔ ∀ k ∈ keys, ¬K.After cursor k := by
  simp [next, Finset.not_nonempty_iff_eq_empty, Finset.filter_eq_empty_iff]

theorem next_eq_some : K.next keys cursor = some k ↔
    k ∈ keys ∧ K.After cursor k ∧ ∀ j ∈ keys, K.After cursor j → K.rank k ≤ K.rank j := by
  let _ := K.linearOrder
  simp only [next]
  constructor
  case mp =>
    intro h
    split at h
    case isFalse   => cases h
    case isTrue hn =>
      cases h
      have ⟨hk, ha⟩ := Finset.mem_filter.mp (Finset.min'_mem _ hn)
      exact ⟨hk, ha, fun j hj hja => Finset.min'_le _ _ (Finset.mem_filter.mpr ⟨hj, hja⟩)⟩
  case mpr =>
    intro ⟨hk, ha, hm⟩
    have hk := Finset.mem_filter.mpr ⟨hk, ha⟩
    rw [dif_pos ⟨k, hk⟩]
    refine congrArg some <| (Finset.min'_eq_iff _ _ _).mpr ⟨hk, fun j hj => ?_⟩
    have ⟨hj, hja⟩ := Finset.mem_filter.mp hj
    exact hm j hj hja

theorem After.of_not (h : K.After cursor k) (hj : ¬K.After cursor j) : K.rank j < K.rank k := by
  simp only [After, not_forall, not_lt] at hj
  have ⟨a, ha, hj⟩ := hj
  exact hj.trans_lt (h a ha)

-- A walk from the cursor `c₀` that has come as far as the last of the keys it has visited. It has
-- visited every key up to there, once and in order, has given each of them its outcome and has left the
-- others alone.
structure Walk [DecidableEq κ] (K : KeyOrder κ ο) (outcome : κ → ν → Option ν) (c₀ : Option κ)
    (m₀ : Finmap fun _ : κ => ν) (visited : List κ) (m : Finmap fun _ : κ => ν) : Prop where
  sorted : visited.Pairwise (K.rank · < K.rank ·)
  mem    : ∀ k, k ∈ visited ↔ k ∈ m₀ ∧ K.After c₀ k ∧ ¬K.After (visited.getLast?.or c₀) k
  lookup : ∀ k, m.lookup k = if k ∈ visited then (m₀.lookup k).bind (outcome k) else m₀.lookup k

namespace Walk

variable [DecidableEq κ] {ν : Type w} {outcome : κ → ν → Option ν} {c₀ : Option κ}
  {m₀ m m' : Finmap fun _ : κ => ν} {visited : List κ} {v : ν}

theorem start : Walk K outcome c₀ m₀ [] m₀ where
  sorted   := .nil
  mem k    := by simp
  lookup k := by simp

theorem lookup_of_mem (w : Walk K outcome c₀ m₀ visited m) (h : k ∈ visited) :
    m.lookup k = (m₀.lookup k).bind (outcome k) := by
  rw [w.lookup, if_pos h]

theorem lookup_of_notMem (w : Walk K outcome c₀ m₀ visited m) (h : k ∉ visited) :
    m.lookup k = m₀.lookup k := by
  rw [w.lookup, if_neg h]

theorem lookup_of_after (w : Walk K outcome c₀ m₀ visited m)
    (ha : K.After (visited.getLast?.or c₀) k) : m.lookup k = m₀.lookup k :=
  w.lookup_of_notMem fun h => ((w.mem k).mp h).right.right ha

-- What is after the last visited key is after where the walk has begun.
theorem after_start (w : Walk K outcome c₀ m₀ visited m)
    (ha : K.After (visited.getLast?.or c₀) k) : K.After c₀ k := by
  cases hl : visited.getLast?
  case none   => simpa [hl] using ha
  case some a =>
    have h₀ := ((w.mem a).mp (List.mem_of_getLast? hl)).right.left
    intro c hc
    exact (h₀ c hc).trans (ha a (by simp [hl]))

-- The next key still has the value that it had.
theorem next_lookup (w : Walk K outcome c₀ m₀ visited m)
    (h : K.next m.keys (visited.getLast?.or c₀) = some k) :
    ∃ v, m.lookup k = some v ∧ m₀.lookup k = some v := by
  have ⟨hk, ha, _⟩ := next_eq_some.mp h
  have ⟨v, hv⟩ := Finmap.mem_iff.mp (Finmap.mem_keys.mp hk)
  exact ⟨v, hv, w.lookup_of_after ha ▸ hv⟩

theorem mem_keys_of_after (w : Walk K outcome c₀ m₀ visited m)
    (ha : K.After (visited.getLast?.or c₀) k) (hk : k ∈ m₀) : k ∈ m.keys := by
  rw [Finmap.mem_keys, Finmap.mem_iff, w.lookup_of_after ha]
  exact Finmap.mem_iff.mp hk

theorem visit (w : Walk K outcome c₀ m₀ visited m)
    (h : K.next m.keys (visited.getLast?.or c₀) = some k) (hv : m.lookup k = some v)
    (hm : ∀ j, m'.lookup j = if j = k then outcome k v else m.lookup j) :
    Walk K outcome c₀ m₀ (visited ++ [k]) m' := by
  have ⟨hk, ha, hmin⟩ := next_eq_some.mp h
  have hv₀ := w.lookup_of_after ha ▸ hv
  have hlast (j : κ) : K.After ((visited ++ [k]).getLast?.or c₀) j ↔ K.rank k < K.rank j := by
    simp [After]
  have hvisited {j : κ} (hj : j ∈ visited) : K.rank j < K.rank k :=
    ha.of_not ((w.mem j).mp hj).right.right
  refine ⟨?_, fun j => ?_, fun j => ?_⟩
  · rw [List.pairwise_append]
    refine ⟨w.sorted, List.pairwise_singleton _ _, fun j hj k' hk' => ?_⟩
    rw [List.mem_singleton.mp hk']
    exact hvisited hj
  · rw [List.mem_append, List.mem_singleton, hlast, not_lt]
    constructor
    case mp =>
      intro hj
      cases hj
      case inl hj =>
        have ⟨hm, h₀, _⟩ := (w.mem j).mp hj
        exact ⟨hm, h₀, (hvisited hj).le⟩
      case inr hj =>
        subst hj
        exact ⟨Finmap.mem_iff.mpr ⟨v, hv₀⟩, w.after_start ha, le_rfl⟩
    case mpr =>
      -- A key that is not visited is after the last one, and so not before the next.
      intro ⟨hj, h₀, hle⟩
      by_cases hja : K.After (visited.getLast?.or c₀) j
      · exact .inr (K.injective (le_antisymm hle (hmin j (w.mem_keys_of_after hja hj) hja)))
      · exact .inl ((w.mem j).mpr ⟨hj, h₀, hja⟩)
  · rw [hm j, w.lookup j]
    by_cases hj : j = k
    · subst hj
      simp [hv₀]
    · simp [hj]

theorem keep (w : Walk K outcome c₀ m₀ visited m)
    (h : K.next m.keys (visited.getLast?.or c₀) = some k) (hv : m.lookup k = some v)
    (ho : outcome k v = some v) : Walk K outcome c₀ m₀ (visited ++ [k]) m := by
  refine w.visit h hv fun j => ?_
  split
  case isTrue hj => rw [hj, hv, ho]
  case isFalse   => rfl

theorem insert (w : Walk K outcome c₀ m₀ visited m)
    (h : K.next m.keys (visited.getLast?.or c₀) = some k) (hv : m.lookup k = some v)
    (ho : outcome k v = some v') : Walk K outcome c₀ m₀ (visited ++ [k]) (m.insert k v') :=
  w.visit h hv fun j => by rw [Finmap.lookup_insert_eq, ho]

theorem erase (w : Walk K outcome c₀ m₀ visited m)
    (h : K.next m.keys (visited.getLast?.or c₀) = some k) (hv : m.lookup k = some v)
    (ho : outcome k v = none) : Walk K outcome c₀ m₀ (visited ++ [k]) (m.erase k) :=
  w.visit h hv fun j => by rw [Finmap.lookup_erase_eq, ho]

-- Without a next key, every key after the start has been visited.
theorem done (w : Walk K outcome c₀ m₀ visited m)
    (h : K.next m.keys (visited.getLast?.or c₀) = none) (k : κ) :
    k ∈ visited ↔ k ∈ m₀ ∧ K.After c₀ k := by
  rw [w.mem k]
  refine ⟨fun ⟨hk, h₀, _⟩ => ⟨hk, h₀⟩, fun ⟨hk, h₀⟩ => ⟨hk, h₀, fun ha => ?_⟩⟩
  exact next_eq_none.mp h k (w.mem_keys_of_after ha hk) ha

-- From the beginning, every key has been.
theorem done_all (w : Walk K outcome none m₀ visited m)
    (h : K.next m.keys visited.getLast? = none) :
    (∀ k, k ∈ visited ↔ k ∈ m₀) ∧ m = m₀.translate outcome := by
  have hall (k : κ) : k ∈ visited ↔ k ∈ m₀ :=
    (w.done (by rwa [Option.or_none]) k).trans (by simp [After])
  refine ⟨hall, Finmap.ext_lookup fun k => ?_⟩
  rw [w.lookup, Finmap.lookup_translate]
  split
  case isTrue     => rfl
  case isFalse hk =>
    rw [hall, ← Finmap.lookup_eq_none] at hk
    rw [hk, Option.bind_none]

-- No key is visited twice, so that a walk visits no more keys than there were.
theorem length_le (w : Walk K outcome c₀ m₀ visited m) : visited.length ≤ m₀.keys.card := by
  have hn : visited.Nodup := w.sorted.imp fun h he => (he ▸ h).ne rfl
  rw [← List.toFinset_card_of_nodup hn]
  apply Finset.card_le_card
  intro k hk
  exact Finmap.mem_keys.mpr ((w.mem k).mp (List.mem_toFinset.mp hk)).left

-- The keys that have not been visited are still there.
theorem card_le (w : Walk K outcome c₀ m₀ visited m) :
    m₀.keys.card ≤ visited.length + m.keys.card := by
  have h : m₀.keys ⊆ visited.toFinset ∪ m.keys := by
    intro k hk
    by_cases hv : k ∈ visited
    · exact Finset.mem_union_left _ (List.mem_toFinset.mpr hv)
    · apply Finset.mem_union_right
      rw [Finmap.mem_keys, Finmap.mem_iff] at hk ⊢
      rwa [w.lookup, if_neg hv]
  calc m₀.keys.card
    _ ≤ (visited.toFinset ∪ m.keys).card       := Finset.card_le_card h
    _ ≤ visited.toFinset.card + m.keys.card    := Finset.card_union_le _ _
    _ ≤ visited.length + m.keys.card           := Nat.add_le_add_right visited.toFinset_card_le _

end Walk

-- Keys that are bytes, in the order of a trie.
def bytes : KeyOrder (List UInt8) (List Nat) where
  rank      := List.map UInt8.toNat
  injective := List.map_injective_iff.mpr fun _ _ => UInt8.toNat_inj.mp

theorem isPrefix_of_between {α : Type u} [LinearOrder α] {p a b c : List α} (ha : p <+: a)
    (hc : p <+: c) (hab : a ≤ b) (hbc : b ≤ c) : p <+: b := by
  induction p generalizing a b c
  case nil          => exact List.nil_prefix
  case cons x p hi =>
    obtain ⟨a, rfl, ha'⟩ := List.cons_prefix_iff.mp ha
    obtain ⟨c, rfl, hc'⟩ := List.cons_prefix_iff.mp hc
    cases b
    case nil      => exact absurd hab (by simp)
    case cons y b =>
      rw [← not_lt, List.cons_lt_cons_iff, not_or, not_lt, not_and, not_lt] at hab hbc
      have hxy := le_antisymm hab.left hbc.left
      subst hxy
      exact List.cons_prefix_cons.mpr ⟨rfl, hi ha' hc' (hab.right rfl) (hbc.right rfl)⟩

theorem bytes_isPrefix {p k : List UInt8} :
    bytes.rank p <+: bytes.rank k ↔ p <+: k := by
  refine ⟨fun h => ?_, fun h => h.map _⟩
  have ⟨l, hl, hp⟩ := List.prefix_map_iff.mp h
  exact bytes.injective hp ▸ hl

theorem bytes_after_append {p r : List UInt8} : bytes.After (some p) (p ++ r) ↔ r ≠ [] := by
  simp only [After, Option.mem_some_iff, forall_eq', bytes, List.map_append]
  cases r
  case nil       => simp
  case cons x r =>
    refine iff_of_true ?_ (List.cons_ne_nil _ _)
    have h := List.Lex.append_left (· < ·) (List.Lex.nil (a := x.toNat) (l := r.map UInt8.toNat))
      (p.map UInt8.toNat)
    rwa [List.append_nil, ← List.lt_iff_lex_lt] at h

-- The keys under a common part follow each other, so that the one after the last of them is the first
-- of no interest.
theorem bytes_next_under {p a : List UInt8} {keys : Finset (List UInt8)} (hp : p <+: a) :
    (bytes.next keys (some a)).filter (p.isPrefixOf ·) = bytes.next (keys.filter (p <+: ·)) (some a) := by
  cases h : bytes.next keys (some a)
  case none =>
    symm
    rw [Option.filter_none, next_eq_none]
    intro k hk
    exact next_eq_none.mp h k (Finset.mem_filter.mp hk).left
  case some k =>
    have ⟨hk, ha, hmin⟩ := next_eq_some.mp h
    by_cases hpk : p <+: k
    · symm
      rw [Option.filter_some_pos (List.isPrefixOf_iff_prefix.mpr hpk), next_eq_some]
      refine ⟨Finset.mem_filter.mpr ⟨hk, hpk⟩, ha, fun j hj => hmin j (Finset.mem_filter.mp hj).left⟩
    · symm
      rw [Option.filter_some_neg (Bool.eq_false_iff.mpr (mt List.isPrefixOf_iff_prefix.mp hpk)), next_eq_none]
      intro j hj hja
      have ⟨hj, hpj⟩ := Finset.mem_filter.mp hj
      exact hpk <| bytes_isPrefix.mp <| isPrefix_of_between (bytes_isPrefix.mpr hp)
        (bytes_isPrefix.mpr hpj) (ha a rfl).le (hmin j hj hja)

end KeyOrder
