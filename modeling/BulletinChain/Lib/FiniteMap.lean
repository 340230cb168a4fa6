import Mathlib.Data.Finmap
import Mathlib.Algebra.BigOperators.Group.Finset.Basic
import Mathlib.Algebra.Order.BigOperators.Group.Multiset
import Mathlib.Algebra.Order.Ring.Nat

namespace Finmap

variable {κ : Type u} {ν : Type v} [DecidableEq κ] {m : Finmap fun _ : κ => ν} {k k' : κ} {v : ν}

theorem lookup_insert_eq : (m.insert k v).lookup k' = if k' = k then some v else m.lookup k' := by
  split
  case isTrue h  => subst h; exact lookup_insert m
  case isFalse h => exact lookup_insert_of_ne m h

theorem lookup_erase_eq : (m.erase k).lookup k' = if k' = k then none else m.lookup k' := by
  split
  case isTrue h  => subst h; exact lookup_erase k' m
  case isFalse h => exact lookup_erase_ne h

theorem erase_of_lookup_eq_none (h : m.lookup k = none) : m.erase k = m := by
  apply ext_lookup
  intro k'
  rw [lookup_erase_eq]
  split
  case isTrue hk => rw [hk, h]
  case isFalse   => rfl

theorem lookup_union_eq {m' : Finmap fun _ : κ => ν} :
    (m ∪ m').lookup k = (m.lookup k).or (m'.lookup k) := by
  cases h : m.lookup k
  case none   => rw [lookup_union_right (lookup_eq_none.mp h), Option.none_or]
  case some v => rw [lookup_union_left (mem_iff.mpr ⟨v, h⟩), h, Option.some_or]

theorem lookup_singleton :
    (singleton k v : Finmap fun _ : κ => ν).lookup k' = if k' = k then some v else none := by
  split
  case isTrue h  => subst h; exact lookup_singleton_eq
  case isFalse h => rwa [lookup_eq_none, mem_singleton]

-- Writing to a key that is there adds no key.
theorem isSome_lookup_insert (h : m.lookup k = some v) :
    ((m.insert k v').lookup k').isSome = (m.lookup k').isSome := by
  rw [lookup_insert_eq]
  split
  case isTrue hk => subst hk; rw [h]; rfl
  case isFalse   => rfl

theorem insert_erase (h : m.lookup k = some v) : (m.erase k).insert k v = m := by
  apply ext_lookup
  intro k'
  rw [lookup_insert_eq, lookup_erase_eq]
  split
  case isTrue h' => rw [h', h]
  case isFalse   => rfl

theorem insert_insert_erase : m.insert k v = (m.erase k).insert k v := by
  apply ext_lookup
  intro k'
  simp only [lookup_insert_eq, lookup_erase_eq]
  split <;> rfl

omit [DecidableEq κ] in
theorem nodupKeys_filterMap {ν' : Type w} {s : Multiset (Σ _ : κ, ν)} (f : κ → ν → Option ν')
    (h : s.NodupKeys) :
    (s.filterMap fun e => (f e.1 e.2).map (⟨e.1, ·⟩ : ν' → Σ _ : κ, ν')).NodupKeys := by
  induction s using Quotient.inductionOn
  case h l =>
    have h := List.nodupKeys_iff_pairwise.mp (Multiset.coe_nodupKeys.mp h)
    refine Multiset.coe_nodupKeys.mpr <| List.nodupKeys_iff_pairwise.mpr <| h.filterMap _ ?_
    intro e e' hne b hb b' hb'
    have ⟨_, _, hb⟩ := Option.map_eq_some_iff.mp hb
    have ⟨_, _, hb'⟩ := Option.map_eq_some_iff.mp hb'
    exact hb ▸ hb' ▸ hne

-- Replaces every value by another one, or drops its key.
def translate {ν' : Type w} (f : κ → ν → Option ν') (m : Finmap fun _ : κ => ν) :
    Finmap fun _ : κ => ν' :=
  ⟨m.entries.filterMap fun e => (f e.1 e.2).map (⟨e.1, ·⟩), nodupKeys_filterMap f m.nodupKeys⟩

theorem lookup_translate {ν' : Type w} (f : κ → ν → Option ν') :
    (m.translate f).lookup k = (m.lookup k).bind (f k) := by
  ext v'
  rw [lookup_eq_some_iff, Option.bind_eq_some_iff]
  simp only [translate, Multiset.mem_filterMap, lookup_eq_some_iff]
  constructor
  case mp =>
    intro ⟨⟨k', v⟩, he, h⟩
    have ⟨_, hf, h⟩ := Option.map_eq_some_iff.mp h
    cases h
    exact ⟨v, he, hf⟩
  case mpr =>
    intro ⟨v, he, hf⟩
    exact ⟨⟨k, v⟩, he, by simp [hf]⟩

-- The entries whose keys are in `q`.
def restrict (q : κ → Prop) [DecidablePred q] (m : Finmap fun _ : κ => ν) : Finmap fun _ : κ => ν :=
  m.translate fun k v => if q k then some v else none

theorem lookup_restrict (q : κ → Prop) [DecidablePred q] :
    (m.restrict q).lookup k = if q k then m.lookup k else none := by
  rw [restrict, lookup_translate]
  split <;> cases m.lookup k <;> rfl

theorem keys_restrict (q : κ → Prop) [DecidablePred q] : (m.restrict q).keys = m.keys.filter q := by
  ext k
  rw [Finset.mem_filter, mem_keys, mem_keys, mem_iff, mem_iff, lookup_restrict]
  split <;> simp [*]

-- The sum of `f` over the entries of the map.
def total (f : κ → ν → Nat) (m : Finmap fun _ : κ => ν) : Nat :=
  (m.entries.map fun e => f e.1 e.2).sum

variable {f g : κ → ν → Nat}

omit [DecidableEq κ] in
@[simp]
theorem total_empty : total f (∅ : Finmap fun _ : κ => ν) = 0 :=
  rfl

theorem total_insert_of_none (h : m.lookup k = none) :
    (m.insert k v).total f = f k v + m.total f := by
  simp [total, entries_insert_of_notMem (lookup_eq_none.mp h)]

theorem total_erase (h : m.lookup k = some v) : m.total f = f k v + (m.erase k).total f := by
  conv => lhs; rw [← insert_erase h]
  exact total_insert_of_none (lookup_erase k m)

theorem total_insert_of_some (h : m.lookup k = some v) :
    (m.insert k v').total f + f k v = f k v' + m.total f := by
  rw [insert_insert_erase, total_insert_of_none (lookup_erase k m), total_erase h]
  omega

theorem mem_entries_iff {e : Σ _ : κ, ν} : e ∈ m.entries ↔ m.lookup e.1 = some e.2 :=
  lookup_eq_some_iff.symm

theorem total_congr (h : ∀ k v, m.lookup k = some v → f k v = g k v) : m.total f = m.total g := by
  simp only [total]
  exact congrArg _ <| Multiset.map_congr rfl fun e he => h _ _ <| mem_entries_iff.mp he

omit [DecidableEq κ] in
theorem card_entries : m.entries.card = m.keys.card := by
  simp [keys, Multiset.keys]

theorem total_le_card_mul (h : ∀ k v, m.lookup k = some v → f k v ≤ b) :
    m.total f ≤ m.keys.card * b := by
  rw [← card_entries]
  simp only [total]
  apply (Multiset.sum_le_card_nsmul _ b ?_).trans
  · simp
  · intro x hx
    have ⟨e, he, hx⟩ := Multiset.mem_map.mp hx
    exact hx ▸ h _ _ (mem_entries_iff.mp he)

-- The entries of a map in the order in which an iterator yields them, which can be any order.
structure Iteration (m : Finmap fun _ : κ => ν) where
  items    : List (Σ _ : κ, ν)
  complete : (items : Multiset (Σ _ : κ, ν)) = m.entries

namespace Iteration

theorem lookup_of_mem (i : m.Iteration) (h : e ∈ i.items) : m.lookup e.1 = some e.2 :=
  mem_entries_iff.mp (i.complete ▸ Multiset.mem_coe.mpr h)

omit [DecidableEq κ] in
theorem sum_items (i : m.Iteration) : (i.items.map fun e => f e.1 e.2).sum = m.total f := by
  rw [total, ← i.complete, Multiset.map_coe, Multiset.sum_coe]

end Iteration
end Finmap
