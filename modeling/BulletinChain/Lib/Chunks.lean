import Mathlib.Data.List.Basic
import Mathlib.Algebra.Order.Ring.Nat

namespace List

-- `xs.chunks(n)`: consecutive pieces of `n` elements, the last one possibly shorter.
def chunksOf (n : Nat) (xs : List α) : List (List α) :=
  (List.range ((xs.length + (n - 1)) / n)).map fun k => (xs.drop (k * n)).take n

theorem length_chunksOf : (chunksOf n xs).length = (xs.length + (n - 1)) / n := by
  simp [chunksOf]

theorem getElem?_chunksOf (h : i < (chunksOf n xs).length) :
    (chunksOf n xs)[i]? = some ((xs.drop (i * n)).take n) := by
  rw [length_chunksOf] at h
  simp [chunksOf, h]

theorem length_le_chunksOf_mul (hn : 0 < n) : xs.length ≤ (chunksOf n xs).length * n := by
  rw [length_chunksOf]
  have hd := Nat.div_add_mod (xs.length + (n - 1)) n
  have hm := Nat.mod_lt (xs.length + (n - 1)) hn
  rw [Nat.mul_comm] at hd
  omega

theorem lt_length_chunksOf (hn : 0 < n) : i < (chunksOf n xs).length ↔ i * n < xs.length := by
  rw [length_chunksOf, Nat.lt_iff_add_one_le, Nat.le_div_iff_mul_le hn, Nat.add_mul]
  omega

theorem mem_chunksOf (hn : 0 < n) (h : l ∈ chunksOf n xs) : l ≠ [] ∧ l.length ≤ n := by
  have ⟨i, hi, h⟩ := mem_iff_getElem.mp h
  have hl := (lt_length_chunksOf hn).mp hi
  have he := getElem?_chunksOf hi
  rw [getElem?_eq_getElem hi, h, Option.some.injEq] at he
  subst he
  rw [← length_pos_iff, length_take, length_drop]
  omega

-- The lengths of the pieces of a list of `len` elements.
def chunkSizes (n len : Nat) : List Nat :=
  (List.range ((len + (n - 1)) / n)).map fun k => min n (len - k * n)

theorem map_length_chunksOf (n : Nat) (xs : List α) :
    (chunksOf n xs).map length = chunkSizes n xs.length := by
  simp [chunksOf, chunkSizes]

theorem length_chunkSizes : (chunkSizes n len).length = (len + (n - 1)) / n := by
  simp [chunkSizes]

theorem chunkSizes_mul (hn : 0 < n) (k : Nat) : chunkSizes n (k * n) = replicate k n := by
  have hk : (k * n + (n - 1)) / n = k := by
    rw [Nat.add_comm, Nat.add_mul_div_right _ _ hn, Nat.div_eq_of_lt (by omega), Nat.zero_add]
  simp only [chunkSizes, hk, eq_replicate_iff, length_map, length_range, true_and, mem_map, mem_range]
  intro m ⟨j, hj, hm⟩
  have hs : k * n - j * n = (k - j - 1) * n + n := by
    rw [← Nat.sub_mul, ← Nat.succ_mul]
    congr 1
    omega
  omega

theorem flatten_take_chunksOf (hn : 0 < n) (k : Nat) :
    ((chunksOf n xs).take k).flatten = xs.take (k * n) := by
  have hr (j : Nat) :
      ((range j).map fun i => (xs.drop (i * n)).take n).flatten = xs.take (j * n) := by
    induction j
    case zero      => simp
    case succ j hi => simp [range_succ, hi, Nat.add_mul, take_add]
  have hl : xs.length ≤ (chunksOf n xs).length * n := length_le_chunksOf_mul hn
  rw [length_chunksOf] at hl
  rw [chunksOf, ← map_take, take_range, hr]
  by_cases hk : k ≤ (xs.length + (n - 1)) / n
  · rw [Nat.min_eq_left hk]
  · have hk := Nat.le_of_lt (Nat.not_le.mp hk)
    rw [Nat.min_eq_right hk, take_of_length_le hl,
      take_of_length_le (Nat.le_trans hl (Nat.mul_le_mul_right n hk))]

theorem flatten_chunksOf (hn : 0 < n) (xs : List α) : (chunksOf n xs).flatten = xs := by
  have h : ((chunksOf n xs).take _).flatten = _ := flatten_take_chunksOf hn (chunksOf n xs).length
  rwa [take_length, take_of_length_le (length_le_chunksOf_mul hn)] at h

theorem sum_chunkSizes (hn : 0 < n) (len : Nat) : (chunkSizes n len).sum = len := by
  have h := congrArg length (flatten_chunksOf hn (replicate len ()))
  rwa [length_flatten, map_length_chunksOf, length_replicate] at h

theorem le_of_mem_chunkSizes (h : m ∈ chunkSizes n len) : m ≤ n := by
  obtain ⟨_, _, rfl⟩ := mem_map.mp h
  exact Nat.min_le_left ..

theorem length_chunkSizes_le (hn : 0 < n) (len : Nat) : (chunkSizes n len).length ≤ len := by
  rw [length_chunkSizes, ← Nat.lt_succ_iff]
  refine Nat.div_lt_of_lt_mul ?_
  have := Nat.le_mul_of_pos_left len hn
  rw [Nat.mul_succ]
  omega

-- The element at a position of a concatenation, found through the part that holds the position.
theorem getElem?_flatten_of_lt {L : List (List α)} {j k : Nat} (hj : L[j]? = some l)
    (hk : k < l.length) : L.flatten[((L.take j).map length).sum + k]? = l[k]? := by
  induction L generalizing j
  case nil => simp at hj
  case cons l' L hi =>
    cases j
    case zero =>
      simp only [getElem?_cons_zero, Option.some.injEq] at hj
      subst hj
      simp [List.getElem?_append_left hk]
    case succ j =>
      simp only [getElem?_cons_succ] at hj
      rw [take_succ_cons, map_cons, sum_cons, flatten_cons,
        List.getElem?_append_right (by omega), ← hi hj]
      congr 1
      omega

end List
