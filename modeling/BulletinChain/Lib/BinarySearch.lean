import Mathlib.Data.List.Basic
import Mathlib.Algebra.Order.Group.Nat

namespace List

-- `xs.binary_search_by_key(&key, f)`: the window starts at `base`, holds `size` elements and is halved
-- until one is left. `.ok i` is the position of an element with the key, `.error i` the position at
-- which it could be inserted. The fuel is the length of the list, which every halving lowers.
def binarySearchByKey (xs : List α) (key : Nat) (f : α → Nat) : Except Nat Nat :=
  if xs.length = 0 then
    .error 0
  else
    let base := narrow xs.length xs.length 0
    match compare (keyAt base) key with
    | .eq => .ok base
    | .lt => .error (base + 1)
    | .gt => .error base
where
  keyAt (i : Nat) : Nat :=
    (xs[i]?).elim 0 f
  narrow : Nat → Nat → Nat → Nat
    | 0,        _,    base => base
    | fuel + 1, size, base =>
      if size ≤ 1 then
        base
      else
        let half := size / 2
        let mid  := base + half
        narrow fuel (size - half) (if compare (keyAt mid) key = .gt then base else mid)

def insertionPoint : Except Nat Nat → Nat
  | .ok i | .error i => i

namespace binarySearchByKey

variable {xs : List α} {key fuel size base : Nat} {f : α → Nat}

-- What the loop keeps: no element left of the window's first one is needed, and everything right of
-- the window has a greater key.
structure Window (xs : List α) (key : Nat) (f : α → Nat) (size base : Nat) : Prop where
  pos   : 0 < size
  bound : base + size ≤ xs.length
  left  : base = 0 ∨ keyAt xs f base ≤ key
  right : ∀ i, base + size ≤ i → i < xs.length → key < keyAt xs f i

theorem Window.narrow (hs : ∀ i j, i ≤ j → j < xs.length → keyAt xs f i ≤ keyAt xs f j)
    (hf : size ≤ fuel) (w : Window xs key f size base) :
    Window xs key f 1 (narrow xs key f fuel size base) := by
  induction fuel generalizing size base
  case zero =>
    have := w.pos
    omega
  case succ fuel hi =>
    have hp := w.pos
    have hb := w.bound
    simp only [binarySearchByKey.narrow]
    split
    case isTrue h =>
      have : size = 1 := by omega
      exact this ▸ w
    case isFalse h =>
      apply hi (by omega)
      split
      case isTrue hc =>
        have hc := Nat.compare_eq_gt.mp hc
        refine ⟨by omega, by omega, w.left, fun i hi hx => ?_⟩
        exact lt_of_lt_of_le hc <| hs _ _ (by omega) hx
      case isFalse hc =>
        have hc : ¬(key < keyAt xs f (base + size / 2)) := mt Nat.compare_eq_gt.mpr hc
        exact ⟨by omega, by omega, .inr <| by omega, fun i hi hx => w.right i (by omega) hx⟩

-- Over keys in ascending order the search returns the position of the first element whose key is not
-- below the key sought, up to the choice among equal keys.
theorem spec (key : Nat) (hs : ∀ i j, i ≤ j → j < xs.length → keyAt xs f i ≤ keyAt xs f j) :
    (∃ i, binarySearchByKey xs key f = .ok i ∧ i < xs.length ∧ keyAt xs f i = key) ∨
    (∃ i, binarySearchByKey xs key f = .error i ∧ i ≤ xs.length ∧
      (∀ j < i, keyAt xs f j < key) ∧ (∀ j, i ≤ j → j < xs.length → key < keyAt xs f j)) := by
  simp only [binarySearchByKey]
  split
  case isTrue h => exact .inr ⟨0, rfl, by omega, by omega, fun _ _ _ => by omega⟩
  case isFalse h =>
    have w : Window xs key f xs.length 0 := ⟨by omega, by omega, .inl rfl, fun _ _ _ => by omega⟩
    have w := w.narrow hs (le_refl _)
    have hb := w.bound
    generalize hn : narrow xs key f xs.length xs.length 0 = base at w hb ⊢
    split
    case h_1 hc => exact .inl ⟨base, rfl, by omega, Nat.compare_eq_eq.mp hc⟩
    case h_2 hc =>
      have hc := Nat.compare_eq_lt.mp hc
      refine .inr ⟨base + 1, rfl, by omega, fun j hj => ?_, fun j hj hx => w.right j hj hx⟩
      exact lt_of_le_of_lt (hs j base (by omega) (by omega)) hc
    case h_3 hc =>
      have hc := Nat.compare_eq_gt.mp hc
      refine .inr ⟨base, rfl, by omega, fun j hj => ?_, fun j hj hx => ?_⟩
      · have := w.left
        omega
      · exact lt_of_lt_of_le hc (hs base j hj hx)

end binarySearchByKey
end List
