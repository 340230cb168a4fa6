import Mathlib.Algebra.Order.Ring.Nat

namespace Machine

def u32Max : Nat := 2 ^ 32 - 1

def u64Max : Nat := 2 ^ 64 - 1

def u128Max : Nat := 2 ^ 128 - 1

-- `a.saturating_add(b)` on an unsigned integer type whose greatest value is `top`. The matching
-- `saturating_sub` is the truncated subtraction of `Nat`.
def saturatingAdd (top a b : Nat) : Nat :=
  min (a + b) top

-- `a.checked_sub(b)`
def checkedSub (a b : Nat) : Option Nat :=
  if b ≤ a then some (a - b) else none

-- `a * b`, which must not overflow.
def checkedMul (top a b : Nat) : Option Nat :=
  if a * b ≤ top then some (a * b) else none

-- `a / b`, which must not divide by zero.
def checkedDiv (a b : Nat) : Option Nat :=
  if b = 0 then none else some (a / b)

-- How a counter is to keep up with a sum: it is the sum, or at least the sum.
structure Tallies (R : Nat → Nat → Prop) : Prop where
  zero  : R 0 0
  add   : R a b → R (a + n) (b + n)
  sub   : R (a + n) b → R a (b - n)
  le    : R a b → a ≤ b
  clamp : R a b → a ≤ top → R a (min b top)

-- The sum may get smaller on its own.
def Downward (R : Nat → Nat → Prop) : Prop :=
  ∀ {a b n}, R (a + n) b → R a b

variable {top a b c cap acc : Nat}

theorem saturatingAdd_of_le (h : a + b ≤ top) : saturatingAdd top a b = a + b := by
  simp [saturatingAdd, h]

theorem saturatingAdd_le : saturatingAdd top a b ≤ top :=
  Nat.min_le_right ..

theorem saturatingAdd_pos (hm : 0 < top) (hb : 0 < b) : 0 < saturatingAdd top a b := by
  simp only [saturatingAdd]
  omega

theorem saturatingAdd_not_gt_iff (hc : cap < top) :
    ¬(cap < saturatingAdd top a b) ↔ a + b ≤ cap := by
  simp only [saturatingAdd]
  omega

-- A fold of saturating additions is one clamp of the exact sum.
theorem foldl_saturatingAdd (f : α → Nat) (xs : List α) (h : acc ≤ top) :
    xs.foldl (fun acc x => saturatingAdd top acc (f x)) acc = min (acc + (xs.map f).sum) top := by
  induction xs generalizing acc
  case nil => simp [h]
  case cons x xs hi =>
    rw [List.foldl_cons, hi saturatingAdd_le]
    simp only [saturatingAdd, List.map_cons, List.sum_cons]
    omega

theorem foldl_saturatingAdd_ite (f : α → Nat) (p : α → Bool) (xs : List α) (h : acc ≤ top) :
    xs.foldl (fun acc x => if p x then saturatingAdd top acc (f x) else acc) acc =
      min (acc + (xs.map fun x => if p x then f x else 0).sum) top := by
  induction xs generalizing acc
  case nil => simp [h]
  case cons x xs hi =>
    rw [List.foldl_cons, List.map_cons, List.sum_cons]
    split
    case isTrue =>
      rw [hi saturatingAdd_le]
      simp only [saturatingAdd]
      omega
    case isFalse => rw [hi h, Nat.zero_add]

theorem checkedSub_eq_some : checkedSub a b = some c ↔ b ≤ a ∧ c = a - b := by
  simp only [checkedSub]
  split <;> simp_all [eq_comm]

theorem checkedMul_of_le (h : a * b ≤ top) : checkedMul top a b = some (a * b) := by
  simp [checkedMul, h]

theorem checkedDiv_of_pos (h : 0 < b) : checkedDiv a b = some (a / b) := by
  simp [checkedDiv, Nat.ne_of_gt h]

theorem saturatingAdd_mono (h : a ≤ b) : saturatingAdd top a c ≤ saturatingAdd top b c := by
  simp only [saturatingAdd]
  omega

theorem le_saturatingAdd (h : a ≤ top) : a ≤ saturatingAdd top a b := by
  simp only [saturatingAdd]
  omega

-- The share of `scale` that is left of an allowance never grows with what is used of it, and never
-- gets smaller with the allowance itself, although that is the divisor.
theorem share_le (scale : Nat) (hu : a ≤ b) (hc : c ≤ cap) :
    scale * (c - b) / c ≤ scale * (cap - a) / cap := by
  obtain hz | hp := Nat.eq_zero_or_pos c
  case inl => simp [hz]
  case inr =>
    rw [Nat.le_div_iff_mul_le (Nat.lt_of_lt_of_le hp hc)]
    have hm : (c - b) * cap ≤ c * (cap - a) := by
      have hx : b * cap ≥ a * c := Nat.mul_le_mul hu hc
      rw [Nat.sub_mul, Nat.mul_sub, Nat.mul_comm c a]
      omega
    have hq : scale * (c - b) / c * cap * c ≤ scale * (cap - a) * c := by
      calc scale * (c - b) / c * cap * c
        _ = scale * (c - b) / c * c * cap := Nat.mul_right_comm ..
        _ ≤ scale * (c - b) * cap         := Nat.mul_le_mul_right _ (Nat.div_mul_le_self ..)
        _ = scale * ((c - b) * cap)       := Nat.mul_assoc ..
        _ ≤ scale * (c * (cap - a))       := Nat.mul_le_mul_left _ hm
        _ = scale * (cap - a) * c         := by rw [Nat.mul_comm c, Nat.mul_assoc]
    exact Nat.le_of_mul_le_mul_right hq hp

theorem share_le_self (scale : Nat) : scale * (c - b) / c ≤ scale :=
  Nat.div_le_of_le_mul <| Nat.mul_comm scale c ▸ Nat.mul_le_mul_left _ (Nat.sub_le ..)

namespace Tallies

theorem eq : Tallies (· = ·) where
  zero  := rfl
  add h := congrArg (· + _) h
  sub   := by omega
  le    := Nat.le_of_eq
  clamp := by omega

theorem ge : Tallies (· ≤ ·) where
  zero  := Nat.le_refl 0
  add h := Nat.add_le_add_right h _
  sub   := Nat.le_sub_of_add_le
  le    := id
  clamp h ht := Nat.le_min.mpr ⟨h, ht⟩

-- The counter keeps up with an addition that was checked against a cap, when the cap or the sum
-- is less than what the counter can hold.
theorem saturatingAdd {R : Nat → Nat → Prop} (t : Tallies R) (h : R a b)
    (hc : Machine.saturatingAdd top b n ≤ cap) (ht : cap < top ∨ a + n ≤ top) :
    R (a + n) (Machine.saturatingAdd top b n) := by
  have hr : R (a + n) (b + n) := t.add h
  by_cases hs : a + n ≤ top
  · exact t.clamp hr hs
  · have hb : b + n ≤ top := by
      simp only [Machine.saturatingAdd] at hc
      omega
    rwa [saturatingAdd_of_le hb]

end Tallies
end Machine
