import Mathlib.Data.List.Basic
import Mathlib.Algebra.Order.Ring.Nat

-- A vector with a fixed capacity.
structure BoundedVec (α : Type u) (bound : Nat) where
  val     : List α
  bounded : val.length ≤ bound

namespace BoundedVec

variable {n : Nat} {v w : BoundedVec α n}

@[ext]
theorem ext (h : v.val = w.val) : v = w := by
  cases v; cases w; simp_all

def empty : BoundedVec α n :=
  ⟨[], Nat.zero_le _⟩

@[simp]
theorem empty_val : (empty : BoundedVec α n).val = [] :=
  rfl

def map (f : α → β) (v : BoundedVec α n) : BoundedVec β n :=
  ⟨v.val.map f, by simpa using v.bounded⟩

@[simp]
theorem map_val (f : α → β) (v : BoundedVec α n) : (v.map f).val = v.val.map f :=
  rfl

theorem length_concat_le (v : BoundedVec α n) (a : α) (h : v.val.length < n) :
    (v.val ++ [a]).length ≤ n := by
  rw [List.length_append]
  exact h

-- Appends `a`, unless the vector is at capacity.
def tryPush (v : BoundedVec α n) (a : α) : Option (BoundedVec α n) :=
  if h : v.val.length < n then
    some ⟨v.val ++ [a], v.length_concat_le a h⟩
  else
    none

-- `let _ = v.try_push(a)`: an element that does not fit is dropped.
def pushOrDrop (v : BoundedVec α n) (a : α) : BoundedVec α n :=
  (v.tryPush a).getD v

theorem pushOrDrop_val (h : v.val.length < n) : (v.pushOrDrop a).val = v.val ++ [a] := by
  simp [pushOrDrop, tryPush, h]

end BoundedVec
