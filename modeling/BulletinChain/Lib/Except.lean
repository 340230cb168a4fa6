import Mathlib.Data.List.Basic

-- Fallible computations. A dispatch is an `Except`: its writes are dropped when it fails. A check is
-- a computation whose writes are kept whether it fails or not, as those of a transaction extension.

namespace Except

variable {ε α β γ : Type}

theorem bind_eq_ok {x : Except ε α} {f : α → Except ε β} :
    (x >>= f) = ok b ↔ ∃ a, x = ok a ∧ f a = ok b := by
  cases x <;> simp [bind, Except.bind]

@[simp]
theorem ok_bind (a : α) (f : α → Except ε β) : (ok a >>= f) = f a :=
  rfl

@[simp]
theorem error_bind (e : ε) (f : α → Except ε β) : (error e >>= f) = error e :=
  rfl

theorem pure_eq_ok {a b : α} : (pure a : Except ε α) = ok b ↔ a = b := by
  simp [pure, Except.pure]

theorem map_eq_ok {x : Except ε α} {f : α → β} : x.map f = ok b ↔ ∃ a, x = ok a ∧ f a = b := by
  cases x <;> simp [Except.map]

theorem mapError_eq_ok {x : Except ε α} {f : ε → β} : x.mapError f = ok a ↔ x = ok a := by
  cases x <;> simp [Except.mapError]

theorem bind_map (x : Except ε α) (f : α → Except ε β) (g : β → γ) :
    (x >>= f).map g = x >>= fun a => (f a).map g := by
  cases x <;> rfl

theorem toOption_eq_some {x : Except ε α} : x.toOption = some a ↔ x = ok a := by
  cases x <;> simp [Except.toOption]

theorem forM_eq_ok {f : α → Except ε Unit} {xs : List α} :
    xs.forM f = ok () ↔ ∀ a ∈ xs, f a = ok () := by
  induction xs
  case nil => simp [pure, Except.pure]
  case cons a xs hi =>
    simp only [List.forM_eq_forM, List.forM_cons, bind_eq_ok, List.forall_mem_cons] at hi ⊢
    constructor
    case mp  => intro ⟨_, ha, hs⟩; exact ⟨ha, hi.mp hs⟩
    case mpr => intro ⟨ha, hs⟩; exact ⟨_, ha, hi.mpr hs⟩

-- A loop whose every iteration succeeds is a fold.
theorem foldlM_eq_ok {f : β → α → Except ε β} {g : β → α → β} {xs : List α}
    (h : ∀ b, ∀ a ∈ xs, f b a = ok (g b a)) (b : β) : xs.foldlM f b = ok (xs.foldl g b) := by
  induction xs generalizing b
  case nil => rfl
  case cons a xs hi =>
    rw [List.foldlM_cons, h b a List.mem_cons_self, ok_bind, List.foldl_cons]
    exact hi (fun b a ha => h b a (List.mem_cons_of_mem _ ha)) _

-- `ensure!(c, e)`
def ensure (c : Prop) [Decidable c] (e : ε) : Except ε Unit :=
  if c then ok () else error e

theorem ensure_eq_ok {c : Prop} [Decidable c] {e : ε} : ensure c e = ok u ↔ c := by
  by_cases h : c <;> simp [ensure, h]

-- `o.ok_or(e)`
def okOr (o : Option α) (e : ε) : Except ε α :=
  o.elim (error e) ok

theorem okOr_eq_ok {o : Option α} {e : ε} : okOr o e = ok a ↔ o = some a := by
  cases o <;> simp [okOr]

end Except

abbrev Check (σ ε : Type) := ExceptT ε (StateM σ)

namespace Check

variable {σ ε α β : Type} {s s' : σ}

-- `result.is_ok()`
def isOk (x : Check σ ε α) : Check σ ε Bool := fun s =>
  match x s with
  | (.ok _, s')    => (.ok true, s')
  | (.error _, s') => (.ok false, s')

-- A check that only reads.
def reading (f : σ → Except ε α) : Check σ ε α := fun s =>
  (f s, s)

def Succeeds (x : Check σ ε α) (s : σ) : Prop :=
  (x s).1.isOk

instance (x : Check σ ε α) (s : σ) : Decidable (x.Succeeds s) :=
  inferInstanceAs (Decidable (_ = true))

theorem isOk_apply (x : Check σ ε α) (s : σ) : x.isOk s = (.ok (x s).1.isOk, (x s).2) := by
  simp only [isOk]
  rcases x s with ⟨_ | _, _⟩ <;> rfl

theorem bind_apply (x : Check σ ε α) (f : α → Check σ ε β) (s : σ) :
    (x >>= f) s = match x s with
      | (.ok a, s')    => f a s'
      | (.error e, s') => (.error e, s') := by
  simp only [bind, ExceptT.bind, ExceptT.mk, StateT.bind]
  rcases x s with ⟨_ | _, _⟩ <;> rfl

theorem reading_apply (f : σ → Except ε α) (s : σ) : reading f s = (f s, s) :=
  rfl

theorem bind_eq_ok {x : Check σ ε α} {f : α → Check σ ε β} :
    (x >>= f) s = (.ok b, s') ↔ ∃ a t, x s = (.ok a, t) ∧ f a t = (.ok b, s') := by
  rw [bind_apply]
  constructor
  case mp =>
    intro h
    rcases hx : x s with ⟨_ | a, t⟩ <;> rw [hx] at h
    case error => cases h
    case ok    => exact ⟨a, t, rfl, h⟩
  case mpr =>
    intro ⟨a, t, hx, h⟩
    rw [hx]
    exact h

theorem reading_eq_ok {f : σ → Except ε α} : reading f s = (.ok a, s') ↔ f s = .ok a ∧ s' = s := by
  constructor
  case mp  => intro h; exact ⟨congrArg Prod.fst h, (congrArg Prod.snd h).symm⟩
  case mpr => intro ⟨hf, hs⟩; rw [hs, reading_apply, hf]

theorem pure_apply (a : α) (s : σ) : (pure a : Check σ ε α) s = (.ok a, s) :=
  rfl

-- A loop whose every iteration keeps `I` and succeeds or fails as `r` says.
theorem forM_apply {f : α → Check σ ε PUnit} {r : α → Except ε PUnit} {I : σ → Prop} {xs : List α}
    (h : ∀ a ∈ xs, ∀ t, I t → ∃ t', I t' ∧ f a t = (r a, t')) (hs : I s) :
    ∃ s', I s' ∧ xs.forM f s = (xs.forM r, s') := by
  induction xs generalizing s
  case nil => exact ⟨s, hs, rfl⟩
  case cons a xs hi =>
    have ⟨t, ht, hf⟩ := h a List.mem_cons_self s hs
    simp only [List.forM_eq_forM, List.forM_cons, bind_apply, hf]
    cases r a
    case error => exact ⟨t, ht, rfl⟩
    case ok    => exact hi (fun a ha => h a (List.mem_cons_of_mem _ ha)) ht

end Check
