import Mathlib.Data.List.Basic
import Mathlib.Logic.Function.Basic
import Mathlib.Logic.Relation
import Mathlib.Algebra.Order.Group.Nat

-- A log of entries by block that keeps each block for a period, with an index of the latest position
-- of every key. A block is opened, filled and sealed, and opening the next one drops the block that
-- is past the period.
@[ext]
structure RetentionLog (α κ : Type*) where
  now     : Nat
  period  : Nat
  isOpen  : Prop
  blocks  : Nat → Option (List α)
  current : List α
  index   : κ → Option (Nat × Nat)

namespace RetentionLog

variable {α κ : Type*} [DecidableEq κ] {l l' : RetentionLog α κ} {key : α → κ}

-- Entry `a` is at position `i` of block `b`, be it sealed or still open.
def At (l : RetentionLog α κ) (b i : Nat) (a : α) : Prop :=
  (∃ es, l.blocks b = some es ∧ es[i]? = some a) ∨ (b = l.now ∧ l.current[i]? = some a)

def extend (l : RetentionLog α κ) (p : Nat) : RetentionLog α κ :=
  { l with period := p }

-- The block that opening the next one drops. There is no block 0.
def obsolete (l : RetentionLog α κ) : Nat :=
  l.now - l.period

def openNext (l : RetentionLog α κ) : RetentionLog α κ :=
  { l with
    now    := l.now + 1
    isOpen := True
    blocks := Function.update l.blocks l.obsolete none
    index  := fun k => (l.index k).filter (·.1 ≠ l.obsolete) }

def push (key : α → κ) (l : RetentionLog α κ) (a : α) : RetentionLog α κ :=
  { l with
    current := l.current ++ [a]
    index   := Function.update l.index (key a) (some (l.now, l.current.length)) }

def sealed (l : RetentionLog α κ) : RetentionLog α κ :=
  { l with
    isOpen  := False
    blocks  := fun b => if b = l.now ∧ l.current ≠ [] then some l.current else l.blocks b
    current := [] }

inductive Step (key : α → κ) (l : RetentionLog α κ) : RetentionLog α κ → Prop
  | extend   : l.period ≤ p → Step key l (l.extend p)
  | openNext : ¬l.isOpen → Step key l l.openNext
  | push a   : l.isOpen → Step key l (l.push key a)
  | sealed   : l.isOpen → Step key l l.sealed

abbrev Steps (key : α → κ) : RetentionLog α κ → RetentionLog α κ → Prop :=
  Relation.ReflTransGen (Step key)

-- The blocks that are kept are those of the period.
structure Window (l : RetentionLog α κ) : Prop where
  pos    : l.blocks b = some es → 0 < b
  le     : l.blocks b = some es → b ≤ l.now
  kept   : l.blocks b = some es → l.now ≤ b + l.period
  isOpen : l.isOpen → l.blocks l.now = none
  closed : ¬l.isOpen → l.current = []

-- The index is exact: it points at an entry with the key, and no other entry with the key is later.
structure Exact (key : α → κ) (l : RetentionLog α κ) : Prop where
  sound  : l.index k = some (b, i) → ∃ a, l.At b i a ∧ key a = k
  latest : l.At b i a →
    ∃ b' i', l.index (key a) = some (b', i') ∧ (b < b' ∨ b = b' ∧ i ≤ i')

namespace Window

omit [DecidableEq κ]

theorem lt_of_isOpen (w : l.Window) (ho : l.isOpen) (h : l.blocks b = some es) : b < l.now := by
  by_contra hc
  have hb : b = l.now := Nat.le_antisymm (w.le h) (Nat.le_of_not_lt hc)
  subst hb
  rw [w.isOpen ho] at h
  contradiction

-- No two entries have the same position.
theorem at_unique (w : l.Window) (h : l.At b i a) (h' : l.At b i a') : a = a' := by
  have hc {es c} (hb : l.blocks b = some es) : ¬(b = l.now ∧ l.current[i]? = some c) := by
    intro ⟨hn, hi⟩
    by_cases ho : l.isOpen
    · exact absurd ((hn ▸ hb).symm.trans (w.isOpen ho)) nofun
    · simp [w.closed ho] at hi
  obtain ⟨es, hb, hi⟩ | ⟨hb, hi⟩ := h <;> obtain ⟨es', hb', hi'⟩ | ⟨hb', hi'⟩ := h'
  · cases Option.some.inj (hb.symm.trans hb')
    exact Option.some.inj (hi.symm.trans hi')
  · exact absurd ⟨hb', hi'⟩ (hc hb)
  · exact absurd ⟨hb, hi⟩ (hc hb')
  · exact Option.some.inj (hi.symm.trans hi')

theorem extend (w : l.Window) (h : l.period ≤ p) : (l.extend p).Window where
  pos      := w.pos
  le       := w.le
  kept hb  := (w.kept hb).trans (Nat.add_le_add_left h _)
  isOpen   := w.isOpen
  closed   := w.closed

theorem of_openNext (h : l.openNext.blocks b = some es) : b ≠ l.obsolete ∧ l.blocks b = some es := by
  by_cases hb : b = l.obsolete
  · simp [RetentionLog.openNext, hb] at h
  · exact ⟨hb, by simpa [RetentionLog.openNext, hb] using h⟩

theorem obsolete_le (w : l.Window) (h : l.blocks b = some es) : l.obsolete ≤ b := by
  have hk := w.kept h
  simp only [obsolete]
  omega

theorem openNext (w : l.Window) : l.openNext.Window where
  pos h    := w.pos (of_openNext h).right
  le h     := (w.le (of_openNext h).right).trans (Nat.le_succ _)
  kept {b} _ h := by
    have ⟨hb, h⟩ := of_openNext h
    have hp := w.pos h
    have hk := w.kept h
    simp only [obsolete] at hb
    simp only [RetentionLog.openNext]
    omega
  isOpen _ := by
    by_contra hn
    have ⟨es, h⟩ := Option.ne_none_iff_exists'.mp hn
    exact absurd (w.le (of_openNext h).right) (Nat.not_succ_le_self _)
  closed h := absurd trivial h

theorem of_sealed (h : l.sealed.blocks b = some es) :
    (b = l.now ∧ es = l.current ∧ l.current ≠ []) ∨ l.blocks b = some es := by
  simp only [RetentionLog.sealed] at h
  split at h
  case isTrue hb => exact .inl ⟨hb.left, (Option.some.inj h).symm, hb.right⟩
  case isFalse   => exact .inr h

theorem sealed (w : l.Window) (hn : 0 < l.now) : l.sealed.Window where
  pos h := by
    cases of_sealed h
    case inl h => exact h.left ▸ hn
    case inr h => exact w.pos h
  le h := by
    cases of_sealed h
    case inl h => exact h.left ▸ le_rfl
    case inr h => exact w.le h
  kept h := by
    cases of_sealed h
    case inl h => exact h.left ▸ Nat.le_add_right _ _
    case inr h => exact w.kept h
  isOpen h := h.elim
  closed _ := rfl

end Window

theorem Window.push (w : l.Window) (ho : l.isOpen) : (l.push key a).Window where
  pos      := w.pos
  le       := w.le
  kept     := w.kept
  isOpen   := w.isOpen
  closed h := absurd ho h

namespace Exact

omit [DecidableEq κ] in
theorem extend (x : l.Exact key) : (l.extend p).Exact key where
  sound  := x.sound
  latest := x.latest

omit [DecidableEq κ] in
-- With no entry of its own, the dropped block is the only one that loses positions.
theorem at_openNext (w : l.Window) (hc : ¬l.isOpen) :
    l.openNext.At b i a ↔ l.At b i a ∧ b ≠ l.obsolete := by
  constructor
  case mp =>
    intro h
    cases h
    case inl h =>
      have ⟨es, h, hi⟩ := h
      have ⟨hb, h⟩ := Window.of_openNext h
      exact ⟨.inl ⟨es, h, hi⟩, hb⟩
    case inr h =>
      have hi : l.current[i]? = some a := h.right
      simp [w.closed hc] at hi
  case mpr =>
    intro ⟨h, hb⟩
    cases h
    case inl h =>
      have ⟨es, h, hi⟩ := h
      exact .inl ⟨es, by simp [RetentionLog.openNext, hb, h], hi⟩
    case inr h => simp [w.closed hc] at h

omit [DecidableEq κ] in
theorem openNext (x : l.Exact key) (w : l.Window) (hc : ¬l.isOpen) : l.openNext.Exact key where
  sound h := by
    have ⟨h, hb⟩ := Option.filter_eq_some_iff.mp h
    have ⟨a, ha, hk⟩ := x.sound h
    exact ⟨a, (at_openNext w hc).mpr ⟨ha, by simpa using hb⟩, hk⟩
  latest {b _ _} h := by
    have ⟨ha, hb⟩ := (at_openNext w hc).mp h
    have ⟨b', i', hi, hle⟩ := x.latest ha
    have hge : l.obsolete ≤ b := by
      cases ha
      case inl ha => exact w.obsolete_le ha.choose_spec.left
      case inr ha => simp [w.closed hc] at ha
    refine ⟨b', i', Option.filter_eq_some_iff.mpr ⟨hi, ?_⟩, hle⟩
    simp only [decide_eq_true_eq]
    omega

theorem at_push :
    (l.push key a).At b i a' ↔
      l.At b i a' ∨ (b = l.now ∧ i = l.current.length ∧ a' = a) := by
  simp only [At, RetentionLog.push, List.getElem?_append]
  by_cases hi : i < l.current.length
  · simp [hi, Nat.ne_of_lt hi]
  · by_cases he : i = l.current.length
    · simp [he, eq_comm]
    · have hs : i - l.current.length ≠ 0 := by omega
      simp [hi, he, hs]

theorem push (x : l.Exact key) (w : l.Window) (ho : l.isOpen) : (l.push key a).Exact key where
  sound {k b i} h := by
    by_cases hk : k = key a
    · subst hk
      simp only [RetentionLog.push, Function.update_self, Option.some.injEq, Prod.mk.injEq] at h
      exact ⟨a, at_push.mpr (.inr ⟨h.left.symm, h.right.symm, rfl⟩), rfl⟩
    · simp only [RetentionLog.push, Function.update_of_ne hk] at h
      have ⟨a', ha, hk⟩ := x.sound h
      exact ⟨a', at_push.mpr (.inl ha), hk⟩
  latest {b i a'} h := by
    by_cases hk : key a' = key a
    · -- the new position is later than any position of a sealed block, and of the open one
      refine ⟨l.now, l.current.length, by simp [RetentionLog.push, hk], ?_⟩
      cases at_push.mp h
      case inl h =>
        cases h
        case inl h => exact .inl (w.lt_of_isOpen ho h.choose_spec.left)
        case inr h =>
          have ⟨hi, _⟩ := List.getElem?_eq_some_iff.mp h.right
          exact .inr ⟨h.left, Nat.le_of_lt hi⟩
      case inr h => exact .inr ⟨h.left, h.right.left.le⟩
    · cases at_push.mp h
      case inl h =>
        have ⟨b', i', hi, hle⟩ := x.latest h
        exact ⟨b', i', by simpa [RetentionLog.push, Function.update_of_ne hk] using hi, hle⟩
      case inr h => exact absurd (h.right.right ▸ rfl) hk

omit [DecidableEq κ] in
theorem at_sealed (w : l.Window) (ho : l.isOpen) : l.sealed.At b i a ↔ l.At b i a := by
  have hn := w.isOpen ho
  by_cases hb : b = l.now
  · subst hb
    by_cases hc : l.current = [] <;> simp [At, RetentionLog.sealed, hc, hn]
  · simp [At, RetentionLog.sealed, hb]

omit [DecidableEq κ] in
theorem sealed (x : l.Exact key) (w : l.Window) (ho : l.isOpen) : l.sealed.Exact key where
  sound h :=
    have ⟨a, ha, hk⟩ := x.sound h
    ⟨a, (at_sealed w ho).mpr ha, hk⟩
  latest h := x.latest <| (at_sealed w ho).mp h

end Exact

structure Valid (key : α → κ) (l : RetentionLog α κ) : Prop where
  window : l.Window
  exact  : l.Exact key
  -- A block that is open has been opened.
  pos    : l.isOpen → 0 < l.now

theorem Valid.step (v : l.Valid key) (h : Step key l l') : l'.Valid key := by
  cases h
  case extend h => exact ⟨v.window.extend h, v.exact.extend, v.pos⟩
  case openNext h =>
    exact ⟨v.window.openNext, v.exact.openNext v.window h, fun _ => Nat.succ_pos _⟩
  case push a h => exact ⟨v.window.push h, v.exact.push v.window h, v.pos⟩
  case sealed h => exact ⟨v.window.sealed (v.pos h), v.exact.sealed v.window h, False.elim⟩

theorem Valid.steps (v : l.Valid key) (h : Steps key l l') : l'.Valid key := by
  induction h
  case refl          => exact v
  case tail _ hs hi  => exact hi.step hs

theorem Step.period_le (h : Step key l l') : l.period ≤ l'.period := by
  cases h
  case extend h => exact h
  all_goals exact le_rfl

theorem Steps.period_le (h : Steps key l l') : l.period ≤ l'.period := by
  induction h
  case refl         => exact le_rfl
  case tail _ hs hi => exact hi.trans hs.period_le

theorem Step.now_le (h : Step key l l') : l.now ≤ l'.now := by
  cases h
  case openNext => exact Nat.le_succ _
  all_goals exact le_rfl

theorem Steps.now_le (h : Steps key l l') : l.now ≤ l'.now := by
  induction h
  case refl         => exact le_rfl
  case tail _ hs hi => exact hi.trans hs.now_le

-- What becomes of entry `a` at position `i` of block `b`: it stays for the period and then is gone.
structure Tracked (b i : Nat) (a : α) (l : RetentionLog α κ) : Prop where
  kept : l.now ≤ b + l.period → l.At b i a
  gone : b + l.period < l.now → l.blocks b = none

namespace Tracked

theorem step (t : l.Tracked b i a) (v : l.Valid key) (h : Step key l l')
    (hp : l'.period = l.period) : l'.Tracked b i a := by
  cases h
  case extend p _ =>
    have hp : p = l.period := hp
    subst hp
    exact ⟨t.kept, t.gone⟩
  case openNext hc =>
    refine ⟨fun hn => ?_, fun hn => ?_⟩
    · have hn : l.now + 1 ≤ b + l.period := hn
      have ha := t.kept (by omega)
      refine (Exact.at_openNext v.window hc).mpr ⟨ha, ?_⟩
      obtain ⟨es, hb, _⟩ | ⟨_, ha⟩ := ha
      · have hb := v.window.pos hb
        simp only [obsolete]
        omega
      · simp [v.window.closed hc] at ha
    · have hn : b + l.period < l.now + 1 := hn
      by_cases hb : b = l.obsolete
      · simp [openNext, hb]
      · simp only [obsolete] at hb
        simpa [openNext, obsolete, Function.update_apply, hb] using t.gone (by omega)
  case push a' ho => exact ⟨fun hn => Exact.at_push.mpr (.inl (t.kept hn)), t.gone⟩
  case sealed ho =>
    refine ⟨fun hn => (Exact.at_sealed v.window ho).mpr (t.kept hn), fun hn => ?_⟩
    have hn : b + l.period < l.now := hn
    have hb : ¬(b = l.now ∧ l.current ≠ []) := by omega
    simp only [sealed, hb, if_false]
    exact t.gone hn

theorem steps (t : l.Tracked b i a) (v : l.Valid key) (h : Steps key l l')
    (hp : l'.period = l.period) : l'.Tracked b i a := by
  induction h
  case refl => exact t
  case tail m l' hm hs hi =>
    -- the period cannot grow and come back
    have hm' : m.period = l.period :=
      le_antisymm (hs.period_le.trans hp.le) (Steps.period_le hm)
    exact (hi hm').step (v.steps hm) hs (hp.trans hm'.symm)

-- An entry that is there is to stay as long as any other.
omit [DecidableEq κ] in
theorem of_at (v : l.Valid key) (h : l.At b i a) : l.Tracked b i a where
  kept _  := h
  gone hn := by
    by_contra hb
    obtain ⟨es, hb⟩ := Option.ne_none_iff_exists'.mp hb
    exact absurd (v.window.kept hb) (Nat.not_le.mpr hn)

end Tracked
end RetentionLog
