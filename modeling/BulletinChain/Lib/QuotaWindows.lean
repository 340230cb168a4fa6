import Mathlib.Algebra.Order.Group.Nat

-- A quota that is granted anew for each of a sequence of windows, all of the same length and no two of
-- which overlap. Of the charges, `since m` is the sum of those that are made at time `m` or later.
namespace QuotaWindows

variable {length quota stop stop' used now size : Nat} {since : Nat → Nat}

-- The last window ends at `stop`: as many windows as it takes to get there from `m` bound the charges
-- since then.
def Spread (length quota stop : Nat) (since : Nat → Nat) : Prop :=
  ∀ m k, stop ≤ m + k * length → since m ≤ k * quota

-- In the last window, which ends at `stop`, no more than `used` is charged so far.
def Current (length quota stop used : Nat) (since : Nat → Nat) : Prop :=
  ∀ m k, stop ≤ m + (k + 1) * length → since m ≤ used + k * quota

-- A charge at time `now`.
def charged (since : Nat → Nat) (now size : Nat) (m : Nat) : Nat :=
  since m + if m ≤ now then size else 0

theorem Spread.zero : Spread length quota stop fun _ => 0 :=
  fun _ _ _ => Nat.zero_le _

theorem Spread.mono (h : Spread length quota stop since) (hs : stop ≤ stop') :
    Spread length quota stop' since :=
  fun m k hm => h m k (hs.trans hm)

-- A window that opens after the last one has ended.
theorem Spread.opens (h : Spread length quota stop since) (hs : stop ≤ now) :
    Current length quota (now + length) 0 since := by
  intro m k hm
  rw [Nat.zero_add]
  refine h m k (hs.trans ?_)
  rw [Nat.add_mul, Nat.one_mul] at hm
  omega

theorem Current.charged (h : Current length quota stop used since) :
    Current length quota stop (used + size) (charged since now size) := by
  intro m k hm
  have := h m k hm
  simp only [QuotaWindows.charged]
  split <;> omega

-- A charge that the quota of the last window allows. It is made before the window ends, so that from
-- then on there is at least this one window to account for it.
theorem Spread.charged (h : Spread length quota stop since)
    (hc : Current length quota stop used since) (hn : now < stop) (hq : used + size ≤ quota) :
    Spread length quota stop (charged since now size) := by
  intro m k hm
  by_cases hm' : m ≤ now
  · cases k
    case zero => omega
    case succ k =>
      have hs : QuotaWindows.charged since now size m ≤ used + size + k * quota := hc.charged m k hm
      rw [Nat.add_mul, Nat.one_mul]
      omega
  · simpa [QuotaWindows.charged, hm'] using h m k hm

-- A span of `k` lengths sees at most `k + 1` windows.
theorem Spread.since_le (h : Spread length quota stop since) (hs : stop ≤ now + length) :
    since (now - k * length) ≤ (k + 1) * quota := by
  refine h _ _ (hs.trans ?_)
  rw [Nat.add_mul, Nat.one_mul]
  omega

end QuotaWindows
