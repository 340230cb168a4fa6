import BulletinChain.Theorems.Frame
import BulletinChain.Theorems.Sizes
import BulletinChain.Theorems.MigrateV3
import BulletinChain.Theorems.Latest

namespace Bulletin

open Machine MigrateV2ToV3

variable {T : Config}

def Stored.entries : Stored T → Entries T
  | v2 l      => l.translated
  | current l => l

-- The actions of a block that has no calls but the inherents.
def Action.ofBlock : Action T → Bool
  | onInitialize _ _ | onFinalize => true
  | extrinsic x                   => x.isInherent
  | _                             => false

namespace Migrating

variable {K : KeyOrder Nat (List Nat)} {m m' : Migrating T} {c : Chain T} {b : Nat}

-- The oldest block that is retained.
abbrev oldest (m : Migrating T) : Nat :=
  m.chain.ledger.obsolete

-- The chain without the lists that are no longer retained, as if the others had been migrated.
def retained (m : Migrating T) : Chain T :=
  m.chain.withTransactions (m.transactions.restrict (m.oldest ≤ ·))

theorem lookup_transactions : m.transactions.lookup b =
    (m.chain.state.transactions.lookup b).or ((m.v2.lookup b).map (·.translated)) := by
  rw [transactions, Finmap.lookup_union_eq, Finmap.lookup_translate]
  cases m.v2.lookup b <;> rfl

theorem lookup_stored : m.stored.lookup b =
    ((m.chain.state.transactions.lookup b).map .current).or ((m.v2.lookup b).map .v2) := by
  rw [stored, Finmap.lookup_union_eq, Finmap.lookup_translate, Finmap.lookup_translate]
  cases m.chain.state.transactions.lookup b <;> cases m.v2.lookup b <;> rfl

theorem lookup_retained : m.retained.state.transactions.lookup b =
    if m.oldest ≤ b then m.transactions.lookup b else none :=
  Finmap.lookup_restrict _

theorem transactions_eq_stored :
    m.transactions.lookup b = (m.stored.lookup b).map Stored.entries := by
  rw [lookup_transactions, lookup_stored]
  cases m.chain.state.transactions.lookup b <;> cases m.v2.lookup b <;> rfl

-- A write leaves the lists that do not decode, except where it has put another.
theorem lookup_write : (m.write c).transactions.lookup b =
    (c.state.transactions.lookup b).or ((m.v2.lookup b).map (·.translated)) := by
  rw [lookup_transactions]
  have hv : (m.write c).v2.lookup b = if b ∉ c.state.transactions then m.v2.lookup b else none :=
    Finmap.lookup_restrict _
  have hc : (m.write c).chain = c := rfl
  rw [hv, hc]
  cases h : c.state.transactions.lookup b
  case some es => rfl
  case none    => rw [if_pos (Finmap.lookup_eq_none.mp h)]

-- The migration.

theorem stored_migrated (p : Progress Nat (Stored T)) : (m.migrated p).stored = p.transactions := by
  apply Finmap.ext_lookup
  intro b
  rw [lookup_stored]
  simp only [migrated, Chain.withTransactions, State.withTransactions, Finmap.lookup_translate]
  rcases p.transactions.lookup b with _ | ⟨_ | _⟩ <;> rfl

theorem readable (K : KeyOrder Nat (List Nat)) (oldestValid : Nat) (t : Finmap fun _ : Nat => Stored T) :
    (Stored.layout K).Readable oldestValid t := by
  intro b s _ _
  cases s
  case v2      => exact .inr rfl
  case current => exact .inl rfl

theorem outcome_retained (hb : oldestValid ≤ b) (s : Stored T) :
    (Stored.layout K).outcome oldestValid b s = some (.current s.entries) := by
  have hs : ¬(Stored.layout (T := T) K).number b < oldestValid := not_lt.mpr hb
  cases s <;> exact if_neg hs

section Reached

variable {p₀ p : Progress Nat (Stored T)} {seen : List Nat}

theorem retained_migrated (h : Reached (Stored.layout K) m.oldest p₀ seen p)
    (h₀ : p₀.transactions = m.stored) : (m.migrated p).retained = m.retained := by
  refine congrArg m.chain.withTransactions (Finmap.ext_lookup fun b => ?_)
  have ho : (m.migrated p).oldest = m.oldest := rfl
  rw [Finmap.lookup_restrict, Finmap.lookup_restrict, ho]
  split
  case isFalse   => rfl
  case isTrue hb =>
    rw [transactions_eq_stored, transactions_eq_stored, stored_migrated]
    by_cases hs : b ∈ seen
    · rw [h.walk.lookup_of_mem hs, h₀]
      cases m.stored.lookup b
      case none   => rfl
      case some s => rw [Option.bind_some, outcome_retained hb]; rfl
    · rw [h.walk.lookup_of_notMem hs, h₀]

-- What the migration has yet to visit: the lists of version 2, and those that are no longer retained.
def Unsettled (m : Migrating T) (b : Nat) : Prop :=
  ∃ s, m.stored.lookup b = some s ∧ (s.current? = none ∨ b < m.oldest)

theorem Unsettled.not_visited (h : Reached (Stored.layout K) m.oldest p₀ seen p)
    (h₀ : p₀.transactions = m.stored) (hu : (m.migrated p).Unsettled b) : b ∉ seen ∧ m.Unsettled b := by
  have ⟨s, hs, hu⟩ := hu
  rw [stored_migrated] at hs
  have hn : b ∉ seen := by
    intro hb
    rw [h.walk.lookup_of_mem hb] at hs
    have ⟨s₀, _, ho⟩ := Option.bind_eq_some_iff.mp hs
    by_cases hb : m.oldest ≤ b
    · rw [outcome_retained hb] at ho
      cases ho
      exact absurd hb (not_le.mpr (hu.resolve_left nofun))
    · have hb : (Stored.layout K).outcome m.oldest b s₀ = none := if_pos (not_le.mp hb)
      exact absurd (hb.symm.trans ho) nofun
  rw [h.walk.lookup_of_notMem hn, h₀] at hs
  exact ⟨hn, s, hs, hu⟩

-- The cursor is before everything that is not settled, and there is one as long as something is.
def Ahead (K : KeyOrder Nat (List Nat)) (m : Migrating T) : Prop :=
  ∀ b, m.Unsettled b → ∃ cursor, m.cursor = some cursor ∧ K.After cursor b

theorem Ahead.paused (h : Paused (Stored.layout K) m.oldest p₀ seen p)
    (h₀ : p₀.transactions = m.stored) (hc : m.cursor = some p₀.cursor) (hp : p.cursor ≠ none)
    (ha : m.Ahead K) : (m.migrated p).Ahead K := by
  intro b hu
  have ⟨hn, hu⟩ := hu.not_visited h.toReached h₀
  have ⟨s, hs, _⟩ := hu
  have ⟨cursor, hc', hb⟩ := ha b hu
  cases Option.some.inj (hc.symm.trans hc')
  have ⟨k, hk⟩ := Option.ne_none_iff_exists'.mp hp
  refine ⟨some k, by simp [migrated, hk], ?_⟩
  rw [← hk, h.cursor]
  by_contra ha
  exact hn ((h.walk.mem b).mpr ⟨Finmap.mem_iff.mpr ⟨s, h₀ ▸ hs⟩, hb, ha⟩)

-- Without a key after the cursor, everything is settled.
theorem Ahead.finished (h : Finished (Stored.layout K) m.oldest p₀ seen p)
    (h₀ : p₀.transactions = m.stored) (hc : m.cursor = some p₀.cursor) (ha : m.Ahead K) :
    (m.migrated p).Ahead K := by
  intro b hu
  have ⟨hn, hu⟩ := hu.not_visited h.toReached h₀
  have ⟨s, hs, _⟩ := hu
  have ⟨cursor, hc', hb⟩ := ha b hu
  cases Option.some.inj (hc.symm.trans hc')
  exact absurd ((h.walk.done h.last b).mpr ⟨Finmap.mem_iff.mpr ⟨s, h₀ ▸ hs⟩, hb⟩) hn

end Reached

theorem Ahead.settled (ha : m.Ahead K) (hc : m.cursor = none) : ¬m.Unsettled b := by
  intro hu
  have ⟨_, hc', _⟩ := ha b hu
  exact absurd (hc.symm.trans hc') nofun

theorem unsettled_iff : m.Unsettled b ↔
    b ∈ m.v2 ∨ b ∈ m.chain.state.transactions ∧ b < m.oldest := by
  have hd := m.disjoint b
  simp only [Unsettled, lookup_stored, Finmap.mem_iff] at hd ⊢
  cases hc : m.chain.state.transactions.lookup b <;> cases hv : m.v2.lookup b
  case some.some => exact absurd ⟨_, hc⟩ (hd ⟨_, hv⟩)
  all_goals simp [Stored.current?]

-- When the migration is done, there is nothing left to translate or to drop.
theorem Ahead.v2_eq (ha : m.Ahead K) (hc : m.cursor = none) : m.v2 = ∅ := by
  apply Finmap.ext_lookup
  intro b
  rw [Finmap.lookup_empty, Finmap.lookup_eq_none]
  exact fun hb => ha.settled hc (unsettled_iff.mpr (.inl hb))

theorem Ahead.retained_eq (ha : m.Ahead K) (hc : m.cursor = none) : m.retained = m.chain := by
  refine congrArg m.chain.withTransactions (Finmap.ext_lookup fun b => ?_)
  rw [Finmap.lookup_restrict, lookup_transactions, ha.v2_eq hc, Finmap.lookup_empty, Option.map_none,
    Option.or_none]
  split
  case isTrue     => rfl
  case isFalse hb =>
    symm
    rw [Finmap.lookup_eq_none]
    exact fun hm => ha.settled hc (unsettled_iff.mpr (.inr ⟨hm, not_le.mp hb⟩))

-- The blocks.

section Block

theorem withTransactions_ready {t : Finmap fun _ : Nat => Entries T} (h : c.Ready) :
    (c.withTransactions t).Ready :=
  ⟨h.index, h.pending⟩

theorem retained_onInitialize (r : m.chain.Ready)
    (h₀ : m.retained.state.transactions.lookup 0 = none)
    (hv : m.v2.lookup m.oldest = none)
    (h : m.chain.step (.onInitialize parentHash moment) = some c) :
    m.retained.step (.onInitialize parentHash moment) = some (m.write c).retained := by
  have ht : (m.transactions.restrict (m.oldest ≤ ·)).lookup m.chain.ledger.obsolete =
      m.chain.state.transactions.lookup m.chain.ledger.obsolete := by
    rw [Finmap.lookup_restrict, if_pos le_rfl, lookup_transactions, hv]
    exact Option.or_none
  rw [retained, Chain.step_onInitialize_withTransactions parentHash moment ht, h, Option.map_some]
  refine congrArg (some <| c.withTransactions ·) (Finmap.ext_lookup fun b => ?_)
  have ho : (m.write c).oldest = m.chain.ledger.blockNumber + 1 - m.chain.ledger.retentionPeriod :=
    Chain.obsolete_of_opened r h
  have ho₁ : m.oldest = m.chain.ledger.obsolete := rfl
  have ho₂ : m.chain.ledger.obsolete = m.chain.ledger.blockNumber - m.chain.ledger.retentionPeriod := rfl
  rw [Finmap.lookup_restrict, Chain.lookup_openedLists, Finmap.lookup_restrict, lookup_write,
    Chain.transactions_onInitialize h, Chain.lookup_openedLists, ho]
  by_cases hb : m.chain.ledger.blockNumber + 1 - m.chain.ledger.retentionPeriod ≤ b
  · have hn : ¬(0 < m.chain.ledger.obsolete ∧ b = m.chain.ledger.obsolete) := by omega
    rw [if_neg hn, if_pos hb, if_neg hn, if_pos (by omega), lookup_transactions]
  · rw [if_neg hb]
    split
    case isTrue     => rfl
    case isFalse hn =>
      split
      case isFalse   => rfl
      case isTrue hl =>
        have hb : b = 0 := by omega
        rwa [lookup_retained, ← hb, if_pos hl] at h₀

-- The lists that are retained after an action that reads all of them.
theorem retained_write {t t' : Finmap fun _ : Nat => Entries T} (ho : c.ledger.obsolete = m.oldest)
    (ht : ∀ b, t'.lookup b =
      if m.oldest ≤ b then (t.lookup b).or ((m.v2.lookup b).map (·.translated)) else none) :
    (m.write (c.withTransactions t)).retained = c.withTransactions t' := by
  refine congrArg c.withTransactions (Finmap.ext_lookup fun b => ?_)
  have ho : (m.write (c.withTransactions t)).oldest = m.oldest := ho
  rw [Finmap.lookup_restrict, lookup_write, ht, ho]
  rfl

theorem lookup_target : (m.transactions.restrict (m.oldest ≤ ·)).lookup m.oldest =
    m.transactions.lookup m.oldest := by
  rw [Finmap.lookup_restrict, if_pos le_rfl]

theorem readingAll_eq_some {t : Finmap fun _ : Nat => Entries T} (h : m.readingAll a t = some m') :
    ∃ c, (m.chain.withTransactions m.transactions).step a = some c ∧
      m' = m.write (c.withTransactions t) := by
  have ⟨c, hc, h⟩ := Option.bind_eq_some_iff.mp h
  exact ⟨c, hc, (Option.some.inj h).symm⟩

theorem retained_extrinsic (r : m.chain.Ready) (hx : x.isInherent)
    (h : (m.chain.withTransactions m.transactions).step (.extrinsic x) = some c) :
    m.retained.step (.extrinsic x) =
      some (m.write (c.withTransactions m.chain.state.transactions)).retained := by
  have ho := Chain.obsolete_of_inBlock (withTransactions_ready r) (.inl ⟨x, rfl, hx⟩) h
  have hs : m.retained.step (.extrinsic x) = _ :=
    Chain.step_extrinsic_withTransactions (c := m.chain.withTransactions m.transactions) hx lookup_target
  rw [hs, h, Option.map_some, retained_write ho fun b => ?_]
  rw [Finmap.lookup_restrict, lookup_transactions]

theorem retained_onFinalize (r : m.chain.Ready)
    (h : (m.chain.withTransactions m.transactions).step .onFinalize = some c) :
    m.retained.step .onFinalize =
      some (m.write (c.withTransactions (m.chain.sealedLists m.chain.state.transactions))).retained := by
  have ho := Chain.obsolete_of_inBlock (withTransactions_ready r) (.inr rfl) h
  have hs : m.retained.step .onFinalize = _ :=
    Chain.step_onFinalize_withTransactions (c := m.chain.withTransactions m.transactions) lookup_target
  rw [hs, h, Option.map_some, retained_write ho fun b => ?_]
  rw [Chain.lookup_sealedLists, Chain.lookup_sealedLists, Finmap.lookup_restrict, lookup_transactions]
  by_cases hn : totalChunks m.chain.state.blockTransactions.val ≠ 0 ∧ b = m.chain.ledger.blockNumber
  · have hle : m.oldest ≤ b := hn.right ▸ Nat.sub_le _ _
    simp only [if_pos hn, if_pos hle]
    exact if_pos hn
  · rw [if_neg hn]
    exact if_neg hn

theorem Ahead.write (ha : m.Ahead K)
    (hc : ∀ b ∈ c.state.transactions, b < (m.write c).oldest →
      b ∈ m.chain.state.transactions ∧ b < m.oldest) : (m.write c).Ahead K := by
  intro b hu
  refine ha b (unsettled_iff.mpr ?_)
  cases unsettled_iff.mp hu
  case inl hv =>
    rw [Finmap.mem_iff] at hv ⊢
    simp only [Migrating.write, Finmap.lookup_restrict] at hv
    split at hv
    case isTrue  => exact .inl hv
    case isFalse => simp at hv
  case inr hb => exact .inr (hc b hb.left hb.right)

end Block

-- What holds of a migration at any time, if version `v` was there before.
structure Sound (K : KeyOrder Nat (List Nat)) (v : Nat) (m : Migrating T) : Prop where
  ready   : m.retained.Ready
  sized   : m.retained.ledger.Sized
  valid   : m.retained.log.Valid contentKey
  ahead   : m.Ahead K
  version : m.version = if m.cursor.isNone then max v 3 else v

-- The obsolete list is not one of version 2 when the next block is opened.
def clears (m : Migrating T) : Action T → Bool
  | .block (.onInitialize _ _) => (m.v2.lookup m.oldest).isNone
  | _                          => true

-- A step of the migration visits some keys, or is the last.
theorem migrate_cases (h : m.migrate K required limit = some m') :
    ∃ p₀ seen p, p₀.transactions = m.stored ∧ p₀.version = m.version ∧ m.cursor = some p₀.cursor ∧
      m' = m.migrated p ∧ (Paused (Stored.layout K) m.oldest p₀ seen p ∧ p.cursor ≠ none ∨
        Finished (Stored.layout K) m.oldest p₀ seen p) := by
  simp only [Migrating.migrate] at h
  obtain ⟨cursor, hc, h⟩ := Option.bind_eq_some_iff.mp h
  split at h
  case h_2      => cases h
  case h_1 p hp =>
    cases h
    let p₀ : Progress Nat (Stored T) := ⟨m.stored, m.version, cursor, []⟩
    have ha : Advances (Stored.layout K) m.oldest p₀ [] True (some (.ok p)) :=
      hp ▸ step_advances (readable K _ _) .start (limit_of_step hp)
    obtain ⟨q, seen, hq, _, hs⟩ := ha
    cases hq
    refine ⟨p₀, seen, p, rfl, rfl, hc, rfl, hs.imp_left fun h => ⟨h.left, ?_⟩⟩
    have hn : seen ≠ [] := List.ne_nil_of_length_pos (h.right trivial)
    simp [h.left.cursor, hn]

theorem cursor_migrated (p : Progress Nat (Stored T)) :
    (m.migrated p).cursor.isNone = p.cursor.isNone := by
  cases h : p.cursor <;> simp [migrated, h]

namespace Sound

theorem migrated (s : m.Sound K v) (h₀ : p₀.transactions = m.stored) (hv₀ : p₀.version = m.version)
    (hc : m.cursor = some p₀.cursor)
    (hs : Paused (Stored.layout K) m.oldest p₀ seen p ∧ p.cursor ≠ none ∨
      Finished (Stored.layout K) m.oldest p₀ seen p) :
    (m.migrated p).Sound K v ∧ (m.migrated p).retained = m.retained := by
  have hv : p₀.version = v := by simpa [hv₀, hc] using s.version
  have hr : (m.migrated p).retained = m.retained :=
    retained_migrated (hs.elim (·.left.toReached) (·.toReached)) h₀
  refine ⟨⟨hr ▸ s.ready, hr ▸ s.sized, hr ▸ s.valid, ?_, ?_⟩, hr⟩
  · cases hs
    case inl hs => exact s.ahead.paused hs.left h₀ hc hs.right
    case inr hs => exact s.ahead.finished hs h₀ hc
  · rw [cursor_migrated, ← hv]
    cases hs
    case inl hs => rw [if_neg (by simpa using hs.right)]; exact hs.left.version
    case inr hs => rw [if_pos (by simp [hs.cursor])]; exact hs.version

theorem migrate (s : m.Sound K v) (h : m.migrate K required limit = some m') :
    m'.Sound K v ∧ m'.retained = m.retained := by
  have ⟨_, _, p, h₀, hv, hc, hm, hs⟩ := migrate_cases h
  exact hm ▸ s.migrated h₀ hv hc hs

theorem chain_ready (s : m.Sound K v) : m.chain.Ready :=
  ⟨s.ready.index, s.ready.pending⟩

-- There is no block 0.
theorem lookup_zero (s : m.Sound K v) : m.retained.state.transactions.lookup 0 = none := by
  by_contra h
  have ⟨es, h⟩ := Option.ne_none_iff_exists'.mp h
  exact absurd (s.valid.window.pos (Ledger.log_blocks_eq_some.mpr ⟨es, h, rfl⟩)) (Nat.lt_irrefl 0)

theorem of_step (s : m.Sound K v) (ha : a.ofBlock) (h : m.retained.step a = some (m.write c).retained)
    (hw : (m.write c).Ahead K) : (m.write c).Sound K v := by
  have ⟨e, r⟩ := Chain.step_evolves (D := Set.univ) s.ready (fun _ _ => trivial) h
  have hs : m.retained.steady a := by cases a <;> first | contradiction | rfl
  exact ⟨r, e.sized s.sized, s.valid.steps (e.steps s.sized.counts s.valid hs), hw, s.version⟩

theorem ahead_onInitialize (s : m.Sound K v)
    (h : m.chain.step (.onInitialize parentHash moment) = some c) : (m.write c).Ahead K := by
  refine s.ahead.write fun b hb ho => ?_
  have ho₁ : (m.write c).oldest = m.chain.ledger.blockNumber + 1 - m.chain.ledger.retentionPeriod :=
    Chain.obsolete_of_opened s.chain_ready h
  have ho₂ : m.oldest = m.chain.ledger.blockNumber - m.chain.ledger.retentionPeriod := rfl
  have ⟨es, hl⟩ := Finmap.mem_iff.mp hb
  rw [Chain.transactions_onInitialize h, Chain.lookup_openedLists] at hl
  split at hl
  case isTrue     => cases hl
  case isFalse hn =>
    have hn : ¬(0 < m.oldest ∧ b = m.oldest) := hn
    refine ⟨Finmap.mem_iff.mpr ⟨es, hl⟩, ?_⟩
    by_contra hb
    -- Only a list of block 0 would stay behind.
    have hz : b = 0 := by omega
    have h₀ := s.lookup_zero
    rw [lookup_retained, ← hz, if_pos (by omega), lookup_transactions, hl] at h₀
    cases h₀

theorem ahead_readingAll {t : Finmap fun _ : Nat => Entries T} (s : m.Sound K v)
    (ha : (∃ x, a = .extrinsic x ∧ x.isInherent) ∨ a = .onFinalize)
    (h : (m.chain.withTransactions m.transactions).step a = some c)
    (ht : ∀ b < m.oldest, t.lookup b = m.chain.state.transactions.lookup b) :
    (m.write (c.withTransactions t)).Ahead K := by
  refine s.ahead.write fun b hb ho => ?_
  have hc := Chain.obsolete_of_inBlock (withTransactions_ready s.chain_ready) ha h
  have hc : c.ledger.obsolete = m.oldest := hc
  have ho : b < m.oldest := hc ▸ ho
  rw [Finmap.mem_iff] at hb ⊢
  exact ⟨ht b ho ▸ hb, ho⟩

theorem block (s : m.Sound K v) (g : m.clears (.block a)) (h : m.block a = some m') :
    m'.Sound K v ∧ a.ofBlock ∧ m.retained.step a = some m'.retained := by
  cases a
  case onInitialize =>
    have ⟨c, hc, h⟩ := Option.map_eq_some_iff.mp h
    subst h
    have hs := retained_onInitialize s.chain_ready s.lookup_zero (Option.isNone_iff_eq_none.mp g) hc
    exact ⟨s.of_step rfl hs (s.ahead_onInitialize hc), rfl, hs⟩
  case extrinsic x =>
    simp only [Migrating.block] at h
    split at h
    case isFalse   => cases h
    case isTrue hx =>
      have ⟨c, hc, h⟩ := readingAll_eq_some h
      subst h
      have hs := retained_extrinsic s.chain_ready hx hc
      have ha := s.ahead_readingAll (.inl ⟨x, rfl, hx⟩) hc fun _ _ => rfl
      exact ⟨s.of_step (a := .extrinsic x) hx hs ha, hx, hs⟩
  case onFinalize =>
    have ⟨c, hc, h⟩ := readingAll_eq_some h
    subst h
    have hs := retained_onFinalize s.chain_ready hc
    refine ⟨s.of_step rfl hs (s.ahead_readingAll (.inr rfl) hc fun b hb => ?_), rfl, hs⟩
    have hn : b ≠ m.chain.ledger.blockNumber := (hb.trans_le (Nat.sub_le _ _)).ne
    exact Chain.lookup_sealedLists.trans (if_neg fun h => hn h.right)
  all_goals cases h

end Sound
-- A chain that has no list of version 2 any more.
def settledAt (c : Chain T) (v : Nat) : Migrating T :=
  ⟨c, ∅, fun _ h => absurd h Finmap.notMem_empty, v, none⟩

theorem write_settledAt (c c' : Chain T) (v : Nat) : (settledAt c v).write c' = settledAt c' v := by
  have hv : (∅ : Finmap fun _ : Nat => V2List T).restrict (· ∉ c'.state.transactions) = ∅ := rfl
  simp only [write, settledAt, hv]

theorem transactions_settledAt (c : Chain T) (v : Nat) :
    (settledAt c v).transactions = c.state.transactions := by
  apply Finmap.ext_lookup
  intro b
  rw [lookup_transactions]
  exact Option.or_none

theorem readingAll_settledAt {t : Finmap fun _ : Nat => Entries T} (h : c.step a = some c')
    (ht : c'.state.transactions = t) : (settledAt c v).readingAll a t = some (settledAt c' v) := by
  have hc : (settledAt c v).chain.withTransactions (settledAt c v).transactions = c := by
    rw [transactions_settledAt]
    exact c.withTransactions_self
  simp only [readingAll, hc, h, ← ht]
  exact congrArg some (write_settledAt c c' v)

-- From there on a block is what it is without a migration.
theorem block_settledAt (ha : a.ofBlock) (h : c.step a = some c') :
    (settledAt c v).block a = some (settledAt c' v) := by
  cases a
  case onInitialize =>
    refine (congrArg (Option.map _) h).trans ?_
    exact congrArg some (write_settledAt c c' v)
  case extrinsic =>
    exact (if_pos ha).trans (readingAll_settledAt h (Chain.transactions_extrinsic h ha))
  case onFinalize => exact readingAll_settledAt h (Chain.transactions_onFinalize h)
  all_goals contradiction

-- A migration that has not begun, of any lists of blocks there have been. The index is exact for those
-- that are retained, and entries have a size.
structure Starts (m : Migrating T) : Prop where
  ready  : m.chain.Ready
  sized  : m.retained.ledger.Sized
  valid  : m.retained.log.Valid contentKey
  cursor : m.cursor = some none

theorem Starts.sound (h : m.Starts) (K : KeyOrder Nat (List Nat)) : m.Sound K m.version where
  ready     := withTransactions_ready h.ready
  sized     := h.sized
  valid     := h.valid
  ahead _ _ := ⟨none, h.cursor, nofun⟩
  version   := by simp [h.cursor]

theorem Sound.eq_settledAt (s : m.Sound K v) (hc : m.cursor = none) :
    m = settledAt m.retained (max v 3) := by
  have hv : m.version = max v 3 := by simpa [hc] using s.version
  have hl := s.ahead.v2_eq hc
  rw [s.ahead.retained_eq hc, settledAt]
  cases m
  simp only at hc hv hl
  subst hc hv hl
  rfl

theorem runs_settledAt {as : List (Bulletin.Action T)} (w : Nat)
    (h : Runs Chain.step (fun _ a => a.ofBlock) c as c') (K : KeyOrder Nat (List Nat))
    (required : Weight) :
    Runs (step K required) (clears · ·) (settledAt c w) (as.map .block) (settledAt c' w) := by
  rw [← List.filterMap_eq_map]
  refine (Runs.simulation (settledAt · w) (some ∘ Action.block) (fun _ => True) trivial ?_ h).right
  intro c a c' _ ha e
  refine ⟨trivial, ?_, block_settledAt ha e⟩
  cases a <;> rfl

-- The chain that is migrated among its blocks does what the one that has been migrated does.
theorem Starts.simulates {as : List (Action T)} (hs : m.Starts)
    (h : Runs (step K required) (clears · ·) m as m') :
    m'.Sound K m.version ∧
      Runs Chain.step (fun _ a => a.ofBlock) m.retained (as.filterMap Action.block?) m'.retained := by
  refine Runs.simulation retained Action.block? (Sound K m.version) (hs.sound K) ?_ h
  intro m a m' s g e
  cases a
  case block a       =>
    have ⟨s', ha, hs⟩ := s.block g e
    exact ⟨s', ha, hs⟩
  case migrate limit => exact s.migrate e

end Migrating

-- A migration whose steps are taken anywhere among the blocks of a chain, of which none is opened while
-- the list that it makes obsolete is one of version 2. When it is done no list of that version is left, the
-- index knows the contents of the entries and no others, and the state is the same as if the migration
-- had been completed before the first of the blocks.
theorem migration_interleaved {T : Config} (K : KeyOrder Nat (List Nat)) (required : Weight)
    {m₀ m : Migrating T} {as : List (Migrating.Action T)} (hs : m₀.Starts)
    (h : Runs (Migrating.step K required) (Migrating.clears · ·) m₀ as m) (hd : m.cursor = none) :
    m.v2 = ∅ ∧
    (∀ contentHash, m.chain.state.containsTransaction contentHash ↔ m.chain.ledger.Stores contentHash ∨
      ∃ e ∈ m.chain.state.blockTransactions.val, e.contentHash = contentHash) ∧
    ∀ limits : Nat → Weight, (∀ k, (limits k).anyLt required = false) →
      ∃ p, complete (Stored.layout K) required m₀.chain.state.blockNumber m₀.chain.state.retentionPeriod
          limits (m₀.stored.keys.card + 1) 0 ⟨m₀.stored, m₀.version, none, []⟩ = some (.ok p) ∧
        p.cursor = none ∧
        Runs (Migrating.step K required) (Migrating.clears · ·) (m₀.migrated p)
          ((as.filterMap Migrating.Action.block?).map .block) m := by
  have ⟨s, r⟩ := hs.simulates h
  refine ⟨s.ahead.v2_eq hd, fun contentHash => ?_, fun limits hl => ?_⟩
  · have v := s.valid
    rw [s.ahead.retained_eq hd] at v
    exact Ledger.index_isSome_iff v contentHash
  · let p₀ : Progress Nat (Stored T) := ⟨m₀.stored, m₀.version, none, []⟩
    have h₀ : Paused (Stored.layout K) m₀.oldest p₀ [] p₀ := .start
    have hk : p₀.transactions.keys.card < 0 + (m₀.stored.keys.card + 1) := by simp [p₀]
    have ⟨p, seen, hp, hf⟩ := complete_finishes (Migrating.readable K _ _) hl h₀ hk 0
    refine ⟨p, hp, hf.cursor, ?_⟩
    have ⟨s₁, hr⟩ := (hs.sound K).migrated rfl rfl hs.cursor (.inr hf)
    have hc : (m₀.migrated p).cursor = none := by simp [Migrating.migrated, hf.cursor]
    rw [s₁.eq_settledAt hc, s.eq_settledAt hd, hr]
    exact Migrating.runs_settledAt (max m₀.version 3) r K required

-- A chain that retains three blocks, at block `n`, with a list of version 2 of block 7. Keys are in the
-- order of the numbers of their blocks.

def byNumber : KeyOrder Nat (List Nat) where
  rank b    := [b]
  injective := List.singleton_injective

def unmigratedList : V2List .mock where
  list     := ⟨[⟨[[1, 2, 3]], blob, .blake2b256, rawCodec, 3, 1⟩], by decide⟩
  nonempty := List.cons_ne_nil _ _

namespace Migrating

def unmigrated (n : Nat) : Migrating .mock where
  chain    := ⟨{ GenesisConfig.empty 3 with
    blockNumber              := n
    transactionByContentHash := Finmap.singleton blob (7, 0) }, false⟩
  v2       := Finmap.singleton 7 unmigratedList
  disjoint := fun _ _ h => absurd h Finmap.notMem_empty
  version  := 2
  cursor   := some none

theorem lookup_unmigrated (hn : n ≤ 10) : (unmigrated n).retained.state.transactions.lookup b =
    if b = 7 then some unmigratedList.translated else none := by
  have ho : (unmigrated n).oldest = n - 3 := rfl
  have hv : (unmigrated n).v2.lookup b = if b = 7 then some unmigratedList else none :=
    Finmap.lookup_singleton
  have hc : (unmigrated n).chain.state.transactions.lookup b = none := rfl
  rw [lookup_retained, lookup_transactions, hc, hv, ho]
  by_cases hb : b = 7
  · rw [if_pos hb, if_pos (by omega), if_pos hb]
    rfl
  · simp [hb]

theorem unmigrated_sized (hn : n ≤ 10) : (unmigrated n).retained.ledger.Sized := by
  refine ⟨fun h e he => ?_, fun _ h => (List.not_mem_nil h).elim, iff_of_false (· rfl) (· rfl),
    fun _ h => (List.not_mem_nil h).elim⟩
  have h := (lookup_unmigrated hn).symm.trans h
  split at h <;> cases h
  rw [List.mem_singleton.mp he]
  decide

theorem unmigrated_blocks (hn : n ≤ 10) : (unmigrated n).retained.log.blocks b =
    if b = 7 then some unmigratedList.translated.val else none :=
  (congrArg (Option.map _) (lookup_unmigrated hn)).trans (apply_ite _ _ _ _)

theorem unmigrated_window (h : 7 ≤ n) (hn : n ≤ 10) : (unmigrated n).retained.log.Window := by
  have hb {b es} (h : (unmigrated n).retained.log.blocks b = some es) : b = 7 := by
    rw [unmigrated_blocks hn] at h
    split at h
    case isTrue hb => exact hb
    case isFalse   => cases h
  refine ⟨fun hs => ?_, fun hs => ?_, fun hs => ?_, nofun, fun _ => rfl⟩
  · rw [hb hs]
    decide
  · rw [hb hs]
    exact h
  · rw [hb hs]
    exact hn

theorem unmigrated_exact (hn : n ≤ 10) : (unmigrated n).retained.log.Exact contentKey where
  sound {contentHash b i} h := by
    have h := Finmap.lookup_singleton.symm.trans h
    split at h <;> cases h
    case isTrue hc =>
      exact ⟨_, .inl ⟨_, (unmigrated_blocks hn).trans (if_pos rfl), rfl⟩, hc.symm⟩
  latest {b i e} h := by
    obtain ⟨es, hb, he⟩ | ⟨_, he⟩ := h
    · rw [unmigrated_blocks hn] at hb
      split at hb
      case isFalse   => cases hb
      case isTrue h₇ =>
        cases hb
        cases i
        case succ => cases he
        case zero =>
          cases he
          have hx : (Finmap.singleton blob (7, 0) : Finmap fun _ : Config.mock.ContentHash =>
            Nat × Nat).lookup blob = some (7, 0) := Finmap.lookup_singleton_eq
          exact ⟨7, 0, hx, .inr ⟨h₇, le_rfl⟩⟩
    · cases he

theorem unmigrated_starts (h : 7 ≤ n) (hn : n ≤ 10) : (unmigrated n).Starts :=
  ⟨⟨nofun, fun _ => rfl⟩, unmigrated_sized hn, ⟨unmigrated_window h hn, unmigrated_exact hn, nofun⟩, rfl⟩

end Migrating

-- Here the list is translated in the next block, before it is obsolete.
theorem migration_interleaved_next :
    ∃ m, Runs (Migrating.step byNumber ⟨1, 1⟩) (Migrating.clears · ·) (.unmigrated 9)
        [.block (.onInitialize [] 0), .migrate ⟨9, 9⟩] m ∧ m.cursor = none ∧ m.v2 = ∅ ∧
      (m.chain.ledger.Stores blob ∨ ∃ e ∈ m.chain.state.blockTransactions.val, e.contentHash = blob) := by
  have ⟨m, hr, hc, hb⟩ := Runs.exists_of_any (Migrating.step byNumber ⟨1, 1⟩) Migrating.clears
    (.unmigrated 9) [.block (.onInitialize [] 0), .migrate ⟨9, 9⟩]
    (fun m => m.cursor = none ∧ m.chain.state.containsTransaction blob) (by decide +kernel)
  have ⟨hv, hi, _⟩ := migration_interleaved byNumber ⟨1, 1⟩
    (Migrating.unmigrated_starts (by decide) (by decide)) hr hc
  exact ⟨m, hr, hc, hv, (hi blob).mp hb⟩

-- Here the list is obsolete when the next block is opened, which does not see it. The migration then drops
-- it, and the index keeps the content. If the migration had come first, the index would have lost it.
theorem migration_interleaved_dangling :
    (Migrating.unmigrated 10).Starts ∧
    (∃ m, Runs (Migrating.step byNumber ⟨1, 1⟩) (fun _ _ => true) (.unmigrated 10)
        [.block (.onInitialize [] 0), .migrate ⟨9, 9⟩] m ∧ m.cursor = none ∧
      m.chain.state.containsTransaction blob ∧ m.chain.state.transactions.keys = ∅ ∧
      m.chain.state.blockTransactions.val = []) ∧
    ∃ m, Runs (Migrating.step byNumber ⟨1, 1⟩) (fun _ _ => true) (.unmigrated 10)
        [.migrate ⟨9, 9⟩, .block (.onInitialize [] 0)] m ∧ m.cursor = none ∧
      ¬m.chain.state.containsTransaction blob :=
  ⟨Migrating.unmigrated_starts (by decide) le_rfl,
    Runs.exists_of_any (Migrating.step byNumber ⟨1, 1⟩) (fun _ _ => true) _ _ _ (by decide +kernel),
    Runs.exists_of_any (Migrating.step byNumber ⟨1, 1⟩) (fun _ _ => true) _ _ _ (by decide +kernel)⟩

end Bulletin
