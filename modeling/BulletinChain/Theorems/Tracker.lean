import BulletinChain.RustSdk.Renewal
import BulletinChain.Theorems.Access
import BulletinChain.Theorems.Lookup

namespace Bulletin

open Machine Except

variable {T : Config}

namespace Chain

variable {c : Chain T} {p : Nat}

-- An entry that was tracked in an earlier block is in its place for the retention period, and then is
-- gone.
theorem Paced.transactionInfo_of_tracked (h : c.Paced p) (t : c.log.Tracked b i e)
    (hb : b < c.state.blockNumber) :
    c.state.transactionInfo b i = if c.state.blockNumber ≤ b + p then some e else none := by
  have hp : c.log.period = p := h.period
  split
  case isTrue hle =>
    obtain ⟨es, hes, he⟩ | ⟨hc, _⟩ := t.kept (by rw [hp]; exact hle)
    · obtain ⟨w, hw, hv⟩ := Ledger.log_blocks_eq_some.mp hes
      exact Ledger.transactionInfo_eq_some.mpr ⟨w, hw, hv ▸ he⟩
    · exact absurd hc hb.ne
  case isFalse hgt =>
    have hg := t.gone (by rw [hp]; exact not_le.mp hgt)
    simp only [log, Ledger.log, Option.map_eq_none_iff] at hg
    simp [Ledger.transactionInfo, hg]

theorem runs_blockNumber_le_max {guard : Chain T → Action T → Prop} {c' : Chain T} {as : List (Action T)}
    (h : c.state.blockNumber ≤ u32Max) (r : Runs step guard c as c') : c'.state.blockNumber ≤ u32Max :=
  runs_history (I := fun now _ _ => now ≤ u32Max) h (fun h _ => h) (fun _ hn => hn) r

end Chain

namespace RustSdk

-- A tracker that is kept beside a chain, and told of entries that the chain has.
structure Tracking (T : Config) where
  chain   : Chain T
  tracker : RenewalTracker

namespace Tracking

inductive Step (T : Config)
  | chain (a : Action T)
  | track (storageRef : StorageRef)
  | updateAfterRenewal (oldRef newRef : StorageRef)
  | removeByContentHash (contentHash : List UInt8)
  | clear

-- The entry of a reference, as it is read between two blocks.
def entryOf (s : Tracking T) (storageRef : StorageRef) : Option (TransactionInfo T) :=
  if s.chain.inBlock then none else s.chain.state.transactionInfo storageRef.block storageRef.index

-- The entry is of the content that is tracked under a reference.
def renews (s : Tracking T) (oldRef : StorageRef) (info : TransactionInfo T) : Bool :=
  s.tracker.entries.all fun entry => entry.storageRef ≠ oldRef ∨
    entry.contentHash = T.encodeContentHash info.contentHash ∧ entry.size = info.size

def step (s : Tracking T) : Step T → Option (Tracking T)
  | .chain a => (s.chain.step a).map ({ s with chain := · })
  | .track storageRef => do
    let info ← s.entryOf storageRef
    return { s with
      tracker := s.tracker.track storageRef (T.encodeContentHash info.contentHash) info.size
        s.chain.state.retentionPeriod }
  | .updateAfterRenewal oldRef newRef => do
    let info ← s.entryOf newRef
    if s.renews oldRef info then
      return { s with
        tracker := (s.tracker.updateAfterRenewal oldRef newRef s.chain.state.retentionPeriod).2 }
    else
      none
  | .removeByContentHash contentHash =>
    some { s with tracker := (s.tracker.removeByContentHash contentHash).2 }
  | .clear => some { s with tracker := s.tracker.clear }

def fixed (s : Tracking T) : Step T → Bool
  | .chain a => s.chain.fixed a
  | _        => true

-- What a tracked entry says of the chain.
structure Describes (period : Nat) (c : Chain T) (entry : TrackedEntry) (info : TransactionInfo T) :
    Prop where
  tracked     : c.log.Tracked entry.storageRef.block entry.storageRef.index info
  contentHash : entry.contentHash = T.encodeContentHash info.contentHash
  size        : entry.size = info.size
  pos         : 0 < entry.storageRef.block
  le          : entry.storageRef.block ≤ c.state.blockNumber
  expiresAt   : entry.expiresAt = saturatingAdd u32Max entry.storageRef.block period

structure Faithful (period : Nat) (s : Tracking T) : Prop where
  paced   : s.chain.Paced period
  le_max  : s.chain.state.blockNumber ≤ u32Max
  entries : ∀ entry ∈ s.tracker.entries, ∃ info, Describes period s.chain entry info

variable {s s' : Tracking T} {c c' : Chain T} {p : Nat} {entry : TrackedEntry} {info : TransactionInfo T}

theorem Describes.runs {as : List (Action T)} (h : Describes p c entry info) (hp : c.Paced p)
    (r : Runs Chain.step (Chain.fixed · ·) c as c') : Describes p c' entry info where
  tracked     := (Chain.runs_fixed hp h.tracked (fun s t g e => e.tracked s g t) r).left
  contentHash := h.contentHash
  size        := h.size
  pos         := h.pos
  le          := h.le.trans (hp.blockNumber_le r)
  expiresAt   := h.expiresAt

-- An entry that is read from the chain.
theorem Describes.of_entryOf (h : s.chain.Paced p) (he : s.entryOf storageRef = some info) :
    Describes p s.chain ⟨storageRef, T.encodeContentHash info.contentHash, info.size,
      saturatingAdd u32Max storageRef.block s.chain.state.retentionPeriod⟩ info := by
  obtain ⟨hb, he⟩ := Option.ite_none_left_eq_some.mp he
  obtain ⟨es, hes, _⟩ := Ledger.transactionInfo_eq_some.mp he
  have hk : s.chain.log.blocks storageRef.block = some es.val := Ledger.log_blocks_eq_some.mpr ⟨es, hes, rfl⟩
  have ha : s.chain.log.At storageRef.block storageRef.index info := by
    have v := h.log
    rw [Chain.log, eq_false hb] at v ⊢
    exact (Ledger.log_at v).mpr he
  have hp : s.chain.state.retentionPeriod = p := h.period
  exact ⟨.of_at h.log ha, rfl, rfl, h.log.window.pos hk, h.log.window.le hk, by rw [hp]⟩

theorem mem_updateFirst {entries : List TrackedEntry} {oldRef newRef : StorageRef} {x : TrackedEntry}
    (h : x ∈ (RenewalTracker.updateFirst oldRef newRef p entries).2) :
    x ∈ entries ∨ ∃ entry ∈ entries, entry.storageRef = oldRef ∧ x = { entry with
      storageRef := newRef
      expiresAt  := saturatingAdd u32Max newRef.block p } := by
  induction entries
  case nil => exact .inl h
  case cons entry entries hi =>
    simp only [RenewalTracker.updateFirst] at h
    split at h
    case isTrue hr =>
      obtain rfl | h := List.mem_cons.mp h
      case inl =>
        refine .inr ⟨entry, List.mem_cons_self, ?_, rfl⟩
        obtain ⟨⟨_, _⟩, _, _, _⟩ := entry
        obtain ⟨rfl, rfl⟩ := hr
        rfl
      case inr => exact .inl (List.mem_cons_of_mem _ h)
    case isFalse =>
      obtain rfl | h := List.mem_cons.mp h
      case inl => exact .inl List.mem_cons_self
      case inr =>
        obtain h | ⟨y, hy, h⟩ := hi h
        case inl => exact .inl (List.mem_cons_of_mem _ h)
        case inr => exact .inr ⟨y, List.mem_cons_of_mem _ hy, h⟩

theorem Faithful.step {a : Step T} (h : s.Faithful p) (g : s.fixed a) (e : s.step a = some s') :
    s'.Faithful p := by
  cases a
  case chain a =>
    obtain ⟨c', hc, rfl⟩ := Option.map_eq_some_iff.mp e
    have r : Runs Chain.step (Chain.fixed · ·) s.chain [a] c' := .cons g hc .nil
    refine ⟨(Chain.runs_fixed (I := fun _ => True) h.paced trivial (fun _ _ _ _ => trivial) r).right,
      Chain.runs_blockNumber_le_max h.le_max r, fun entry he => ?_⟩
    obtain ⟨info, hd⟩ := h.entries entry he
    exact ⟨info, hd.runs h.paced r⟩
  case track storageRef =>
    obtain ⟨info, hi, e⟩ := Option.bind_eq_some_iff.mp e
    cases e
    refine ⟨h.paced, h.le_max, fun entry he => ?_⟩
    obtain he | he := List.mem_append.mp he
    case inl => exact h.entries entry he
    case inr =>
      cases List.mem_singleton.mp he
      exact ⟨info, .of_entryOf h.paced hi⟩
  case updateAfterRenewal oldRef newRef =>
    obtain ⟨info, hi, e⟩ := Option.bind_eq_some_iff.mp e
    obtain ⟨hr, e⟩ := Option.ite_none_right_eq_some.mp e
    cases e
    refine ⟨h.paced, h.le_max, fun x hx => ?_⟩
    obtain hx | ⟨entry, he, ho, rfl⟩ := mem_updateFirst hx
    case inl => exact h.entries x hx
    case inr =>
      have hd := Describes.of_entryOf h.paced hi
      have hr := of_decide_eq_true (List.all_eq_true.mp hr entry he)
      obtain ⟨hh, hz⟩ := hr.resolve_left (not_not_intro ho)
      rw [← hh, ← hz] at hd
      exact ⟨info, hd⟩
  case removeByContentHash contentHash =>
    cases e
    exact ⟨h.paced, h.le_max, fun entry he => h.entries entry (List.mem_of_mem_filter he)⟩
  case clear =>
    cases e
    exact ⟨h.paced, h.le_max, fun entry he => absurd he List.not_mem_nil⟩

end Tracking

-- The tracker in use, however its calls are interleaved with the blocks of the chain. What is reported to
-- expire before a block is exactly what can not be renewed any more in the next one, so that it comes
-- too late if it is asked for the current block. What is not reported is still the tracked content then.
theorem tracker_foretells {g : GenesisConfig T} {as : List (Tracking.Step T)} {s : Tracking T}
    {as' : List (Action T)} {c' : Chain T} {m : Nat}
    (h : Runs Tracking.step (Tracking.fixed · ·) ⟨g.chain, .new⟩ as s)
    (r : Runs Chain.step (Chain.fixed · ·) s.chain as' c') (hs : s.chain.state.blockNumber ≤ m)
    (hm : c'.state.blockNumber = m + 1) :
    ∀ entry ∈ s.tracker.entries,
      let entryRef : TransactionRef T := .position entry.storageRef.block entry.storageRef.index
      (∀ client : BulletinClient, client.prepareRenew entry.storageRef = ok ⟨entry.storageRef⟩) ∧
      (entry ∈ s.tracker.expiringBefore m ↔ c'.state.resolveTransactionRef entryRef = none) ∧
      ∀ info, c'.state.resolveTransactionRef entryRef = some info →
        entry.contentHash = T.encodeContentHash info.contentHash ∧ entry.size = info.size := by
  have hg : g.chain.ledger.blockNumber ≤ u32Max := by
    rw [g.chain_ledger]
    exact Nat.zero_le _
  have hp : (⟨g.chain, .new⟩ : Tracking T).Faithful g.retentionPeriod :=
    ⟨Chain.paced_of_runs .nil, hg, fun entry he => absurd he List.not_mem_nil⟩
  have hf := h.invariant (Tracking.Faithful g.retentionPeriod) hp fun h g e => h.step g e
  have hn := Chain.runs_blockNumber_le_max hf.le_max r
  intro entry he entryRef
  obtain ⟨info, hd⟩ := hf.entries entry he
  have hp' := (Chain.runs_fixed (I := fun _ => True) hf.paced trivial (fun _ _ _ _ => trivial) r).right
  have ht := hp'.transactionInfo_of_tracked (hd.runs hf.paced r).tracked (by have := hd.le; omega)
  have hx : entry.expiresAt ≤ m ↔ ¬c'.state.blockNumber ≤ entry.storageRef.block + g.retentionPeriod := by
    rw [hd.expiresAt, saturatingAdd]
    omega
  have hv : RenewalOperation.validate ⟨entry.storageRef⟩ = ok () := ensure_eq_ok.mpr hd.pos.ne'
  refine ⟨fun client => bind_eq_ok.mpr ⟨(), hv, rfl⟩, ?_, fun info' hi => ?_⟩
  · rw [RenewalTracker.expiringBefore, List.mem_filter, decide_eq_true_eq, and_iff_right he, hx,
      Ledger.resolveTransactionRef, ht]
    simp
  · rw [Ledger.resolveTransactionRef, ht] at hi
    obtain ⟨_, hi⟩ := Option.ite_none_right_eq_some.mp hi
    cases hi
    exact ⟨hd.contentHash, hd.size⟩

-- The three bytes that account 7 stores in block 1 are tracked, and can still be renewed in block 2.
theorem tracker_foretells_storing :
    let g : GenesisConfig .mock := ⟨3, [], [((7 : Nat), 2, 3)], []⟩
    let call : TransactionStorage.Call .mock := .store ⟨[1, 2, 3], by decide⟩
    let as : List (Tracking.Step .mock) := [
      .chain (.onInitialize [] 0),
      .chain (.extrinsic (.signed (7 : Nat) (.transactionStorage call))),
      .chain .onFinalize,
      .track ⟨1, 0⟩]
    ∃ s c' entry, Runs Tracking.step (Tracking.fixed · ·) ⟨g.chain, .new⟩ as s ∧
      Runs Chain.step (Chain.fixed · ·) s.chain [.onInitialize [] 0] c' ∧
      s.tracker.entries = [entry] ∧ entry.expiresAt = 4 ∧
      c'.state.resolveTransactionRef (.position 1 0) ≠ none := by
  intro g call as
  obtain ⟨s, h, hn, he⟩ := Runs.exists_of_any Tracking.step Tracking.fixed ⟨g.chain, .new⟩ as
    (fun s => (s.chain.state.blockNumber = 1 ∧
        (Chain.step s.chain (.onInitialize [] 0)).any fun c' => c'.state.blockNumber = 2) ∧
      s.tracker.entries.map (fun entry => (entry.storageRef, entry.expiresAt)) = [(⟨1, 0⟩, 4)])
    (by decide +kernel)
  obtain ⟨c', hc, hm⟩ := (Option.any_eq_true ..).mp hn.right
  obtain ⟨entry, hs, hx⟩ := List.map_eq_singleton_iff.mp he
  have r : Runs Chain.step (Chain.fixed · ·) s.chain [.onInitialize [] 0] c' := .cons rfl hc .nil
  have hf := tracker_foretells h r hn.left.le (of_decide_eq_true hm) entry (by simp [hs])
  obtain ⟨⟨_, _⟩, _, _, _⟩ := entry
  cases hx
  refine ⟨s, c', _, h, r, hs, rfl, fun hr => ?_⟩
  have hb := hf.right.left.mpr hr
  simp [RenewalTracker.expiringBefore] at hb

end RustSdk
end Bulletin
