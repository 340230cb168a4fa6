import BulletinChain.Theorems.Capacity
import BulletinChain.Theorems.Renewals

namespace Bulletin

open Machine

variable {T : Config}

-- The counter keeps up with what is committed, and never exceeds the cap.
structure Ledger.Tallied (R : Nat → Nat → Prop) (size : T.ContentHash → Nat) (l : Ledger T) :
    Prop where
  tally : R (l.committed size) l.permanentStorageUsed
  le    : l.permanentStorageUsed ≤ T.maxPermanentStorageSize

variable {R : Nat → Nat → Prop} {D : Set Content} {size : T.ContentHash → Nat} {l l' : Ledger T}
  {isOpen : Prop} {e info : TransactionInfo T} {item : Pending T} {items : List (Pending T)}
  {contentHash : T.ContentHash} {data : RenewalData T}

theorem Grows.blockNumber {P : TransactionInfo T → Prop} (h : Grows P l l') :
    l'.blockNumber = l.blockNumber := by
  cases h <;> rfl

theorem Pays.committed (h : Pays l data n l₁) : l₁.committed size = l.committed size := by
  cases h <;> rfl

namespace Ledger

-- How the updates of the ledger move what is committed.

theorem committed_appended (h : l.HasRoom) :
    (l.appended e h).committed size = l.committed size + if e.kind.isRenew then e.size else 0 := by
  calc
    (l.appended e h).committed size =
        l.retainedBytes + (renewedBytes l.blockTransactions.val +
          if e.kind.isRenew then e.size else 0) + l.prepaidBytes size :=
      congrArg (l.retainedBytes + · + l.prepaidBytes size) renewedBytes_concat
    _ = l.committed size + if e.kind.isRenew then e.size else 0 := by
      simp only [committed]
      omega

-- The updates of the registrations move the prepaid bytes alone.
theorem committed_accounts (renewals : Finmap fun _ : T.ContentHash => RenewalData T)
    (h : renewals.total (fun hash data => if data.paid then size hash else 0) + n =
      l.prepaidBytes size + m) :
    (l.accounts renewals used).committed size + n = l.committed size + m := by
  have hc : (l.accounts renewals used).committed size = l.retainedBytes +
      renewedBytes l.blockTransactions.val +
        renewals.total (fun hash data => if data.paid then size hash else 0) := rfl
  rw [hc, committed]
  omega

theorem committed_register (hr : l.renewals.lookup contentHash = none) :
    (l.register contentHash data).committed size =
      l.committed size + if data.paid then size contentHash else 0 := by
  refine committed_accounts (n := 0) _ ?_
  rw [Finmap.total_insert_of_none hr, Nat.add_zero, Nat.add_comm]
  rfl

theorem committed_unregister (size : T.ContentHash → Nat)
    (hr : l.renewals.lookup contentHash = some data) :
    (l.unregister contentHash).committed size + (if data.paid then size contentHash else 0) =
      l.committed size := by
  refine committed_accounts (m := 0) _ ?_
  rw [prepaidBytes, Finmap.total_erase hr]
  exact Nat.add_comm ..

theorem committed_settle (size : T.ContentHash → Nat)
    (hr : l.renewals.lookup contentHash = some data) :
    (l.settle contentHash data).committed size + (if data.paid then size contentHash else 0) =
      l.committed size := by
  obtain ⟨account, recurring, paid⟩ := data
  cases recurring
  case false => exact committed_unregister size hr
  case true  =>
    cases paid
    case false => rfl
    case true  =>
      refine committed_accounts (m := 0) _ ?_
      simp only [settled, hr, not_true_eq_false, if_false, if_true]
      exact (Finmap.total_insert_of_some hr).trans (Nat.add_comm ..)

theorem committed_sealBlock (h : l.Holds D) (hn : l.transactions.lookup n = none) :
    (l.sealBlock n).committed size = l.committed size := by
  simp only [sealBlock, h.current.ne_zero_iff]
  split
  case isTrue =>
    simp only [committed, retainedBytes, Finmap.total_insert_of_none hn]
    simp [renewedBytes, prepaidBytes, Nat.add_comm]
  case isFalse he =>
    simp only [committed, not_not.mp he]
    rfl

-- The registered content is of the entry that the registration was charged for.
theorem size_of_resolve (hs : Sizes D size) (h : l.Holds D) (v : (l.log isOpen).Valid contentKey)
    (hr : l.resolveTransactionRef r = some info)
    (hc : contentHash = info.contentHash ∨ r = .contentHash contentHash) :
    size contentHash = info.size := by
  have hi := h.retained (retains_of_resolve hr)
  obtain hc | hc := hc
  · exact hc ▸ hs hi
  · subst hc
    have ⟨(b, i), hx, hb⟩ := Option.bind_eq_some_iff.mp hr
    have ⟨es, hb, he⟩ := transactionInfo_eq_some.mp hb
    have ⟨e, ha, hk⟩ := v.exact.sound hx
    cases v.window.at_unique ha (.inl ⟨es.val, log_blocks_eq_some.mpr ⟨es, hb, rfl⟩, he⟩)
    exact hk ▸ hs hi

namespace Tallied

theorem charge (h : l.Tallied R size) (t : Tallies R) (hr : l.Roomy size) (ha : l.Affords n)
    (hn : n ≤ T.maxTransactionSize) :
    R (l.committed size + n) (l.charge n).permanentStorageUsed :=
  t.saturatingAdd h.tally ha <| hr.imp_right fun hr => (Nat.add_le_add_left hn _).trans hr

theorem effect (h : l.Tallied R size) (t : Tallies R) (hs : Sizes D size) (hh : l.Holds D)
    (v : (l.log isOpen).Valid contentKey) (hr : l.Roomy size) (hf : ¬forces)
    (hd : drops → Downward R) (he : Effect D forces drops l l') :
    l'.Tallied R size := by
  cases he
  case none => exact h
  case stored hk _ =>
    refine ⟨?_, h.le⟩
    rw [committed_appended, hk]
    exact h.tally
  case renewed hi ha _ =>
    refine ⟨?_, ha⟩
    rw [committed_appended]
    exact h.charge t hr ha (hh.retained hi).size_le
  case registered hi hc hn ha =>
    have hi' := hh.retained (retains_of_resolve hi)
    refine ⟨?_, ha⟩
    rw [committed_register (l := l.charge _) hn, if_pos rfl, size_of_resolve hs hh v hi hc]
    exact h.charge t hr ha hi'.size_le
  case unregistered hl hp =>
    have hc := committed_unregister size hl
    refine ⟨?_, h.le⟩
    rw [if_neg hp, Nat.add_zero] at hc
    exact hc ▸ h.tally
  case forced hc _ _ => exact absurd hc hf
  case dropped hc hl =>
    have ht := h.tally
    rw [← committed_unregister size hl] at ht
    exact ⟨hd hc ht, h.le⟩

-- A payment is for one entry more.
theorem pays (h : l.Tallied R size) (t : Tallies R) (hr : l.Roomy size)
    (hn : n ≤ T.maxTransactionSize) (hp : Pays l data n l₁) :
    R (l.committed size + if data.paid then 0 else n) l₁.permanentStorageUsed ∧
      l₁.permanentStorageUsed ≤ T.maxPermanentStorageSize := by
  cases hp
  case prepaid hp    => exact ⟨by rw [if_pos hp]; exact h.tally, h.le⟩
  case charged hp ha => exact ⟨by rw [if_neg hp]; exact h.charge t hr ha hn, ha⟩

theorem served (h : l.Tallied R size) (t : Tallies R) (hs : Sizes D size) (hr : l.Roomy size)
    (hi : item.2.1.IsOf D) (p : l.Pended (item :: items)) (hd : Served l item l') :
    l'.Tallied R size := by
  have hq := p.queued item List.mem_cons_self
  have hn := p.named item List.mem_cons_self
  obtain ⟨contentHash, info, data⟩ := item
  cases hd
  case delivered l₁ x hx hp =>
    have ⟨ht, hle⟩ := h.pays t hr hi.size_le hp
    have hn : info.contentHash = contentHash := hn
    subst hn
    have hi : size info.contentHash = info.size := hs hi
    have hq : (l₁.appended (info.renewal x) hx).renewals.lookup info.contentHash = some data :=
      (congrArg _ hp.renewals_eq).trans hq
    have hk : (info.renewal x).kind.isRenew := rfl
    have hc := committed_settle size hq
    rw [committed_appended, hp.committed, if_pos hk, hi] at hc
    refine ⟨?_, hle⟩
    by_cases hd : data.paid
    · rw [if_pos hd] at hc ht
      exact Nat.add_right_cancel hc ▸ ht
    · rw [if_neg hd] at hc ht
      exact (Nat.add_zero _ ▸ hc) ▸ ht
  case failed hp =>
    have hc := committed_unregister size hq
    refine ⟨?_, h.le⟩
    rw [if_neg hp, Nat.add_zero] at hc
    exact hc ▸ h.tally
  case overflowed hl =>
    have hr := p.room
    simp only [List.length_cons] at hr
    omega

-- The bytes of the obsolete block are released. They were all counted, so nothing else is.
theorem opened (h : l.Tallied R size) (t : Tallies R) (ho : Opened l l') : l'.Tallied R size := by
  cases ho
  case kept => exact ⟨h.tally, h.le⟩
  case swept es _ _ _ _ he _ _ =>
    let rest := (l.transactions.erase l.obsolete).total (fun _ es => renewedBytes es.val) +
      renewedBytes l.blockTransactions.val + l.prepaidBytes size
    have hc : l.committed size = rest + renewedBytes es.val := by
      have hr : l.retainedBytes = renewedBytes es.val + _ := Finmap.total_erase he
      simp only [committed, hr, rest]
      omega
    have ht : R (rest + renewedBytes es.val) l.permanentStorageUsed := hc ▸ h.tally
    have hu : min (renewedBytes es.val) u64Max = renewedBytes es.val := by
      have hle := t.le ht
      have hm := h.le.trans T.maxPermanentStorageSize_le
      omega
    refine ⟨?_, (Nat.sub_le ..).trans h.le⟩
    rw [hu]
    exact t.sub ht

theorem sealBlock (h : l.Tallied R size) (hh : l.Holds D) (hn : l.transactions.lookup n = none) :
    (l.sealBlock n).Tallied R size := by
  have hu : (l.sealBlock n).permanentStorageUsed = l.permanentStorageUsed := by
    simp only [Ledger.sealBlock]
    split <;> rfl
  exact ⟨by rw [committed_sealBlock hh hn, hu]; exact h.tally, hu ▸ h.le⟩

end Tallied

-- A ledger that serves its pending renewals.
structure Draining (R : Nat → Nat → Prop) (D : Set Content) (size : T.ContentHash → Nat)
    (items : List (Pending T)) (l : Ledger T) : Prop where
  holds   : l.Holds D
  log     : (l.log True).Valid contentKey
  pended  : l.Pended items
  isOf    : ∀ item ∈ items, item.2.1.IsOf D
  number  : l.blockNumber ≤ maxBlockNumber
  tallied : l.Tallied R size

theorem Draining.served (d : l.Draining R D size (item :: items)) (hT : Countable T) (t : Tallies R)
    (hs : Sizes D size) (h : Served l item l') : l'.Draining R D size items where
  holds   := d.holds.grows <| h.grows.mono fun _ ⟨_, he⟩ =>
    he ▸ (d.isOf item List.mem_cons_self).renewal
  log     := d.log.steps (h.grows.steps trivial)
  pended  := d.pended.served h
  isOf    := fun i hi => d.isOf i (List.mem_cons_of_mem _ hi)
  number  := h.grows.blockNumber ▸ d.number
  tallied := d.tallied.served t hs (d.pended.roomy hT d.holds d.log d.isOf hs d.number)
    (d.isOf item List.mem_cons_self) d.pended h

theorem Draining.serves (d : l.Draining R D size items) (hT : Countable T) (t : Tallies R)
    (hs : Sizes D size) (h : Serves l items l') : l'.Tallied R size := by
  induction h
  case nil         => exact d.tallied
  case cons h _ hi => exact hi (d.served hT t hs h)

end Ledger

theorem Serves.blockNumber (h : Serves l items l') : l'.blockNumber = l.blockNumber := by
  induction h
  case nil         => rfl
  case cons h _ hi => exact hi.trans h.grows.blockNumber

theorem Opened.blockNumber (h : Opened l l') : l'.blockNumber = l.blockNumber + 1 := by
  cases h <;> rfl

theorem Ledger.sealBlock_blockNumber : (l.sealBlock n).blockNumber = l.blockNumber := by
  simp only [sealBlock]
  split <;> rfl

namespace Chain

variable {c c' : Chain T} {a : Action T}

-- What holds of every chain that charges for its renewals.
structure Counted (R : Nat → Nat → Prop) (D : Set Content) (size : T.ContentHash → Nat) (c : Chain T) :
    Prop extends c.Tidy D where
  number  : c.ledger.blockNumber ≤ maxBlockNumber
  tallied : c.ledger.Tallied R size

theorem Evolves.blockNumber_le (e : Evolves D c a c') (h : c.ledger.blockNumber ≤ maxBlockNumber) :
    c'.ledger.blockNumber ≤ maxBlockNumber := by
  obtain ⟨_, _, ho, hm⟩ | ⟨_, hl⟩ | ⟨_, _, _, he⟩ | ⟨_, _, _, hs⟩ | ⟨_, hl⟩ | ⟨_, _, _, hl⟩ := e
  case opened   => exact ho.blockNumber ▸ hm
  case idle     => exact hl ▸ h
  case called   => exact he.grows.blockNumber ▸ h
  case drained  => exact hs.blockNumber ▸ h
  case extended => exact hl ▸ h
  case sealed   => rw [hl, Ledger.sealBlock_blockNumber]; exact h

theorem Evolves.tallied (e : Evolves D c a c') (k : c.Counted R D size) (hT : Countable T)
    (t : Tallies R) (hs : Sizes D size) (hf : ¬a.forcesRenew)
    (hd : a.dropsPaid c.ledger → Downward R) : c'.ledger.Tallied R size := by
  obtain ⟨_, _, ho⟩ | ⟨_, hl⟩ | ⟨_, _, _, he⟩ | ⟨hb, _, _, hd⟩ | ⟨_, hl⟩ | ⟨hb, _, _, hl⟩ := e
  case opened => exact k.tallied.opened t ho
  case idle   => exact hl ▸ k.tallied
  case called =>
    have hr := k.pended.roomy hT k.holds k.log k.holds.pending hs k.number
    exact k.tallied.effect t hs k.holds k.log hr hf hd he
  case drained =>
    have v := k.log
    rw [log, eq_true hb] at v
    have d : c.ledger.taken.Draining R D size c.ledger.pendingRenewals.val :=
      ⟨k.holds.taken, v, k.pended.taken, k.holds.pending, k.number, ⟨k.tallied.tally, k.tallied.le⟩⟩
    exact d.serves hT t hs hd
  case extended => exact hl ▸ ⟨k.tallied.tally, k.tallied.le⟩
  case sealed   =>
    have hn := k.log.window.isOpen hb
    exact hl ▸ k.tallied.sealBlock k.holds (Option.map_eq_none_iff.mp hn)

theorem Evolves.counted (e : Evolves D c a c') (k : c.Counted R D size) (hT : Countable T)
    (t : Tallies R) (hs : Sizes D size) (g : c.orderly a) (hf : ¬a.forcesRenew)
    (hd : a.dropsPaid c.ledger → Downward R) : c'.Counted R D size :=
  ⟨e.tidy k.toTidy g, e.blockNumber_le k.number, e.tallied k hT t hs hf hd⟩

-- Every renewal is charged for.
def charging (c : Chain T) (a : Action T) : Bool :=
  c.orderly a && !a.forcesRenew

-- And what was charged for is delivered.
def conserving (c : Chain T) (a : Action T) : Bool :=
  c.charging a && !a.dropsPaid c.ledger

end Chain

theorem GenesisConfig.chain_counted (g : GenesisConfig T) (t : Tallies R) :
    g.chain.Counted R D size := by
  refine ⟨g.chain_tidy, ?_, ?_⟩ <;> rw [g.chain_ledger]
  · exact Nat.zero_le _
  · exact ⟨t.zero, Nat.zero_le _⟩

namespace Chain

theorem counted_of_runs {g : GenesisConfig T} {as : List (Action T)} {c : Chain T} (hT : Countable T)
    (t : Tallies R) (hs : Sizes (contents as) size)
    (h : Runs step (fun c a => c.charging a ∧ (a.dropsPaid c.ledger → Downward R)) g.chain as c) :
    c.Counted R (contents as) size := by
  have h : Runs step (fun c a => (c.charging a ∧ (a.dropsPaid c.ledger → Downward R)) ∧
      ∀ x ∈ a.content, x ∈ contents as) g.chain as c :=
    h.mem.mono fun g => ⟨g.left, fun x hx => ⟨_, g.right, hx⟩⟩
  refine (runs_invariant g.chain_ready (g.chain_counted t) (fun k ⟨g, hd⟩ e => ?_) h).left
  have ⟨g, hf⟩ := Bool.and_eq_true_iff.mp g
  exact e.counted k hT t hs g (by simpa using hf) hd

end Chain

-- The exact account of permanent bytes at the end of every block, as long as Root neither renews nor
-- drops a paid registration: those of the retained renewed entries, and those of the latest copies
-- whose renewal is paid for.
theorem permanent_storage_exact {g : GenesisConfig T} {as : List (Action T)} {c : Chain T}
    (hT : Countable T) (hD : CollisionFree T (contents as))
    (h : Runs Chain.step (Chain.conserving · ·) g.chain as c) (hb : ¬c.inBlock) :
    let entry hash := c.state.resolveTransactionRef (.contentHash hash)
    c.state.permanentStorageUsed =
      c.state.transactions.total (fun _ es => renewedBytes es.val) +
      c.state.renewals.total (fun hash data => if data.paid then (entry hash).elim 0 (·.size) else 0) ∧
    (∀ hash data, c.state.renewals.lookup hash = some data → data.paid → (entry hash).isSome) ∧
    c.state.permanentStorageUsed ≤ T.maxPermanentStorageSize := by
  intro entry
  obtain ⟨size, hs⟩ := hD.exists_sizes
  have h : Runs Chain.step (fun c a => c.charging a ∧ (a.dropsPaid c.ledger → Downward (· = ·)))
      g.chain as c := h.mono fun g => by
    obtain ⟨g, hd⟩ := Bool.and_eq_true_iff.mp g
    exact ⟨g, fun hc => by simp [hc] at hd⟩
  have k := Chain.counted_of_runs hT .eq hs h
  have he {hash data} (hr : c.state.renewals.lookup hash = some data) :
      ∃ e, entry hash = some e ∧ size hash = e.size := by
    obtain ⟨b, i, e, hx, hi, hk⟩ := k.retained hb hr
    refine ⟨e, Option.bind_eq_some_iff.mpr ⟨(b, i), hx, hi⟩, ?_⟩
    exact hk ▸ hs (k.holds.retained ⟨b, i, hi⟩)
  refine ⟨?_, fun hash data hr _ => ?_, k.tallied.le⟩
  · have hc : c.ledger.blockTransactions.val = [] := k.log.window.closed hb
    calc
      c.state.permanentStorageUsed = c.ledger.committed size := k.tallied.tally.symm
      _ = c.ledger.retainedBytes + c.ledger.prepaidBytes size := by
        rw [Ledger.committed, hc]
        rfl
      _ = _ := by
        refine congrArg (c.ledger.retainedBytes + ·) (Finmap.total_congr fun hash data hr => ?_)
        obtain ⟨e, he, hs⟩ := he hr
        rw [he, hs]
        rfl
  · obtain ⟨e, he, _⟩ := he hr
    exact Option.isSome_of_eq_some he

theorem CollisionFree.mock : CollisionFree .mock D := by
  intro ⟨⟨_, _⟩, _⟩ _ ⟨⟨_, _⟩, _⟩ _ h
  cases h
  rfl

theorem permanent_storage_exact_registered :
    let g : GenesisConfig .mock := ⟨3, [], [(renter, 10, 100)], []⟩
    ∃ c, Runs Chain.step (Chain.conserving · ·) g.chain registered c ∧ ¬c.inBlock ∧
      c.state.permanentStorageUsed = 3 ∧
      c.state.permanentStorageUsed =
        c.state.transactions.total (fun _ es => renewedBytes es.val) +
        c.state.renewals.total (fun hash data => if data.paid then
          (c.state.resolveTransactionRef (.contentHash hash)).elim 0 (·.size) else 0) := by
  intro g
  have ⟨c, hr, hb, hu⟩ := Runs.exists_of_any Chain.step Chain.conserving g.chain registered
    (fun c => ¬c.inBlock ∧ c.state.permanentStorageUsed = 3) (by decide +kernel)
  exact ⟨c, hr, hb, hu, (permanent_storage_exact (.inl (by decide)) .mock hr hb).left⟩

-- The renewed bytes that are retained never exceed the counter, nor the counter its cap, when Root
-- does not renew.
theorem renewed_bytes_capped {g : GenesisConfig T} {as : List (Action T)} {c : Chain T}
    (hT : Countable T) (hD : CollisionFree T (contents as))
    (h : Runs Chain.step (Chain.charging · ·) g.chain as c) :
    c.state.transactions.total (fun _ es => renewedBytes es.val) ≤ c.state.permanentStorageUsed ∧
      c.state.permanentStorageUsed ≤ T.maxPermanentStorageSize := by
  have ⟨size, hs⟩ := hD.exists_sizes
  have h : Runs Chain.step (fun c a => c.charging a ∧ (a.dropsPaid c.ledger → Downward (· ≤ ·)))
      g.chain as c := h.mono fun g => ⟨g, fun _ => (Nat.le_add_right ..).trans⟩
  have k := Chain.counted_of_runs hT .ge hs h
  refine ⟨?_, k.tallied.le⟩
  calc
    c.ledger.retainedBytes ≤ c.ledger.committed size := by
      rw [Ledger.committed, Nat.add_assoc]
      exact Nat.le_add_right ..
    _ ≤ c.ledger.permanentStorageUsed := k.tallied.tally

theorem renewed_bytes_capped_registered :
    let g : GenesisConfig .mock := ⟨3, [], [(renter, 10, 100)], []⟩
    ∃ c, Runs Chain.step (Chain.charging · ·) g.chain registered c ∧ ¬c.inBlock ∧
      c.state.transactions.total (fun _ es => renewedBytes es.val) ≤ c.state.permanentStorageUsed := by
  intro g
  have ⟨c, hr, hb⟩ := Runs.exists_of_any Chain.step Chain.charging g.chain registered
    (fun c => ¬c.inBlock) (by decide +kernel)
  exact ⟨c, hr, hb, (renewed_bytes_capped (.inl (by decide)) .mock hr).left⟩

-- The renewal by Root is not counted.
theorem renewed_bytes_uncounted :
    let g : GenesisConfig .mock := ⟨3, [], [], []⟩
    1 ≤ g.retentionPeriod ∧ CollisionFree .mock (contents copies) ∧
    ∃ c, Runs Chain.step (Chain.orderly · ·) g.chain copies c ∧ ¬c.inBlock ∧
      c.state.transactions.total (fun _ es => renewedBytes es.val) = 3 ∧
      c.state.permanentStorageUsed = 0 := by
  intro g
  have ⟨c, hr, h⟩ := Runs.exists_of_any Chain.step Chain.orderly g.chain copies
    (fun c => ¬c.inBlock ∧ c.state.transactions.total (fun _ es => renewedBytes es.val) = 3 ∧
      c.state.permanentStorageUsed = 0) (by decide +kernel)
  exact ⟨by decide, .mock, c, hr, h⟩

end Bulletin
