import BulletinChain.DataRenewal.TryState
import BulletinChain.Theorems.Access
import BulletinChain.Theorems.Accounting
import BulletinChain.Theorems.Window

namespace Bulletin

open Machine Except

variable {T : Config} {D : Set Content} {es xs pre : List (TransactionInfo T)} {s : State T}
  {c c' : Chain T} {a : Action T}

namespace TransactionStorage

-- The count of a suffix, after that of what comes before it.
theorem foldlM_countChunks (h : Listed D es) (he : es = pre ++ xs) :
    xs.foldlM countChunks (min (chunksBefore es pre.length) u32Max) =
      ok (min (chunksBefore es es.length) u32Max) := by
  induction xs generalizing pre
  case nil => simp [he]; rfl
  case cons e xs hi =>
    have hp : es[pre.length]? = some e := by simp [he]
    have hs := chunksBefore_succ hp
    have hn : saturatingAdd u32Max (min (chunksBefore es pre.length) u32Max) (numChunks e.size) =
        min (chunksBefore es (pre.length + 1)) u32Max := by
      simp only [saturatingAdd, hs]
      omega
    have hc : countChunks (min (chunksBefore es pre.length) u32Max) e =
        ok (min (chunksBefore es (pre.length + 1)) u32Max) := by
      simp only [countChunks, hn, h.counted hp, ensure, if_true, ok_bind]
      rfl
    rw [List.foldlM_cons, hc, ok_bind]
    have hx : es = (pre ++ [e]) ++ xs := by simp [he]
    simpa using hi hx

theorem foldlM_countChunks_eq (h : Listed D es) : es.foldlM countChunks 0 = ok (totalChunks es) := by
  have he : es = [] ++ es := rfl
  have hc := foldlM_countChunks h he
  rw [h.totalChunks]
  simpa [chunksBefore] using hc

theorem checkTransactionsIntegrity_of_holds (h : s.toLedger.Holds D)
    (transactions : s.transactions.Iteration) :
    checkTransactionsIntegrity transactions.items = ok () := by
  refine forM_eq_ok.mpr fun item hi => ?_
  rw [foldlM_countChunks_eq (h.sealed (transactions.lookup_of_mem hi)), ok_bind]
  exact ensure_eq_ok.mpr rfl

theorem checkNoStaleTransactions_of_valid (v : (s.toLedger.log isOpen).Valid contentKey)
    (transactions : s.transactions.Iteration) :
    checkNoStaleTransactions s.retentionPeriod s.blockNumber transactions.items = ok () := by
  refine forM_eq_ok.mpr fun item hi => ?_
  have hb : (s.toLedger.log isOpen).blocks item.1 = some item.2.val :=
    Ledger.log_blocks_eq_some.mpr ⟨_, transactions.lookup_of_mem hi, rfl⟩
  have hk := v.window.kept hb
  exact bind_eq_ok.mpr ⟨(), ensure_eq_ok.mpr (Nat.sub_le_of_le_add hk),
    ensure_eq_ok.mpr (v.window.le hb)⟩

end TransactionStorage

-- Every authorization has a cap.
def Access.Capped (g : Access T) : Prop :=
  ∀ scope a, g.authorizations.lookup scope = some a → 0 < a.extent.bytesAllowance

namespace Access.Capped

variable {g g' : Access T} {scope : AuthorizationScope T} {b : Authorization}

theorem write (h : g.Capped) (hb : 0 < b.extent.bytesAllowance) : (g.write scope b).Capped := by
  intro scope' a ha
  rw [write_lookup] at ha
  split at ha
  case isTrue  => exact Option.some.inj ha ▸ hb
  case isFalse => exact h scope' a ha

theorem put (h : g.Capped) (hb : 0 < b.extent.bytesAllowance) : (g.put scope b).Capped := by
  intro scope' a ha
  rw [put_lookup] at ha
  split at ha
  case isTrue  => exact Option.some.inj ha ▸ hb
  case isFalse => exact h scope' a ha

theorem raised (scope : AuthorizationScope T) (hb : 0 < bytes) (e : AuthorizationExtent) :
    0 < (e.raised scope transactions bytes).bytesAllowance := by
  cases scope
  case account  => exact saturatingAdd_pos (by decide) hb
  case preimage => exact hb

theorem does (h : g.Capped) (hd : Deed.Does now g d g') : g'.Capped := by
  have ha {scope a} (hl : g.active now scope = some a) : 0 < a.extent.bytesAllowance :=
    h scope a (active_eq_some.mp hl).left
  have hc {g₁ : Access T} {transactions bytes issuer}
      (hg : g.debited transactions bytes issuer = some g₁) : g₁.Capped :=
    fun scope a hl => h scope a (debited_authorizations hg ▸ hl)
  cases hd
  case stored a _ hl =>
    have hl := ha hl
    exact h.write hl
  case renewed a _ hl _ =>
    have hl := ha hl
    exact h.write hl
  case opened hi hg hb hn => exact (hc hg).put hb
  case added scope a hi hg hb hl => exact (hc hg).write (raised scope hb _)
  case refreshed hl =>
    have hl := h _ _ hl
    exact h.write hl
  case removed hl hx =>
    intro scope a ha
    rw [remove_lookup] at ha
    split at ha
    case isTrue  => contradiction
    case isFalse => exact h scope a ha
  case registered who b hx =>
    intro scope a ha
    refine h scope a ?_
    simp only [Access.register] at ha
    split at ha <;> exact ha
  case unregistered => exact h

end Access.Capped

namespace GenesisConfig

-- The build does not check what it is given.
structure Positive (g : GenesisConfig T) : Prop where
  period    : 0 < g.retentionPeriod
  accounts  : ∀ x ∈ g.accountAuthorizations, 0 < x.2.2
  preimages : ∀ x ∈ g.preimageAuthorizations, 0 < x.2

theorem Positive.build_capped {g : GenesisConfig T} (h : g.Positive) : g.build.access.Capped := by
  have h₀ : (empty g.retentionPeriod : State T).access.Capped := fun _ _ h => by contradiction
  have h₁ := foldl_access (I := Access.Capped) buildAccount g.accountAuthorizations
    (fun _ x hx hc => hc.write (h.accounts x hx)) h₀
  have h₂ := foldl_access (I := Access.Capped) buildPreimage g.preimageAuthorizations
    (fun _ x hx hc => hc.write (h.preimages x hx)) h₁
  refine foldl_access (I := Access.Capped) buildAuthorizer g.allowedAuthorizers (fun s x _ h => ?_) h₂
  rw [buildAuthorizer_access, Access.register]
  split <;> exact h

end GenesisConfig

-- The counter never exceeds the cap, whoever renews and whatever is dropped.

namespace Ledger

def WithinCap (l : Ledger T) : Prop :=
  l.permanentStorageUsed ≤ T.maxPermanentStorageSize

variable {l l' : Ledger T}

theorem WithinCap.effect (h : l.WithinCap) (he : Effect D forces drops l l') : l'.WithinCap := by
  cases he
  case renewed ha _    => exact ha
  case registered ha   => exact ha
  all_goals exact h

theorem WithinCap.pays (h : l.WithinCap) (hp : Pays l data size l') : l'.WithinCap := by
  cases hp
  case prepaid      => exact h
  case charged _ ha => exact ha

theorem WithinCap.served (h : l.WithinCap) (hs : Served l item l') : l'.WithinCap := by
  cases hs
  case delivered hp _  =>
    have hp := h.pays hp
    exact hp
  case failed          => exact h
  case overflowed hp _ => exact (Nat.sub_le ..).trans (h.pays hp)

theorem WithinCap.serves (h : l.WithinCap) (hs : Serves l items l') : l'.WithinCap := by
  induction hs
  case nil          => exact h
  case cons hs _ hi => exact hi (h.served hs)

theorem WithinCap.opened (h : l.WithinCap) (ho : Opened l l') : l'.WithinCap := by
  cases ho
  case kept  => exact h
  case swept => exact (Nat.sub_le ..).trans h

theorem WithinCap.sealBlock (h : l.WithinCap) : (l.sealBlock n).WithinCap := by
  simp only [Ledger.sealBlock]
  split <;> exact h

end Ledger

namespace Chain

theorem capped_of_runs {guard : Chain T → Action T → Prop} {g : GenesisConfig T} (hg : g.Positive)
    {as : List (Action T)} (h : Runs step guard g.chain as c) : c.state.access.Capped :=
  runs_history (I := fun _ g _ => g.Capped) hg.build_capped (fun h hd => h.does hd) (fun h _ => h) h

theorem Evolves.retentionPeriod_pos (e : Evolves D c a c') (g : c.steady a)
    (h : 0 < c.ledger.retentionPeriod) : 0 < c'.ledger.retentionPeriod := by
  cases a
  case setRetentionPeriod period =>
    have hp : c.ledger.retentionPeriod ≤ period := of_decide_eq_true g
    cases e
    case idle hl             => exact hl ▸ h
    case extended hl         => rw [hl]; exact h.trans_le hp
    case called | drained    => contradiction
  all_goals
    rw [e.retentionPeriod rfl]
    exact h

theorem Evolves.withinCap (e : Evolves D c a c') (h : c.ledger.WithinCap) : c'.ledger.WithinCap := by
  obtain ⟨_, _, ho, _⟩ | ⟨_, hl⟩ | ⟨_, _, _, he⟩ | ⟨_, _, _, hs⟩ | ⟨_, hl⟩ | ⟨_, _, _, hl⟩ := e
  case opened   => exact h.opened ho
  case idle     => exact hl ▸ h
  case called   => exact h.effect he
  case drained  => exact Ledger.WithinCap.serves (l := c.ledger.taken) h hs
  case extended => exact hl ▸ h
  case sealed   => exact hl ▸ h.sealBlock

end Chain

-- The checks of the storage pallet pass at every point of every run whose genesis grants something
-- with each authorization, and whose retention period never gets shorter.
theorem storage_try_state {g : GenesisConfig T} {as : List (Action T)} {c : Chain T} (hg : g.Positive)
    (h : Runs Chain.step (Chain.steady · ·) g.chain as c) (transactions : c.state.transactions.Iteration)
    (authorizations : c.state.authorizations.Iteration) :
    TransactionStorage.doTryState c.state transactions authorizations c.state.blockNumber = ok () := by
  have hs := Chain.sound_of_steady h
  have hp : 0 < c.ledger.retentionPeriod := by
    have h : Runs Chain.step (fun c a => c.steady a ∧ ∀ x ∈ a.content, x ∈ Set.univ) g.chain as c :=
      h.mono fun g => ⟨g, fun _ _ => trivial⟩
    refine (Chain.runs_invariant (I := fun c => 0 < c.ledger.retentionPeriod) g.chain_ready ?_
      (fun hp g e => e.retentionPeriod_pos g hp) h).left
    rw [g.chain_ledger]
    exact hg.period
  have hc := Chain.capped_of_runs hg h
  simp only [TransactionStorage.doTryState, bind_eq_ok, ensure_eq_ok]
  refine ⟨(), Nat.ne_of_gt hp, (), TransactionStorage.checkTransactionsIntegrity_of_holds hs.holds _,
    (), TransactionStorage.checkNoStaleTransactions_of_valid hs.log _, ?_⟩
  exact forM_eq_ok.mpr fun item hi => ensure_eq_ok.mpr (hc _ _ (authorizations.lookup_of_mem hi))

theorem storage_try_state_granting :
    let g : GenesisConfig .mock := ⟨3, [], [((7 : Nat), 1, 10)], []⟩
    ∃ c, Runs Chain.step (Chain.steady · ·) g.chain copies c ∧ c.state.blockNumber = 2 ∧
      ∀ (transactions : c.state.transactions.Iteration)
        (authorizations : c.state.authorizations.Iteration),
        TransactionStorage.doTryState c.state transactions authorizations 2 = ok () := by
  intro g
  have ⟨c, hr, hn⟩ := Runs.exists_of_any Chain.step Chain.steady g.chain copies
    (fun c => c.state.blockNumber = 2) (by decide +kernel)
  have hg : g.Positive := ⟨by decide, by decide, by decide⟩
  exact ⟨c, hr, hn, fun t u => hn ▸ storage_try_state hg hr t u⟩

namespace DataRenewal

theorem foldl_renewedSum (items : List (Σ _ : Nat, Entries T)) (h : acc ≤ u64Max) :
    items.foldl (fun acc item => (item.2.val.filter (·.kind.isRenew)).foldl
        (fun inner t => saturatingAdd u64Max inner t.size) acc) acc =
      min (acc + (items.map fun item => renewedBytes item.2.val).sum) u64Max := by
  induction items generalizing acc
  case nil => simp [h]
  case cons item items hi =>
    have hf := foldl_saturatingAdd (fun t : TransactionInfo T => t.size)
      (item.2.val.filter (·.kind.isRenew)) h
    rw [List.foldl_cons, hf, hi (Nat.min_le_right ..), List.map_cons, List.sum_cons]
    simp only [renewedBytes]
    omega

theorem renewedSum_eq (transactions : s.transactions.Iteration) :
    renewedSum transactions.items =
      min (s.transactions.total fun _ es => renewedBytes es.val) u64Max := by
  rw [renewedSum, foldl_renewedSum _ (Nat.zero_le _), Nat.zero_add,
    transactions.sum_items (f := fun _ es => renewedBytes es.val)]

-- The size of the latest copy of a content.
def latestSize (s : State T) (hash : T.ContentHash) : Nat :=
  (s.resolveTransactionRef (.contentHash hash)).elim 0 (·.size)

theorem addPrepaid_eq (h : item.2.paid → (s.resolveTransactionRef (.contentHash item.1)).isSome) :
    addPrepaid s acc item =
      ok (if item.2.paid then saturatingAdd u64Max acc (latestSize s item.1) else acc) := by
  by_cases hp : item.2.paid
  case neg => simp [addPrepaid, hp, pure, Except.pure]
  case pos =>
    obtain ⟨info, hi⟩ := Option.isSome_iff_exists.mp (h hp)
    obtain ⟨⟨b, i⟩, hx, he⟩ := Option.bind_eq_some_iff.mp hi
    have hx : s.lookupByContentHash item.1 = some (b, i) := hx
    have he : s.transactionInfo b i = some info := he
    simp only [addPrepaid, hp, not_true_eq_false, if_false, if_true, hx, he, okOr, Option.elim_some,
      ok_bind, latestSize, hi]
    rfl

theorem foldlM_addPrepaid (renewals : s.renewals.Iteration)
    (h : ∀ hash data, s.renewals.lookup hash = some data → data.paid →
      (s.resolveTransactionRef (.contentHash hash)).isSome) :
    renewals.items.foldlM (addPrepaid s) 0 =
      ok (min (s.renewals.total fun hash data => if data.paid then latestSize s hash else 0) u64Max) := by
  rw [foldlM_eq_ok fun acc item hi => addPrepaid_eq (h _ _ (renewals.lookup_of_mem hi)),
    foldl_saturatingAdd_ite (fun item : Σ _ : T.ContentHash, RenewalData T => latestSize s item.1)
      (·.2.paid) _ (Nat.zero_le _), Nat.zero_add,
    renewals.sum_items (f := fun hash data => if data.paid then latestSize s hash else 0)]

end DataRenewal

-- Between blocks the committed bytes are those that the checks add up.
theorem Chain.Counted.committed_eq (k : c.Counted R D size) (hs : Sizes D size) (hb : ¬c.inBlock) :
    c.ledger.committed size =
      (c.state.transactions.total fun _ es => renewedBytes es.val) +
      c.state.renewals.total fun hash data =>
        if data.paid then DataRenewal.latestSize c.state hash else 0 := by
  have hc : c.ledger.blockTransactions.val = [] := k.log.window.closed hb
  have hp : c.ledger.prepaidBytes size = c.state.renewals.total fun hash data =>
      if data.paid then DataRenewal.latestSize c.state hash else 0 := by
    refine Finmap.total_congr fun hash data hr => ?_
    obtain ⟨b, i, e, hx, hi, hk⟩ := k.retained hb hr
    have he : c.state.resolveTransactionRef (.contentHash hash) = some e :=
      Option.bind_eq_some_iff.mpr ⟨(b, i), hx, hi⟩
    have hz : size hash = e.size := hk ▸ hs (k.holds.retained ⟨b, i, hi⟩)
    rw [DataRenewal.latestSize, he, hz, Option.elim_some]
  rw [Ledger.committed, hc, hp]
  rfl

-- At the end of every block nothing is pending, the count of permanent bytes is within its bound, and the
-- checks of the renewal pallet pass: on a live chain whoever renews and whatever Root drops, and in the
-- tests, where the count is to be exact, as long as Root does neither.
theorem renewal_try_state {g : GenesisConfig T} {as : List (Action T)} {c : Chain T}
    (build : DataRenewal.Build) (h : Runs Chain.step (Chain.orderly · ·) g.chain as c)
    (hx : build = .test → Countable T ∧ CollisionFree T (contents as) ∧
      Runs Chain.step (Chain.conserving · ·) g.chain as c)
    (hb : ¬c.inBlock) :
    c.state.pendingRenewals.val = [] ∧ c.state.permanentStorageUsed ≤ T.maxPermanentStorageSize ∧
      ∀ (transactions : c.state.transactions.Iteration) (renewals : c.state.renewals.Iteration),
        DataRenewal.doTryState build c.state transactions renewals = ok () := by
  have h : Runs Chain.step (fun c a => c.orderly a ∧ ∀ x ∈ a.content, x ∈ Set.univ) g.chain as c :=
    h.mono fun g => ⟨g, fun _ _ => trivial⟩
  have t := (Chain.tidy_of_runs h).left
  have hc : c.ledger.WithinCap := by
    refine (Chain.runs_invariant (I := fun c => c.ledger.WithinCap) g.chain_ready ?_
      (fun hc _ e => e.withinCap hc) h).left
    rw [g.chain_ledger]
    exact Nat.zero_le _
  have hp : ∀ hash data, c.state.renewals.lookup hash = some data → data.paid →
      (c.state.resolveTransactionRef (.contentHash hash)).isSome := by
    intro hash data hr _
    obtain ⟨b, i, e, hx, hi, _⟩ := t.retained hb hr
    exact Option.isSome_of_eq_some (Option.bind_eq_some_iff.mpr ⟨(b, i), hx, hi⟩)
  refine ⟨t.drained hb, hc, fun transactions renewals => ?_⟩
  simp only [DataRenewal.doTryState, DataRenewal.foldlM_addPrepaid renewals hp, ok_bind, bind_eq_ok,
    ensure_eq_ok]
  refine ⟨(), fun ht => ?_, hc⟩
  obtain ⟨hT, hD, h⟩ := hx ht
  obtain ⟨size, hs⟩ := hD.exists_sizes
  have k := Chain.counted_of_runs hT .eq hs <| h.mono fun g => by
    obtain ⟨g, hd⟩ := Bool.and_eq_true_iff.mp g
    exact ⟨g, fun hc => by simp [hc] at hd⟩
  have hu : _ = c.state.permanentStorageUsed := (k.committed_eq hs hb).symm.trans k.tallied.tally
  have hm : c.state.permanentStorageUsed ≤ u64Max := hc.trans T.maxPermanentStorageSize_le
  rw [DataRenewal.renewedSum_eq]
  simp only [saturatingAdd]
  omega

theorem renewal_try_state_registered :
    let g : GenesisConfig .mock := ⟨3, [], [(renter, 10, 100)], []⟩
    ∃ c, Runs Chain.step (Chain.orderly · ·) g.chain registered c ∧
      c.state.permanentStorageUsed = 3 ∧ c.state.pendingRenewals.val = [] ∧
      ∀ build (transactions : c.state.transactions.Iteration) (renewals : c.state.renewals.Iteration),
        DataRenewal.doTryState build c.state transactions renewals = ok () := by
  intro g
  have ⟨c, hr, hb, hu⟩ := Runs.exists_of_any Chain.step Chain.conserving g.chain registered
    (fun c => ¬c.inBlock ∧ c.state.permanentStorageUsed = 3) (by decide +kernel)
  have ho : Runs Chain.step (Chain.orderly · ·) g.chain registered c :=
    hr.mono fun g => (Bool.and_eq_true_iff.mp (Bool.and_eq_true_iff.mp g).left).left
  have ht build := renewal_try_state build ho (fun _ => ⟨.inl (by decide), .mock, hr⟩) hb
  exact ⟨c, ho, hu, (ht .test).left, fun build => (ht build).right.right⟩

end Bulletin
