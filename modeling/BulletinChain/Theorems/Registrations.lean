import BulletinChain.Theorems.Retention

namespace Bulletin

open Machine

variable {T : Config}

-- The registrations of a ledger whose renewals `pending` are still to be served. Each is of a content
-- that the index knows, or is one of those to be served.
structure Ledger.Pended (pending : List (Pending T)) (l : Ledger T) : Prop where
  indexed : l.renewals.lookup contentHash = some data →
    (l.transactionByContentHash.lookup contentHash).isSome ∨ contentHash ∈ pending.map (·.1)
  named   : ∀ item ∈ pending, item.2.1.contentHash = item.1
  queued  : ∀ item ∈ pending, l.renewals.lookup item.1 = some item.2.2
  nodup   : (pending.map (·.1)).Nodup
  room    : pending.length + l.blockTransactions.val.length ≤ T.maxBlockTransactions

-- The block author serves the pending renewals before any call, and no action shortens the retention
-- period.
def Chain.orderly (c : Chain T) (a : Action T) : Bool :=
  c.steady a && (!a.isCall || c.ledger.pendingRenewals.val.isEmpty)

variable {D : Set Content} {l l' : Ledger T} {isOpen : Prop} {info : TransactionInfo T}
  {item : Pending T} {items pending : List (Pending T)} {contentHash contentHash' : T.ContentHash}
  {data : RenewalData T} {renewals : Finmap fun _ : T.ContentHash => RenewalData T}

theorem lookup_settled (h : renewals.lookup contentHash = some data) :
    (settled renewals contentHash data).lookup contentHash' =
      if contentHash' = contentHash then
        if data.recurring then some { data with paid := false } else none
      else
        renewals.lookup contentHash' := by
  obtain ⟨account, recurring, paid⟩ := data
  simp only [settled, h]
  cases recurring
  case false => exact Finmap.lookup_erase_eq
  case true  =>
    cases paid
    case false =>
      simp only [not_true_eq_false, Bool.false_eq_true, if_false, if_true]
      split
      case isTrue he => rw [he, h]
      case isFalse   => rfl
    case true => exact Finmap.lookup_insert_eq

namespace Ledger

theorem appended_lookup (h : l.HasRoom) :
    (l.appended e h).transactionByContentHash.lookup contentHash =
      if contentHash = e.contentHash then some (l.blockNumber, l.blockTransactions.val.length)
      else l.transactionByContentHash.lookup contentHash :=
  Finmap.lookup_insert_eq

-- What is retained is known to the index.
theorem isSome_of_retains (v : (l.log isOpen).Valid contentKey) (h : l.Retains info) :
    (l.transactionByContentHash.lookup info.contentHash).isSome := by
  have ⟨b, i, hi⟩ := h
  have ⟨es, hb, he⟩ := transactionInfo_eq_some.mp hi
  have ha : (l.log isOpen).At b i info := .inl ⟨es.val, log_blocks_eq_some.mpr ⟨es, hb, rfl⟩, he⟩
  have ⟨_, _, hx, _⟩ := v.exact.latest ha
  exact Option.isSome_of_eq_some hx

theorem isSome_of_resolve (h : l.resolveTransactionRef (.contentHash contentHash) = some info) :
    (l.transactionByContentHash.lookup contentHash).isSome := by
  have ⟨_, hx, _⟩ := Option.bind_eq_some_iff.mp h
  exact Option.isSome_of_eq_some hx

-- Every registration is of a content that the index knows.
def Indexed (l : Ledger T) : Prop :=
  ∀ {contentHash data}, l.renewals.lookup contentHash = some data →
    (l.transactionByContentHash.lookup contentHash).isSome

theorem Pended.of_indexed (h : l.Indexed) : l.Pended [] where
  indexed hr := .inl (h hr)
  named      := nofun
  queued     := nofun
  nodup      := .nil
  room       := by simpa using l.blockTransactions.bounded

theorem Pended.toIndexed (p : l.Pended []) : l.Indexed :=
  fun h => (p.indexed h).resolve_right List.not_mem_nil

end Ledger

namespace Grows

variable {P : TransactionInfo T → Prop}

theorem index_isSome (h : Grows P l l') (hx : (l.transactionByContentHash.lookup contentHash).isSome) :
    (l'.transactionByContentHash.lookup contentHash).isSome := by
  cases h
  case same => exact hx
  case append h =>
    rw [Ledger.appended_lookup]
    split
    case isTrue  => rfl
    case isFalse => exact hx

theorem length_le (h : Grows P l l') :
    l'.blockTransactions.val.length ≤ l.blockTransactions.val.length + 1 := by
  cases h
  case same     => exact Nat.le_succ _
  case append h => simp [Ledger.appended, Ledger.accounts]

end Grows

theorem Ledger.lookup_of_unregister
    (h : (l.unregister contentHash').renewals.lookup contentHash = some data) :
    contentHash ≠ contentHash' ∧ l.renewals.lookup contentHash = some data := by
  rw [unregister, Finmap.lookup_erase_eq] at h
  split at h
  case isTrue     => contradiction
  case isFalse hn => exact ⟨hn, h⟩

theorem Effect.indexed (h : Effect D forces drops l l') (v : (l.log isOpen).Valid contentKey)
    (hi : l.Indexed) : l'.Indexed := by
  intro contentHash data hr
  refine h.grows.index_isSome ?_
  cases h
  case registered hres hc _ _ =>
    rw [Ledger.register, Finmap.lookup_insert_eq] at hr
    split at hr
    case isTrue he =>
      subst he
      obtain hc | hc := hc
      · exact hc ▸ Ledger.isSome_of_retains v (Ledger.retains_of_resolve hres)
      · exact Ledger.isSome_of_resolve (hc ▸ hres)
    case isFalse => exact hi hr
  case unregistered => exact hi (Ledger.lookup_of_unregister hr).right
  case dropped      => exact hi (Ledger.lookup_of_unregister hr).right
  all_goals exact hi hr

-- Serving a renewal.

theorem Pays.renewals_eq {l₁ : Ledger T} (h : Pays l data size l₁) : l₁.renewals = l.renewals := by
  cases h <;> rfl

namespace Served

-- The other registrations stay as they are.
theorem lookup_of_ne (h : Served l item l') (hq : l.renewals.lookup item.1 = some item.2.2)
    (hn : contentHash ≠ item.1) : l'.renewals.lookup contentHash = l.renewals.lookup contentHash := by
  cases h
  case delivered hp _ =>
    have hq := hp.renewals_eq ▸ hq
    exact (lookup_settled hq).trans <| (if_neg hn).trans <| congrArg _ hp.renewals_eq
  case failed => exact Finmap.lookup_erase_ne hn
  case overflowed hp _ => exact (Finmap.lookup_erase_ne hn).trans <| congrArg _ hp.renewals_eq

-- A registration that is kept is of a content that was renewed.
theorem isSome_of_lookup (h : Served l item l') (hi : item.2.1.contentHash = item.1)
    (hr : l'.renewals.lookup item.1 = some data) :
    (l'.transactionByContentHash.lookup item.1).isSome := by
  cases h
  case delivered hp h =>
    exact Option.isSome_of_eq_some <| (Ledger.appended_lookup h).trans (if_pos hi.symm)
  case failed          => exact absurd rfl (Ledger.lookup_of_unregister hr).left
  case overflowed hp _ => exact absurd rfl (Ledger.lookup_of_unregister hr).left

end Served

-- The renewals that the sweep queues.

theorem mem_queued {latest : List (TransactionInfo T)} :
    item ∈ queued renewals latest ↔
      item.2.1 ∈ latest ∧ item.1 = item.2.1.contentHash ∧ renewals.lookup item.1 = some item.2.2 := by
  simp only [queued, List.mem_filterMap, Option.map_eq_some_iff]
  constructor
  case mp =>
    rintro ⟨e, he, data, hr, h⟩
    subst h
    exact ⟨he, rfl, hr⟩
  case mpr =>
    rintro ⟨he, hc, hr⟩
    exact ⟨item.2.1, he, item.2.2, hc ▸ hr, by rw [← hc]⟩

theorem queued_sublist (renewals : Finmap fun _ : T.ContentHash => RenewalData T)
    (latest : List (TransactionInfo T)) :
    ((queued renewals latest).map (·.1)).Sublist (latest.map (·.contentHash)) := by
  induction latest
  case nil            => exact .slnil
  case cons e rest hi =>
    cases hr : renewals.lookup e.contentHash
    case none      => simpa [queued, hr] using hi.cons e.contentHash
    case some data => simpa [queued, hr] using hi

-- A content that the index knew it still knows, or the sweep found its latest copy.
theorem Swept.indexed {index index' : Finmap fun _ : T.ContentHash => Nat × Nat}
    {es latest : List (TransactionInfo T)} (w : Swept obsolete index index' es latest)
    (hx : (index.lookup contentHash).isSome) :
    (index'.lookup contentHash).isSome ∨ ∃ e ∈ latest, e.contentHash = contentHash := by
  have ⟨(b, i), hx⟩ := Option.isSome_iff_exists.mp hx
  rw [w.lookup, hx]
  split
  case isFalse => exact .inl rfl
  case isTrue hm =>
    by_cases hb : b = obsolete
    · subst hb
      have ⟨e, he, hc⟩ := List.mem_map.mp hm
      exact .inr <| List.mem_map.mp <| hc ▸ w.covers e he (hc ▸ hx)
    · exact .inl (by simp [Option.filter, hb])

namespace Ledger.Pended

theorem taken (p : l.Pended items) : l.taken.Pended items :=
  ⟨p.indexed, p.named, p.queued, p.nodup, p.room⟩

theorem extended (p : l.Pended items) : (l.extended period).Pended items :=
  ⟨p.indexed, p.named, p.queued, p.nodup, p.room⟩

theorem served (p : l.Pended (item :: items)) (h : Served l item l') : l'.Pended items := by
  have hq := p.queued item List.mem_cons_self
  have hi := p.named item List.mem_cons_self
  have ⟨hn, hd⟩ := List.nodup_cons.mp p.nodup
  refine ⟨fun {contentHash data} hr => ?_, fun item' h' => ?_, fun item' h' => ?_, hd, ?_⟩
  · by_cases he : contentHash = item.1
    · subst he
      exact .inl (h.isSome_of_lookup hi hr)
    · rw [h.lookup_of_ne hq he] at hr
      refine (p.indexed hr).imp h.grows.index_isSome fun hm => ?_
      exact (List.mem_cons.mp hm).resolve_left he
  · exact p.named item' (List.mem_cons_of_mem _ h')
  · have he : item'.1 ≠ item.1 := fun he => hn (List.mem_map.mpr ⟨item', h', he⟩)
    rw [h.lookup_of_ne hq he]
    exact p.queued item' (List.mem_cons_of_mem _ h')
  · have hl := h.grows.length_le
    have hr := p.room
    simp only [List.length_cons] at hr
    omega

theorem serves (p : l.Pended (items ++ rest)) (h : Serves l items l') : l'.Pended rest := by
  induction h
  case nil         => exact p
  case cons h _ hi => exact hi (p.served h)

-- The latest copies of the obsolete block that are registered are to be served.
theorem opened (hi : l.Indexed) (hb : l.blockTransactions.val = []) (hp : l.pendingRenewals.val = [])
    (h : Opened l l') : l'.Pended l'.pendingRenewals.val := by
  cases h
  case kept =>
    rw [hp]
    exact .of_indexed hi
  case swept pending _ _ w hq =>
    refine ⟨fun {contentHash data} hr => ?_, fun item h => ?_, fun item h => ?_, ?_, ?_⟩
    · refine (w.indexed (hi hr)).imp_right fun ⟨e, he, hc⟩ => ?_
      refine List.mem_map.mpr ⟨(contentHash, e, data), ?_, rfl⟩
      exact hq ▸ mem_queued.mpr ⟨he, hc.symm, hr⟩
    · exact (mem_queued.mp (hq ▸ h)).right.left.symm
    · exact (mem_queued.mp (hq ▸ h)).right.right
    · exact hq ▸ (queued_sublist ..).nodup w.nodup
    · simpa [hb] using pending.bounded

end Ledger.Pended

theorem Grows.pendingRenewals {P : TransactionInfo T → Prop} (h : Grows P l l') :
    l'.pendingRenewals = l.pendingRenewals := by
  cases h <;> rfl

theorem Serves.pendingRenewals (h : Serves l items l') : l'.pendingRenewals = l.pendingRenewals := by
  induction h
  case nil         => rfl
  case cons h _ hi => exact hi.trans h.grows.pendingRenewals

theorem Ledger.Indexed.sealBlock (h : l.Indexed) : (l.sealBlock n).Indexed := by
  simp only [Ledger.sealBlock]
  split <;> exact h

namespace Chain

variable {c c' : Chain T} {a : Action T}

theorem steady_of_orderly (g : c.orderly a) : c.steady a :=
  (Bool.and_eq_true_iff.mp g).left

theorem pendingRenewals_of_orderly (g : c.orderly a) (h : a.isCall) :
    c.ledger.pendingRenewals.val = [] := by
  simpa [orderly, h] using (Bool.and_eq_true_iff.mp g).right

-- What holds of every chain whose authors serve the pending renewals first.
structure Tidy (D : Set Content) (c : Chain T) : Prop extends c.Sound D where
  pended  : c.ledger.Pended c.ledger.pendingRenewals.val
  drained : ¬c.inBlock → c.ledger.pendingRenewals.val = []

theorem Evolves.tidy (e : Evolves D c a c') (t : c.Tidy D) (g : c.orderly a) : c'.Tidy D := by
  refine ⟨e.sound t.toSound (steady_of_orderly g), ?_, ?_⟩
  all_goals
    obtain ⟨hb, hb', ho⟩ | ⟨hb, hl⟩ | ⟨hb, hb', hc, he⟩ | ⟨hb, hb', _, hs⟩ | ⟨hb, hl⟩ |
      ⟨hb, hb', hp, hl⟩ := e
  case refine_1.opened =>
    have hp := t.drained hb
    exact .opened (hp ▸ t.pended).toIndexed (t.log.window.closed hb) hp ho
  case refine_1.idle => exact hl ▸ t.pended
  case refine_1.called =>
    have hp := pendingRenewals_of_orderly g hc
    rw [he.grows.pendingRenewals, hp]
    exact .of_indexed <| he.indexed t.log (hp ▸ t.pended).toIndexed
  case refine_1.drained =>
    rw [hs.pendingRenewals]
    exact .serves (List.append_nil _ ▸ t.pended.taken) hs
  case refine_1.extended => exact hl ▸ t.pended.extended
  case refine_1.sealed =>
    rw [hl, Ledger.sealBlock_pendingRenewals, hp]
    exact .of_indexed <| Ledger.Indexed.sealBlock (hp ▸ t.pended).toIndexed
  case refine_2.idle     => intro h; rw [hl]; exact t.drained (hb ▸ h)
  case refine_2.extended => intro h; rw [hl]; exact t.drained (hb ▸ h)
  case refine_2.sealed   => intro _; rw [hl, Ledger.sealBlock_pendingRenewals, hp]
  all_goals exact fun h => absurd hb' h

-- Between blocks, the latest copy of every registered content is retained.
theorem Tidy.retained (t : c.Tidy D) (hb : ¬c.inBlock)
    (hr : c.ledger.renewals.lookup contentHash = some data) :
    ∃ b i e, c.ledger.transactionByContentHash.lookup contentHash = some (b, i) ∧
      c.ledger.transactionInfo b i = some e ∧ e.contentHash = contentHash := by
  have v := t.log
  rw [log, eq_false hb] at v
  obtain ⟨⟨b, i⟩, hx⟩ := Option.isSome_iff_exists.mp ((t.drained hb ▸ t.pended).toIndexed hr)
  obtain ⟨e, ha, hk⟩ := v.exact.sound hx
  exact ⟨b, i, e, hx, (Ledger.log_at v).mp ha, hk⟩

end Chain

theorem GenesisConfig.chain_tidy (g : GenesisConfig T) : g.chain.Tidy D :=
  have hp : g.chain.ledger.pendingRenewals.val = [] := by rw [g.chain_ledger]; rfl
  have hi : g.chain.ledger.Indexed := by rw [g.chain_ledger]; exact nofun
  ⟨g.chain_sound, hp ▸ .of_indexed hi, fun _ => hp⟩

theorem Chain.tidy_of_runs {g : GenesisConfig T} {c : Chain T} {as : List (Action T)}
    (h : Runs step (fun c a => c.orderly a ∧ ∀ x ∈ a.content, x ∈ D) g.chain as c) :
    c.Tidy D ∧ c.Ready :=
  runs_invariant g.chain_ready g.chain_tidy (fun t g e => e.tidy t g) h

end Bulletin
