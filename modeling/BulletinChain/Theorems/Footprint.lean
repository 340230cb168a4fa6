import BulletinChain.Theorems.Window
import BulletinChain.Theorems.Quotas
import BulletinChain.Lib.QuotaWindows

namespace Bulletin

open Machine Except Deed QuotaWindows

-- A renewed entry: its position, the scope that was charged for it, and whether this was when its
-- renewal was registered and not when it was delivered.
structure Renewed (T : Config) where
  block   : Nat
  index   : Nat
  info    : TransactionInfo T
  scope   : AuthorizationScope T
  prepaid : Bool

variable {T : Config}

namespace State

-- The entry that a step within a block adds, if it does.
def renewedBy (s s' : State T) (scope : AuthorizationScope T) (prepaid : Bool) : List (Renewed T) :=
  let index := s.blockTransactions.val.length
  s'.blockTransactions.val[index]?.toList.map (⟨s.blockNumber, index, ·, scope, prepaid⟩)

def pendingRenewed (extrinsicIndex : Nat) : State T → List (Pending T) → List (Renewed T)
  | _, []            => []
  | s, item :: items =>
    let s' := renewPending extrinsicIndex s item
    s.renewedBy s' (.account item.2.2.account) item.2.2.paid ++ pendingRenewed extrinsicIndex s' items

def drainRenewed (s : State T) : List (Renewed T) :=
  match s.extrinsicIndex with
  | some extrinsicIndex =>
    pendingRenewed extrinsicIndex { s with pendingRenewals := .empty } s.pendingRenewals.val
  | none => []

end State

-- The entries that an extrinsic renews at somebody's expense.
def Extrinsic.renewed (x : Extrinsic T) (s : State T) : List (Renewed T) :=
  match x.admission s with
  | (.ok origin, s₁) =>
    match x with
    | unsigned (.dataRenewal .processPendingRenewals) => s₁.drainRenewed
    | x =>
      match x.call, x.payer origin s with
      | .dataRenewal (.forceRenew _), some scope =>
        s₁.renewedBy (dispatched s₁ origin x.call) scope false
      | _, _ => []
  | (.error _, _) => []

namespace Chain

def renewed (c : Chain T) : Action T → List (Renewed T)
  | .extrinsic x => x.renewed c.state
  | _            => []

def renewals : Chain T → List (Action T) → List (Renewed T) :=
  logOf step renewed

-- The size of those of the entries that are still retained.
def footprint (c : Chain T) (log : List (Renewed T)) : Nat :=
  (log.map fun r =>
    ((c.state.transactionInfo r.block r.index).filter (·.kind.isRenew)).elim 0 (·.size)).sum

end Chain

-- The account is granted the same number of bytes by Root, and only when it has no active
-- authorization.
def Deed.reopens (w : T.AccountId) (bytes : Nat) : Deed T → Bool
  | .granted .root scope _ n opens              => scope ≠ .account w || (n = bytes && opens)
  | .granted _ scope _ _ _ | .refreshed _ scope => scope ≠ .account w
  | _                                           => true

-- What a deed, and an entry that was not prepaid, was charged to a scope.

def Deed.charges (scope : AuthorizationScope T) : Deed T → Nat
  | .renewed s size => if s = scope then size else 0
  | _               => 0

def Renewed.charge (scope : AuthorizationScope T) (r : Renewed T) : Nat :=
  if r.scope = scope ∧ ¬r.prepaid then r.info.size else 0

-- The charges of a history since block `m`.
def chargesSince (scope : AuthorizationScope T) (log : List (Nat × Deed T)) (m : Nat) : Nat :=
  (log.map fun e => if m ≤ e.1 then e.2.charges scope else 0).sum

variable {s s₁ s' : State T} {scope : AuthorizationScope T} {r : Renewed T} {item : Pending T}
  {items : List (Pending T)} {x : Extrinsic T} {origin : Origin T}

theorem Ledger.settle_appended_val {l : Ledger T} {e : TransactionInfo T} (h : _) :
    ((l.appended e h).settle contentHash data).blockTransactions.val =
      l.blockTransactions.val ++ [BlockTransactionsMut.counted l e] :=
  rfl

namespace State

theorem mem_renewedBy (h : r ∈ s.renewedBy s' scope prepaid) :
    r.block = s.blockNumber ∧ r.index = s.blockTransactions.val.length ∧
      s'.blockTransactions.val[r.index]? = some r.info ∧ r.scope = scope ∧ r.prepaid = prepaid := by
  have ⟨_, hi, h⟩ := List.mem_map.mp h
  subst h
  exact ⟨rfl, rfl, Option.mem_toList.mp hi, rfl, rfl⟩

theorem renewedBy_of_same (h : s'.blockTransactions = s.blockTransactions) :
    s.renewedBy s' scope prepaid = [] := by
  simp [renewedBy, h]

theorem renewedBy_forceRenewed (info : TransactionInfo T) (i : Nat) (h : s.HasRoom)
    (scope : AuthorizationScope T) :
    ∃ e, s.renewedBy (s.forceRenewed info i h) scope false =
      [⟨s.blockNumber, s.blockTransactions.val.length, e, scope, false⟩] ∧ e.size = info.size :=
  ⟨BlockTransactionsMut.counted s.toLedger (info.renewal i),
    by simp [renewedBy, forceRenewed, Ledger.appended], rfl⟩

-- Nothing is added for a renewal that is neither prepaid nor can be paid for.
theorem renewPending_refused (x : Nat) (hp : ¬item.2.2.paid)
    (hs : ¬(DataRenewal.checkRenewAuthorization (.account item.2.2.account) item.2.1.size
      true).Succeeds s) :
    (renewPending x s item).blockTransactions = s.blockTransactions := by
  have ⟨contentHash, info, data⟩ := item
  obtain ⟨_, hc, _, _⟩ | ⟨hc, _, _⟩ := chargePending_cases s info data
  case inl =>
    rw [chargePending, if_neg hp] at hc
    exact absurd (congrArg Prod.fst hc) hs
  case inr =>
    simp only [renewPending, hc]
    rfl

-- An iteration of the drain adds at most one entry, of the size of the one that it renews.
theorem renewPending_adds (x : Nat) (s : State T) (item : Pending T) :
    (renewPending x s item).blockTransactions = s.blockTransactions ∨
      ∃ e, (renewPending x s item).blockTransactions.val = s.blockTransactions.val ++ [e] ∧
        e.size = item.2.1.size := by
  obtain ⟨hp, h, hl⟩ | ⟨_, _, hl, _⟩ | ⟨hp, _, hl⟩ := (renewPending_drained x s item).left
  case delivered =>
    right
    rw [hl, Ledger.settle_appended_val, hp.blockTransactions]
    exact ⟨_, rfl, rfl⟩
  case failed =>
    left
    rw [hl]
    rfl
  case overflowed =>
    left
    rw [hl]
    exact hp.blockTransactions

theorem foldl_renewPending_prefix (x : Nat) (s : State T) (items : List (Pending T)) :
    s.blockTransactions.val <+: (items.foldl (renewPending x) s).blockTransactions.val := by
  induction items generalizing s
  case nil => exact List.prefix_rfl
  case cons item items hi =>
    refine List.IsPrefix.trans ?_ (hi _)
    obtain h | ⟨_, h, _⟩ := renewPending_adds x s item <;> rw [h]
    exact List.prefix_append ..

theorem pendingRenewed_at (x : Nat) (s : State T) (items : List (Pending T)) :
    ∀ r ∈ pendingRenewed x s items, r.block = s.blockNumber ∧
      (items.foldl (renewPending x) s).blockTransactions.val[r.index]? = some r.info := by
  induction items generalizing s
  case nil => exact nofun
  case cons item items hi =>
    intro r hr
    cases List.mem_append.mp hr
    case inl hr =>
      have ⟨hb, _, hi, _, _⟩ := mem_renewedBy hr
      have ⟨_, hp⟩ := foldl_renewPending_prefix x (renewPending x s item) items
      have ⟨hl, _⟩ := List.getElem?_eq_some_iff.mp hi
      exact ⟨hb, by rw [List.foldl_cons, ← hp, List.getElem?_append_left hl, hi]⟩
    case inr hr =>
      have ⟨hb, hi⟩ := hi _ r hr
      exact ⟨hb.trans (renewPending_enacts x s item).blockNumber, hi⟩

-- What is not prepaid is charged when it is delivered.
theorem pendingRenewed_le (x : Nat) (s : State T) (items : List (Pending T)) :
    ((pendingRenewed x s items).map (·.charge scope)).sum ≤
      ((pendingDeeds x s items).map (·.charges scope)).sum := by
  induction items generalizing s
  case nil => exact Nat.le_refl _
  case cons item items hi =>
    simp only [pendingRenewed, pendingDeeds, List.map_append, List.sum_append]
    refine Nat.add_le_add ?_ (hi _)
    obtain h | ⟨e, h, he⟩ := renewPending_adds x s item
    · simp [renewedBy_of_same h]
    · have hr : s.renewedBy (renewPending x s item) (.account item.2.2.account) item.2.2.paid =
          [⟨s.blockNumber, s.blockTransactions.val.length, e, .account item.2.2.account,
            item.2.2.paid⟩] := by
        simp [renewedBy, h]
      rw [hr]
      by_cases hp : item.2.2.paid
      · simp [Renewed.charge, hp]
      · have hs : (DataRenewal.checkRenewAuthorization (.account item.2.2.account) item.2.1.size
            true).Succeeds s := by
          by_contra hs
          simp [renewPending_refused x hp hs] at h
        simp [pendingDeed, Renewed.charge, Deed.charges, hp, hs, he]

theorem drainRenewed_le :
    (s.drainRenewed.map (·.charge scope)).sum ≤ (s.drainDeeds.map (·.charges scope)).sum := by
  simp only [drainRenewed, drainDeeds]
  cases s.extrinsicIndex
  case none   => exact Nat.le_refl _
  case some x => exact pendingRenewed_le x _ _

end State

theorem Admitted.forceRenew_resolve (h : Admitted s x origin s₁)
    (hc : x.call = .dataRenewal (.forceRenew entry)) :
    s₁.resolveTransactionRef entry = s.resolveTransactionRef entry := by
  cases h
  case forceRenew =>
    rw [(Charge.renew_charged ..).ledger, Ledger.charge_resolveTransactionRef]
  case store hx _ _ _ _ _ _ => exact absurd (hx.symm.trans hc) nofun
  case renew hx _ _ _       => exact absurd (hx ▸ hc) nofun
  case enableAutoRenew hx _ _ _ => exact absurd (hx ▸ hc) nofun
  all_goals rfl

namespace Extrinsic

theorem renewed_cases (ha : x.admission s = (ok origin, s₁)) :
    (x = .unsigned (.dataRenewal .processPendingRenewals) ∧ x.renewed s = s₁.drainRenewed) ∨
    (∃ entry scope, x.call = .dataRenewal (.forceRenew entry) ∧ x.payer origin s = some scope ∧
      x.renewed s = s₁.renewedBy (dispatched s₁ origin x.call) scope false) ∨
    x.renewed s = [] := by
  simp only [renewed, ha]
  split
  case h_1 => exact .inl ⟨rfl, rfl⟩
  case h_2 =>
    split
    case h_1 entry scope hc hp => exact .inr <| .inl ⟨entry, scope, hc, hp, rfl⟩
    case h_2                   => exact .inr <| .inr rfl

-- The inherent is dispatched in the state that it is admitted in.
theorem dispatched_drain
    (ha : (unsigned (.dataRenewal .processPendingRenewals)).admission s = (ok origin, s₁)) :
    s₁ = s ∧ origin = .none ∧
      dispatched s₁ origin (.dataRenewal .processPendingRenewals) = s.doProcessPendingRenewals := by
  cases ha
  exact ⟨rfl, rfl, rfl⟩

theorem renewed_at (ha : x.admission s = (ok origin, s₁)) (hr : r ∈ x.renewed s) :
    r.block = s.blockNumber ∧
      (dispatched s₁ origin x.call).blockTransactions.val[r.index]? = some r.info := by
  obtain ⟨hx, he⟩ | ⟨_, _, _, _, he⟩ | he := renewed_cases ha <;> rw [he] at hr
  · subst hx
    obtain ⟨hs, _, hd⟩ := dispatched_drain ha
    subst hs
    rw [call, hd]
    simp only [State.drainRenewed] at hr
    split at hr
    case h_2 => contradiction
    case h_1 x hi =>
      have h := State.pendingRenewed_at x _ _ r hr
      simpa only [State.doProcessPendingRenewals, hi] using h
  · obtain ⟨hb, _, hi, _, _⟩ := State.mem_renewedBy hr
    exact ⟨hb.trans (admission_enacts ha).blockNumber, hi⟩
  · contradiction

-- Whatever is renewed at the expense of a scope is charged to it, unless it was prepaid.
theorem renewed_le (ha : x.admission s = (ok origin, s₁)) :
    ((x.renewed s).map (·.charge scope)).sum ≤ ((x.deeds s).map (·.charges scope)).sum := by
  obtain ⟨hx, he⟩ | ⟨entry, scope', hc, hp, he⟩ | he := renewed_cases ha <;> rw [he]
  case inr.inr => exact Nat.zero_le _
  · subst hx
    obtain ⟨hs, ho, _⟩ := dispatched_drain ha
    subst hs ho
    have hd : (unsigned (.dataRenewal .processPendingRenewals)).deeds s₁ = s₁.drainDeeds := by
      rw [deeds, ha]
      rfl
    rw [hd]
    exact State.drainRenewed_le
  · rw [deeds, ha, List.map_append, List.sum_append]
    refine (Nat.le_add_right ..).trans' ?_
    cases hd : x.call.dispatch s₁ origin
    case error => simp [dispatched, hd, State.renewedBy_of_same rfl]
    case ok s' =>
      obtain ⟨_, info, i, h, _, hi, _, _, hs⟩ := State.forceRenew_eq_ok.mp (hc ▸ hd)
      rw [(admission_admitted ha).forceRenew_resolve hc] at hi
      rw [dispatched_of_ok hd, hs]
      have hp : x.call.payments s (x.payer origin s) = [.renewed scope' info.size] := by
        simp [RuntimeCall.payments, hp, hc, RuntimeCall.subject, hi]
      obtain ⟨e, he, hs⟩ := State.renewedBy_forceRenewed info i h scope'
      simp [hp, he, hs, Renewed.charge, Deed.charges]

end Extrinsic

namespace Chain

variable {c c' : Chain T} {a : Action T}

theorem renewed_at (h : c.step a = some c') (hr : r ∈ c.renewed a) :
    c'.inBlock ∧ r.block = c.state.blockNumber ∧ c'.state.blockNumber = c.state.blockNumber ∧
      c'.state.blockTransactions.val[r.index]? = some r.info := by
  cases a
  case extrinsic x =>
    simp only [step] at h
    split at h
    case isFalse => contradiction
    case isTrue =>
      obtain ⟨s', hx, hc⟩ := Option.map_eq_some_iff.mp h
      subst hc
      have hn := (Extrinsic.apply_enacts hx).blockNumber
      simp only [Extrinsic.apply] at hx
      split at hx <;> cases hx
      case h_2 ha =>
        obtain ⟨hb, hi⟩ := Extrinsic.renewed_at ha hr
        exact ⟨rfl, hb, hn, hi⟩
  all_goals contradiction

theorem renewed_le (c : Chain T) (a : Action T) (scope : AuthorizationScope T) :
    ((c.renewed a).map (·.charge scope)).sum ≤ ((c.deeds a).map (·.charges scope)).sum := by
  cases a
  case extrinsic x =>
    cases ha : x.admission c.state
    case mk res s₁ =>
      cases res
      case error => simp [renewed, Extrinsic.renewed, ha]
      case ok    => exact Extrinsic.renewed_le ha
  all_goals exact Nat.zero_le _

theorem renewals_le {guard : Chain T → Action T → Prop} (scope : AuthorizationScope T) (m : Nat)
    (r : Runs step guard c as c') :
    ((c.renewals as).map fun r => if m ≤ r.block then r.charge scope else 0).sum ≤
      chargesSince scope (c.history as) m := by
  induction r
  case nil => exact Nat.le_refl _
  case cons c a _ _ _ _ e _ hi =>
    simp only [renewals, history, chargesSince, logOf, e, List.map_append, List.sum_append,
      List.map_map]
    refine Nat.add_le_add ?_ hi
    have hb : (c.renewed a).map (fun r => if m ≤ r.block then r.charge scope else 0) =
        (c.renewed a).map fun r => if m ≤ c.state.blockNumber then r.charge scope else 0 :=
      List.map_congr_left fun r hr => by rw [(renewed_at e hr).right.left]
    rw [hb]
    by_cases hm : m ≤ c.state.blockNumber
    · simpa [hm, Function.comp_def] using c.renewed_le a scope
    · simp [hm]

theorem Paced.step (h : c.Paced p) (g : c.fixed a) (e : c.step a = some c') :
    Evolves Set.univ c a c' ∧ c'.Paced p :=
  have ⟨he, hr⟩ := step_evolves h.ready (fun _ _ => trivial) e
  ⟨he, he.sound h.toSound (steady_of_fixed g), (he.retentionPeriod g).trans h.period, hr⟩

-- What is renewed stays in its place until it is dropped.
theorem renewals_tracked {g : GenesisConfig T} (r : Runs step (fixed · ·) g.chain as c) :
    c.Paced g.retentionPeriod ∧
      ∀ e ∈ g.chain.renewals as, c.log.Tracked e.block e.index e.info := by
  rw [← List.nil_append (g.chain.renewals as)]
  refine Runs.log_invariant (fun c (log : List (Renewed T)) => c.Paced g.retentionPeriod ∧
    ∀ e ∈ log, c.log.Tracked e.block e.index e.info) ?_ (fun {c a c' log} ⟨h, ht⟩ hg hs => ?_) r
  · exact ⟨paced_of_runs .nil, by simp⟩
  · have ⟨he, h'⟩ := h.step hg hs
    refine ⟨h', List.forall_mem_append.mpr ⟨fun e hm => ?_, fun e hm => ?_⟩⟩
    · exact he.tracked h.toSound hg (ht e hm)
    · have ⟨hb, hn, hn', hi⟩ := renewed_at hs hm
      have hc : e.block = c'.state.blockNumber := hn.trans hn'.symm
      exact ⟨fun _ => .inr ⟨hc, hi⟩, fun _ => hc ▸ h'.log.window.isOpen hb⟩

-- What an entry contributes to a footprint.
theorem Paced.retained_le (h : c.Paced p) (t : c.log.Tracked b i info) :
    ((c.state.transactionInfo b i).filter (·.kind.isRenew)).elim 0 (·.size) ≤
      if c.state.blockNumber - p ≤ b then info.size else 0 := by
  cases hi : c.state.transactionInfo b i
  case none => exact Nat.zero_le _
  case some e =>
    have ⟨es, hes, he⟩ := Ledger.transactionInfo_eq_some.mp hi
    have hb : c.log.blocks b = some es.val := Ledger.log_blocks_eq_some.mpr ⟨es, hes, rfl⟩
    have hp : c.log.period = p := h.period
    have hn : c.log.now ≤ b + c.log.period := by
      by_contra hn
      exact absurd (hb.symm.trans (t.gone (Nat.lt_of_not_le hn))) nofun
    have hu : e = info := h.log.window.at_unique (.inl ⟨es.val, hb, he⟩) (t.kept hn)
    have hb : c.state.blockNumber - p ≤ b := Nat.sub_le_of_le_add (hp ▸ hn)
    rw [if_pos hb, hu, Option.filter_some]
    split
    case isTrue  => exact Nat.le_refl _
    case isFalse => exact Nat.zero_le _

end Chain

-- Of what counts for a scope, the part that was not prepaid was charged for.
theorem Renewed.sum_le (scope : AuthorizationScope T) (size : Renewed T → Nat) (m : Nat)
    (log : List (Renewed T))
    (h : ∀ r ∈ log, size r ≤ if m ≤ r.block then r.info.size else 0) :
    ((log.filter (·.scope = scope)).map size).sum ≤
      (((log.filter (·.scope = scope)).filter (·.prepaid)).map size).sum +
        (log.map fun r => if m ≤ r.block then r.charge scope else 0).sum := by
  induction log
  case nil => exact Nat.le_refl _
  case cons r log hi =>
    rw [List.forall_mem_cons] at h
    have hi := hi h.right
    have hr := h.left
    by_cases hs : r.scope = scope
    · rw [List.filter_cons_of_pos (by simpa using hs)]
      by_cases hp : r.prepaid
      · rw [List.filter_cons_of_pos (p := fun r : Renewed T => r.prepaid) hp]
        simp only [List.map_cons, List.sum_cons]
        omega
      · have hc : r.charge scope = r.info.size := if_pos ⟨hs, hp⟩
        rw [List.filter_cons_of_neg (p := fun r : Renewed T => r.prepaid) hp]
        simp only [List.map_cons, List.sum_cons, hc]
        omega
    · rw [List.filter_cons_of_neg (by simpa using hs)]
      simp only [List.map_cons, List.sum_cons]
      omega

variable {g g' : Access T} {w : T.AccountId} {d : Deed T}

theorem chargesSince_concat (log : List (Nat × Deed T)) :
    chargesSince scope (log ++ [(now, d)]) =
      charged (chargesSince scope log) now (d.charges scope) := by
  funext m
  simp [chargesSince, charged]

theorem charged_zero {since : Nat → Nat} : charged since now 0 = since := by
  funext m
  simp [charged]

theorem Deed.charges_of_target_ne (h : d.target ≠ some scope) : d.charges scope = 0 := by
  cases d <;> simp_all [charges, target]

-- The last window of an account ends at `stop`, be it that its authorization is still there or that it
-- was removed since. An authorization that would end after the last block is of no use in that block.
structure Access.Windowed (now : Nat) (g : Access T) (w : T.AccountId) (bytes : Nat)
    (since : Nat → Nat) (stop : Nat) : Prop where
  le      : stop ≤ now + T.authorizationPeriod
  spread  : Spread T.authorizationPeriod bytes stop since
  removed : g.authorizations.lookup (.account w) = none → min stop maxBlockNumber ≤ now
  present : ∀ a, g.authorizations.lookup (.account w) = some a →
    a.expiration = min stop maxBlockNumber ∧ a.cap = bytes ∧
      (a.expired now = false → Current T.authorizationPeriod bytes stop a.used since)

namespace Access.Windowed

variable {since : Nat → Nat}

theorem next (h : g.Windowed now w bytes since stop) : g.Windowed (now + 1) w bytes since stop where
  le        := h.le.trans (by omega)
  spread    := h.spread
  removed   := fun hl => (h.removed hl).trans (Nat.le_succ _)
  present a := fun ha => by
    have ⟨he, hc, hu⟩ := h.present a ha
    refine ⟨he, hc, fun hn => hu ?_⟩
    simp only [Authorization.expired, decide_eq_false_iff_not] at hn ⊢
    omega

theorem moves (hb : bytes < u64Max) (h : g.Windowed now w bytes since stop) (hd : Does now g d g')
    (hr : d.reopens w bytes) :
    ∃ stop, g'.Windowed now w bytes (charged since now (d.charges (.account w))) stop := by
  have m := hd.moves (.account w)
  generalize hl : g'.authorizations.lookup (.account w) = e at m
  -- A deed that charges nothing and leaves the counted bytes, the cap and the end alone.
  have hk {a : Authorization} {a' : Authorization} (hc : d.charges (.account w) = 0)
      (ha : g.authorizations.lookup (.account w) = some a) (he : e = some a')
      (hx : a'.expiration = a.expiration) (hp : a'.cap = a.cap) (hu : a'.used = a.used) :
      ∃ stop, g'.Windowed now w bytes (charged since now (d.charges (.account w))) stop := by
    have ⟨hs, hq, hn⟩ := h.present a ha
    rw [hc, charged_zero]
    refine ⟨stop, h.le, h.spread, fun hl' => ?_, fun b hb' => ?_⟩
    · exact absurd (hl'.symm.trans (hl.trans he)) nofun
    · cases hb'.symm.trans (hl.trans he)
      refine ⟨hx.trans hs, hp.trans hq, fun hx' => ?_⟩
      rw [hu]
      exact hn (by rwa [Authorization.expired, ← hx])
  cases m
  case aside ht =>
    rw [charges_of_target_ne ht, charged_zero]
    exact ⟨stop, h.le, h.spread, fun hl' => h.removed (hl ▸ hl'), fun a ha => h.present a (hl ▸ ha)⟩
  case stored ha => exact hk rfl (active_eq_some.mp ha).left rfl rfl rfl rfl
  case refreshed => simp [reopens] at hr
  case added origin _ _ _ _ _ _ => cases origin <;> simp [reopens] at hr
  case removed a ha hx =>
    rw [show Deed.charges _ _ = 0 from rfl, charged_zero]
    refine ⟨stop, h.le, h.spread, fun _ => ?_, fun b hb' => absurd (hb'.symm.trans hl) nofun⟩
    rw [← (h.present a ha).left]
    exact of_decide_eq_true hx
  case renewed a size ha hq =>
    have ⟨ha, hx⟩ := active_eq_some.mp ha
    have ⟨hs, hc, hn⟩ := h.present a ha
    have hc' : a.cap < u64Max := hc ▸ hb
    have hq := (saturatingAdd_not_gt_iff hc').mp (Nat.not_lt.mpr hq)
    have hu : (DataRenewal.charged a size).used = a.used + size := saturatingAdd_of_le (by omega)
    have hlt : now < stop := by
      simp only [Authorization.expired, hs, decide_eq_false_iff_not] at hx
      omega
    rw [show Deed.charges _ _ = size by simp [charges]]
    refine ⟨stop, h.le, h.spread.charged (hn hx) hlt (hc ▸ hq), fun hl' => ?_, fun b hb' => ?_⟩
    · exact absurd (hl'.symm.trans hl) nofun
    · cases hb'.symm.trans hl
      exact ⟨hs, hc, fun _ => hu ▸ (hn hx).charged⟩
  case opened origin issuer transactions n hi ha =>
    have ⟨ho, hq⟩ : origin = .root ∧ n = bytes := by
      cases origin <;> simp_all [reopens]
    subst ho hq
    obtain _ | _ := hi
    rw [show Deed.charges _ _ = 0 from rfl, charged_zero]
    refine ⟨now + T.authorizationPeriod, Nat.le_refl _, h.spread.mono h.le, fun hl' => ?_,
      fun b hb' => ?_⟩
    · exact absurd (hl'.symm.trans hl) nofun
    · cases hb'.symm.trans hl
      refine ⟨rfl, rfl, fun hx => h.spread.opens ?_⟩
      -- The window before has ended, as this one is not past the last block.
      have hx : now < maxBlockNumber := by
        have hx : ¬min (now + T.authorizationPeriod) maxBlockNumber ≤ now := of_decide_eq_false hx
        omega
      have he : min stop maxBlockNumber ≤ now := by
        cases hl : g.authorizations.lookup (.account w)
        case none   => exact h.removed hl
        case some a =>
          rw [← (h.present a hl).left]
          simpa [active, hl, Authorization.expired] using ha
      omega

end Access.Windowed

theorem GenesisConfig.build_account_none (g : GenesisConfig T)
    (hw : ∀ x ∈ g.accountAuthorizations, x.1 ≠ w) :
    g.build.authorizations.lookup (.account w) = none := by
  let I (g : Access T) : Prop := g.authorizations.lookup (.account w) = none
  have h₀ : I (empty g.retentionPeriod : State T).access := rfl
  have h₁ := foldl_access (I := I) buildAccount g.accountAuthorizations (fun _ x hx h =>
    (Finmap.lookup_insert_of_ne _ (by simpa using (hw x hx).symm)).trans h) h₀
  have h₂ := foldl_access (I := I) buildPreimage g.preimageAuthorizations (fun _ _ _ h =>
    (Finmap.lookup_insert_of_ne _ (by simp)).trans h) h₁
  refine foldl_access (I := I) buildAuthorizer g.allowedAuthorizers (fun _ x _ h => ?_) h₂
  rw [buildAuthorizer_access, Access.register]
  split <;> exact h

-- The renewed entries that an account was charged for and that are retained exceed the quotas of
-- `K + 1` windows at most by those that were prepaid.
theorem renewed_footprint (g : GenesisConfig T) (w : T.AccountId) (bytes K : Nat)
    (hw : ∀ x ∈ g.accountAuthorizations, x.1 ≠ w) (hb : bytes < u64Max)
    (hp : g.retentionPeriod = K * T.authorizationPeriod)
    (r : Runs Chain.step (Chain.fixed · ·) g.chain as c)
    (hg : ∀ e ∈ g.chain.history as, e.2.reopens w bytes) :
    let log := (g.chain.renewals as).filter (·.scope = .account w)
    c.footprint log ≤ (K + 1) * bytes + c.footprint (log.filter (·.prepaid)) ∧
      ((∀ r ∈ log, r.prepaid → c.state.transactionInfo r.block r.index = none) →
        c.footprint log ≤ (K + 1) * bytes) := by
  intro log
  have ⟨stop, h⟩ := Chain.runs_history (c := g.chain) (I := fun now g log =>
      (∀ e ∈ log, e.2.reopens w bytes) →
      ∃ stop, g.Windowed now w bytes (chargesSince (.account w) log) stop)
    (fun _ => ⟨0, Nat.zero_le _, Spread.zero, fun _ => Nat.zero_le _, fun a ha =>
      absurd ((g.build_account_none hw).symm.trans ha) nofun⟩)
    (fun {now g d g' log} h hd hr => by
      rw [List.forall_mem_append, List.forall_mem_singleton] at hr
      have ⟨_, h⟩ := h hr.left
      rw [chargesSince_concat]
      exact h.moves hb hd hr.right)
    (fun h _ hr => have ⟨stop, h⟩ := h hr; ⟨stop, h.next⟩) r hg
  have ⟨hc, ht⟩ := Chain.renewals_tracked r
  have hs := Renewed.sum_le (.account w) _ _ _ fun r hr => hc.retained_le (ht r hr)
  have hl := Chain.renewals_le (.account w) (c.state.blockNumber - g.retentionPeriod) r
  have hq : chargesSince (.account w) (g.chain.history as)
      (c.state.blockNumber - g.retentionPeriod) ≤ (K + 1) * bytes := hp ▸ h.spread.since_le h.le
  have hf : c.footprint log ≤ (K + 1) * bytes + c.footprint (log.filter (·.prepaid)) := by
    simp only [Chain.footprint, log]
    omega
  refine ⟨hf, fun hn => ?_⟩
  have h₀ : c.footprint (log.filter (·.prepaid)) = 0 := by
    refine List.sum_eq_zero fun n hm => ?_
    have ⟨r, hr, hm⟩ := List.mem_map.mp hm
    have ⟨hr, hp⟩ := List.mem_filter.mp hr
    rw [hn r hr hp] at hm
    exact hm.symm
  omega

-- Windows and the retention period are one block long, and in each block Root grants 3 bytes.
def Config.brief : Config :=
  { Config.mock with
    authorizationPeriod     := 1
    authorizationPeriod_pos := by decide
    authorizationPeriod_le  := by decide }

namespace Action

def grant : Action .brief :=
  .dispatch .root (.transactionStorage (.authorizeAccount (7 : Nat) 5 3))

def prove (chunk : List UInt8) : Action .brief :=
  .extrinsic (.unsigned (.transactionStorage (.applyBlockInherents (some ⟨chunk, ()⟩))))

def force (block : Nat) : Action .brief :=
  .extrinsic (.signed (7 : Nat) (.dataRenewal (.forceRenew (.position block 0))))

end Action

-- Every renewal is charged in the block in which it is delivered.
def successive : List (Action .brief) := [
  .onInitialize [] 0, .grant,
  .dispatch .root (.transactionStorage (.store ⟨[1, 2, 3], length_blob_lt⟩)),
  .onFinalize,
  .onInitialize [] 0, .prove [1, 2, 3], .grant, .force 1,
  .onFinalize,
  .onInitialize [] 0, .prove [1, 2, 3], .grant, .force 2,
  .onFinalize]

-- At the end of block 3 both renewals are retained, and the bound is met exactly.
theorem renewed_footprint_successive :
    let g : GenesisConfig .brief := ⟨1, [], [], []⟩
    let log := (g.chain.renewals successive).filter (·.scope = .account (7 : Nat))
    ∃ c, Runs Chain.step (Chain.fixed · ·) g.chain successive c ∧
      (∀ r ∈ log, ¬r.prepaid) ∧ c.footprint log ≤ (1 + 1) * 3 ∧ c.footprint log = 6 := by
  intro g log
  have ⟨c, r, hf⟩ := Runs.exists_of_any Chain.step Chain.fixed g.chain successive
    (fun c => c.footprint log = 6) (by decide +kernel)
  have hn : ∀ r ∈ log, ¬r.prepaid := by decide +kernel
  have h := renewed_footprint g (7 : Nat) 3 1 nofun (by decide) rfl r (by decide +kernel)
  exact ⟨c, r, hn, h.right fun r hr hp => absurd hp (hn r hr), hf⟩

-- The bytes are spent on a renewal that is registered in block 2 and delivered in block 3, on one in
-- block 3 and on one in block 4.
def overlapping : List (Action .brief) := [
  .onInitialize [] 0, .grant,
  .dispatch .root (.transactionStorage (.store ⟨[1, 2, 3], length_blob_lt⟩)),
  .onFinalize,
  .onInitialize [] 0, .prove [1, 2, 3], .grant,
  .extrinsic (.signed (7 : Nat) (.dataRenewal (.renew (.position 1 0)))),
  .dispatch .root (.transactionStorage (.store ⟨[4, 5, 6], by decide⟩)),
  .onFinalize,
  .onInitialize [] 0, .prove [4, 5, 6],
  .extrinsic (.unsigned (.dataRenewal .processPendingRenewals)), .grant, .force 2,
  .onFinalize,
  .onInitialize [] 0, .prove [1, 2, 3], .grant, .force 3,
  .onFinalize]

-- At the end of block 4 all three renewals are retained.
theorem renewed_footprint_exceeded :
    let g : GenesisConfig .brief := ⟨1, [], [], []⟩
    ∃ c, Runs Chain.step (Chain.fixed · ·) g.chain overlapping c ∧ ¬c.inBlock ∧
      (∀ e ∈ g.chain.history overlapping, e.2.reopens (7 : Nat) 3) ∧
      c.footprint ((g.chain.renewals overlapping).filter (·.scope = .account (7 : Nat))) = 9 ∧
      (1 + 1) * 3 < 9 := by
  intro g
  have ⟨c, r, hb, hf⟩ := Runs.exists_of_any Chain.step Chain.fixed g.chain overlapping
    (fun c => ¬c.inBlock ∧
      c.footprint ((g.chain.renewals overlapping).filter (·.scope = .account (7 : Nat))) = 9)
    (by decide +kernel)
  exact ⟨c, r, hb, by decide +kernel, hf, by decide⟩

end Bulletin
