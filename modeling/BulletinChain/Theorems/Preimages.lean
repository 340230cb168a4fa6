import BulletinChain.Theorems.Quotas

namespace Bulletin

open Machine Except Deed

variable {T : Config}

-- The largest cap that a scope had in its current window, after one more deed.
def Deed.widest (scope : AuthorizationScope T) (n : Nat) : Deed T → Nat
  | .granted _ s _ bytes opens => if s = scope then (if opens then bytes else max n bytes) else n
  | _                          => n

def windowCap (scope : AuthorizationScope T) (n : Nat) (log : List (Nat × Deed T)) : Nat :=
  log.foldl (fun n e => e.2.widest scope n) n

-- The grants for a content, the latest one first, each with its cap and the sizes of the stores that
-- were charged to it.
def Deed.use (hash : T.ContentHash) (uses : List (Nat × List Nat)) :
    Deed T → List (Nat × List Nat)
  | .granted _ scope _ bytes _ => if scope = .preimage hash then (bytes, []) :: uses else uses
  | .stored scope size         =>
    if scope = .preimage hash then uses.modifyHead fun u => (u.1, size :: u.2) else uses
  | _                          => uses

def usesOf (hash : T.ContentHash) (log : List (Nat × Deed T)) : List (Nat × List Nat) :=
  log.foldl (fun uses e => e.2.use hash uses) []

-- A store would stay within the limits of the authorization, which `check_authorization` leaves to
-- the priority of the transaction.
def Authorization.affordsStore (a : Authorization) (size : Nat) : Bool :=
  a.extent.transactions < a.extent.transactionsAllowance &&
    a.extent.bytes + size ≤ a.extent.bytesAllowance

-- The stores that an action charges to a content stay within the limits of its authorization.
def Chain.withinLimits (hash : T.ContentHash) (c : Chain T) (a : Action T) : Bool :=
  (c.deeds a).all fun
    | .stored scope size => scope ≠ .preimage hash ||
      (c.state.authorizations.lookup scope).any (·.affordsStore size)
    | _ => true

-- A grant for a content whose authorization is active does not lower its cap.
def Deed.raises (g : Access T) : Deed T → Bool
  | .granted _ (.preimage hash) _ bytes false =>
    (g.authorizations.lookup (.preimage hash)).all (·.extent.bytesAllowance ≤ bytes)
  | _ => true

def Chain.raises (c : Chain T) (a : Action T) : Bool :=
  (c.deeds a).all (·.raises c.state.access)

-- The bytes that a content has counted are within its cap.
def Access.WithinCap (g : Access T) (hash : T.ContentHash) : Prop :=
  ∀ a, g.authorizations.lookup (.preimage hash) = some a → a.used ≤ a.cap

variable {g g' : Access T} {scope : AuthorizationScope T} {hash : T.ContentHash} {d : Deed T}
  {log : List (Nat × Deed T)} {a : Authorization}

namespace Deed

theorem widest_of_target_ne (h : d.target ≠ some scope) : d.widest scope n = n := by
  cases d <;> simp_all [widest, target]

-- Neither the cap of a content nor the bytes that it has counted exceed the largest cap.
theorem Moves.le_widest
    (h : ∀ a, g.authorizations.lookup (.preimage hash) = some a → a.used ≤ n ∧ a.cap ≤ n)
    (m : Moves now g (.preimage hash) d e) :
    ∀ a, e = some a →
      a.used ≤ d.widest (.preimage hash) n ∧ a.cap ≤ d.widest (.preimage hash) n := by
  intro a ha
  cases m
  case aside hd => exact widest_of_target_ne hd ▸ h a ha
  case stored hl =>
    cases ha
    have h := h _ (Access.active_eq_some.mp hl).left
    exact h
  case renewed hl hr =>
    cases ha
    have ⟨_, hc⟩ := h _ (Access.active_eq_some.mp hl).left
    exact ⟨hr.trans hc, hc⟩
  case opened =>
    cases ha
    simp only [widest, if_true]
    exact ⟨Nat.zero_le _, Nat.le_refl _⟩
  case added hl =>
    cases ha
    have ⟨hu, _⟩ := h _ (Access.active_eq_some.mp hl).left
    simp only [widest, if_true, Bool.false_eq_true, if_false]
    exact ⟨hu.trans (Nat.le_max_left ..), Nat.le_max_right ..⟩
  case refreshed hl =>
    cases ha
    have h := h _ hl
    exact h
  case removed => contradiction

-- As long as no grant lowers the cap, the bytes that were counted stay within it.
theorem Moves.used_le_cap (h : g.WithinCap hash) (hr : d.raises g)
    (m : Moves now g (.preimage hash) d e) : ∀ a, e = some a → a.used ≤ a.cap := by
  intro a ha
  cases m
  case aside => exact h a ha
  case stored hl =>
    cases ha
    have h := h _ (Access.active_eq_some.mp hl).left
    exact h
  case renewed hl hs =>
    cases ha
    exact hs
  case opened =>
    cases ha
    exact Nat.zero_le _
  case added b _ hl =>
    cases ha
    have hl := (Access.active_eq_some.mp hl).left
    simp only [raises, hl, Option.all_some, decide_eq_true_eq] at hr
    exact (h _ hl).trans hr
  case refreshed hl =>
    cases ha
    have h := h _ hl
    exact h
  case removed => contradiction

-- The deeds that are no grants for a content raise all there is to raise.
def isPreimageGrant : Deed T → Bool
  | .granted _ (.preimage _) _ _ _ => true
  | _                              => false

theorem raises_of_not_isPreimageGrant (h : ¬d.isPreimageGrant) (g : Access T) : d.raises g := by
  cases d
  case granted scope _ _ opens =>
    cases scope
    case account  => rfl
    case preimage => exact absurd rfl h
  all_goals rfl

theorem Follows.withinCap {ds : List (Deed T)} (hf : Follows now g ds g')
    (hg : ∀ d ∈ ds, ¬d.isPreimageGrant) (h : g.WithinCap hash) : g'.WithinCap hash := by
  induction hf
  case nil => exact h
  case cons hd _ hi =>
    rw [List.forall_mem_cons] at hg
    exact hi hg.right ((hd.moves _).used_le_cap h (raises_of_not_isPreimageGrant hg.left _))

end Deed

namespace State

theorem pendingDeeds_renewed (x : Nat) (s : State T) (items : List (Pending T)) :
    ∀ d ∈ pendingDeeds x s items, ∃ scope size, d = .renewed scope size := by
  induction items generalizing s
  case nil => exact List.forall_mem_nil _
  case cons item items hi =>
    obtain ⟨_, info, data⟩ := item
    simp only [pendingDeeds, List.forall_mem_append, pendingDeed]
    refine ⟨?_, hi _⟩
    split
    case isTrue  => simp
    case isFalse => exact List.forall_mem_nil _

end State

namespace RuntimeCall

-- Only `authorize_preimage` grants for a content, and it does nothing else.
theorem eq_authorizePreimage {s : State T} {call : RuntimeCall T} (h : d ∈ call.deeds s origin)
    (hg : d.isPreimageGrant) :
    ∃ hash maxSize, call = .transactionStorage (.authorizePreimage hash maxSize) := by
  cases call
  case transactionStorage call =>
    cases call
    case authorizePreimage => exact ⟨_, _, rfl⟩
    case removeAuthorizer =>
      simp only [deeds, TransactionStorage.Call.deeds] at h
      split at h
      case isTrue  => cases List.mem_singleton.mp h; contradiction
      case isFalse => contradiction
    all_goals
      first
      | contradiction
      | cases List.mem_singleton.mp h; contradiction
  case dataRenewal call =>
    cases call
    case processPendingRenewals =>
      simp only [deeds, State.drainDeeds] at h
      split at h
      case h_1 =>
        obtain ⟨_, _, rfl⟩ := State.pendingDeeds_renewed _ _ _ d h
        contradiction
      case h_2 => contradiction
    all_goals contradiction
  all_goals contradiction

theorem dispatchDeeds_eq_of_grant {s : State T} {call : RuntimeCall T}
    (h : d ∈ call.dispatchDeeds s origin) (hg : d.isPreimageGrant) :
    (∃ hash maxSize, call = .transactionStorage (.authorizePreimage hash maxSize)) ∧
      call.dispatchDeeds s origin = [d] := by
  simp only [dispatchDeeds] at h ⊢
  split at h
  case h_1 hd =>
    obtain ⟨hash, maxSize, rfl⟩ := eq_authorizePreimage h hg
    cases List.mem_singleton.mp h
    exact ⟨⟨_, _, rfl⟩, rfl⟩
  case h_2 => contradiction

end RuntimeCall

namespace Chain

variable {c c' : Chain T} {action : Action T}

theorem deeds_eq_of_grant (h : d ∈ c.deeds action) (hg : d.isPreimageGrant) :
    c.deeds action = [d] := by
  cases action
  case extrinsic x =>
    simp only [deeds, Extrinsic.deeds] at h ⊢
    split at h
    case h_2 => contradiction
    case h_1 origin s₁ _ =>
      have hp : d ∉ x.call.payments c.state (x.payer origin c.state) := by
        intro hm
        simp only [RuntimeCall.payments] at hm
        split at hm
        case h_1 =>
          split at hm <;> cases List.mem_singleton.mp hm <;> contradiction
        case h_2 => contradiction
      obtain hm | hm := List.mem_append.mp h
      · exact absurd hm hp
      · obtain ⟨⟨_, _, hc⟩, hd⟩ := RuntimeCall.dispatchDeeds_eq_of_grant hm hg
        rw [hd, hc]
        simp [RuntimeCall.payments, RuntimeCall.subject, TransactionStorage.Call.content]
  case dispatch origin call => exact (RuntimeCall.dispatchDeeds_eq_of_grant h hg).right
  all_goals contradiction

-- A step that lowers no cap leaves the counted bytes of every content within its cap.
theorem step_withinCap (h : c.state.access.WithinCap hash) (hr : c.raises action)
    (hs : c.step action = some c') : c'.state.access.WithinCap hash := by
  obtain ⟨hf, _⟩ | ⟨_, ha, _, _⟩ := step_advances hs
  case opens => rwa [ha]
  case acts =>
    by_cases hg : ∃ d ∈ c.deeds action, d.isPreimageGrant
    case neg => exact hf.withinCap (fun d hd hi => hg ⟨d, hd, hi⟩) h
    case pos =>
      obtain ⟨d, hd, hg⟩ := hg
      rw [raises, List.all_eq_true] at hr
      rw [deeds_eq_of_grant hd hg] at hf
      exact (hf.does.moves _).used_le_cap h (hr d hd)

theorem withinCap_of_runs {guard : Chain T → Action T → Prop} {g : GenesisConfig T}
    (hr : ∀ c a, guard c a → c.raises a) (r : Runs step guard g.chain as c) :
    c.state.access.WithinCap hash := by
  refine r.invariant (·.state.access.WithinCap hash) (fun a ha => ?_)
    (fun h hg hs => step_withinCap h (hr _ _ hg) hs)
  obtain ⟨_, _, hf⟩ := g.build_fresh ha
  subst hf
  exact Nat.zero_le _

end Chain

-- A grant to a content whose authorization is active.
theorem State.authorizePreimage_of_active {s s' : State T}
    (ha : s.activeAuthorization (.preimage hash) = some a)
    (h : s.authorizePreimage origin hash maxSize = ok s') :
    s'.authorizations.lookup (.preimage hash) = some { a with extent := { a.extent with
      bytesAllowance        := maxSize
      transactionsAllowance := 1 } } := by
  have hf : Follows s.blockNumber s.access
      (TransactionStorage.Call.deeds s origin (.authorizePreimage hash maxSize)) s'.access :=
    TransactionStorage.dispatch_follows h
  simp only [TransactionStorage.Call.deeds, ha, Option.isNone_some] at hf
  have m := hf.does.moves (.preimage hash)
  change Moves _ _ _ _ (s'.authorizations.lookup _) at m
  generalize s'.authorizations.lookup _ = e at m
  cases m
  case aside h => exact absurd rfl h
  case added hl _ =>
    cases hl.symm.trans ha
    rfl

-- A grant for a content replaces the cap of an active one, upwards or downwards, and leaves what it
-- has used and its end alone. So it raises the cap exactly if it is for no less. The renewed bytes of an
-- account are within its cap, and those of a content within the largest cap that it had in its window,
-- which is its cap as long as no grant lowers it.
theorem preimage_regrant_replaces {guard : Chain T → Action T → Prop} (g : GenesisConfig T)
    (r : Runs Chain.step guard g.chain as c) :
    (∀ origin hash maxSize a s', c.state.activeAuthorization (.preimage hash) = some a →
      c.state.authorizePreimage origin hash maxSize = ok s' →
      s'.authorizations.lookup (.preimage hash) = some { a with extent := { a.extent with
        bytesAllowance        := maxSize
        transactionsAllowance := 1 } }) ∧
    (∀ origin hash maxSize a s', c.state.activeAuthorization (.preimage hash) = some a →
      c.state.authorizePreimage origin hash maxSize = ok s' →
      ((s'.authorizations.lookup (.preimage hash)).map (·.extent.bytesAllowance) =
          some (max a.extent.bytesAllowance maxSize) ↔
        a.extent.bytesAllowance ≤ maxSize)) ∧
    (∀ w a, c.state.authorizations.lookup (.account w) = some a →
      a.extent.extra.bytesPermanent ≤ a.extent.bytesAllowance) ∧
    (∀ hash a, c.state.authorizations.lookup (.preimage hash) = some a →
      a.extent.extra.bytesPermanent ≤ windowCap (.preimage hash)
        ((g.build.authorizations.lookup (.preimage hash)).elim 0 (·.extent.bytesAllowance))
        (g.chain.history as)) ∧
    ((∀ c a, guard c a → c.raises a) → ∀ hash a,
      c.state.authorizations.lookup (.preimage hash) = some a →
      a.extent.extra.bytesPermanent ≤ a.extent.bytesAllowance) := by
  refine ⟨fun _ _ _ _ _ => State.authorizePreimage_of_active, fun _ _ _ a _ ha h => ?_, ?_,
    fun hash a ha => ?_, fun hr hash a ha => Chain.withinCap_of_runs hr r a ha⟩
  · rw [State.authorizePreimage_of_active ha h, Option.map_some, Option.some.injEq, eq_comm,
      max_eq_right_iff]
  · exact fun _ _ ha => (Chain.counts_of_runs r ha).le_cap
  · generalize hn : Option.elim _ _ _ = n
    refine (Chain.runs_history (I := fun _ g' log =>
        ∀ a, g'.authorizations.lookup (.preimage hash) = some a →
          a.used ≤ windowCap (.preimage hash) n log ∧ a.cap ≤ windowCap (.preimage hash) n log)
      (fun a ha => ?_) (fun h hd => ?_) (fun h _ => h) r a ha).left
    · have ⟨_, _, hf⟩ := g.build_fresh ha
      subst hf
      rw [show g.build.authorizations.lookup (.preimage hash) = some _ from ha] at hn
      subst hn
      exact ⟨Nat.zero_le _, Nat.le_refl _⟩
    · simpa [windowCap] using (hd.moves (.preimage hash)).le_widest h

-- A content is stored and renewed at the expense of its grant, which is then raised, or lowered.
def regranting (maxSize : Nat) : List (Action .mock) := [
  .onInitialize [] 0,
  .dispatch .root (.transactionStorage (.authorizePreimage [1, 2, 3] 10)),
  .extrinsic (.unsigned (.transactionStorage (.store ⟨[1, 2, 3], length_blob_lt⟩))),
  .onFinalize,
  .onInitialize [] 0,
  .extrinsic (.unsigned (.dataRenewal (.forceRenew (.position 1 0)))),
  .dispatch .root (.transactionStorage (.authorizePreimage [1, 2, 3] maxSize))]

theorem preimage_regrant_replaces_raising :
    let g : GenesisConfig .mock := ⟨3, [], [], []⟩
    ∃ c a, Runs Chain.step (Chain.raises · ·) g.chain (regranting 12) c ∧
      c.state.authorizations.lookup (.preimage [1, 2, 3]) = some a ∧
      a.extent.extra.bytesPermanent = 3 ∧ a.extent.bytesAllowance = 12 ∧
      a.extent.extra.bytesPermanent ≤ a.extent.bytesAllowance := by
  intro g
  have ⟨c, r, h⟩ := Runs.exists_of_any Chain.step Chain.raises g.chain (regranting 12)
    (fun c => c.state.authorizations.lookup (.preimage [1, 2, 3]) =
      some ⟨⟨2, 1, 3, ⟨3⟩, 12⟩, 11⟩) (by decide +kernel)
  obtain ⟨_, _, _, _, hr⟩ := preimage_regrant_replaces g r
  exact ⟨c, _, r, h, rfl, rfl, hr (fun _ _ h => h) [1, 2, 3] _ h⟩

-- The cap is 2 and not 10 after the second grant, while 3 bytes have been renewed.
theorem preimage_regrant_lowers :
    let g : GenesisConfig .mock := ⟨3, [], [], []⟩
    ∃ c₁ c₂ a₁ a₂, Runs Chain.step (fun _ _ => true) g.chain ((regranting 2).take 6) c₁ ∧
      Runs Chain.step (fun _ _ => true) g.chain (regranting 2) c₂ ∧
      c₁.state.activeAuthorization (.preimage [1, 2, 3]) = some a₁ ∧
      c₂.state.authorizations.lookup (.preimage [1, 2, 3]) = some a₂ ∧
      a₂.extent.bytesAllowance ≠ max a₁.extent.bytesAllowance 2 ∧
      a₂.extent.bytesAllowance < a₂.extent.extra.bytesPermanent := by
  intro g
  have ⟨c₁, r₁, h₁⟩ := Runs.exists_of_any Chain.step (fun _ _ => true) g.chain ((regranting 2).take 6)
    (fun c => c.state.activeAuthorization (.preimage [1, 2, 3]) =
      some ⟨⟨2, 1, 3, ⟨3⟩, 10⟩, 11⟩) (by decide +kernel)
  have ⟨c₂, r₂, h₂⟩ := Runs.exists_of_any Chain.step (fun _ _ => true) g.chain (regranting 2)
    (fun c => c.state.authorizations.lookup (.preimage [1, 2, 3]) =
      some ⟨⟨2, 1, 3, ⟨3⟩, 2⟩, 11⟩) (by decide +kernel)
  exact ⟨c₁, c₂, _, _, r₁, r₂, h₁, h₂, by decide, by decide⟩

-- The uses of the grants for a content, and the authorization that the latest of them left.
structure Access.Uses (g : Access T) (hash : T.ContentHash) (uses : List (Nat × List Nat)) : Prop where
  limited : ∀ use ∈ uses, use.2.length ≤ 1 ∧ ∀ size ∈ use.2, size ≤ use.1
  latest  : ∀ use ∈ uses.head?, ∀ a, g.authorizations.lookup (.preimage hash) = some a →
    a.extent.transactionsAllowance = 1 ∧ a.cap = use.1 ∧ (use.2 ≠ [] → 0 < a.extent.transactions)

namespace Access.Uses

variable {uses : List (Nat × List Nat)}

-- Only a grant and a store are uses.
theorem moves (h : g.Uses hash uses) (hd : Does now g d g')
    (hs : ∀ size, d = .stored (.preimage hash) size →
      ∃ a, g.authorizations.lookup (.preimage hash) = some a ∧ a.affordsStore size)
    (hg : ∀ origin transactions bytes opens,
      d = .granted origin (.preimage hash) transactions bytes opens → transactions = 1) :
    g'.Uses hash (d.use hash uses) := by
  have m := hd.moves (.preimage hash)
  generalize hl : g'.authorizations.lookup (.preimage hash) = e at m
  cases m
  case aside ht =>
    have hu : d.use hash uses = uses := by
      cases d <;> simp_all [Deed.use, target]
    rw [hu]
    exact ⟨h.limited, fun use hu a ha => h.latest use hu a (hl ▸ ha)⟩
  case stored a size ha =>
    obtain ⟨a', ha', hf⟩ := hs size rfl
    cases (Access.active_eq_some.mp ha).left.symm.trans ha'
    simp only [Authorization.affordsStore, Bool.and_eq_true, decide_eq_true_eq] at hf
    simp only [Deed.use, if_true]
    cases uses
    case nil => exact ⟨List.forall_mem_nil _, fun _ hu => by cases hu⟩
    case cons use uses =>
      obtain ⟨ht, hc, hn⟩ := h.latest use rfl a ha'
      have he : use.2 = [] := by
        by_contra he
        have := hn he
        omega
      refine ⟨?_, ?_⟩
      · simp only [List.modifyHead_cons, List.forall_mem_cons]
        refine ⟨?_, fun u hu => h.limited u (List.mem_cons_of_mem _ hu)⟩
        rw [he]
        simp only [Authorization.cap] at hc
        refine ⟨Nat.le_refl _, ?_, List.forall_mem_nil _⟩
        omega
      · intro use' hu a' ha'
        cases hu
        cases hl.symm.trans ha'
        refine ⟨ht, hc, fun _ => ?_⟩
        exact saturatingAdd_pos (by decide) (by decide)
  case renewed a size ha hr =>
    refine ⟨h.limited, fun use hu a' ha' => ?_⟩
    cases hl.symm.trans ha'
    obtain ⟨ht, hc, _⟩ := h.latest use hu a (Access.active_eq_some.mp ha).left
    exact ⟨ht, hc, fun _ => saturatingAdd_pos (by decide) (by decide)⟩
  case opened | added =>
    simp only [Deed.use, if_true]
    refine ⟨?_, fun use hu a ha => ?_⟩
    · simpa using h.limited
    · cases hu
      cases hl.symm.trans ha
      exact ⟨hg _ _ _ _ rfl, rfl, (absurd rfl ·)⟩
  case refreshed ha =>
    refine ⟨h.limited, fun use hu a' ha' => ?_⟩
    cases hl.symm.trans ha'
    have h := h.latest use hu _ ha
    exact h
  case removed =>
    exact ⟨h.limited, fun _ _ _ ha => by cases hl.symm.trans ha⟩

end Access.Uses

-- A grant for a content is for one transaction.
def Deed.isSingle : Deed T → Bool
  | .granted _ (.preimage _) transactions _ _ => transactions = 1
  | _                                         => true

-- The deeds of a dispatch: none of them is a store.
def Deed.isDispatched : Deed T → Bool
  | .stored .. => false
  | d          => d.isSingle

namespace Deed

theorem isSingle_of_isDispatched (h : d.isDispatched) : d.isSingle := by
  cases d
  case stored => contradiction
  all_goals exact h

end Deed

namespace State

theorem pendingDeeds_isDispatched (x : Nat) (s : State T) (items : List (Pending T)) :
    ∀ d ∈ pendingDeeds x s items, d.isDispatched := by
  intro d hd
  obtain ⟨_, _, rfl⟩ := pendingDeeds_renewed x s items d hd
  rfl

end State

namespace RuntimeCall

variable {s : State T} {origin : Origin T} {call : RuntimeCall T}

theorem deeds_isDispatched : ∀ d ∈ call.deeds s origin, d.isDispatched := by
  cases call
  case transactionStorage call =>
    cases call
    case removeAuthorizer =>
      simp only [deeds, TransactionStorage.Call.deeds]
      split <;> simp [isDispatched, isSingle]
    all_goals simp [deeds, TransactionStorage.Call.deeds, isDispatched, isSingle]
  case dataRenewal call =>
    cases call
    case processPendingRenewals =>
      simp only [deeds, State.drainDeeds]
      split
      case h_1 => exact State.pendingDeeds_isDispatched _ _ _
      case h_2 => exact List.forall_mem_nil _
    all_goals exact List.forall_mem_nil _
  all_goals exact List.forall_mem_nil _

theorem dispatchDeeds_isDispatched : ∀ d ∈ call.dispatchDeeds s origin, d.isDispatched := by
  simp only [dispatchDeeds]
  split
  case h_1 => exact deeds_isDispatched
  case h_2 => exact List.forall_mem_nil _

-- At most one deed comes before those of the dispatch.
theorem payments_cases (s : State T) (payer : Option (AuthorizationScope T)) (call : RuntimeCall T) :
    call.payments s payer = [] ∨ ∃ d, d.isSingle ∧ call.payments s payer = [d] := by
  simp only [payments]
  split
  case h_1 =>
    right
    cases call <;> exact ⟨_, rfl, rfl⟩
  case h_2 => exact .inl rfl

end RuntimeCall

namespace Chain

variable {c c' : Chain T} {action : Action T}

theorem deeds_cases (c : Chain T) (action : Action T) :
    c.deeds action = [] ∨
      ∃ d ds, c.deeds action = d :: ds ∧ d.isSingle ∧ ∀ d ∈ ds, d.isDispatched := by
  have hd (call : RuntimeCall T) (s : State T) (origin : Origin T) :
      call.dispatchDeeds s origin = [] ∨ ∃ d ds, call.dispatchDeeds s origin = d :: ds ∧
        d.isSingle ∧ ∀ d ∈ ds, d.isDispatched := by
    have h : ∀ d ∈ call.dispatchDeeds s origin, d.isDispatched :=
      RuntimeCall.dispatchDeeds_isDispatched
    cases hs : call.dispatchDeeds s origin <;> rw [hs] at h
    case nil => exact .inl rfl
    case cons d ds =>
      rw [List.forall_mem_cons] at h
      exact .inr ⟨d, ds, rfl, isSingle_of_isDispatched h.left, h.right⟩
  cases action
  case extrinsic x =>
    simp only [deeds, Extrinsic.deeds]
    split
    case h_2 => exact .inl rfl
    case h_1 origin s₁ _ =>
      obtain hp | ⟨d, h, hp⟩ := RuntimeCall.payments_cases c.state (x.payer origin c.state) x.call
      · rw [hp]
        exact hd x.call s₁ origin
      · rw [hp]
        exact .inr ⟨d, _, rfl, h, RuntimeCall.dispatchDeeds_isDispatched⟩
  case dispatch origin call => exact hd call c.state origin
  all_goals exact .inl rfl

end Chain

namespace Access.Uses

variable {uses : List (Nat × List Nat)} {ds : List (Deed T)}

theorem dispatched (h : g.Uses hash uses) (hf : Follows now g ds g')
    (hs : ∀ d ∈ ds, d.isDispatched) :
    g'.Uses hash (ds.foldl (fun uses d => d.use hash uses) uses) := by
  induction hf generalizing uses
  case nil => exact h
  case cons d _ hd _ hi =>
    rw [List.forall_mem_cons] at hs
    refine hi (h.moves hd ?_ ?_) hs.right
    · rintro _ rfl
      exact absurd hs.left nofun
    · rintro _ _ _ _ rfl
      simpa [isDispatched, isSingle] using hs.left

theorem step {c c' : Chain T} {action : Action T} (h : c.state.access.Uses hash uses)
    (hw : c.withinLimits hash action) (hs : c.step action = some c') :
    c'.state.access.Uses hash ((c.deeds action).foldl (fun uses d => d.use hash uses) uses) := by
  obtain ⟨hf, _⟩ | ⟨hd, ha, _, _⟩ := Chain.step_advances hs
  case opens => rwa [hd, ha]
  case acts =>
    simp only [Chain.withinLimits] at hw
    obtain hd | ⟨d, ds, hd, hg, hr⟩ := c.deeds_cases action <;> rw [hd] at hf hw ⊢
    · rwa [hf.nil_eq]
    · obtain _ | ⟨hd, hf⟩ := hf
      rw [List.all_cons, Bool.and_eq_true] at hw
      refine (h.moves hd ?_ ?_).dispatched hf hr
      · rintro size rfl
        have ha := hw.left
        simp only [ne_eq, not_true_eq_false, decide_false, Bool.false_or] at ha
        exact (Option.any_eq_true ..).mp ha
      · rintro _ _ _ _ rfl
        simpa [isSingle] using hg

end Access.Uses

-- A grant for a content is used at most once, and for no more than its cap, as long as the stores that
-- it pays for stay within its limits.
theorem preimage_single_shot (g : GenesisConfig T) (hash : T.ContentHash)
    (r : Runs Chain.step (Chain.withinLimits hash · ·) g.chain as c) :
    ∀ use ∈ usesOf hash (g.chain.history as), use.2.length ≤ 1 ∧ ∀ size ∈ use.2, size ≤ use.1 := by
  have h : c.state.access.Uses hash (usesOf hash ([] ++ g.chain.history as)) :=
    Runs.log_invariant (fun c log => c.state.access.Uses hash (usesOf hash log))
      ⟨by simp [usesOf], by simp [usesOf]⟩
      (fun h hw hs => by simpa [usesOf, List.foldl_map] using h.step hw hs) r
  exact h.limited

-- A content is stored at the expense of its grant and granted anew.
def singleShot : List (Action .mock) := [
  .onInitialize [] 0,
  .dispatch .root (.transactionStorage (.authorizePreimage [1, 2, 3] 3)),
  .extrinsic (.unsigned (.transactionStorage (.store ⟨[1, 2, 3], length_blob_lt⟩))),
  .dispatch .root (.transactionStorage (.authorizePreimage [1, 2, 3] 10))]

theorem preimage_single_shot_once :
    let g : GenesisConfig .mock := ⟨3, [], [], []⟩
    usesOf [1, 2, 3] (g.chain.history singleShot) = [(10, []), (3, [3])] ∧
      ∀ use ∈ usesOf [1, 2, 3] (g.chain.history singleShot),
        use.2.length ≤ 1 ∧ ∀ size ∈ use.2, size ≤ use.1 := by
  intro g
  have ⟨c, r, _⟩ := Runs.exists_of_any Chain.step (Chain.withinLimits [1, 2, 3]) g.chain singleShot
    (fun _ => true) (by decide +kernel)
  exact ⟨by decide +kernel, preimage_single_shot g [1, 2, 3] r⟩

-- The limits are soft: a grant for one byte pays for two stores of three bytes.
theorem preimage_spent_twice :
    let g : GenesisConfig .mock := ⟨3, [], [], []⟩
    let as : List (Action .mock) := [
      .onInitialize [] 0,
      .dispatch .root (.transactionStorage (.authorizePreimage [1, 2, 3] 1)),
      .extrinsic (.unsigned (.transactionStorage (.store ⟨[1, 2, 3], by decide⟩))),
      .extrinsic (.unsigned (.transactionStorage (.store ⟨[1, 2, 3], by decide⟩)))]
    (∃ c, Runs Chain.step (fun _ _ => true) g.chain as c) ∧
      usesOf [1, 2, 3] (g.chain.history as) = [(1, [3, 3])] := by
  intro g as
  have ⟨c, r, _⟩ := Runs.exists_of_any Chain.step (fun _ _ => true) g.chain as (fun _ => true)
    (by decide +kernel)
  exact ⟨⟨c, r⟩, by decide +kernel⟩

end Bulletin
