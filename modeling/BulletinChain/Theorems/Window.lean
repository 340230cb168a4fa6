import BulletinChain.Theorems.ChunkProof

namespace Bulletin

open Machine Except

variable {T : Config} {D : Set Content} {l l' : Ledger T} {es : List (TransactionInfo T)}

theorem Opened.retentionPeriod (h : Opened l l') : l'.retentionPeriod = l.retentionPeriod := by
  cases h <;> rfl

theorem Grows.retentionPeriod {P : TransactionInfo T → Prop} (h : Grows P l l') :
    l'.retentionPeriod = l.retentionPeriod := by
  cases h <;> rfl

theorem Serves.retentionPeriod (h : Serves l items l') :
    l'.retentionPeriod = l.retentionPeriod := by
  induction h
  case nil         => rfl
  case cons h _ hi => exact hi.trans h.grows.retentionPeriod

theorem Ledger.sealBlock_retentionPeriod : (l.sealBlock n).retentionPeriod = l.retentionPeriod := by
  simp only [sealBlock]
  split <;> rfl

namespace Chain

variable {c c' : Chain T} {a : Action T}

-- No action changes the retention period.
def fixed (c : Chain T) : Action T → Bool
  | .setRetentionPeriod period => c.ledger.retentionPeriod = period
  | _                          => true

theorem steady_of_fixed (g : c.fixed a) : c.steady a := by
  cases a
  case setRetentionPeriod => exact decide_eq_true (of_decide_eq_true g).le
  all_goals rfl

theorem Evolves.retentionPeriod (e : Evolves D c a c') (g : c.fixed a) :
    c'.ledger.retentionPeriod = c.ledger.retentionPeriod := by
  obtain ⟨_, _, ho⟩ | ⟨_, hl⟩ | ⟨_, _, _, he⟩ | ⟨_, _, _, hs⟩ | ⟨_, hl⟩ | ⟨_, _, _, hl⟩ := e
  case opened   => exact ho.retentionPeriod
  case idle     => rw [hl]
  case called   => exact he.grows.retentionPeriod
  case drained  => exact hs.retentionPeriod
  case extended => exact (congrArg _ hl).trans (of_decide_eq_true g).symm
  case sealed   => rw [hl, Ledger.sealBlock_retentionPeriod]

-- What holds of every chain whose retention period stays what it is at genesis.
structure Paced (period : Nat) (c : Chain T) : Prop extends c.Sound Set.univ where
  period : c.ledger.retentionPeriod = period
  ready  : c.Ready

theorem Evolves.tracked (e : Evolves Set.univ c a c') (s : c.Sound Set.univ) (g : c.fixed a)
    (t : c.log.Tracked b i info) : c'.log.Tracked b i info :=
  t.steps s.log (e.steps s.holds.current.ne_zero_iff s.log (steady_of_fixed g)) (e.retentionPeriod g)

theorem runs_fixed {I : Chain T → Prop} {as : List (Action T)} {p : Nat} (h : c.Paced p) (hi : I c)
    (hs : ∀ {c a c'}, c.Sound Set.univ → I c → c.fixed a → Evolves Set.univ c a c' → I c')
    (r : Runs step (fixed · ·) c as c') : I c' ∧ c'.Paced p := by
  have r : Runs step (fun c a => c.fixed a ∧ ∀ x ∈ a.content, x ∈ Set.univ) c as c' :=
    r.mono fun g => ⟨g, fun _ _ => trivial⟩
  have ⟨⟨hi, s, hp⟩, r⟩ := runs_invariant
    (I := fun c => I c ∧ c.Sound Set.univ ∧ c.ledger.retentionPeriod = p) h.ready
    ⟨hi, h.toSound, h.period⟩
    (fun ⟨hi, s, hp⟩ g e =>
      ⟨hs s hi g e, e.sound s (steady_of_fixed g), (e.retentionPeriod g).trans hp⟩) r
  exact ⟨hi, ⟨s, hp, r⟩⟩

theorem paced_of_runs {g : GenesisConfig T} {as : List (Action T)}
    (r : Runs step (fixed · ·) g.chain as c) : c.Paced g.retentionPeriod :=
  have hp : g.chain.ledger.retentionPeriod = g.retentionPeriod := by rw [g.chain_ledger]; rfl
  (runs_fixed (I := fun _ => True) ⟨g.chain_sound, hp, g.chain_ready⟩ trivial
    (fun _ _ _ _ => trivial) r).right

-- An entry of the current block is in its place for the retention period, and then is gone.
theorem Paced.transactionInfo {as : List (Action T)} {p : Nat} (h : c.Paced p) (hb : c.inBlock)
    (he : c.state.blockTransactions.val[i]? = some e) (r : Runs step (fixed · ·) c as c')
    (hn : c.state.blockNumber < c'.state.blockNumber) :
    c'.state.transactionInfo c.state.blockNumber i =
      if c'.state.blockNumber ≤ c.state.blockNumber + p then some e else none := by
  have ht : c.log.Tracked c.state.blockNumber i e :=
    ⟨fun _ => .inr ⟨rfl, he⟩, fun _ => h.log.window.isOpen hb⟩
  have ⟨ht, h'⟩ := runs_fixed (I := fun c' => c'.log.Tracked c.state.blockNumber i e) h ht
    (fun s t g e => e.tracked s g t) r
  have hp : c'.log.period = p := h'.period
  split
  case isTrue hle =>
    obtain ⟨es, hb, he⟩ | ⟨hc, _⟩ := ht.kept (by rw [hp]; exact hle)
    · have ⟨w, hw, hv⟩ := Ledger.log_blocks_eq_some.mp hb
      exact Ledger.transactionInfo_eq_some.mpr ⟨w, hw, hv ▸ he⟩
    · exact absurd hc hn.ne
  case isFalse hgt =>
    have hg := ht.gone (by rw [hp]; exact not_le.mp hgt)
    simp only [Ledger.log, Option.map_eq_none_iff] at hg
    simp [Ledger.transactionInfo, hg]

end Chain

-- Whatever is sampled, a proof for a block that holds entries fails for no other reason than not being
-- one of the selected chunk.
theorem Listed.verifyChunkProof_cases (h : Listed D es) (hn : es ≠ [])
    (hr : ∀ seed {total}, 0 < total → T.randomChunk seed total < total)
    (proof : TransactionStorageProof T) (seed : List UInt8) :
    verifyChunkProof proof seed es = ok () ∨ verifyChunkProof proof seed es = error .invalidProof := by
  have ht := h.ne_zero_iff.mpr hn
  have ⟨e, _, _, hc⟩ := h.chooseChunk_eq (hr seed (Nat.pos_of_ne_zero ht))
  simp only [verifyChunkProof, ensure, ne_eq, ht, not_false_eq_true, if_true, ok_bind, hc]
  split
  case isTrue  => exact .inl rfl
  case isFalse => exact .inr rfl

namespace State

variable {s : State T}

-- The block that a proof is due for in block `n`.
def Demands (s : State T) (n : Nat) : Prop :=
  s.retentionPeriod < n ∧ (s.transactions.lookup (n - s.retentionPeriod)).isSome

theorem storageOnFinalize_eq_none (h : ¬s.proofChecked) :
    s.storageOnFinalize n = none ↔ s.Demands n := by
  have hp : s.proofOk n ↔ ¬s.Demands n := by
    simp only [proofOk, Demands, h, Bool.false_or, Bool.or_eq_true, decide_eq_true_eq,
      Option.isNone_iff_eq_none, not_and, Option.isSome_iff_ne_none, not_not, Nat.sub_eq_zero_iff_le]
    exact or_iff_not_imp_left.trans (imp_congr_left not_le)
  simp only [storageOnFinalize]
  split
  case isTrue hk  => exact ⟨(absurd · (Option.some_ne_none _)), fun hd => absurd hd (hp.mp hk)⟩
  case isFalse hk => exact ⟨fun _ => not_not.mp (hp.not.mp hk), fun _ => rfl⟩

-- The check of a proof, by what it is due for.

theorem doCheckProof_of_demands (h : ¬s.proofChecked) (hd : s.Demands s.blockNumber) :
    ∃ es, s.transactions.lookup (s.blockNumber - s.retentionPeriod) = some es ∧
      ∀ proof, s.doCheckProof proof =
        (verifyChunkProof proof s.parentHash es.val).map fun _ =>
          { s with proofChecked := true }.deposit .proofChecked := by
  have ⟨es, he⟩ := Option.isSome_iff_exists.mp hd.right
  refine ⟨es, he, fun proof => ?_⟩
  have hn : s.blockNumber - s.retentionPeriod ≠ 0 := Nat.sub_ne_zero_of_lt hd.left
  simp only [doCheckProof, ensure, h, hn, he, okOr, ne_eq, not_false_eq_true, if_true, ok_bind,
    Option.elim_some]
  cases verifyChunkProof proof s.parentHash es.val <;> rfl

theorem doCheckProof_of_not_demands (h : ¬s.proofChecked) (hd : ¬s.Demands s.blockNumber)
    (proof : TransactionStorageProof T) :
    s.doCheckProof proof = error .unexpectedProof ∨ s.doCheckProof proof = error .missingStateData := by
  by_cases hn : s.blockNumber - s.retentionPeriod = 0
  · left
    simp [doCheckProof, ensure, h, hn]
  · right
    have he : s.transactions.lookup (s.blockNumber - s.retentionPeriod) = none := by
      by_contra he
      exact hd ⟨by omega, Option.isSome_iff_ne_none.mpr he⟩
    simp [doCheckProof, ensure, h, hn, okOr, he]

-- A proof is refused as unexpected exactly where the end of the block does not ask for one.
theorem doCheckProof_iff (h : ¬s.proofChecked) (hh : s.toLedger.Holds D)
    (hr : ∀ seed {total}, 0 < total → T.randomChunk seed total < total)
    (proof : TransactionStorageProof T) :
    (s.doCheckProof proof ≠ error .unexpectedProof ∧
      s.doCheckProof proof ≠ error .missingStateData) ↔ s.Demands s.blockNumber := by
  constructor
  case mp =>
    intro ⟨hu, hm⟩
    by_contra hd
    exact (doCheckProof_of_not_demands h hd proof).elim hu hm
  case mpr =>
    intro hd
    have ⟨es, he, hc⟩ := doCheckProof_of_demands h hd
    rw [hc proof]
    obtain hv | hv := (hh.sealed he).verifyChunkProof_cases (hh.ne_nil he) hr proof s.parentHash
    all_goals
      rw [hv]
      exact ⟨nofun, nofun⟩

-- The proof that a block demands can be given.
theorem exists_doCheckProof (h : ¬s.proofChecked) (hh : s.toLedger.Holds D) (hT : Sampling T)
    (hd : s.Demands s.blockNumber) :
    ∃ proof s', s.doCheckProof proof = ok s' ∧ (s'.storageOnFinalize n).isSome := by
  have ⟨es, he, hc⟩ := doCheckProof_of_demands h hd
  have ⟨proof, hp⟩ := hT.exists_verifyChunkProof (hh.sealed he) (hh.ne_nil he) es.bounded s.parentHash
  refine ⟨proof, _, by rw [hc, hp]; rfl, ?_⟩
  simp [storageOnFinalize, proofOk, deposit]

end State

-- The retention window. An entry of block `n` is there in each of the next `P` blocks and in none
-- after, at the end of a block only the last `P` blocks and the block itself are retained, and a block
-- demands a proof exactly when the check of one is not refused out of hand.
theorem retention_window {g : GenesisConfig T} {as : List (Action T)} {c : Chain T}
    (hr : ∀ seed {total}, 0 < total → T.randomChunk seed total < total)
    (h : Runs Chain.step (Chain.fixed · ·) g.chain as c) :
    let P := g.retentionPeriod
    let n := c.state.blockNumber
    (c.inBlock → ∀ i e, c.state.blockTransactions.val[i]? = some e →
      ∀ as' c', Runs Chain.step (Chain.fixed · ·) c as' c' → n < c'.state.blockNumber →
        c'.state.transactionInfo n i = if c'.state.blockNumber ≤ n + P then some e else none) ∧
    (¬c.inBlock → ∀ b es, c.state.transactions.lookup b = some es → n - P ≤ b ∧ b ≤ n) ∧
    (c.inBlock →
      let s := { c.state with proofChecked := false }
      let due := P < n ∧ (s.transactions.lookup (n - P)).isSome
      (s.storageOnFinalize n = none ↔ due) ∧
      (∀ proof, (s.doCheckProof proof ≠ error .unexpectedProof ∧
        s.doCheckProof proof ≠ error .missingStateData) ↔ due) ∧
      (Sampling T → due → ∃ proof s', s.doCheckProof proof = ok s' ∧
        (s'.storageOnFinalize n).isSome)) := by
  intro P n
  have hc := Chain.paced_of_runs h
  refine ⟨fun hb i e he as' c' r hn => hc.transactionInfo hb he r hn, fun hb b es hes => ?_,
    fun hb => ?_⟩
  · have hes : c.log.blocks b = some es.val := Ledger.log_blocks_eq_some.mpr ⟨es, hes, rfl⟩
    have hk := hc.log.window.kept hes
    have hle := hc.log.window.le hes
    have hp : c.log.period = P := hc.period
    rw [hp] at hk
    exact ⟨Nat.sub_le_of_le_add hk, hle⟩
  · intro s due
    have hs : ¬s.proofChecked := nofun
    have hd : s.Demands n ↔ due := by
      have hp : s.retentionPeriod = P := hc.period
      rw [State.Demands, hp]
    have hh : s.toLedger.Holds Set.univ := hc.holds
    exact ⟨(State.storageOnFinalize_eq_none hs).trans hd,
      fun proof => (State.doCheckProof_iff hs hh hr proof).trans hd,
      fun hT h => State.exists_doCheckProof hs hh hT (hd.mpr h)⟩

theorem retention_window_copies :
    let g : GenesisConfig .mock := ⟨1, [], [], []⟩
    ∃ c, Runs Chain.step (Chain.fixed · ·) g.chain (copies.take 5) c ∧ c.inBlock ∧
      c.state.blockNumber = 2 ∧
      let s := { c.state with proofChecked := false }
      s.storageOnFinalize 2 = none ∧
      ∃ proof s', s.doCheckProof proof = ok s' ∧ (s'.storageOnFinalize 2).isSome := by
  intro g
  have ⟨c, hr, hb, hn, hl⟩ := Runs.exists_of_any Chain.step Chain.fixed g.chain (copies.take 5)
    (fun c => c.inBlock ∧ c.state.blockNumber = 2 ∧ (c.state.transactions.lookup (2 - 1)).isSome)
    (by decide +kernel)
  have hw := (retention_window Sampling.mock.random hr).right.right hb
  rw [hn] at hw
  have hd : g.retentionPeriod < 2 ∧ (c.state.transactions.lookup (2 - g.retentionPeriod)).isSome :=
    ⟨by decide, hl⟩
  exact ⟨c, hr, hb, hn, hw.left.mpr hd, hw.right.right .mock hd⟩

end Bulletin
