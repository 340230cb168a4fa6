import BulletinChain.ConsoleUi.CidLookup
import BulletinChain.Theorems.Accounting
import BulletinChain.Theorems.Charges
import BulletinChain.Theorems.Interchange
import BulletinChain.Theorems.Submission
import BulletinChain.Theorems.Window

namespace Bulletin

open Except

variable {T : Config}

-- The content that an extrinsic is to store itself, and not a call that it wraps.
def Extrinsic.stores : Extrinsic T → Option Content
  | signed _ (.transactionStorage call) | unsigned (.transactionStorage call) => call.content
  | general call                                                             => some (call.data, .blake2b256)
  | _                                                                        => none

theorem Extrinsic.subject_of_stores {x : Extrinsic T} (h : x.stores = some (data, hashing)) (s : State T) :
    x.call.subject s = some (T.hash hashing data.bytes, data.len) ∧
    (x.call.isPaid ∨ ∃ call, x = general call) ∧ ¬x.call.registers := by
  have hs {call : TransactionStorage.Call T} (h : call.content = some (data, hashing)) :
      (RuntimeCall.transactionStorage call).subject s = some (T.hash hashing data.bytes, data.len) ∧
        call.isStore := by
    cases call
    case store | storeWithCidConfig =>
      cases h
      exact ⟨rfl, rfl⟩
    all_goals cases h
  cases x
  case signed who call =>
    cases call
    case transactionStorage call => exact ⟨(hs h).left, .inl (hs h).right, Bool.false_ne_true⟩
    all_goals cases h
  case unsigned call =>
    cases call
    case transactionStorage call => exact ⟨(hs h).left, .inl (hs h).right, Bool.false_ne_true⟩
    all_goals cases h
  case general call =>
    cases h
    exact ⟨rfl, .inr ⟨call, rfl⟩, Bool.false_ne_true⟩

namespace Chain

-- In block `b` of the run there is an extrinsic that stores the content.
inductive Stored (g : GenesisConfig T) (content : Content) (b : Nat) : List (Action T) → Chain T → Prop
  | intro {x : Extrinsic T} :
    Runs step (fixed · ·) g.chain before c → c.step (.extrinsic x) = some c' →
    x.stores = some content → c'.state.blockNumber = b → Runs step (fixed · ·) c' after c₀ →
    Stored g content b (before ++ .extrinsic x :: after) c₀

variable {c c' c₀ c₁ c₂ : Chain T} {g : GenesisConfig T}

-- A block has an entry of every content that one of its extrinsics is to store.
theorem step_stores (hc : ∀ codec code hash, (T.cidV1 codec code hash).isSome) {x : Extrinsic T}
    (r : c.Ready) (h : c.step (.extrinsic x) = some c') (hx : x.stores = some (data, hashing)) :
    c'.inBlock ∧ ∃ (i : Nat) (e : TransactionInfo T), c'.state.blockTransactions.val[i]? = some e ∧
      e.contentHash = T.hash hashing data.bytes := by
  replace h := Option.ite_none_right_eq_some.mp h
  obtain ⟨hb, h⟩ := h
  rw [Option.map_eq_some_iff] at h
  obtain ⟨s', ha, rfl⟩ := h
  refine ⟨rfl, ?_⟩
  obtain ⟨i, hi⟩ := r.index hb
  simp only [Extrinsic.apply] at ha
  split at ha <;> cases ha
  case h_2 origin s₁ ha =>
    obtain ⟨hs, hp, hr⟩ := x.subject_of_stores hx c.state
    obtain ⟨s₂, hash, size, hd, hs', hcr⟩ :=
      Extrinsic.admitted_creates hc hi hp (Extrinsic.admission_admitted ha)
    cases hs.symm.trans hs'
    rw [Extrinsic.dispatched_of_ok hd]
    generalize hl : s₂.toLedger = l at hcr
    cases hcr
    case registration hx _ _ => exact absurd hx hr
    case entry e _ he _ hroom =>
      refine ⟨s₁.blockTransactions.val.length, BlockTransactionsMut.counted s₁.toLedger e, ?_, he⟩
      exact List.getElem?_concat_length

theorem Stored.runs (h : Stored g content b as c₀) : Runs step (fixed · ·) g.chain as c₀ := by
  obtain ⟨h₁, e, _, _, h₂⟩ := h
  exact h₁.append (.cons rfl e h₂)

theorem Stored.tracked (hc : ∀ codec code hash, (T.cidV1 codec code hash).isSome)
    (h : Stored g (data, hashing) b as c₀) :
    ∃ i e, e.contentHash = T.hash hashing data.bytes ∧ c₀.log.Tracked b i e := by
  obtain ⟨h₁, e, hx, rfl, h₂⟩ := h
  have p := paced_of_runs h₁
  have p' := paced_of_runs (h₁.append (.cons rfl e .nil))
  obtain ⟨hb, i, info, hi, hh⟩ := step_stores hc p.ready e hx
  refine ⟨i, info, hh, ?_⟩
  exact (runs_fixed p' (.of_at p'.log (.inr ⟨rfl, hi⟩)) (fun s t g e => e.tracked s g t) h₂).left

-- A content that was stored is in the index for the retention period.
theorem Stored.contained (hc : ∀ codec code hash, (T.cidV1 codec code hash).isSome)
    (h : Stored g (data, hashing) b as c₀) (hn : c₀.state.blockNumber ≤ b + g.retentionPeriod) :
    c₀.state.containsTransaction (T.hash hashing data.bytes) := by
  obtain ⟨i, e, hh, ht⟩ := h.tracked hc
  have p := paced_of_runs h.runs
  have hp : c₀.log.period = g.retentionPeriod := p.period
  obtain ⟨_, _, hi, _⟩ := p.log.exact.latest (ht.kept (by rw [hp]; exact hn))
  rw [← hh]
  exact Option.isSome_iff_exists.mpr ⟨_, hi⟩

theorem Paced.blockNumber_le {p : Nat} (h : c.Paced p) {as : List (Action T)}
    (r : Runs Chain.step (fixed · ·) c as c') : c.state.blockNumber ≤ c'.state.blockNumber := by
  refine (runs_fixed (I := fun c' => c.log.now ≤ c'.log.now) h le_rfl (fun s hi g e => ?_) r).left
  exact hi.trans (e.steps s.holds.current.ne_zero_iff s.log (steady_of_fixed g)).now_le

-- A content that was stored is found for the retention period. The position of the entry may be looked
-- up in one block and its contents in a later one.
theorem Stored.found (hc : ∀ codec code hash, (T.cidV1 codec code hash).isSome)
    (h : Stored g (data, hashing) b past c₀) (h₁ : Runs step (fixed · ·) c₀ as₁ c₁)
    (h₂ : Runs step (fixed · ·) c₁ as₂ c₂) (hb : ¬c₂.inBlock)
    (hn : c₂.state.blockNumber ≤ b + g.retentionPeriod) :
    ∃ b' i' e, c₁.state.transactionByContentHash.lookup (T.hash hashing data.bytes) = some (b', i') ∧
      c₂.state.transactionInfo b' i' = some e ∧ e.contentHash = T.hash hashing data.bytes := by
  obtain ⟨i, e, hh, ht⟩ := h.tracked hc
  have p₀ := paced_of_runs h.runs
  obtain ⟨ht, p₁⟩ := runs_fixed p₀ ht (fun s t g e => e.tracked s g t) h₁
  have hp₁ : c₁.log.period = g.retentionPeriod := p₁.period
  -- the index names an entry of the content that is at least as late as the one that was stored
  have ha : c₁.log.At b i e := ht.kept (by rw [hp₁]; exact (p₁.blockNumber_le h₂).trans hn)
  obtain ⟨b', i', hi, hle⟩ := p₁.log.exact.latest ha
  obtain ⟨e', ha', he'⟩ := p₁.log.exact.sound hi
  obtain ⟨ht', p₂⟩ := runs_fixed p₁ (RetentionLog.Tracked.of_at p₁.log ha')
    (fun s t g e => e.tracked s g t) h₂
  have hp₂ : c₂.log.period = g.retentionPeriod := p₂.period
  have ha₂ : c₂.log.At b' i' e' := by
    refine ht'.kept ?_
    have hn : c₂.log.now ≤ b + g.retentionPeriod := hn
    rw [hp₂]
    omega
  refine ⟨b', i', e', hh ▸ hi, ?_, he'.trans hh⟩
  have v := p₂.log
  rw [log, eq_false hb] at v ha₂
  exact (Ledger.log_at v).mp ha₂

end Chain

namespace ConsoleUi

open TypescriptSdk

variable {P : List UInt8 → OnChainTransaction → Prop} {api : Api T} {hashes : List (List UInt8)}
  {hash : List UInt8}

-- Every query is answered from a point of the run from `c₀` to `c`, that for some entries from a later
-- point than that for their position, and between two blocks.
def Api.Reads (api : Api T) (c₀ : Chain T) (asking : List (Action T)) (c : Chain T) : Prop :=
  ∀ i, ∃ as₁ as₂ as₃ c₁ c₂, asking = as₁ ++ as₂ ++ as₃ ∧
    Runs Chain.step (Chain.fixed · ·) c₀ as₁ c₁ ∧ Runs Chain.step (Chain.fixed · ·) c₁ as₂ c₂ ∧
    Runs Chain.step (Chain.fixed · ·) c₂ as₃ c ∧ ¬c₂.inBlock ∧
    api.transactionByContentHash i = c₁.state ∧ api.transactions i = c₂.state

-- What is told of a location is told of the entry that the chain has there at some point of the run from
-- `c₀` on, and that entry has the content hash.
def OnChainTransaction.Shows (c₀ : Chain T) (asking : List (Action T)) (hash : List UInt8)
    (l : OnChainTransaction) : Prop :=
  ∃ as₁ as₂ c e, asking = as₁ ++ as₂ ∧ Runs Chain.step (Chain.fixed · ·) c₀ as₁ c ∧
    c.state.transactionInfo l.blockNumber l.index = some e ∧ T.encodeContentHash e.contentHash = hash ∧
    l = ⟨l.blockNumber, l.index, some e.size, some e.kind, some e.cidCodec, some e.hashing⟩

-- The content was stored in the past, and is to be retained as long as there is someone asking.
def Kept (g : GenesisConfig T) (past : List (Action T)) (c₀ c : Chain T)
    (content : List UInt8 × HashingAlgorithm) : Prop :=
  ∃ d : Data, d.bytes = content.1 ∧ ∃ b, Chain.Stored g (d, content.2) b past c₀ ∧
    c.state.blockNumber ≤ b + g.retentionPeriod

theorem Api.locate_eq {key : T.ContentHash} {e : TransactionInfo T}
    (hk : (api.transactionByContentHash k).transactionByContentHash.lookup key = some (b, i))
    (hi : (api.transactions k).transactionInfo b i = some e) :
    api.locate k (T.encodeContentHash key) =
      ok (some ⟨b, i, some e.size, some e.kind, some e.cidCodec, some e.hashing⟩) := by
  obtain ⟨es, hb, he⟩ := Ledger.transactionInfo_eq_some.mp hi
  rw [locate, api.encodeKey_encode, ok_bind, hk]
  simp [located, hb, he, pure, Except.pure]

theorem Kept.located (hc : T.CidV1) {g : GenesisConfig T} {c₀ c : Chain T}
    (h : Kept g past c₀ c (bytes, hashing)) (hr : api.Reads c₀ asking c) (k : Nat) :
    ∃ l, api.locate k (T.encodeContentHash (T.hash hashing bytes)) = ok (some l) ∧
      l.Shows c₀ asking (T.encodeContentHash (T.hash hashing bytes)) := by
  obtain ⟨d, rfl, b, h, hn⟩ := h
  obtain ⟨as₁, as₂, as₃, c₁, c₂, rfl, h₁, h₂, h₃, hb, hi, ht⟩ := hr k
  have hcid codec code hash : (T.cidV1 codec code hash).isSome := by rw [hc.cidV1]; rfl
  have p₂ := Chain.paced_of_runs ((h.runs.append h₁).append h₂)
  obtain ⟨b', i', e, hl, he, hk⟩ := h.found hcid h₁ h₂ hb ((p₂.blockNumber_le h₃).trans hn)
  exact ⟨_, Api.locate_eq (hi ▸ hl) (ht ▸ he), _, _, c₂, e, rfl, h₁.append h₂, he, by rw [hk], rfl⟩

-- Where contents do not collide, the size that is told is that of the content.
theorem OnChainTransaction.Shows.size (hc : T.CidV1) {g : GenesisConfig T} {c₀ : Chain T}
    (hf : CollisionFree T (contents (past ++ asking)))
    (r : Runs Chain.step (Chain.fixed · ·) g.chain past c₀)
    {d : Data} {hashing : HashingAlgorithm} {l : OnChainTransaction}
    (hd : (d, hashing) ∈ contents (past ++ asking))
    (h : l.Shows c₀ asking (T.encodeContentHash (T.hash hashing d.bytes))) :
    l.size = some d.bytes.length := by
  obtain ⟨as₁, as₂, c, e, rfl, r₁, hi, hh, hl⟩ := h
  obtain ⟨x, ⟨a, ha, hx⟩, he⟩ := (Chain.holds_of_runs (r.append r₁)).retained ⟨_, _, hi⟩
  have hx : x ∈ contents (past ++ (as₁ ++ as₂)) := by
    refine ⟨a, ?_, hx⟩
    rw [← List.append_assoc]
    exact List.mem_append_left _ ha
  rw [he.contentHash] at hh
  have hxd := hf x hx (d, hashing) hd (hc.contentHash_injective hh)
  rw [hl, he.size, hxd]
  rfl

theorem Kept.runs {g : GenesisConfig T} {c₀ c : Chain T} (h : Kept g past c₀ c content) :
    Runs Chain.step (Chain.fixed · ·) g.chain past c₀ := by
  obtain ⟨_, _, _, h, _⟩ := h
  exact h.runs

end ConsoleUi

namespace TypescriptSdk

-- The data that a transaction stores, and the hashing of its content hash.
def PapiTransaction.content : PapiTransaction → List UInt8 × HashingAlgorithm
  | store data                        => (data, .blake2b256)
  | storeWithCidConfig _ hashing data => (data, hashing)

theorem createStoreTx_content (data : List UInt8) (codec : CidCodec) (hashing : HashingAlgorithm) :
    (createStoreTx data codec hashing).content = (data, hashing) := by
  simp only [createStoreTx]
  split
  case isTrue => rfl
  case isFalse h =>
    simp only [isNonDefaultCidConfig, ne_eq, decide_eq_true_eq, not_or, not_not] at h
    rw [h.right]
    rfl

end TypescriptSdk

namespace ConsoleUi

open TypescriptSdk BulletinPreparer

end ConsoleUi
end Bulletin
