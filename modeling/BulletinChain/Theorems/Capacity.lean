import BulletinChain.Theorems.Registrations

namespace Bulletin

open Machine

variable {T : Config}

-- A size for each content hash, such that the entries of the data of `D` have the size of their hash.
def Sizes (D : Set Content) (size : T.ContentHash → Nat) : Prop :=
  ∀ {e : TransactionInfo T}, e.IsOf D → size e.contentHash = e.size

-- No two contents of `D` have the same hash, unless they are of the same data.
def CollisionFree (T : Config) (D : Set Content) : Prop :=
  ∀ c ∈ D, ∀ c' ∈ D, T.hash c.2 c.1.bytes = T.hash c'.2 c'.1.bytes → c.1 = c'.1

namespace Ledger

-- The renewed bytes of the sealed blocks.
def retainedBytes (l : Ledger T) : Nat :=
  l.transactions.total fun _ es => renewedBytes es.val

-- The bytes that were charged for and are still to be renewed.
def prepaidBytes (l : Ledger T) (size : T.ContentHash → Nat) : Nat :=
  l.renewals.total fun contentHash data => if data.paid then size contentHash else 0

-- What `PermanentStorageUsed` is to count.
def committed (l : Ledger T) (size : T.ContentHash → Nat) : Nat :=
  l.retainedBytes + renewedBytes l.blockTransactions.val + l.prepaidBytes size

end Ledger

-- The counter of renewed bytes has room for what the chain can retain: its cap is less than its
-- greatest value, or the blocks are no larger than by default.
def Countable (T : Config) : Prop :=
  T.maxPermanentStorageSize < u64Max ∨
    T.maxBlockTransactions * T.maxTransactionSize ≤
      defaultMaxBlockTransactions * defaultMaxTransactionSize

variable {D : Set Content} {l : Ledger T} {isOpen : Prop} {e : TransactionInfo T}
  {es : List (TransactionInfo T)} {pending : List (Pending T)} {contentHash : T.ContentHash}
  {size : T.ContentHash → Nat}

theorem CollisionFree.exists_sizes (h : CollisionFree T D) : ∃ size, Sizes (T := T) D size := by
  classical
  refine ⟨fun hash => if h : ∃ c ∈ D, T.hash c.2 c.1.bytes = hash then h.choose.1.len else 0, ?_⟩
  intro e ⟨c, hc, hd⟩
  have he : ∃ c ∈ D, T.hash c.2 c.1.bytes = e.contentHash := ⟨c, hc, hd.contentHash.symm⟩
  have ⟨hc', hh⟩ := he.choose_spec
  simp only [he, dif_pos]
  rw [h _ hc' c hc (hh.trans hd.contentHash), hd.size]

theorem TransactionInfo.IsOf.size_le (h : e.IsOf D) : e.size ≤ T.maxTransactionSize :=
  have ⟨_, _, hd⟩ := h
  (dataSizeOk_iff.mp hd.sizeOk).right

theorem renewedBytes_concat :
    renewedBytes (es ++ [e]) = renewedBytes es + if e.kind.isRenew then e.size else 0 := by
  by_cases hk : e.kind.isRenew <;> simp [renewedBytes, hk]

theorem renewedBytes_le (h : ∀ e ∈ es, e.size ≤ n) : renewedBytes es ≤ es.length * n := by
  induction es using List.reverseRecOn
  case nil => simp [renewedBytes]
  case append_singleton es e hi =>
    have hes := hi fun e he => h e (List.mem_append_left _ he)
    have he := h e (by simp)
    have hle : (if e.kind.isRenew then e.size else 0) ≤ n := by
      split
      case isTrue  => exact he
      case isFalse => exact Nat.zero_le _
    rw [renewedBytes_concat, List.length_append, List.length_singleton, Nat.add_mul, Nat.one_mul]
    exact Nat.add_le_add hes hle

-- A block cannot hold more renewed bytes than its entries can have.
theorem Listed.renewedBytes_le (h : Listed D es) (hl : es.length ≤ T.maxBlockTransactions) :
    Bulletin.renewedBytes es ≤ T.maxBlockTransactions * T.maxTransactionSize :=
  (Bulletin.renewedBytes_le fun e he => (h.isOf e he).size_le).trans (Nat.mul_le_mul_right _ hl)

namespace Ledger

theorem Holds.retainedBytes_le (h : l.Holds D) (v : (l.log isOpen).Valid contentKey) :
    l.retainedBytes ≤ (l.blockNumber + 1) * (T.maxBlockTransactions * T.maxTransactionSize) := by
  have hk : l.transactions.keys.card ≤ l.blockNumber + 1 := by
    rw [← Finset.card_range (l.blockNumber + 1)]
    refine Finset.card_le_card fun b hb => ?_
    have ⟨es, hb⟩ := Finmap.mem_iff.mp (Finmap.mem_keys.mp hb)
    exact Finset.mem_range_succ_iff.mpr (v.window.le (log_blocks_eq_some.mpr ⟨es, hb, rfl⟩))
  refine (Finmap.total_le_card_mul fun b es hb => ?_).trans (Nat.mul_le_mul_right _ hk)
  exact (h.sealed hb).renewedBytes_le es.bounded

-- Where the positions of the log are.
theorem lt_of_at (v : (l.log isOpen).Valid contentKey) (h : (l.log isOpen).At b i e) :
    b < l.blockNumber + 1 ∧ i < T.maxBlockTransactions := by
  obtain ⟨_, hb, hi⟩ | ⟨hb, hi⟩ := h
  · have ⟨es, _, he⟩ := log_blocks_eq_some.mp hb
    have ⟨hi, _⟩ := List.getElem?_eq_some_iff.mp (he ▸ hi)
    exact ⟨Nat.lt_succ_of_le (v.window.le hb), hi.trans_le es.bounded⟩
  · have ⟨hi, _⟩ := List.getElem?_eq_some_iff.mp hi
    exact ⟨Nat.lt_succ_of_le hb.le, hi.trans_le l.blockTransactions.bounded⟩

-- There are no more registrations than positions for the entries they are of, and renewals to serve.
theorem Pended.card_renewals_le (p : l.Pended pending) (v : (l.log isOpen).Valid contentKey) :
    l.renewals.keys.card ≤ (l.blockNumber + 1) * T.maxBlockTransactions + pending.length := by
  let indexed := l.renewals.keys.filter fun hash => (l.transactionByContentHash.lookup hash).isSome
  have hs : l.renewals.keys ⊆ indexed ∪ (pending.map (·.1)).toFinset := by
    intro hash hk
    have ⟨data, hr⟩ := Finmap.mem_iff.mp (Finmap.mem_keys.mp hk)
    refine Finset.mem_union.mpr ((p.indexed hr).imp (fun hx => ?_) List.mem_toFinset.mpr)
    exact Finset.mem_filter.mpr ⟨hk, hx⟩
  have hi : indexed.card ≤ (l.blockNumber + 1) * T.maxBlockTransactions := by
    have hpos {hash} (h : hash ∈ indexed) :
        ∃ b i e, l.transactionByContentHash.lookup hash = some (b, i) ∧
          (l.log isOpen).At b i e ∧ e.contentHash = hash := by
      have ⟨(b, i), hx⟩ := Option.isSome_iff_exists.mp (Finset.mem_filter.mp h).right
      have ⟨e, ha, hk⟩ := v.exact.sound hx
      exact ⟨b, i, e, hx, ha, hk⟩
    let position hash := (l.transactionByContentHash.lookup hash).getD (0, 0)
    have hm : ∀ hash ∈ indexed,
        position hash ∈ Finset.range (l.blockNumber + 1) ×ˢ Finset.range T.maxBlockTransactions := by
      intro hash h
      have ⟨b, i, e, hx, ha, _⟩ := hpos h
      simpa [position, hx] using lt_of_at v ha
    have hj : Set.InjOn position indexed := by
      intro hash h hash' h' he
      have ⟨b, i, e, hx, ha, hk⟩ := hpos h
      have ⟨b', i', e', hx', ha', hk'⟩ := hpos h'
      simp only [position, hx, hx', Option.getD_some] at he
      cases he
      rw [← hk, ← hk', v.window.at_unique ha ha']
    simpa using Finset.card_le_card_of_injOn position hm hj
  calc
    l.renewals.keys.card ≤ (indexed ∪ (pending.map (·.1)).toFinset).card := Finset.card_le_card hs
    _ ≤ indexed.card + (pending.map (·.1)).toFinset.card := Finset.card_union_le ..
    _ ≤ (l.blockNumber + 1) * T.maxBlockTransactions + pending.length :=
      Nat.add_le_add hi <| (List.toFinset_card_le _).trans (by simp)

theorem Holds.isOf_at (h : l.Holds D) (ha : (l.log isOpen).At b i e) : e.IsOf D := by
  obtain ⟨_, hb, hi⟩ | ⟨_, hi⟩ := ha
  · have ⟨es, hb, he⟩ := log_blocks_eq_some.mp hb
    exact (h.sealed hb).isOf e (List.mem_of_getElem? (he ▸ hi))
  · exact h.current.isOf e (List.mem_of_getElem? hi)

-- Every registration is of some data.
theorem Pended.exists_isOf (p : l.Pended pending) (h : l.Holds D)
    (v : (l.log isOpen).Valid contentKey) (hp : ∀ item ∈ pending, item.2.1.IsOf D)
    (hr : l.renewals.lookup contentHash = some data) :
    ∃ e : TransactionInfo T, e.IsOf D ∧ e.contentHash = contentHash := by
  obtain hx | hm := p.indexed hr
  · have ⟨(b, i), hx⟩ := Option.isSome_iff_exists.mp hx
    have ⟨e, ha, hk⟩ := v.exact.sound hx
    exact ⟨e, h.isOf_at ha, hk⟩
  · have ⟨item, hi, hk⟩ := List.mem_map.mp hm
    exact ⟨item.2.1, hp item hi, (p.named item hi).trans hk⟩

theorem Pended.prepaidBytes_le (p : l.Pended pending) (h : l.Holds D)
    (v : (l.log isOpen).Valid contentKey) (hp : ∀ item ∈ pending, item.2.1.IsOf D)
    (hs : Sizes D size) :
    l.prepaidBytes size ≤
      ((l.blockNumber + 1) * T.maxBlockTransactions + pending.length) * T.maxTransactionSize := by
  refine (Finmap.total_le_card_mul fun hash data hr => ?_).trans
    (Nat.mul_le_mul_right _ (p.card_renewals_le v))
  have ⟨e, he, hk⟩ := p.exists_isOf h v hp hr
  split
  case isTrue  => exact hk ▸ hs he ▸ he.size_le
  case isFalse => exact Nat.zero_le _

-- There is room in the counter for one more entry.
def Roomy (l : Ledger T) (size : T.ContentHash → Nat) : Prop :=
  T.maxPermanentStorageSize < u64Max ∨ l.committed size + T.maxTransactionSize ≤ u64Max

theorem Pended.roomy (hT : Countable T) (p : l.Pended pending) (h : l.Holds D)
    (v : (l.log isOpen).Valid contentKey) (hp : ∀ item ∈ pending, item.2.1.IsOf D)
    (hs : Sizes D size) (hn : l.blockNumber ≤ maxBlockNumber) : l.Roomy size := by
  refine hT.imp_right fun hT => ?_
  have hr := h.retainedBytes_le v
  have hc := h.current.renewedBytes_le l.blockTransactions.bounded
  have hb : l.prepaidBytes size ≤
      (l.blockNumber + 2) * (T.maxBlockTransactions * T.maxTransactionSize) := by
    have hl : pending.length ≤ T.maxBlockTransactions := (Nat.le_add_right ..).trans p.room
    refine (p.prepaidBytes_le h v hp hs).trans ?_
    rw [← Nat.mul_assoc]
    refine Nat.mul_le_mul_right _ ?_
    rw [Nat.add_mul, Nat.add_mul]
    omega
  have hm : T.maxTransactionSize ≤ T.maxBlockTransactions * T.maxTransactionSize :=
    Nat.le_mul_of_pos_left _ T.maxBlockTransactions_pos
  generalize T.maxBlockTransactions * T.maxTransactionSize = block at hT hr hc hb hm
  calc
    l.committed size + T.maxTransactionSize ≤ (2 * l.blockNumber + 5) * block := by
      simp only [committed, Nat.add_mul] at hr hb ⊢
      rw [Nat.mul_assoc 2]
      omega
    _ ≤ (2 * maxBlockNumber + 5) * (defaultMaxBlockTransactions * defaultMaxTransactionSize) :=
      Nat.mul_le_mul (by omega) hT
    _ ≤ u64Max := by decide

end Ledger
end Bulletin
