import BulletinChain.RustSdk.Transaction
import BulletinChain.Theorems.Lookup
import Mathlib.Data.List.TakeWhile

namespace Bulletin

open Except

variable {T : Config}

namespace RustSdk

namespace TransactionClient

-- The items of the stream that the loop goes on after.
def passes (waitFor : WaitFor) : Except String TxStatus → Bool
  | ok .validated | ok .broadcasted | ok .noLongerInBestBlock => true
  | ok (.inBestBlock _) => match waitFor with
    | .inBlock   => false
    | .finalized => true
  | _ => false

-- The best block that is remembered after an item.
def record (result : Option SubmitResult) : Except String TxStatus → Option SubmitResult
  | ok (.inBestBlock b) => some (.of b)
  | _                   => result

variable {waitFor : WaitFor} {makeError : String → SubmissionError} {result : Option SubmitResult}
  {progress : TxProgress} {item : Except String TxStatus} {r : SubmitResult}

theorem watch_passes (h : passes waitFor item) :
    (watch waitFor makeError result (item :: progress)).1 =
      (watch waitFor makeError (record result item) progress).1 := by
  cases item
  case error => contradiction
  case ok status =>
    cases status
    case inBestBlock =>
      cases waitFor
      case inBlock   => contradiction
      case finalized => rfl
    case validated | broadcasted | noLongerInBestBlock => rfl
    all_goals contradiction

-- What stands after an item that the loop stops at is not read any more.
theorem watch_stops (h : ¬passes waitFor item) :
    (watch waitFor makeError result (item :: progress)).1 = (watch waitFor makeError none [item]).1 := by
  cases item
  case error => rfl
  case ok status =>
    cases status
    case inBestBlock =>
      cases waitFor
      case inBlock   => rfl
      case finalized => exact absurd rfl h
    case validated | broadcasted | noLongerInBestBlock => exact absurd rfl h
    all_goals rfl

-- The first item that is not passed decides the outcome. If there is none then the last best block does.
theorem watch_eq : (watch waitFor makeError result progress).1 =
    match progress.dropWhile (passes waitFor) with
    | []        => okOr (progress.foldl record result)
      (makeError "Transaction stream ended without block inclusion")
    | item :: _ => (watch waitFor makeError none [item]).1 := by
  induction progress generalizing result
  case nil => rfl
  case cons item progress hi =>
    by_cases h : passes waitFor item
    case pos => rw [watch_passes h, hi, List.dropWhile_cons_of_pos h, List.foldl_cons]
    case neg => rw [watch_stops h, List.dropWhile_cons_of_neg h]

theorem watch_single_eq_ok (h : ¬passes waitFor item)
    (hw : (watch waitFor makeError none [item]).1 = ok r) :
    ∃ b, (item = ok (.inBestBlock b) ∧ waitFor = .inBlock ∨ item = ok (.inFinalizedBlock b)) ∧
      b.success = ok () ∧ r = .of b := by
  have hs {b : InBlock} (hb : (waitForSuccess makeError b *> ok (SubmitResult.of b)) = ok r) :
      b.success = ok () ∧ r = .of b := by
    cases hu : b.success
    case error =>
      rw [waitForSuccess, hu] at hb
      cases hb
    case ok =>
      rw [waitForSuccess, hu] at hb
      cases hb
      exact ⟨rfl, rfl⟩
  cases item
  case error => cases hw
  case ok status =>
    cases status
    case inBestBlock b =>
      cases waitFor
      case inBlock   => exact ⟨b, .inl ⟨rfl, rfl⟩, hs hw⟩
      case finalized => exact absurd rfl h
    case inFinalizedBlock b => exact ⟨b, .inr rfl, hs hw⟩
    case validated | broadcasted | noLongerInBestBlock => exact absurd rfl h
    all_goals cases hw

theorem record_eq_some (h : record result item = some r) :
    (result = some r ∧ ∀ b, item ≠ ok (.inBestBlock b)) ∨ ∃ b, item = ok (.inBestBlock b) ∧ r = .of b := by
  simp only [record] at h
  split at h
  case h_1 b =>
    cases h
    exact .inr ⟨b, rfl, rfl⟩
  case h_2 hn => exact .inl ⟨h, hn⟩

-- What is remembered is the last best block.
theorem foldl_record (h : progress.foldl record result = some r) :
    result = some r ∨ ∃ front b back, progress = front ++ ok (.inBestBlock b) :: back ∧
      (∀ b', ok (.inBestBlock b') ∉ back) ∧ r = .of b := by
  induction progress using List.reverseRecOn generalizing r
  case nil => exact .inl h
  case append_singleton progress item hi =>
    rw [List.foldl_concat] at h
    obtain ⟨h, hn⟩ | ⟨b, rfl, hr⟩ := record_eq_some h
    case inr => exact .inr ⟨progress, b, [], rfl, by simp, hr⟩
    case inl =>
      obtain h | ⟨front, b, back, rfl, hb, hr⟩ := hi h
      case inl => exact .inl h
      case inr =>
        refine .inr ⟨front, b, back ++ [item], by simp, fun b' hm => ?_, hr⟩
        obtain hm | hm := List.mem_append.mp hm
        · exact hb b' hm
        · exact hn b' (List.mem_singleton.mp hm).symm

-- How a stream came to a result: with the outcome that was waited for, in the first item that is not
-- passed, or by its end.
inductive Concludes (waitFor : WaitFor) (progress : TxProgress) (r : SubmitResult) : Prop
  | awaited : progress = front ++ status :: back → (∀ i ∈ front, passes waitFor i) →
    (status = ok (.inBestBlock b) ∧ waitFor = .inBlock ∨ status = ok (.inFinalizedBlock b)) →
    b.success = ok () → r = .of b → Concludes waitFor progress r
  | ended : waitFor = .finalized → (∀ i ∈ progress, passes waitFor i) →
    progress = front ++ ok (.inBestBlock b) :: back → (∀ b', ok (.inBestBlock b') ∉ back) →
    r = .of b → Concludes waitFor progress r

theorem concludes_of_watch (h : (watch waitFor makeError none progress).1 = ok r) :
    Concludes waitFor progress r := by
  rw [watch_eq] at h
  split at h
  case h_1 hd =>
    have hp := List.dropWhile_eq_nil_iff.mp hd
    obtain hn | ⟨front, b, back, hb, hl, hr⟩ := foldl_record (okOr_eq_ok.mp h)
    case inl => cases hn
    case inr =>
      have hw := hp (ok (.inBestBlock b)) (by simp [hb])
      cases waitFor
      case inBlock   => contradiction
      case finalized => exact .ended rfl hp hb hl hr
  case h_2 item rest hd =>
    have hn : ¬passes waitFor item := by
      have hz := List.dropWhile_get_zero_not (passes waitFor) progress (by simp [hd])
      simpa [hd] using hz
    obtain ⟨b, hb, hs, hr⟩ := watch_single_eq_ok hn h
    refine .awaited (List.takeWhile_append_dropWhile.symm.trans (by rw [hd])) (fun i hi => ?_) hb hs hr
    exact List.mem_takeWhile_imp hi

theorem storeWithProgress_eq_ok {api : OnlineClient T} {who : T.AccountId} {receipt : StoreReceipt}
    (h : storeWithProgress api data who waitFor = ok receipt) :
    ∃ nonce progress r,
      api.signAndSubmitThenWatch (.transactionStorage (.store data)) who nonce = ok progress ∧
      Concludes waitFor progress r ∧ receipt = ⟨r.blockHash, r.extrinsicHash, data.len⟩ := by
  obtain ⟨_, _, h⟩ := bind_eq_ok.mp h
  obtain ⟨r, hr, h⟩ := bind_eq_ok.mp h
  obtain ⟨progress, hp, hr⟩ := bind_eq_ok.mp hr
  obtain ⟨_, _, hp⟩ := bind_eq_ok.mp hp
  obtain ⟨_, _, hp⟩ := bind_eq_ok.mp hp
  obtain ⟨_, _, hp⟩ := bind_eq_ok.mp hp
  obtain ⟨nonce, _, hp⟩ := bind_eq_ok.mp hp
  cases h
  exact ⟨nonce, progress, r, mapError_eq_ok.mp hp, concludes_of_watch hr, rfl⟩

end TransactionClient

-- A block: the actions before it, its own, and the chain at its end.
structure Block (T : Config) where
  past  : List (Action T)
  body  : List (Action T)
  chain : Chain T

-- The block follows on those before it, from the genesis state on.
structure Block.Follows (g : GenesisConfig T) (block : Block T) : Prop where
  runs   : Runs Chain.step (Chain.fixed · ·) g.chain (block.past ++ block.body) block.chain
  single : ∃ parentHash moment rest, block.body = .onInitialize parentHash moment :: rest ∧
    ∀ parentHash moment, .onInitialize parentHash moment ∉ rest

-- The node follows a chain from the genesis state, `blocks` are those that it has seen on any fork, and
-- it does not say that a transaction is in a block that it is not in.
structure OnlineClient.Honest (api : OnlineClient T) (g : GenesisConfig T)
    (blocks : String → Option (Block T)) : Prop where
  follows  : ∀ {hash block}, blocks hash = some block → block.Follows g
  includes : ∀ {call who nonce progress b},
    api.signAndSubmitThenWatch call who nonce = ok progress →
    ok (.inBestBlock b) ∈ progress ∨ ok (.inFinalizedBlock b) ∈ progress →
    ∃ block, blocks b.blockHash = some block ∧ .extrinsic (.signed who call) ∈ block.body

open TransactionClient

-- Within a block the number stays the same.
theorem blockNumber_of_runs {guard : Chain T → Action T → Prop} {c c' : Chain T}
    (r : Runs Chain.step guard c as c') (h : ∀ parentHash moment, .onInitialize parentHash moment ∉ as) :
    c'.state.blockNumber = c.state.blockNumber := by
  refine r.mem.invariant (·.state.blockNumber = c.state.blockNumber) rfl fun hi hg e => ?_
  refine (Chain.step_enacts e fun parentHash moment ha => ?_).blockNumber.trans hi
  exact h parentHash moment (ha ▸ hg.right)

-- What an extrinsic of a block stores is stored in the block of that number.
theorem Block.Follows.stored {g : GenesisConfig T} {block : Block T} {x : Extrinsic T}
    (h : block.Follows g) (hx : .extrinsic x ∈ block.body) (hs : x.stores = some content) :
    Chain.Stored g content block.chain.state.blockNumber (block.past ++ block.body) block.chain := by
  obtain ⟨parentHash, moment, rest, hb, hn⟩ := h.single
  have hm : .extrinsic x ∈ rest := by simpa [hb] using hx
  obtain ⟨before, after, rfl⟩ := List.append_of_mem hm
  have he : block.past ++ block.body =
      (block.past ++ .onInitialize parentHash moment :: before) ++ .extrinsic x :: after := by
    simp [hb]
  have r := h.runs
  rw [he] at r ⊢
  obtain ⟨_, _, r₁, e, r₂⟩ := r.middle
  refine .intro r₁ e hs (blockNumber_of_runs r₂ fun _ _ hm => ?_).symm r₂
  exact hn _ _ (List.mem_append_right _ (List.mem_cons_of_mem _ hm))

-- A receipt names a block in which the data was stored, and from which on it is found for the retention
-- period. Whoever waits for a best block gets the outcome of one, and whoever waits for finality gets
-- that of a finalized block, unless the stream ends before: then it is the last best block that is named,
-- although its outcome was not looked at and it may have been retracted.
theorem receipts_stored (hc : ∀ codec code hash, (T.cidV1 codec code hash).isSome)
    {api : OnlineClient T} {g : GenesisConfig T} {blocks : String → Option (Block T)}
    {receipt : StoreReceipt} {who : T.AccountId} (hh : api.Honest g blocks)
    (h : storeWithProgress api data who waitFor = ok receipt) :
    receipt.dataSize = data.len ∧
    (∃ block, blocks receipt.blockHash = some block ∧
      .extrinsic (.signed who (.transactionStorage (.store data))) ∈ block.body ∧
      Chain.Stored g (data, .blake2b256) block.chain.state.blockNumber (block.past ++ block.body)
        block.chain ∧
      ∀ as c, Runs Chain.step (Chain.fixed · ·) block.chain as c → ¬c.inBlock →
        c.state.blockNumber ≤ block.chain.state.blockNumber + g.retentionPeriod →
        ∃ b i e, c.state.transactionByContentHash.lookup (T.hash .blake2b256 data.bytes) = some (b, i) ∧
          c.state.transactionInfo b i = some e ∧ e.contentHash = T.hash .blake2b256 data.bytes) ∧
    ∃ nonce progress,
      api.signAndSubmitThenWatch (.transactionStorage (.store data)) who nonce = ok progress ∧
      Concludes waitFor progress ⟨receipt.blockHash, receipt.extrinsicHash⟩ := by
  obtain ⟨nonce, progress, r, hp, hr, rfl⟩ := storeWithProgress_eq_ok h
  have hb : ∃ b, (ok (.inBestBlock b) ∈ progress ∨ ok (.inFinalizedBlock b) ∈ progress) ∧ r = .of b := by
    cases hr
    case awaited b hp _ hb _ hr =>
      refine ⟨b, ?_, hr⟩
      obtain ⟨rfl, _⟩ | rfl := hb <;> simp [hp]
    case ended b _ _ hp _ hr => exact ⟨b, .inl (by simp [hp]), hr⟩
  obtain ⟨b, hb, rfl⟩ := hb
  obtain ⟨block, hk, hx⟩ := hh.includes hp hb
  have hs : Chain.Stored g (data, .blake2b256) block.chain.state.blockNumber
      (block.past ++ block.body) block.chain := (hh.follows hk).stored hx rfl
  refine ⟨rfl, ⟨block, hk, hx, hs, ?_⟩, nonce, progress, hp, hr⟩
  intro as c hr hn hle
  exact hs.found hc hr .nil hn hle

-- A node that knows one block, in which account 7 stores three bytes.
def storing : List (Action .mock) := [
  .onInitialize [] 0,
  .extrinsic (.signed (7 : Nat) (.transactionStorage (.store ⟨[1, 2, 3], by decide⟩))),
  .onFinalize]

def OnlineClient.storing (raw : List UInt8) : OnlineClient .mock where
  addressBytes _ := ok []
  atLatest       := ok ⟨0, fun _ => ok (some raw)⟩
  bestBlock      := ok (some (ok ⟨fun _ => ok 0⟩))
  display _      := ""
  decodeError _  := ""
  signAndSubmitThenWatch
    | .transactionStorage (.store data), who, _ =>
      if data.bytes = [1, 2, 3] ∧ Nat.beq 7 who then
        ok [ok .validated, ok (.inBestBlock ⟨"0x01", "0x02", some 1, ok ()⟩)]
      else
        error "Invalid Transaction"
    | _, _, _ => error "Invalid Transaction"

theorem receipts_stored_storing :
    let g : GenesisConfig .mock := ⟨3, [], [((7 : Nat), 2, 3)], []⟩
    let api := OnlineClient.storing (Authorization.codec.encode (State.freshAuthorization 2 3 10))
    ∃ c : Chain .mock, Runs Chain.step (Chain.fixed · ·) g.chain storing c ∧
      storeWithProgress api ⟨[1, 2, 3], by decide⟩ (7 : Nat) .inBlock = ok ⟨"0x01", "0x02", 3⟩ ∧
      Chain.Stored g (⟨[1, 2, 3], by decide⟩, .blake2b256) 1 storing c := by
  intro g api
  obtain ⟨c, r, hn⟩ := Runs.exists_of_any Chain.step (fun c a => c.fixed a) g.chain storing
    (fun c => c.state.blockNumber = 1) (by decide +kernel)
  have hh : api.Honest g (fun hash => if hash = "0x01" then some ⟨[], storing, c⟩ else none) := by
    constructor
    case follows =>
      intro hash block h
      obtain ⟨_, h⟩ := Option.ite_none_right_eq_some.mp h
      cases h
      exact ⟨r, _, _, _, rfl, by simp⟩
    case includes =>
      intro call who nonce progress b h hb
      simp only [api, OnlineClient.storing] at h
      split at h
      case h_2 => cases h
      case h_1 data =>
        split at h <;> cases h
        case isTrue hd =>
          obtain ⟨bytes, _⟩ := data
          obtain ⟨rfl, hw⟩ := hd
          obtain rfl := Nat.eq_of_beq_eq_true hw
          simp at hb
          subst hb
          exact ⟨_, rfl, by simp [storing]⟩
  have hs : storeWithProgress api ⟨[1, 2, 3], by decide⟩ (7 : Nat) .inBlock = ok ⟨"0x01", "0x02", 3⟩ :=
    rfl
  obtain ⟨_, ⟨block, hb, _, hs', _⟩, _⟩ := receipts_stored (fun _ _ _ => rfl) hh hs
  cases hb
  exact ⟨c, r, hs, hn ▸ hs'⟩

end RustSdk
end Bulletin
