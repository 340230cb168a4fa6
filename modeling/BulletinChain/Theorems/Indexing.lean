import BulletinChain.Theorems.Execution

namespace Bulletin

open Except Execution RuntimeCall

variable {T : Config} {sdk : Sdk T} {codec : CallCodec T} {origin : Origin T} {rest : List UInt8}
  {s s₁ s' : State T} {call : RuntimeCall T} {job : Job T} {e : Execution T} {x : Extrinsic T}
  {fallbacks : Bool}

-- The host is told to index the last bytes of an extrinsic, as many as were stored. That these are
-- the bytes that were stored is up to the layout of the extrinsic.

-- The origins with which the wrappers dispatch their inner calls, unless they refuse their own.
namespace Origin

def batching : Origin T → Option (Origin T)
  | none   => .none
  | origin => some origin

def derivative (sdk : Sdk T) (index : Nat) : Origin T → Option (Origin T)
  | signed who => some (signed (sdk.derivative who index))
  | _          => .none

def dispatching (origin asOrigin : Origin T) : Option (Origin T) :=
  match origin with
  | root => some asOrigin
  | _    => .none

def sudoing (origin : Origin T) (sdk : Sdk T) (asOrigin : Origin T) : Option (Origin T) :=
  if sdk.isSudo origin then some asOrigin else .none

-- The origins that a call can store with.
def stores : Origin T → RuntimeCall T → Bool
  | root, .transactionStorage _           => true
  | none, .transactionStorage _           => true
  | authorized _ _, .transactionStorage _ => true
  | systemAuthorized, .hopPromotion _     => true
  | _, _                                  => false

end Origin

namespace RuntimeCall

mutual

-- What a call can store if it is dispatched with an origin: the contents of the calls that it wraps, so
-- far as the origins let them store, each with what follows its call in the encoding. With `fallbacks`,
-- those of the branches of `if_else` that run if the others fail are counted as well.
def stores (sdk : Sdk T) (codec : CallCodec T) (fallbacks : Bool) (origin : Origin T)
    (rest : List UInt8) : RuntimeCall T → List (Content × List UInt8)
  | batch calls | batchAll calls | forceBatch calls =>
    origin.batching.elim [] fun o => storesAll sdk codec fallbacks o rest calls
  | asDerivative index call =>
    (origin.derivative sdk index).elim [] fun o => call.stores sdk codec fallbacks o rest
  | dispatchAs asOrigin call | dispatchAsFallible asOrigin call =>
    (origin.dispatching asOrigin).elim [] fun o => call.stores sdk codec fallbacks o rest
  | withWeight call weight =>
    (origin.dispatching .root).elim [] fun o =>
      call.stores sdk codec fallbacks o (codec.encodeWeight weight ++ rest)
  | ifElse main fallback =>
    origin.batching.elim [] fun o =>
      main.stores sdk codec fallbacks o (codec.encode fallback ++ rest) ++
        if fallbacks then fallback.stores sdk codec fallbacks o rest else []
  | .sudo call =>
    (origin.sudoing sdk .root).elim [] fun o => call.stores sdk codec fallbacks o rest
  | sudoUncheckedWeight call weight =>
    (origin.sudoing sdk .root).elim [] fun o =>
      call.stores sdk codec fallbacks o (codec.encodeWeight weight ++ rest)
  | sudoAs who call =>
    (origin.sudoing sdk (.signed who)).elim [] fun o => call.stores sdk codec fallbacks o rest
  | call => if origin.stores call then call.content.toList.map (·, rest) else []

def storesAll (sdk : Sdk T) (codec : CallCodec T) (fallbacks : Bool) (origin : Origin T)
    (rest : List UInt8) : List (RuntimeCall T) → List (Content × List UInt8)
  | []            => []
  | call :: calls =>
    call.stores sdk codec fallbacks origin (calls.flatMap codec.encode ++ rest) ++
      storesAll sdk codec fallbacks origin rest calls

end

end RuntimeCall

def Job.stores (sdk : Sdk T) (codec : CallCodec T) (fallbacks : Bool) (origin : Origin T)
    (rest : List UInt8) : Job T → List (Content × List UInt8)
  | .call c     => c.stores sdk codec fallbacks origin rest
  | .calls _ cs => storesAll sdk codec fallbacks origin rest cs

-- There is at most one content to store, and what follows its call in the encoding, if anything, ends
-- like it.
structure Placed (contents : List (Content × List UInt8)) : Prop where
  once  : contents.length ≤ 1
  bytes : ∀ c ∈ contents, c.1.1.bytes <:+ c.1.1.bytes ++ c.2

theorem Placed.sublist (h : Placed l) (hs : List.Sublist l' l) : Placed l' :=
  ⟨hs.length_le.trans h.once, fun c hc => h.bytes c (hs.subset hc)⟩

namespace Dispatched

-- The content that a dispatch has stored.
def stored (d : Dispatched T) : Option Content :=
  if d.succeeded then d.call.content else none

end Dispatched

namespace Execution

-- What an execution stores, each with what follows its call in the encoding.
def stores (e : Execution T) : List (Content × List UInt8) :=
  e.trace.filterMap fun d => d.stored.map (·, d.rest)

-- An execution stores at most once, and then the last bytes of the encoding are those it stores.
structure Indexes (e : Execution T) (encoded : List UInt8) : Prop where
  once  : e.stores.length ≤ 1
  bytes : ∀ c ∈ e.stores, c.1.1.bytes <:+ encoded

theorem mem_stores {c : Content × List UInt8} :
    c ∈ e.stores ↔ ∃ d ∈ e.trace, d.succeeded ∧ d.call.content = some c.1 ∧ d.rest = c.2 := by
  simp only [stores, List.mem_filterMap, Option.map_eq_some_iff, Dispatched.stored,
    Option.ite_none_right_eq_some]
  constructor
  case mp =>
    intro ⟨d, hd, _, ⟨hs, hc⟩, he⟩
    subst he
    exact ⟨d, hd, hs, hc, rfl⟩
  case mpr =>
    intro ⟨d, hd, hs, hc, hr⟩
    exact ⟨d, hd, c.1, ⟨hs, hc⟩, by rw [hr]⟩

end Execution

namespace RuntimeCall

theorem isLeaf_of_content (h : call.content = some c) : call.isLeaf := by
  cases call <;> first | contradiction | rfl

theorem encodeBytes_suffix (p bs : List UInt8) : bs <:+ p ++ Scale.encodeBytes bs :=
  (List.suffix_append ..).trans (List.suffix_append ..)

-- The data of a call is the last of its fields.
theorem content_encode_suffix (codec : CallCodec T) (h : call.content = some c) :
    c.1.bytes <:+ codec.encode call := by
  cases call
  case transactionStorage call =>
    rw [codec.transactionStorage]
    cases call <;> cases h
    case store              => exact encodeBytes_suffix [40, 0] _
    case storeWithCidConfig => exact encodeBytes_suffix (40 :: 9 :: _) _
  case hopPromotion call =>
    rw [codec.hopPromotion]
    cases call <;> cases h
    all_goals exact encodeBytes_suffix (41 :: _ :: _) _
  all_goals contradiction

end RuntimeCall

namespace Executes

theorem stores_suffix (h : Executes sdk codec origin rest s job e) (hc : c ∈ e.stores) :
    c.1.1.bytes ++ c.2 <:+ job.encode codec ++ rest := by
  have ⟨d, hd, _, hc, hr⟩ := mem_stores.mp hc
  have ⟨p, hp⟩ := content_encode_suffix codec hc
  have hs : c.1.1.bytes ++ c.2 <:+ codec.encode d.call ++ d.rest :=
    ⟨p, by rw [← hp, hr, List.append_assoc]⟩
  exact hs.trans (h.encode_suffix d hd)

-- The stored bytes are the last ones exactly if what follows their call ends like them.
theorem indexes_iff (h : Executes sdk codec origin [] s (.call call) e) :
    e.Indexes (codec.encode call) ↔ Placed e.stores := by
  have hs : ∀ c ∈ e.stores, c.1.1.bytes ++ c.2 <:+ codec.encode call := fun c hc => by
    simpa [Job.encode] using h.stores_suffix hc
  constructor
  case mp =>
    rintro ⟨ho, hb⟩
    refine ⟨ho, fun c hc => ?_⟩
    exact List.suffix_of_suffix_length_le (hb c hc) (hs c hc) (by simp)
  case mpr =>
    rintro ⟨ho, hb⟩
    exact ⟨ho, fun c hc => (hb c hc).trans (hs c hc)⟩

theorem indexes_of_isLeaf (h : Executes sdk codec origin [] s (.call call) e) (hl : call.isLeaf) :
    e.Indexes (codec.encode call) := by
  have ht := h.trace_of_isLeaf hl
  refine h.indexes_iff.mpr ⟨?_, fun c hc => ?_⟩
  · refine (List.length_filterMap_le ..).trans ?_
    rw [ht, List.length_singleton]
  · have ⟨d, hd, _, _, hr⟩ := mem_stores.mp hc
    rw [ht] at hd
    cases List.mem_singleton.mp hd
    rw [← hr, List.append_nil]

-- Only Root and the origins of the extensions store.
theorem stores_of_signed (h : Executes sdk codec origin rest s job e)
    (hs : ∀ d ∈ e.trace, ∃ who, d.origin = .signed who) : e.stores = [] := by
  refine List.eq_nil_iff_forall_not_mem.mpr fun c hc => ?_
  have ⟨d, hd, hu, hc, _⟩ := mem_stores.mp hc
  have ⟨who, hw⟩ := hs d hd
  have ⟨_, _, hd⟩ := h.dispatch_of_succeeded d hd hu (isLeaf_of_content hc)
  have hn := content_of_dispatch_signed (hw ▸ hd)
  exact absurd (hc.symm.trans hn) nofun

theorem stores_of_wrapper (h : Executes sdk codec origin rest s₁ (.call x.call) e)
    (ha : Admitted s x origin s₁) (hl : ¬x.call.isLeaf) (hr : ∀ d ∈ e.trace, d.origin ≠ .root) :
    e.stores = [] := by
  have ⟨_, ho⟩ := ha.wrapper hl
  obtain ho | ⟨who, ho⟩ := ho <;> subst ho
  · rw [h.failed_of_none hl]
    rfl
  · exact h.stores_of_signed (h.signed_of_signed hr)

end Executes

namespace Execution

theorem stores_of (call : RuntimeCall T) (e : Execution T) (h : call.content = none) :
    (e.of origin call rest).stores = e.stores := by
  simp [stores, Execution.of, Dispatched.stored, h]

theorem stores_after (e₁ e₂ : Execution T) : (e₂.after e₁.trace).stores = e₁.stores ++ e₂.stores := by
  simp [stores, after]

end Execution

namespace RuntimeCall

theorem content_of_batched (h : call.batched = some (mode, calls)) : call.content = none := by
  cases call <;> first | contradiction | rfl

theorem Wraps.content (h : Wraps sdk codec origin call origin' innerCall tail) : call.content = none := by
  cases h <;> rfl

theorem Wraps.stores (h : Wraps sdk codec origin call origin' innerCall tail) :
    call.stores sdk codec fallbacks origin rest =
      innerCall.stores sdk codec fallbacks origin' (tail ++ rest) := by
  cases h
  case «sudo» hs | sudoUncheckedWeight hs | sudoAs hs =>
    simp [RuntimeCall.stores, Origin.sudoing, hs]
  all_goals rfl

theorem batching_of_ne_none (h : origin ≠ .none) : origin.batching = some origin := by
  cases origin <;> first | contradiction | rfl

theorem stores_batched (h : call.batched = some (mode, calls)) (hn : origin ≠ .none) :
    call.stores sdk codec fallbacks origin rest = storesAll sdk codec fallbacks origin rest calls := by
  cases call <;> cases h <;> simp [RuntimeCall.stores, batching_of_ne_none hn]

theorem stores_of_isLeaf (h : call.isLeaf) : call.stores sdk codec fallbacks origin rest =
    if origin.stores call then call.content.toList.map (·, rest) else [] := by
  cases call <;> first | contradiction | simp [RuntimeCall.stores]

-- A call that stores does so with an origin that lets it.
theorem stores_of_dispatch (h : call.dispatch s origin = ok s') (hc : call.content = some c) :
    origin.stores call := by
  cases call
  case transactionStorage call =>
    cases origin <;> cases call <;> first | contradiction | rfl
  case hopPromotion call => cases origin <;> first | contradiction | rfl
  all_goals contradiction

-- What a call stores that wraps no other.
theorem stores_of_leaf (hl : call.isLeaf) (hd : call.dispatch s origin = ok s') :
    (Execution.of origin call rest ⟨(call.dispatch s origin).toOption, []⟩).stores =
      call.stores sdk codec fallbacks origin rest := by
  rw [stores_of_isLeaf hl, hd]
  cases hc : call.content
  case none   => rw [stores_of call _ hc]; simp [Execution.stores]
  case some c =>
    simp [stores_of_dispatch hd hc, hc, Execution.stores, Execution.of, Dispatched.stored, Except.toOption]

end RuntimeCall

namespace Executes

-- What an execution stores is among what its call can store.
theorem stores_sublist (h : Executes sdk codec origin rest s job e) :
    List.Sublist e.stores (job.stores sdk codec true origin rest) := by
  induction h
  case failed => exact List.nil_sublist _
  case leaf origin rest s call hl =>
    cases hd : call.dispatch s origin
    case error => exact List.nil_sublist _
    case ok    => rw [Job.stores, ← stores_of_leaf hl hd, hd]
  case batch hb hn _ hi =>
    rw [stores_of _ _ (content_of_batched hb), Job.stores, stores_batched hb hn]
    exact hi
  case wrapped hw _ hi | regardless hw _ hi =>
    rw [stores_of _ _ hw.content, Job.stores, hw.stores]
    exact hi
  case main hn _ hi =>
    rw [stores_of _ _ rfl, Job.stores, RuntimeCall.stores, batching_of_ne_none hn]
    exact hi.trans (List.sublist_append_left ..)
  case fallback hn _ _ _ hi₁ hi₂ =>
    rw [stores_of _ _ rfl, Job.stores, RuntimeCall.stores, batching_of_ne_none hn, stores_after]
    exact hi₁.append hi₂
  case nil => exact List.nil_sublist _
  case cons hi₁ hi₂ | skipped hi₁ hi₂ =>
    rw [stores_after, Job.stores, storesAll]
    exact hi₁.append hi₂
  case stopped hi | aborted hi =>
    rw [Job.stores, storesAll]
    exact hi.trans (List.sublist_append_left ..)

-- If nothing fails it is all of it.
theorem stores_eq (h : Executes sdk codec origin rest s job e) (hs : ∀ d ∈ e.trace, d.succeeded) :
    e.stores = job.stores sdk codec false origin rest := by
  induction h
  case failed => exact absurd (hs _ List.mem_cons_self) nofun
  case leaf origin rest s call hl =>
    obtain ⟨s', hd⟩ := Option.isSome_iff_exists.mp (hs _ List.mem_cons_self)
    exact stores_of_leaf hl (toOption_eq_some.mp hd)
  case batch hb hn _ hi =>
    rw [stores_of _ _ (content_of_batched hb), Job.stores, stores_batched hb hn]
    exact hi (List.forall_mem_cons.mp hs).right
  case wrapped hw _ hi | regardless hw _ hi =>
    rw [stores_of _ _ hw.content, Job.stores, hw.stores]
    exact hi (List.forall_mem_cons.mp hs).right
  case main hn _ hi =>
    rw [stores_of _ _ rfl, Job.stores, RuntimeCall.stores, batching_of_ne_none hn]
    simpa [Job.stores] using hi (List.forall_mem_cons.mp hs).right
  case fallback h₁ hf _ _ _ =>
    have hs := hs _ (List.mem_cons_of_mem _ (List.mem_append_left _ h₁.self_mem))
    exact absurd hs (by simp [hf])
  case nil => rfl
  case cons hi₁ hi₂ =>
    obtain ⟨hs₁, hs₂⟩ := List.forall_mem_append.mp hs
    rw [stores_after, Job.stores, storesAll, hi₁ hs₁, hi₂ hs₂]
    rfl
  case stopped h hf _ | aborted h hf _ => exact absurd (hs _ h.self_mem) (by simp [hf])
  case skipped h hf _ _ _ =>
    exact absurd (hs _ (List.mem_append_left _ h.self_mem)) (by simp [hf])

end Executes

-- An extrinsic stores at most once, and the host indexes the bytes that it stores, if this is so for all
-- that its call can store with the origin that it is dispatched with. If nothing fails in the course of
-- its execution this is also necessary. And it is so whenever nothing is dispatched with Root origin.
theorem stored_bytes_indexed (ha : x.admission s = (ok origin, s₁))
    (h : Executes sdk codec origin [] s₁ (.call x.call) e) :
    (Placed (x.call.stores sdk codec true origin []) → e.Indexes (codec.encode x.call)) ∧
    ((∀ d ∈ e.trace, d.succeeded) →
      (e.Indexes (codec.encode x.call) ↔ Placed (x.call.stores sdk codec false origin []))) ∧
    ((∀ d ∈ e.trace, d.origin ≠ .root) → e.Indexes (codec.encode x.call)) := by
  refine ⟨fun hp => ?_, fun hs => ?_, fun hr => ?_⟩
  · exact h.indexes_iff.mpr (hp.sublist h.stores_sublist)
  · rw [h.indexes_iff, h.stores_eq hs]
    rfl
  · by_cases hl : x.call.isLeaf
    · exact h.indexes_of_isLeaf hl
    · have hs := h.stores_of_wrapper (Extrinsic.admission_admitted ha) hl hr
      exact ⟨by simp [hs], by simp [hs]⟩

-- Of the executions there can be, one that can be computed: no call is refused but for its origin.

namespace Execution

-- The utility pallet does not accept calls without an origin.
def unlessNone (origin : Origin T) (e : Execution T) : Execution T :=
  match origin with
  | .none => failed
  | _     => e

def ifRoot (origin : Origin T) (e : Execution T) : Execution T :=
  match origin with
  | .root => e
  | _     => failed

def ifSigned (origin : Origin T) (e : T.AccountId → Execution T) : Execution T :=
  match origin with
  | .signed who => e who
  | _           => failed

end Execution

namespace RuntimeCall

mutual

def execute (sdk : Sdk T) (codec : CallCodec T) (origin : Origin T) (rest : List UInt8) (s : State T)
    (call : RuntimeCall T) : Execution T :=
  Execution.of origin call rest <|
    match call with
    | batch calls      => unlessNone origin (executeAll sdk codec .stop origin rest s calls)
    | batchAll calls   => unlessNone origin (executeAll sdk codec .fail origin rest s calls)
    | forceBatch calls => unlessNone origin (executeAll sdk codec .skip origin rest s calls)
    | asDerivative index inner =>
      ifSigned origin fun who =>
        execute sdk codec (.signed (sdk.derivative who index)) rest s inner
    | dispatchAs asOrigin inner =>
      ifRoot origin ((execute sdk codec asOrigin rest s inner).regardless s)
    | dispatchAsFallible asOrigin inner =>
      ifRoot origin (execute sdk codec asOrigin rest s inner)
    | withWeight inner weight =>
      ifRoot origin (execute sdk codec .root (codec.encodeWeight weight ++ rest) s inner)
    | ifElse main fallback =>
      let first := execute sdk codec origin (codec.encode fallback ++ rest) s main
      unlessNone origin <|
        if first.result.isSome then first
        else (execute sdk codec origin rest s fallback).after first.trace
    | .sudo inner =>
      if sdk.isSudo origin then (execute sdk codec .root rest s inner).regardless s else failed
    | sudoUncheckedWeight inner weight =>
      if sdk.isSudo origin then
        (execute sdk codec .root (codec.encodeWeight weight ++ rest) s inner).regardless s
      else
        failed
    | sudoAs who inner =>
      if sdk.isSudo origin then (execute sdk codec (.signed who) rest s inner).regardless s
      else failed
    | transactionStorage _ | hopPromotion _ | dataRenewal _ | other _ =>
      ⟨(call.dispatch s origin).toOption, []⟩

def executeAll (sdk : Sdk T) (codec : CallCodec T) (mode : BatchMode) (origin : Origin T)
    (rest : List UInt8) (s : State T) : List (RuntimeCall T) → Execution T
  | []            => ⟨some s, []⟩
  | call :: calls =>
    let first := execute sdk codec origin (calls.flatMap codec.encode ++ rest) s call
    match first.result, mode with
    | some s', _    => (executeAll sdk codec mode origin rest s' calls).after first.trace
    | none,   .stop => ⟨some s, first.trace⟩
    | none,   .fail => ⟨none, first.trace⟩
    | none,   .skip => (executeAll sdk codec mode origin rest s calls).after first.trace

end

end RuntimeCall

namespace Executes

theorem unlessNone
    (h : origin ≠ .none → Executes sdk codec origin rest s (.call call) (e.of origin call rest)) :
    Executes sdk codec origin rest s (.call call) ((unlessNone origin e).of origin call rest) := by
  cases origin
  case none => exact .failed
  all_goals exact h nofun

theorem ifRoot
    (h : origin = .root → Executes sdk codec origin rest s (.call call) (e.of origin call rest)) :
    Executes sdk codec origin rest s (.call call) ((ifRoot origin e).of origin call rest) := by
  cases origin
  case root => exact h rfl
  all_goals exact .failed

theorem ifSudo
    (h : sdk.isSudo origin →
      Executes sdk codec origin rest s (.call call) (e.of origin call rest)) :
    Executes sdk codec origin rest s (.call call)
      (Execution.of origin call rest (if sdk.isSudo origin then e else Execution.failed)) := by
  split
  case isTrue hs => exact h hs
  case isFalse   => exact .failed

end Executes

namespace RuntimeCall

mutual

theorem execute_executes (sdk : Sdk T) (codec : CallCodec T) (origin : Origin T) (rest : List UInt8)
    (s : State T) : (call : RuntimeCall T) →
    Executes sdk codec origin rest s (.call call) (execute sdk codec origin rest s call) := by
  intro call
  cases call
  all_goals rw [execute]
  case transactionStorage | hopPromotion | dataRenewal | other => exact .leaf rfl
  case batch calls | batchAll calls | forceBatch calls =>
    exact .unlessNone fun hn => .batch rfl hn (executeAll_executes sdk codec _ origin rest s calls)
  case asDerivative index innerCall =>
    cases origin
    case signed => exact .wrapped .asDerivative (execute_executes sdk codec _ rest s innerCall)
    all_goals exact .failed
  case dispatchAs asOrigin innerCall =>
    refine .ifRoot fun hr => ?_
    subst hr
    exact .regardless .dispatchAs (execute_executes sdk codec asOrigin rest s innerCall)
  case dispatchAsFallible asOrigin innerCall =>
    refine .ifRoot fun hr => ?_
    subst hr
    exact .wrapped .dispatchAsFallible (execute_executes sdk codec asOrigin rest s innerCall)
  case withWeight innerCall weight =>
    refine .ifRoot fun hr => ?_
    subst hr
    exact .wrapped .withWeight (execute_executes sdk codec .root _ s innerCall)
  case ifElse main fallback =>
    refine .unlessNone fun hn => ?_
    have hm := execute_executes sdk codec origin (codec.encode fallback ++ rest) s main
    split
    case isTrue     => exact .main hn hm
    case isFalse hf =>
      exact .fallback hn hm (by simpa using hf) (execute_executes sdk codec origin rest s fallback)
  case «sudo» innerCall =>
    exact .ifSudo fun hs =>
      .regardless (.sudo hs) (execute_executes sdk codec .root rest s innerCall)
  case sudoUncheckedWeight innerCall weight =>
    exact .ifSudo fun hs =>
      .regardless (.sudoUncheckedWeight hs) (execute_executes sdk codec .root _ s innerCall)
  case sudoAs who innerCall =>
    exact .ifSudo fun hs =>
      .regardless (.sudoAs hs) (execute_executes sdk codec (.signed who) rest s innerCall)

theorem executeAll_executes (sdk : Sdk T) (codec : CallCodec T) (mode : BatchMode) (origin : Origin T)
    (rest : List UInt8) (s : State T) : (calls : List (RuntimeCall T)) →
    Executes sdk codec origin rest s (.calls mode calls)
      (executeAll sdk codec mode origin rest s calls) := by
  intro calls
  cases calls
  case nil =>
    rw [executeAll]
    exact .nil
  case cons call calls =>
    have hc := execute_executes sdk codec origin (calls.flatMap codec.encode ++ rest) s call
    simp only [executeAll]
    split
    case h_1 s₁ hr => exact .cons hc hr (executeAll_executes sdk codec _ origin rest s₁ calls)
    case h_2 hr    => exact .stopped hc hr
    case h_3 hr    => exact .aborted hc hr
    case h_4 hr    => exact .skipped hc hr (executeAll_executes sdk codec .skip origin rest s calls)

end

end RuntimeCall

-- An encoding that can be computed. Nothing depends on what it puts before the calls that are wrapped.
namespace RuntimeCall

mutual

def encode (codec : Codec .mock) : RuntimeCall .mock → List UInt8
  | transactionStorage call         => 40 :: call.encode codec
  | hopPromotion call               => 41 :: call.encode codec
  | dataRenewal call                => 42 :: call.encode
  | batch calls                     => 6 :: 0 :: (Scale.compact calls.length ++ encodeAll codec calls)
  | asDerivative index call         => 6 :: 1 :: (Scale.littleEndian 2 index ++ call.encode codec)
  | batchAll calls                  => 6 :: 2 :: (Scale.compact calls.length ++ encodeAll codec calls)
  | dispatchAs _ call               => 6 :: 3 :: 0 :: call.encode codec
  | forceBatch calls                => 6 :: 4 :: (Scale.compact calls.length ++ encodeAll codec calls)
  | withWeight call weight          => 6 :: 5 :: (call.encode codec ++ codec.encodeWeight weight)
  | ifElse main fallback            => 6 :: 6 :: (main.encode codec ++ fallback.encode codec)
  | dispatchAsFallible _ call       => 6 :: 7 :: 0 :: call.encode codec
  | .sudo call                      => 100 :: 0 :: call.encode codec
  | sudoUncheckedWeight call weight => 100 :: 1 :: (call.encode codec ++ codec.encodeWeight weight)
  | sudoAs who call                 => 100 :: 3 :: Nat.toUInt8 who :: call.encode codec
  | other encoded                   => encoded

def encodeAll (codec : Codec .mock) : List (RuntimeCall .mock) → List UInt8
  | []            => []
  | call :: calls => call.encode codec ++ encodeAll codec calls

end

theorem encodeAll_eq (codec : Codec .mock) (calls : List (RuntimeCall .mock)) :
    encodeAll codec calls = calls.flatMap (encode codec) := by
  induction calls
  case nil => rfl
  case cons hi => rw [encodeAll, hi, List.flatMap_cons]

end RuntimeCall

def CallCodec.mock : CallCodec .mock where
  encodeMultiSigner signer   := [Nat.toUInt8 signer]
  encodeMultiSignature _     := []
  encodeTrieProof _          := []
  encodeWeight weight        := Scale.compact weight.refTime ++ Scale.compact weight.proofSize
  encode                     := RuntimeCall.encode _
  transactionStorage _       := by rw [RuntimeCall.encode]
  hopPromotion _             := by rw [RuntimeCall.encode]
  dataRenewal _              := by rw [RuntimeCall.encode]
  batch _                    := by rw [RuntimeCall.encode, encodeAll_eq]; exact ⟨_ :: _ :: _, rfl⟩
  batchAll _                 := by rw [RuntimeCall.encode, encodeAll_eq]; exact ⟨_ :: _ :: _, rfl⟩
  forceBatch _               := by rw [RuntimeCall.encode, encodeAll_eq]; exact ⟨_ :: _ :: _, rfl⟩
  asDerivative _ _           := by rw [RuntimeCall.encode]; exact ⟨_ :: _ :: _, rfl⟩
  dispatchAs _ _             := by rw [RuntimeCall.encode]; exact ⟨[_, _, _], rfl⟩
  dispatchAsFallible _ _     := by rw [RuntimeCall.encode]; exact ⟨[_, _, _], rfl⟩
  withWeight _ _             := by rw [RuntimeCall.encode]; exact ⟨[_, _], rfl⟩
  ifElse _ _                 := by rw [RuntimeCall.encode]; exact ⟨[_, _], rfl⟩
  «sudo» _                   := by rw [RuntimeCall.encode]; exact ⟨[_, _], rfl⟩
  sudoUncheckedWeight _ _    := by rw [RuntimeCall.encode]; exact ⟨[_, _], rfl⟩
  sudoAs _ _                 := by rw [RuntimeCall.encode]; exact ⟨[_, _, _], rfl⟩

-- The key of the sudo pallet is account 0.
def Sdk.mock : Sdk .mock where
  sudoKey              := some (0 : Nat)
  derivative who index := Nat.add who index

-- A state in which account 1 may store.
def State.opened : State .mock :=
  Chain.initialized (GenesisConfig.build ⟨3, [], [((1 : Nat), 1, 10)], []⟩) [] 0

instance : DecidablePred fun o : Origin T => o = .root
  | .root => isTrue rfl
  | .none | .signed _ | .authorized _ _ | .systemAuthorized | .xcm _ => isFalse nofun

-- An admission that can be computed leaves an origin and a state of which a property can be
-- decided.
theorem Extrinsic.exists_admission (x : Extrinsic T) (s : State T) (p : Origin T → State T → Prop)
    [∀ origin s, Decidable (p origin s)]
    (h : (x.admission s).1.toOption.any (p · (x.admission s).2)) :
    ∃ origin s₁, x.admission s = (ok origin, s₁) ∧ p origin s₁ := by
  have ⟨origin, ho, hp⟩ := (Option.any_eq_true ..).mp h
  exact ⟨origin, _, Prod.ext (toOption_eq_some.mp ho) rfl, of_decide_eq_true hp⟩

theorem stored_bytes_indexed_store :
    let x : Extrinsic .mock := .signed (1 : Nat)
      (.transactionStorage (.store ⟨[1, 2, 3], by decide⟩))
    ∃ origin s₁ e, x.admission .opened = (ok origin, s₁) ∧
      Executes .mock .mock origin [] s₁ (.call x.call) e ∧ e.stores.length = 1 ∧
      e.Indexes (CallCodec.mock.encode x.call) := by
  intro x
  have ⟨origin, s₁, ha, hs, hr⟩ := x.exists_admission .opened
    (fun origin s₁ => (x.call.execute .mock .mock origin [] s₁).stores.length = 1 ∧
      ∀ d ∈ (x.call.execute .mock .mock origin [] s₁).trace, d.origin ≠ .root) (by decide +kernel)
  have he := execute_executes .mock .mock origin [] s₁ x.call
  exact ⟨origin, s₁, _, ha, he, hs, (stored_bytes_indexed ha he).right.right hr⟩

-- The key of the sudo pallet stores twice in one extrinsic, and stores data that is followed by the
-- weight of a wrapper.
theorem stored_bytes_not_indexed :
    let a : RuntimeCall .mock := .transactionStorage (.store ⟨[1, 2, 3], by decide⟩)
    let b : RuntimeCall .mock := .transactionStorage (.store ⟨[4, 5], by decide⟩)
    let x : Extrinsic .mock := .signed (0 : Nat) (.sudo (.batchAll [a, b]))
    let y : Extrinsic .mock := .signed (0 : Nat) (.sudo (.withWeight a ⟨1, 1⟩))
    (∃ origin s₁ e, x.admission .opened = (ok origin, s₁) ∧
      Executes .mock .mock origin [] s₁ (.call x.call) e ∧ e.result.isSome ∧ e.stores.length = 2 ∧
      ¬e.Indexes (CallCodec.mock.encode x.call)) ∧
    (∃ origin s₁ e, y.admission .opened = (ok origin, s₁) ∧
      Executes .mock .mock origin [] s₁ (.call y.call) e ∧ e.result.isSome ∧ e.stores.length = 1 ∧
      ¬e.Indexes (CallCodec.mock.encode y.call)) := by
  intro a b x y
  have ⟨o, s, ha, hr, hs⟩ := x.exists_admission .opened
    (fun origin s₁ => (x.call.execute .mock .mock origin [] s₁).result.isSome ∧
      (x.call.execute .mock .mock origin [] s₁).stores.length = 2) (by decide +kernel)
  have ⟨o', s', ha', hr', hs', hb⟩ := y.exists_admission .opened
    (fun origin s₁ => (y.call.execute .mock .mock origin [] s₁).result.isSome ∧
      (y.call.execute .mock .mock origin [] s₁).stores.length = 1 ∧
      ∃ c ∈ (y.call.execute .mock .mock origin [] s₁).stores,
        ¬c.1.1.bytes <:+ CallCodec.mock.encode y.call) (by decide +kernel)
  refine ⟨⟨o, s, _, ha, execute_executes .mock .mock o [] s x.call, hr, hs, fun h => ?_⟩,
    ⟨o', s', _, ha', execute_executes .mock .mock o' [] s' y.call, hr', hs', fun h => ?_⟩⟩
  · exact absurd h.once (by rw [hs]; decide)
  · have ⟨c, hc, hn⟩ := hb
    exact hn (h.bytes c hc)

end Bulletin
