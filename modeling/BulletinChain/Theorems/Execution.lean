import BulletinChain.Runtime.Execution
import BulletinChain.Theorems.Steps

namespace Bulletin

open Except Execution

variable {T : Config}

open RuntimeCall

def Job.encode (codec : CallCodec T) : Job T → List UInt8
  | call c     => codec.encode c
  | calls _ cs => cs.flatMap codec.encode

-- What a job executes on the way: with which origin, and what follows it in the encoding.
inductive Descends (sdk : Sdk T) (codec : CallCodec T) (origin : Origin T) (rest : List UInt8) :
    Job T → Origin T → List UInt8 → Job T → Prop
  | batch :
    call.batched = some (mode, calls) →
    Descends sdk codec origin rest (.call call) origin rest (.calls mode calls)
  | wrapped :
    Wraps sdk codec origin call origin' innerCall tail →
    Descends sdk codec origin rest (.call call) origin' (tail ++ rest) (.call innerCall)
  | main :
    Descends sdk codec origin rest (.call (ifElse main fallback))
      origin (codec.encode fallback ++ rest) (.call main)
  | fallback :
    Descends sdk codec origin rest (.call (ifElse main fallback)) origin rest (.call fallback)
  | head :
    Descends sdk codec origin rest (.calls mode (call :: calls))
      origin (calls.flatMap codec.encode ++ rest) (.call call)
  | tail :
    Descends sdk codec origin rest (.calls mode (call :: calls)) origin rest (.calls mode calls)

variable {sdk : Sdk T} {codec : CallCodec T} {origin : Origin T} {rest : List UInt8} {s s' : State T}
  {call : RuntimeCall T} {job : Job T} {e : Execution T}

namespace RuntimeCall

theorem not_isLeaf_of_batched (h : call.batched = some (mode, calls)) : ¬call.isLeaf := by
  cases call <;> first | contradiction | exact nofun

theorem batched_encode_suffix (codec : CallCodec T) (h : call.batched = some (mode, calls)) :
    calls.flatMap codec.encode <:+ codec.encode call := by
  cases call <;> cases h
  case batch      => exact codec.batch calls
  case batchAll   => exact codec.batchAll calls
  case forceBatch => exact codec.forceBatch calls

theorem Wraps.not_isLeaf (h : Wraps sdk codec origin call origin' innerCall tail) : ¬call.isLeaf := by
  cases h <;> exact nofun

theorem Wraps.encode_suffix (h : Wraps sdk codec origin call origin' innerCall tail) :
    codec.encode innerCall ++ tail <:+ codec.encode call := by
  cases h
  case withWeight          => exact codec.withWeight ..
  case sudoUncheckedWeight => exact codec.sudoUncheckedWeight ..
  all_goals rw [List.append_nil]
  case asDerivative        => exact codec.asDerivative ..
  case dispatchAs          => exact codec.dispatchAs ..
  case dispatchAsFallible  => exact codec.dispatchAsFallible ..
  case «sudo»              => exact codec.sudo ..
  case sudoAs              => exact codec.sudoAs ..

end RuntimeCall

theorem Descends.encode_suffix {job' : Job T}
    (h : Descends sdk codec origin rest job origin' rest' job') :
    job'.encode codec ++ rest' <:+ job.encode codec ++ rest := by
  cases h
  case batch hb =>
    have ⟨p, hp⟩ := batched_encode_suffix codec hb
    exact ⟨p, by simp only [Job.encode, ← hp, List.append_assoc]⟩
  case wrapped hw =>
    have ⟨p, hp⟩ := hw.encode_suffix
    exact ⟨p, by simp only [Job.encode, ← hp, List.append_assoc]⟩
  case main main fallback =>
    have ⟨p, hp⟩ := codec.ifElse main fallback
    exact ⟨p, by simp only [Job.encode, ← hp, List.append_assoc]⟩
  case fallback main fallback =>
    have ⟨p, hp⟩ := codec.ifElse main fallback
    exact ⟨p ++ codec.encode main, by simp only [Job.encode, ← hp, List.append_assoc]⟩
  case head        => exact ⟨[], by simp [Job.encode]⟩
  case tail call _ => exact ⟨codec.encode call, by simp [Job.encode]⟩

namespace Executes

theorem self_mem (h : Executes sdk codec origin rest s (.call call) e) :
    ⟨origin, call, rest, e.result.isSome⟩ ∈ e.trace := by
  cases h <;> exact List.mem_cons_self ..

-- What a job passes on to all below it holds of all that its execution dispatches, so long as the
-- origins are as `R` says.
theorem inherits {P : Origin T → List UInt8 → Job T → Prop} {R : Origin T → Prop}
    (hb : ∀ {origin rest job origin' rest' job'},
      Descends sdk codec origin rest job origin' rest' job' → R origin' →
      P origin rest job → P origin' rest' job')
    (h : Executes sdk codec origin rest s job e) (hR : R origin) (hr : ∀ d ∈ e.trace, R d.origin)
    (hP : P origin rest job) : ∀ d ∈ e.trace, P d.origin d.rest (.call d.call) := by
  induction h
  case failed | leaf => exact fun d hd => List.mem_singleton.mp hd ▸ hP
  case batch hc hn h hi =>
    have ⟨_, hr⟩ := List.forall_mem_cons.mp hr
    exact List.forall_mem_cons.mpr ⟨hP, hi hR hr (hb (.batch hc) hR hP)⟩
  case wrapped hw h hi | regardless hw h hi =>
    have ⟨_, hr⟩ := List.forall_mem_cons.mp hr
    have hR' := hr _ h.self_mem
    exact List.forall_mem_cons.mpr ⟨hP, hi hR' hr (hb (.wrapped hw) hR' hP)⟩
  case main hn h hi =>
    have ⟨_, hr⟩ := List.forall_mem_cons.mp hr
    exact List.forall_mem_cons.mpr ⟨hP, hi hR hr (hb .main hR hP)⟩
  case fallback hn h₁ _ h₂ hi₁ hi₂ =>
    have ⟨_, hr⟩ := List.forall_mem_cons.mp hr
    have ⟨hr₁, hr₂⟩ := List.forall_mem_append.mp hr
    refine List.forall_mem_cons.mpr ⟨hP, List.forall_mem_append.mpr ⟨?_, ?_⟩⟩
    · exact hi₁ hR hr₁ (hb .main hR hP)
    · exact hi₂ hR hr₂ (hb .fallback hR hP)
  case nil => exact fun _ => nofun
  case cons h₁ _ h₂ hi₁ hi₂ | skipped h₁ _ h₂ hi₁ hi₂ =>
    have ⟨hr₁, hr₂⟩ := List.forall_mem_append.mp hr
    refine List.forall_mem_append.mpr ⟨?_, ?_⟩
    · exact hi₁ hR hr₁ (hb .head hR hP)
    · exact hi₂ hR hr₂ (hb .tail hR hP)
  case stopped h _ hi | aborted h _ hi => exact hi hR hr (hb .head hR hP)

-- The bytes of a call that is dispatched, and what follows them, are the last ones of the encoding.
theorem encode_suffix (h : Executes sdk codec origin rest s job e) :
    ∀ d ∈ e.trace, codec.encode d.call ++ d.rest <:+ job.encode codec ++ rest :=
  h.inherits (R := fun _ => True)
    (P := fun _ r j => j.encode codec ++ r <:+ job.encode codec ++ rest)
    (fun hb _ hP => hb.encode_suffix.trans hP) trivial (fun _ _ => trivial) (List.suffix_refl _)

-- As long as nothing is dispatched with Root origin, what a signer executes is dispatched by
-- signers.
theorem signed_of_signed (h : Executes sdk codec (.signed who) rest s job e)
    (hr : ∀ d ∈ e.trace, d.origin ≠ .root) : ∀ d ∈ e.trace, ∃ who, d.origin = .signed who := by
  refine h.inherits (R := (· ≠ .root)) (P := fun o _ _ => ∃ who, o = .signed who)
    ?_ nofun hr ⟨_, rfl⟩
  intro origin rest job origin' rest' job' hb hR ⟨who, ho⟩
  subst ho
  cases hb
  case wrapped hw =>
    cases hw
    case asDerivative | sudoAs => exact ⟨_, rfl⟩
    all_goals contradiction
  all_goals exact ⟨who, rfl⟩

-- A call without inner calls succeeds in the course of an execution only if its dispatch does in
-- some state.
theorem dispatch_of_succeeded (h : Executes sdk codec origin rest s job e) :
    ∀ d ∈ e.trace, d.succeeded → d.call.isLeaf → ∃ s s', d.call.dispatch s d.origin = ok s' := by
  induction h
  case failed => exact List.forall_mem_singleton.mpr nofun
  case leaf s _ _ =>
    refine List.forall_mem_singleton.mpr fun hs _ => ?_
    have ⟨s', hs⟩ := Option.isSome_iff_exists.mp hs
    exact ⟨s, s', toOption_eq_some.mp hs⟩
  case batch hc _ _ hi =>
    exact List.forall_mem_cons.mpr ⟨fun _ hl => absurd hl (not_isLeaf_of_batched hc), hi⟩
  case wrapped hw _ hi | regardless hw _ hi =>
    exact List.forall_mem_cons.mpr ⟨fun _ hl => absurd hl hw.not_isLeaf, hi⟩
  case main hi => exact List.forall_mem_cons.mpr ⟨fun _ => nofun, hi⟩
  case fallback hi₁ hi₂ =>
    exact List.forall_mem_cons.mpr ⟨fun _ => nofun, List.forall_mem_append.mpr ⟨hi₁, hi₂⟩⟩
  case nil => exact fun _ => nofun
  case cons hi₁ hi₂ | skipped hi₁ hi₂ => exact List.forall_mem_append.mpr ⟨hi₁, hi₂⟩
  case stopped hi | aborted hi => exact hi

-- The state that an execution ends in is that of some of its dispatches, in their order. The others
-- fail, or their effects are dropped with those of a wrapper.
theorem effective (h : Executes sdk codec origin rest s job e) (he : e.result = some s') :
    ∃ ds, List.Sublist ds e.trace ∧
      ds.foldl (fun s d => Extrinsic.dispatched s d.origin d.call) s = s' := by
  induction h generalizing s'
  case failed => contradiction
  case leaf =>
    have hd := Extrinsic.dispatched_of_ok <| toOption_eq_some.mp he
    exact ⟨_, List.Sublist.refl _, hd⟩
  case batch hi | wrapped hi | main hi =>
    have ⟨ds, hs, hf⟩ := hi he
    exact ⟨ds, hs.cons _, hf⟩
  case regardless e _ _ hi =>
    cases hr : e.result
    case none =>
      simp only [Execution.of, Execution.regardless, hr] at he
      cases he
      exact ⟨[], List.nil_sublist _, rfl⟩
    case some t =>
      simp only [Execution.of, Execution.regardless, hr] at he
      cases he
      have ⟨ds, hs, hf⟩ := hi hr
      exact ⟨ds, hs.cons _, hf⟩
  case fallback hi₁ hi₂ =>
    have ⟨ds, hs, hf⟩ := hi₂ he
    exact ⟨ds, (hs.trans (List.sublist_append_right ..)).cons _, hf⟩
  case skipped hi₁ hi₂ =>
    have ⟨ds, hs, hf⟩ := hi₂ he
    exact ⟨ds, hs.trans (List.sublist_append_right ..), hf⟩
  case nil | stopped =>
    cases he
    exact ⟨[], List.nil_sublist _, rfl⟩
  case aborted => contradiction
  case cons hr _ hi₁ hi₂ =>
    have ⟨ds₁, hs₁, hf₁⟩ := hi₁ hr
    have ⟨ds₂, hs₂, hf₂⟩ := hi₂ he
    exact ⟨ds₁ ++ ds₂, hs₁.append hs₂, by rw [List.foldl_append, hf₁, hf₂]⟩

-- A call without inner calls is dispatched, unless it is refused.
theorem leaf_cases (h : Executes sdk codec origin rest s (.call call) e) (hl : call.isLeaf) :
    e = Execution.failed.of origin call rest ∨
      e = Execution.of origin call rest ⟨(call.dispatch s origin).toOption, []⟩ := by
  cases h
  case failed => exact .inl rfl
  case leaf   => exact .inr rfl
  case batch hc => exact absurd hl (not_isLeaf_of_batched hc)
  case wrapped hw | regardless hw => exact absurd hl hw.not_isLeaf
  case main | fallback => contradiction

theorem trace_of_isLeaf (h : Executes sdk codec origin rest s (.call call) e) (hl : call.isLeaf) :
    e.trace = [⟨origin, call, rest, e.result.isSome⟩] := by
  obtain h | h := h.leaf_cases hl <;> rw [h] <;> rfl

theorem dispatch_of_isLeaf (h : Executes sdk codec origin rest s (.call call) e) (hl : call.isLeaf)
    (he : e.result = some s') : call.dispatch s origin = ok s' := by
  obtain h | h := h.leaf_cases hl <;> rw [h] at he
  · contradiction
  · exact toOption_eq_some.mp he

-- The wrappers do not run without an origin.
theorem failed_of_none (h : Executes sdk codec .none rest s (.call call) e) (hl : ¬call.isLeaf) :
    e = Execution.failed.of .none call rest := by
  cases h
  case failed => rfl
  case wrapped hw _ | regardless hw _ => cases hw <;> contradiction
  all_goals contradiction

-- The state of an execution is reached by a run of the chain that dispatches the calls one by one.
theorem runs (h : Executes sdk codec origin rest s job e) (he : e.result = some s')
    (ho : ∀ d ∈ e.trace, d.origin.isPlain) :
    ∃ ds, List.Sublist ds e.trace ∧
      Runs Chain.step (fun _ _ => True) ⟨s, true⟩ (ds.map fun d => .dispatch d.origin d.call)
        ⟨s', true⟩ := by
  have ⟨ds, hs, hf⟩ := h.effective he
  refine ⟨ds, hs, ?_⟩
  have ho : ∀ d ∈ ds, d.origin.isPlain := fun d hd => ho d (hs.subset hd)
  clear h he hs
  induction ds generalizing s
  case nil =>
    cases hf
    exact .nil
  case cons d ds hi =>
    have ⟨hd, ho⟩ := List.forall_mem_cons.mp ho
    exact .cons trivial (by simp [Chain.step, hd]) (hi hf ho)

end Executes

theorem Keeps.trans (h : Keeps s s') (h' : Keeps s' t) : Keeps s t :=
  ⟨h'.ledger.trans h.ledger, h'.extrinsicIndex.trans h.extrinsicIndex⟩

namespace RuntimeCall

-- The calls that write to the ledger need an origin of the extensions, or Root.
theorem isFree_of_dispatch_signed (h : call.dispatch s (.signed who) = ok s') :
    Extrinsic.IsFree call := by
  cases call
  case transactionStorage call => cases call <;> first | contradiction | exact nofun
  case dataRenewal call => cases call <;> contradiction
  all_goals trivial

theorem content_of_dispatch_signed (h : call.dispatch s (.signed who) = ok s') :
    call.content = none := by
  cases call
  case transactionStorage call => cases call <;> first | contradiction | rfl
  case hopPromotion call => contradiction
  all_goals rfl

end RuntimeCall

theorem Extrinsic.dispatched_signed_keeps (s : State T) (who : T.AccountId) (call : RuntimeCall T) :
    Keeps s (dispatched s (.signed who) call) :=
  dispatched_cases (Keeps s) ⟨rfl, rfl⟩ fun _ h => dispatched_of_ok h ▸
    dispatched_keeps (isFree_of_dispatch_signed h) (.inr ⟨who, rfl⟩) fun _ => nofun

namespace Executes

-- What is dispatched by signers alone leaves the ledger as it is.
theorem keeps_of_signed (h : Executes sdk codec origin rest s job e) (he : e.result = some s')
    (hs : ∀ d ∈ e.trace, ∃ who, d.origin = .signed who) : Keeps s s' := by
  have ⟨ds, hd, hf⟩ := h.effective he
  have hs : ∀ d ∈ ds, ∃ who, d.origin = .signed who := fun d h => hs d (hd.subset h)
  clear h he hd
  induction ds generalizing s
  case nil =>
    cases hf
    exact ⟨rfl, rfl⟩
  case cons d ds hi =>
    have ⟨⟨who, hw⟩, hs⟩ := List.forall_mem_cons.mp hs
    have hk := Extrinsic.dispatched_signed_keeps s who d.call
    exact (hw ▸ hk).trans (hi hf hs)

end Executes

-- The wrappers are admitted for their signer, and without a charge.
theorem Admitted.wrapper (h : Admitted s x origin s₁) (hl : ¬x.call.isLeaf) :
    s₁ = s ∧ (origin = .none ∨ ∃ who, origin = .signed who) := by
  cases h
  case free hg ho =>
    exact ⟨rfl, ho ▸ Extrinsic.plainOrigin_cases hg⟩
  case store hc _ _ _ _ _ _ | forceRenew hc _ _ _ _ _ _ _ =>
    rw [hc] at hl
    contradiction
  all_goals
    subst x
    contradiction

end Bulletin
