import BulletinChain.Chain
import BulletinChain.Runtime.Encoding

namespace Bulletin

-- The dispatch of wrapped calls is that of the utility and the sudo pallet of the SDK, neither of which
-- is defined in this repository. What is known of it is stated as a relation: which executions of a call
-- there can be.

-- What the two pallets know of the runtime.
structure Sdk (T : Config) where
  sudoKey    : Option T.AccountId
  derivative : T.AccountId → Nat → T.AccountId

-- A call that was dispatched, what follows its encoding in that of the extrinsic, and whether it
-- succeeded.
structure Dispatched (T : Config) where
  origin    : Origin T
  call      : RuntimeCall T
  rest      : List UInt8
  succeeded : Bool

-- The state after an execution, unless it fails, and all that was dispatched in its course. What a
-- failing call has written is dropped, but what it has dispatched stays in the trace.
structure Execution (T : Config) where
  result : Option (State T)
  trace  : List (Dispatched T)

-- What a batch does at a call that fails: `batch` stops, `batch_all` fails, `force_batch` goes on.
inductive BatchMode
  | stop
  | fail
  | skip

variable {T : Config}

-- The sudo pallet accepts its key and Root.
def Sdk.isSudo (sdk : Sdk T) : Origin T → Bool
  | .root       => true
  | .signed who => sdk.sudoKey = some who
  | _           => false

namespace Execution

def failed : Execution T :=
  ⟨none, []⟩

-- The execution of a call itself, after what it dispatches.
def of (origin : Origin T) (call : RuntimeCall T) (rest : List UInt8) (e : Execution T) :
    Execution T :=
  ⟨e.result, ⟨origin, call, rest, e.result.isSome⟩ :: e.trace⟩

def after (trace : List (Dispatched T)) (e : Execution T) : Execution T :=
  ⟨e.result, trace ++ e.trace⟩

-- Some wrappers only report that their inner call has failed.
def regardless (s : State T) (e : Execution T) : Execution T :=
  ⟨some (e.result.getD s), e.trace⟩

end Execution

-- What there is to execute: a call, or the calls of a batch.
inductive Job (T : Config)
  | call (call : RuntimeCall T)
  | calls (mode : BatchMode) (calls : List (RuntimeCall T))

namespace RuntimeCall

-- The calls that do not dispatch others.
def isLeaf : RuntimeCall T → Bool
  | transactionStorage _ | hopPromotion _ | dataRenewal _ | other _ => true
  | _                                                              => false

def batched : RuntimeCall T → Option (BatchMode × List (RuntimeCall T))
  | batch calls      => some (.stop, calls)
  | batchAll calls   => some (.fail, calls)
  | forceBatch calls => some (.skip, calls)
  | _                => none

-- A wrapper around a single call, when it is dispatched with the first origin: it dispatches the
-- inner call with the second one, and the given bytes follow the inner call in its encoding.
inductive Wraps (sdk : Sdk T) (codec : CallCodec T) :
    Origin T → RuntimeCall T → Origin T → RuntimeCall T → List UInt8 → Prop
  | asDerivative :
    Wraps sdk codec (.signed who) (asDerivative index innerCall)
      (.signed (sdk.derivative who index)) innerCall []
  | dispatchAs :
    Wraps sdk codec .root (dispatchAs asOrigin innerCall) asOrigin innerCall []
  | dispatchAsFallible :
    Wraps sdk codec .root (dispatchAsFallible asOrigin innerCall) asOrigin innerCall []
  | withWeight :
    Wraps sdk codec .root (withWeight innerCall weight) .root innerCall (codec.encodeWeight weight)
  | sudo :
    sdk.isSudo origin → Wraps sdk codec origin (.sudo innerCall) .root innerCall []
  | sudoUncheckedWeight :
    sdk.isSudo origin →
    Wraps sdk codec origin (sudoUncheckedWeight innerCall weight) .root innerCall
      (codec.encodeWeight weight)
  | sudoAs :
    sdk.isSudo origin → Wraps sdk codec origin (sudoAs who innerCall) (.signed who) innerCall []

end RuntimeCall

open RuntimeCall Execution

-- The executions of a job whose encoding is followed by `rest`. Any call may be refused, by a filter or a
-- limit, before it does anything. One relation for both kinds of jobs, so that it can be inducted on.
inductive Executes (sdk : Sdk T) (codec : CallCodec T) :
    Origin T → List UInt8 → State T → Job T → Execution T → Prop
  | failed :
    Executes sdk codec origin rest s (.call call) (failed.of origin call rest)
  | leaf :
    call.isLeaf →
    Executes sdk codec origin rest s (.call call)
      (Execution.of origin call rest ⟨(call.dispatch s origin).toOption, []⟩)
  | batch :
    call.batched = some (mode, calls) → origin ≠ .none →
    Executes sdk codec origin rest s (.calls mode calls) e →
    Executes sdk codec origin rest s (.call call) (e.of origin call rest)
  | wrapped :
    Wraps sdk codec origin call origin' innerCall tail →
    Executes sdk codec origin' (tail ++ rest) s (.call innerCall) e →
    Executes sdk codec origin rest s (.call call) (e.of origin call rest)
  | regardless :
    Wraps sdk codec origin call origin' innerCall tail →
    Executes sdk codec origin' (tail ++ rest) s (.call innerCall) e →
    Executes sdk codec origin rest s (.call call) ((e.regardless s).of origin call rest)
  | main :
    origin ≠ .none →
    Executes sdk codec origin (codec.encode fallback ++ rest) s (.call main) e →
    Executes sdk codec origin rest s (.call (ifElse main fallback))
      (e.of origin (ifElse main fallback) rest)
  | fallback :
    origin ≠ .none →
    Executes sdk codec origin (codec.encode fallback ++ rest) s (.call main) e₁ →
    e₁.result = none → Executes sdk codec origin rest s (.call fallback) e₂ →
    Executes sdk codec origin rest s (.call (ifElse main fallback))
      ((e₂.after e₁.trace).of origin (ifElse main fallback) rest)
  | nil :
    Executes sdk codec origin rest s (.calls mode []) ⟨some s, []⟩
  | cons :
    Executes sdk codec origin (calls.flatMap codec.encode ++ rest) s (.call call) e₁ →
    e₁.result = some s₁ → Executes sdk codec origin rest s₁ (.calls mode calls) e₂ →
    Executes sdk codec origin rest s (.calls mode (call :: calls)) (e₂.after e₁.trace)
  | stopped :
    Executes sdk codec origin (calls.flatMap codec.encode ++ rest) s (.call call) e →
    e.result = none →
    Executes sdk codec origin rest s (.calls .stop (call :: calls)) ⟨some s, e.trace⟩
  | aborted :
    Executes sdk codec origin (calls.flatMap codec.encode ++ rest) s (.call call) e →
    e.result = none →
    Executes sdk codec origin rest s (.calls .fail (call :: calls)) ⟨none, e.trace⟩
  | skipped :
    Executes sdk codec origin (calls.flatMap codec.encode ++ rest) s (.call call) e₁ →
    e₁.result = none → Executes sdk codec origin rest s (.calls .skip calls) e₂ →
    Executes sdk codec origin rest s (.calls .skip (call :: calls)) (e₂.after e₁.trace)

end Bulletin
