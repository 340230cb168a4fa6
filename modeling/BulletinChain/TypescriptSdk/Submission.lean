import BulletinChain.Primitives
import BulletinChain.TypescriptSdk.Chunker

namespace Bulletin
namespace TypescriptSdk

variable {Cid : Type}

inductive WaitFor
  | inBlock
  | finalized
deriving DecidableEq

-- The calls that `createStoreTx` makes.
inductive PapiTransaction
  | store (data : List UInt8)
  | storeWithCidConfig (codec : CidCodec) (hashing : HashingAlgorithm) (data : List UInt8)
deriving DecidableEq

def dagPbCodec : CidCodec := 0x70

def isNonDefaultCidConfig (cidCodec : CidCodec) (hashAlgorithm : HashingAlgorithm) : Bool :=
  cidCodec ≠ rawCodec ∨ hashAlgorithm ≠ .blake2b256

def createStoreTx (data : List UInt8) (cidCodec : CidCodec) (hashAlgorithm : HashingAlgorithm) :
    PapiTransaction :=
  if isNonDefaultCidConfig cidCodec hashAlgorithm then
    .storeWithCidConfig cidCodec hashAlgorithm data
  else
    .store data

structure RuntimeEvent where
  type  : String
  name  : String
  index : Option Nat
deriving DecidableEq

structure BlockInfo where
  hash   : String
  number : Nat
  index  : Option Nat
deriving DecidableEq

-- The statuses on which the client acts; `signed` stands for every other one.
inductive EventType
  | signed
  | validated
  | broadcasted
  | txBestBlocksState
  | finalized
deriving DecidableEq

-- A status of PAPI. A hash that is absent is the empty string, which is as falsy.
structure TxStatusEvent where
  txHash : String
  type   : EventType
  found  : Bool
  block  : Option BlockInfo
  events : List RuntimeEvent

-- What is thrown: its message is that of an `Error` or the text of another value. An `InvalidTxError`
-- has a type and the type of its value, and a `BulletinError` has a code.
inductive ThrownCode
  | chunker (code : ErrorCode)
  | dagEncodingFailed
  | invalidConfig
  | transactionFailed
  | chunkFailed
  | timeout
deriving DecidableEq

structure Thrown where
  name    : String
  message : String
  invalid : Option (String × String)
  code    : Option ThrownCode
deriving DecidableEq

def Thrown.bulletinError (message : String) (code : ThrownCode) : Thrown :=
  ⟨"BulletinError", message, none, some code⟩

def isAncientBirthBlockError (err : Thrown) : Bool :=
  err.name = "InvalidTxError" ∧ err.invalid = some ("Invalid", "AncientBirthBlock")

-- `message.includes(text)`
def includes (message text : String) : Bool :=
  (List.range (message.length + 1)).any fun i => text.toList.isPrefixOf (message.toList.drop i)

inductive TxStatus
  | signed (txHash : String)
  | validated
  | broadcasted
  | inBlock (block : BlockInfo)
  | finalized (block : BlockInfo)
  | noLongerInBlock
  | invalid (error : String)
  | dropped (error : String)
deriving DecidableEq

inductive ProgressEvent (Cid : Type)
  | transaction (status : TxStatus) (chunkIndex : Option Nat)
  | chunkStarted (index total : Nat)
  | chunkCompleted (index total : Nat) (cid : Cid)
  | chunkFailed (index total : Nat) (error : Thrown)
  | manifestStarted
  | manifestCreated (cid : Cid)
  | completed (manifestCid : Option Cid)

-- The status with what it hands to the callback.
structure MappedTxStatus where
  txHash   : String
  finish   : Option (BlockInfo × List RuntimeEvent)
  progress : List TxStatus

def mapPapiEventToProgress (ev : TxStatusEvent) (currentTxHash : String) (waitFor : WaitFor) :
    MappedTxStatus :=
  let txHash := if currentTxHash = "" then ev.txHash else ""
  let signed := if txHash = "" then [] else [.signed txHash]
  match ev.type with
  | .signed            => ⟨txHash, none, signed⟩
  | .validated         => ⟨txHash, none, signed ++ [.validated]⟩
  | .broadcasted       => ⟨txHash, none, signed ++ [.broadcasted]⟩
  | .txBestBlocksState =>
    match ev.found, ev.block with
    | true, some block =>
      let finish := if waitFor = .inBlock then some (block, ev.events) else none
      ⟨txHash, finish, signed ++ [.inBlock block]⟩
    | _, _             => ⟨txHash, none, signed ++ [.noLongerInBlock]⟩
  | .finalized         =>
    match ev.block with
    | some block => ⟨txHash, some (block, ev.events), signed ++ [.finalized block]⟩
    | none       => ⟨txHash, none, signed⟩

def extractStoredIndex (events : List RuntimeEvent) : Option Nat :=
  (events.find? fun e => e.type = "TransactionStorage" ∧ e.name = "Stored").bind (·.index)

structure SignSubmitResult where
  blockHash   : String
  txHash      : String
  blockNumber : Nat
  txIndex     : Option Nat
deriving DecidableEq

inductive Settlement
  | fulfilled (result : SignSubmitResult)
  | rejected (err : Thrown)
deriving DecidableEq

-- What has been submitted, and every call so far of the `resolve` or the `reject` of its promise.
structure Submission where
  tx                 : PapiTransaction
  chunkIndex         : Option Nat
  willRetryEraExpiry : Bool
  settlements        : List Settlement

-- One cycle of signing, submitting and watching: the promise of `signAndSubmitAttempt`, the variables
-- of its closure, and whether its subscription and its timer are alive.
structure Attempt extends Submission where
  resolved   : Bool
  txHash     : String
  subscribed : Bool
  timer      : Bool

inductive Signal
  | next (ev : TxStatusEvent)
  | error (err : Thrown)
  | complete
  | timeout

namespace Attempt

def signAndSubmitAttempt (tx : PapiTransaction) (chunkIndex : Option Nat) (willRetryEraExpiry : Bool) :
    Attempt :=
  ⟨⟨tx, chunkIndex, willRetryEraExpiry, []⟩, false, "", true, true⟩

def cleanup (a : Attempt) : Attempt :=
  { a with timer := false, subscribed := false }

def settle (a : Attempt) (s : Settlement) : Attempt :=
  { a with resolved := true, settlements := a.settlements ++ [s] }

def finish (a : Attempt) (block : BlockInfo) (events : List RuntimeEvent) : Attempt :=
  if a.resolved then
    a
  else
    a.settle (.fulfilled ⟨block.hash, a.txHash, block.number, extractStoredIndex events⟩)

-- What `next` does with the mapped status of an event.
def act (a : Attempt) (status : MappedTxStatus) : Attempt :=
  let a := if status.txHash ≠ "" then { a with txHash := status.txHash } else a
  match status.finish with
  | some (block, events) => a.finish block events
  | none                 => a

def next (waitFor : WaitFor) (a : Attempt) (ev : TxStatusEvent) : Attempt × List TxStatus :=
  let (a, progress) :=
    if a.resolved then
      (a, [])
    else
      let result := mapPapiEventToProgress ev a.txHash waitFor
      (a.act result, result.progress)
  -- A resolution in a block keeps the watch alive until the transaction is finalized.
  (if a.resolved ∧ ev.type = .finalized then a.cleanup else a, progress)

-- What the three other handlers have in common.
def abort (a : Attempt) (err : Thrown) (progress : List TxStatus) : Attempt × List TxStatus :=
  if a.resolved then (a.cleanup, []) else ((a.settle (.rejected err)).cleanup, progress)

def error (a : Attempt) (err : Thrown) : Attempt × List TxStatus :=
  let isDropped := includes err.message "dropped" || includes err.message "pool"
  a.abort err <|
    if a.willRetryEraExpiry && isAncientBirthBlockError err then
      []
    else
      [if isDropped then .dropped err.message else .invalid err.message]

def complete (a : Attempt) : Attempt × List TxStatus :=
  a.abort
    (.bulletinError ("Transaction subscription ended before reaching the expected status. " ++
      "This usually means the transaction was dropped from the best block " ++
      "(e.g. due to a chain reorganization or node restart).") .transactionFailed)
    [.dropped "Transaction subscription ended before reaching the expected status"]

def timeout (a : Attempt) : Attempt × List TxStatus :=
  a.abort (.bulletinError "Transaction timed out" .timeout) []

-- A subscription that is closed and a timer that is cleared do not call back.
def receive (waitFor : WaitFor) (a : Attempt) : Signal → Option (Attempt × List TxStatus)
  | .next ev   => if a.subscribed then some (a.next waitFor ev) else none
  | .error err => if a.subscribed then some (a.error err) else none
  | .complete  => if a.subscribed then some a.complete else none
  | .timeout   => if a.timer then some a.timeout else none

end Attempt

structure PreparedChunk (Cid : Type) extends Chunk where
  cid : Cid

-- What `prepareStoreChunked` returns, with the options that it was asked for.
structure Prepared (Cid : Type) where
  totalSize     : Nat
  chunks        : List (PreparedChunk Cid)
  manifest      : Option (List UInt8 × Cid)
  hashAlgorithm : HashingAlgorithm
  waitFor       : WaitFor

structure ChunkedStoreResult (Cid : Type) where
  chunkCids   : List Cid
  manifestCid : Option Cid
  totalSize   : Nat
  numChunks   : Nat

-- The transactions of an upload.
inductive Task (Cid : Type)
  | chunk (c : PreparedChunk Cid)
  | manifest (data : List UInt8) (cid : Cid)

def Prepared.tasks (p : Prepared Cid) : List (Task Cid) :=
  p.chunks.map .chunk ++ p.manifest.toList.map fun (data, cid) => .manifest data cid

namespace Task

def tx (hashAlgorithm : HashingAlgorithm) : Task Cid → PapiTransaction
  | chunk c         => createStoreTx c.data rawCodec hashAlgorithm
  | manifest data _ => createStoreTx data dagPbCodec hashAlgorithm

def chunkIndex : Task Cid → Option Nat
  | chunk c      => some c.index
  | manifest _ _ => none

def started (total : Nat) : Task Cid → ProgressEvent Cid
  | chunk c      => .chunkStarted c.index total
  | manifest _ _ => .manifestStarted

def completed (total : Nat) : Task Cid → ProgressEvent Cid
  | chunk c        => .chunkCompleted c.index total c.cid
  | manifest _ cid => .manifestCreated cid

-- Only the loop over the chunks reports and wraps what it catches.
def failed (total : Nat) (error : Thrown) : Task Cid → List (ProgressEvent Cid)
  | chunk c      => [.chunkFailed c.index total error]
  | manifest _ _ => []

def rethrow (error : Thrown) : Task Cid → Thrown
  | chunk c      =>
    let index := c.index
    let message := error.message
    if error.code.isSome then
      error
    else
      .bulletinError s!"Chunk {index} processing failed: {message}" .chunkFailed
  | manifest _ _ => error

end Task

-- A call of `storeChunked`, from the first submission on: the tasks of which none has been completed,
-- of which the first is awaited, all the attempts in the order of their submission, of which the last
-- is awaited, and what the caller has been told.
structure Upload (Cid : Type) where
  todo        : List (Task Cid)
  chunkCids   : List Cid
  manifestCid : Option Cid
  attempts    : List Attempt
  progress    : List (ProgressEvent Cid)
  outcome     : Option (Except Thrown (ChunkedStoreResult Cid))

namespace Upload

variable (p : Prepared Cid)

-- From the end of a task to the next `await`.
def proceed (u : Upload Cid) : Upload Cid :=
  match u.todo with
  | []        => { u with
    progress := u.progress ++ [.completed u.manifestCid]
    outcome  := some (.ok ⟨u.chunkCids, u.manifestCid, p.totalSize, p.chunks.length⟩) }
  | task :: _ => { u with
    progress := u.progress ++ [task.started p.chunks.length]
    attempts := u.attempts ++
      [.signAndSubmitAttempt (task.tx p.hashAlgorithm) task.chunkIndex true] }

def start : Upload Cid :=
  proceed p ⟨p.tasks, [], none, [], [], none⟩

def completeTask (u : Upload Cid) : Task Cid → Upload Cid
  | .chunk c        => { u with todo := u.todo.tail, chunkCids := u.chunkCids ++ [c.cid] }
  | .manifest _ cid => { u with todo := u.todo.tail, manifestCid := some cid }

-- What follows the `await` of `task`, whose last attempt is `a`.
def resume (u : Upload Cid) (task : Task Cid) (a : Attempt) : Settlement → Upload Cid
  | .fulfilled _  =>
    let u := u.completeTask task
    { u with progress := u.progress ++ [task.completed p.chunks.length] }.proceed p
  | .rejected err =>
    if a.willRetryEraExpiry && isAncientBirthBlockError err then
      { u with attempts := u.attempts ++ [.signAndSubmitAttempt a.tx a.chunkIndex false] }
    else
      { u with
        progress := u.progress ++ task.failed p.chunks.length err
        outcome  := some (.error (task.rethrow err)) }

-- The attempt at `k` after a signal, with what it hands to the callback.
def record (u : Upload Cid) (k : Nat) (a : Attempt) (statuses : List TxStatus) : Upload Cid :=
  { u with
    attempts := u.attempts.set k a
    progress := u.progress ++ statuses.map fun status => .transaction status a.chunkIndex }

end Upload

-- A signal to one of the attempts, or the turn of the caller's continuation.
inductive UploadAction
  | signal (k : Nat) (signal : Signal)
  | resume

def Upload.step (p : Prepared Cid) (u : Upload Cid) : UploadAction → Option (Upload Cid)
  | .signal k signal => do
    let a ← u.attempts[k]?
    let (a, statuses) ← a.receive p.waitFor signal
    return u.record k a statuses
  | .resume =>
    if u.outcome.isSome then
      none
    else do
      let task ← u.todo.head?
      let a ← u.attempts.getLast?
      let settlement ← a.settlements.head?
      return u.resume p task a settlement

end TypescriptSdk
end Bulletin
