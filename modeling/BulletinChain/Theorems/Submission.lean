import BulletinChain.Lib.Run
import BulletinChain.TypescriptSdk.Submission

namespace Bulletin
namespace TypescriptSdk

variable {Cid : Type} {waitFor : WaitFor} {a a' : Attempt} {p : Prepared Cid} {u u' : Upload Cid}

-- What an event is to a client that resolves on it: a block of the asked confirmation level.
def TxStatusEvent.Confirms (ev : TxStatusEvent) (waitFor : WaitFor) (r : SignSubmitResult) : Prop :=
  (ev.type = .finalized ∨ waitFor = .inBlock ∧ ev.type = .txBestBlocksState ∧ ev.found) ∧
    ∃ block, ev.block = some block ∧ r.blockHash = block.hash ∧ r.blockNumber = block.number ∧
      r.txIndex = extractStoredIndex ev.events

def TxStatus.isAlarm : TxStatus → Bool
  | invalid _ | dropped _ => true
  | _                     => false

theorem progress_mapPapiEventToProgress (ev : TxStatusEvent) (txHash : String) (waitFor : WaitFor) :
    (mapPapiEventToProgress ev txHash waitFor).progress.any TxStatus.isAlarm = false := by
  have hs (txHash : String) :
      (if txHash = "" then [] else [TxStatus.signed txHash]).any TxStatus.isAlarm = false := by
    split <;> rfl
  have ha (txHash : String) (s : TxStatus) (h : s.isAlarm = false) :
      ((if txHash = "" then [] else [TxStatus.signed txHash]) ++ [s]).any TxStatus.isAlarm = false := by
    rw [List.any_append, hs, List.any_cons, h]
    rfl
  simp only [mapPapiEventToProgress]
  split
  case h_1 => exact hs _
  case h_2 => exact ha _ _ rfl
  case h_3 => exact ha _ _ rfl
  case h_4 => split <;> exact ha _ _ rfl
  case h_5 =>
    split
    case h_1 => exact ha _ _ rfl
    case h_2 => exact hs _

theorem finish_mapPapiEventToProgress {ev : TxStatusEvent}
    (h : (mapPapiEventToProgress ev txHash waitFor).finish = some (block, events)) :
    (ev.type = .finalized ∨ waitFor = .inBlock ∧ ev.type = .txBestBlocksState ∧ ev.found) ∧
      ev.block = some block ∧ events = ev.events := by
  simp only [mapPapiEventToProgress] at h
  split at h
  case h_4 ht =>
    split at h
    case h_1 hf hb =>
      simp only at h
      split at h
      case isTrue hw =>
        cases h
        exact ⟨.inr ⟨hw, ht, hf⟩, hb, rfl⟩
      case isFalse => cases h
    case h_2 => cases h
  case h_5 ht =>
    split at h
    case h_1 hb =>
      cases h
      exact ⟨.inl ht, hb, rfl⟩
    case h_2 => cases h
  all_goals cases h

namespace Attempt

-- All that a signal can do to an attempt that it reaches: leave it as it is apart from the hash,
-- release an attempt that is settled, or settle one that is not.
inductive Receives (waitFor : WaitFor) (a : Attempt) : Signal → Attempt → List TxStatus → Prop
  | watching (txHash : String) (hr : a.resolved → statuses = []) (hs : statuses.any TxStatus.isAlarm = false) :
    Receives waitFor a signal { a with txHash } statuses
  | released (hr : a.resolved) : Receives waitFor a signal a.cleanup []
  | fulfilled (ev : TxStatusEvent) (txHash : String) (hr : a.resolved = false)
      (hc : ev.Confirms waitFor r) (hs : statuses.any TxStatus.isAlarm = false) :
    Receives waitFor a (.next ev) (
      let a := { a with txHash }.settle (.fulfilled r)
      if ev.type = .finalized then a.cleanup else a) statuses
  | rejected (err : Thrown) (hr : a.resolved = false)
      (hs : a.willRetryEraExpiry && isAncientBirthBlockError err → statuses = []) :
    Receives waitFor a signal (a.settle (.rejected err)).cleanup statuses

theorem next_receives (waitFor : WaitFor) (a : Attempt) (ev : TxStatusEvent) :
    Receives waitFor a (.next ev) (a.next waitFor ev).1 (a.next waitFor ev).2 := by
  simp only [next]
  cases hr : a.resolved
  case true =>
    simp only [if_true, hr, true_and]
    split
    case isTrue  => exact .released hr
    case isFalse => exact .watching a.txHash (fun _ => rfl) rfl
  case false =>
    have hp := progress_mapPapiEventToProgress ev a.txHash waitFor
    generalize hm : mapPapiEventToProgress ev a.txHash waitFor = m at hp
    have ha : ∃ txHash, (if m.txHash ≠ "" then { a with txHash := m.txHash } else a) = { a with txHash } := by
      split
      case isTrue  => exact ⟨m.txHash, rfl⟩
      case isFalse => exact ⟨a.txHash, rfl⟩
    obtain ⟨txHash, ha⟩ := ha
    simp only [Bool.false_eq_true, if_false, act, ha]
    cases hf : m.finish
    case none =>
      have hn : ¬(a.resolved ∧ ev.type = .finalized) := by simp [hr]
      rw [if_neg hn]
      exact .watching txHash (fun h => absurd (hr.symm.trans h) (by decide)) hp
    case some f =>
      obtain ⟨block, events⟩ := f
      obtain ⟨hc, hb, rfl⟩ := finish_mapPapiEventToProgress (hm ▸ hf)
      simp only [finish, hr, Bool.false_eq_true, if_false, settle, true_and]
      exact .fulfilled ev txHash hr ⟨hc, block, hb, rfl, rfl, rfl⟩ hp

theorem abort_receives {statuses : List TxStatus} (err : Thrown)
    (hs : a.willRetryEraExpiry && isAncientBirthBlockError err → statuses = []) :
    Receives waitFor a signal (a.abort err statuses).1 (a.abort err statuses).2 := by
  simp only [abort]
  cases hr : a.resolved
  case true  => exact .released hr
  case false => exact .rejected err hr hs

theorem receive_receives (h : a.receive waitFor signal = some (a', statuses)) :
    Receives waitFor a signal a' statuses := by
  cases signal <;> simp only [receive, Option.ite_none_right_eq_some, Option.some.injEq] at h
  case next ev =>
    have hn := next_receives waitFor a ev
    rwa [h.right] at hn
  case error err =>
    have ha : Receives waitFor a (.error err) (a.error err).1 (a.error err).2 :=
      abort_receives err fun h => by rw [if_pos h]
    rwa [h.right] at ha
  case complete =>
    have ha : Receives waitFor a .complete a.complete.1 a.complete.2 :=
      abort_receives _ fun h => by simp [isAncientBirthBlockError, Thrown.bulletinError] at h
    rwa [h.right] at ha
  case timeout =>
    have ha : Receives waitFor a .timeout a.timeout.1 a.timeout.2 := abort_receives _ fun _ => rfl
    rwa [h.right] at ha

-- A promise is settled at most once, its watch lives until then, and longer only if it was fulfilled
-- in a block that was not final.
structure Wf (waitFor : WaitFor) (a : Attempt) : Prop where
  resolved  : a.resolved = !a.settlements.isEmpty
  once      : a.settlements.length ≤ 1
  timer     : a.timer = a.subscribed
  alive     : a.resolved = false → a.subscribed
  rejected  : .rejected err ∈ a.settlements → a.subscribed = false
  finalized : waitFor = .finalized → a.resolved → a.subscribed = false

theorem wf_signAndSubmitAttempt (tx : PapiTransaction) (chunkIndex : Option Nat) (retry : Bool) :
    (signAndSubmitAttempt tx chunkIndex retry).Wf waitFor where
  resolved      := rfl
  once          := Nat.zero_le _
  timer         := rfl
  alive _       := rfl
  rejected h    := by cases h
  finalized _ h := by cases h

namespace Wf

theorem settlements_eq_nil (h : a.Wf waitFor) (hr : a.resolved = false) : a.settlements = [] := by
  have he := h.resolved
  rw [hr] at he
  exact List.isEmpty_iff.mp (by simpa using he.symm)

theorem receives (h : a.Wf waitFor) (hr : Receives waitFor a signal a' statuses) : a'.Wf waitFor := by
  cases hr
  case watching => exact ⟨h.resolved, h.once, h.timer, h.alive, h.rejected, h.finalized⟩
  case released hr =>
    refine ⟨h.resolved, h.once, rfl, fun hn => ?_, fun _ => rfl, fun _ _ => rfl⟩
    exact absurd (hr.symm.trans hn) (by decide)
  case fulfilled ev txHash hr hc hs =>
    have hn := h.settlements_eq_nil hr
    split
    case isTrue => exact ⟨by simp [cleanup, settle], by simp [cleanup, settle, hn], rfl, nofun, fun _ => rfl, fun _ _ => rfl⟩
    case isFalse ht =>
      refine ⟨by simp [settle], by simp [settle, hn], h.timer, nofun, fun he => ?_, fun hw _ => ?_⟩
      · simp [settle, hn] at he
      · obtain ⟨hc | hc, _⟩ := hc
        · exact absurd hc ht
        · exact absurd (hc.left.symm.trans hw) (by decide)
  case rejected err hr hs =>
    have hn := h.settlements_eq_nil hr
    exact ⟨by simp [cleanup, settle], by simp [cleanup, settle, hn], rfl, nofun, fun _ => rfl, fun _ _ => rfl⟩

end Wf
end Attempt

namespace Settlement

def isFulfilled : Settlement → Bool
  | fulfilled _ => true
  | rejected _  => false

-- The era of the transaction is over, so that it can no longer be included.
def isExpired : Settlement → Bool
  | fulfilled _  => false
  | rejected err => isAncientBirthBlockError err

end Settlement

namespace Submission

def fulfilled (s : Submission) : Bool :=
  s.settlements.any Settlement.isFulfilled

def expired (s : Submission) : Bool :=
  s.settlements.any Settlement.isExpired

-- A submission of the transaction of a task, for the first time or again.
structure For (alg : HashingAlgorithm) (task : Task Cid) (retry : Bool) (s : Submission) : Prop where
  tx                 : s.tx = task.tx alg
  chunkIndex         : s.chunkIndex = task.chunkIndex
  willRetryEraExpiry : s.willRetryEraExpiry = retry

end Submission

-- The submissions of a task: those that have expired, and the last.
inductive Tries (alg : HashingAlgorithm) (task : Task Cid) : List Submission → Submission → Prop
  | first  : s.For alg task true → Tries alg task [] s
  | second : s.For alg task true → s.expired → s'.For alg task false → Tries alg task [s] s'

-- The submissions of the tasks that are done.
inductive Finished (alg : HashingAlgorithm) : List (Task Cid) → List Submission → Prop
  | nil  : Finished alg [] []
  | snoc : Finished alg done ss → Tries alg task es s → s.fulfilled →
           Finished alg (done ++ [task]) (ss ++ (es ++ [s]))

-- The submissions so far, task by task: those of the tasks that are done, of which the last was
-- fulfilled, and those of the task whose turn it is. A task is submitted again only if its first
-- submission has expired, and then for the last time.
inductive InTurn (p : Prepared Cid) : List Submission → Prop
  | current : p.tasks = done ++ task :: rest → Finished p.hashAlgorithm done ss →
              Tries p.hashAlgorithm task es s → InTurn p (ss ++ (es ++ [s]))
  | all     : Finished p.hashAlgorithm p.tasks ss → InTurn p ss

namespace ProgressEvent

def isMilestone : ProgressEvent Cid → Bool
  | transaction _ _ => false
  | _               => true

def isAlarm : ProgressEvent Cid → Bool
  | transaction status _ => status.isAlarm
  | _                    => false

end ProgressEvent

namespace Task

def chunkCid : Task Cid → Option Cid
  | chunk c      => some c.cid
  | manifest _ _ => none

def manifestCid : Task Cid → Option Cid
  | chunk _        => none
  | manifest _ cid => some cid

end Task

def Upload.submissions (u : Upload Cid) : List Submission :=
  u.attempts.map (·.toSubmission)

-- What an upload amounts to if one does not look at the watches.
structure Account (Cid : Type) where
  todo        : List (Task Cid)
  chunkCids   : List Cid
  manifestCid : Option Cid
  submissions : List Submission
  milestones  : List (ProgressEvent Cid)
  alarmed     : Bool
  outcome     : Option (Except Thrown (ChunkedStoreResult Cid))

def Upload.account (u : Upload Cid) : Account Cid where
  todo        := u.todo
  chunkCids   := u.chunkCids
  manifestCid := u.manifestCid
  submissions := u.submissions
  milestones  := u.progress.filter ProgressEvent.isMilestone
  alarmed     := u.progress.any ProgressEvent.isAlarm
  outcome     := u.outcome

namespace Account

-- The tasks before those to do are done, each with a submission that was fulfilled, and have been
-- reported; `tail` has been reported after them.
structure Done (p : Prepared Cid) (v : Account Cid) (done : List (Task Cid)) (ss : List Submission)
    (tail : List (ProgressEvent Cid)) : Prop where
  tasks       : p.tasks = done ++ v.todo
  finished    : Finished p.hashAlgorithm done ss
  chunkCids   : v.chunkCids = done.filterMap Task.chunkCid
  manifestCid : v.manifestCid = (done.filterMap Task.manifestCid).getLast?
  milestones  : v.milestones =
    done.flatMap (fun task => [task.started p.chunks.length, task.completed p.chunks.length]) ++ tail

theorem Done.of_eq (h : Done p v done ss tail) (ht : v'.todo = v.todo) (hc : v'.chunkCids = v.chunkCids)
    (hm : v'.manifestCid = v.manifestCid) (hs : v'.milestones = v.milestones) :
    Done p v' done ss tail :=
  ⟨ht ▸ h.tasks, h.finished, hc ▸ h.chunkCids, hm ▸ h.manifestCid, hs ▸ h.milestones⟩

-- The error that a submission was rejected with for good.
def Final (s : Submission) (err : Thrown) : Prop :=
  s.settlements = [.rejected err] ∧ (s.willRetryEraExpiry && isAncientBirthBlockError err) = false

inductive At (p : Prepared Cid) (v : Account Cid) : Prop
  | awaiting (task : Task Cid) (hd : v.Done p done ss [task.started p.chunks.length])
      (ht : v.todo = task :: rest) (hs : v.submissions = ss ++ (es ++ [s]))
      (hr : Tries p.hashAlgorithm task es s) (ho : v.outcome = none)
      (ha : v.alarmed → ∃ err, Final s err)
  | failed (task : Task Cid)
      (hd : v.Done p done ss (task.started p.chunks.length :: task.failed p.chunks.length err))
      (ht : v.todo = task :: rest) (hs : v.submissions = ss ++ (es ++ [s]))
      (hr : Tries p.hashAlgorithm task es s) (hf : Final s err)
      (ho : v.outcome = some (.error (task.rethrow err)))
  | completed (hd : v.Done p done ss [.completed v.manifestCid]) (ht : v.todo = [])
      (hs : v.submissions = ss) (ha : v.alarmed = false)
      (ho : v.outcome = some (.ok ⟨v.chunkCids, v.manifestCid, p.totalSize, p.chunks.length⟩))

end Account

variable {alg : HashingAlgorithm} {task : Task Cid} {done : List (Task Cid)}
  {ss es : List Submission} {s s' : Submission} {guard : Upload Cid → UploadAction → Prop}

theorem Task.isMilestone_started (task : Task Cid) (n : Nat) : (task.started n).isMilestone := by
  cases task <;> rfl

theorem Task.isMilestone_completed (task : Task Cid) (n : Nat) : (task.completed n).isMilestone := by
  cases task <;> rfl

theorem Task.isAlarm_started (task : Task Cid) (n : Nat) : (task.started n).isAlarm = false := by
  cases task <;> rfl

theorem Task.isAlarm_completed (task : Task Cid) (n : Nat) : (task.completed n).isAlarm = false := by
  cases task <;> rfl

theorem Task.filter_failed (task : Task Cid) (n : Nat) (err : Thrown) :
    (task.failed n err).filter ProgressEvent.isMilestone = task.failed n err := by
  cases task <;> rfl

namespace Upload

open Account

-- From the end of a task on, the next one is awaited or the upload is complete.
theorem at_proceed (h : u.account.Done p done u.account.submissions []) (ho : u.outcome = none)
    (ha : u.account.alarmed = false) : At p (u.proceed p).account := by
  have ha : u.progress.any ProgressEvent.isAlarm = false := ha
  have hm := h.milestones
  simp only [proceed]
  split
  case h_1 ht =>
    refine .completed ⟨?_, h.finished, h.chunkCids, h.manifestCid, ?_⟩ ht rfl ?_ rfl
    · exact h.tasks
    · simp only [account, submissions, List.filter_append] at hm ⊢
      rw [hm, List.append_nil]
      rfl
    · simp only [account, submissions, List.any_append, ha]
      rfl
  case h_2 task rest ht =>
    let s : Submission := ⟨task.tx p.hashAlgorithm, task.chunkIndex, true, []⟩
    have hs : s.For p.hashAlgorithm task true := ⟨rfl, rfl, rfl⟩
    refine .awaiting task ⟨h.tasks, h.finished, h.chunkCids, h.manifestCid, ?_⟩ ht ?_ (.first hs) ho ?_
    · simp only [account, submissions, List.filter_append] at hm ⊢
      rw [hm, List.append_nil, List.filter_singleton, task.isMilestone_started, cond_true]
    · simp only [account, submissions, List.map_append, List.map_singleton]
      rfl
    · simp only [account, submissions, List.any_append, ha, List.any_cons, task.isAlarm_started]
      simp


theorem at_start (p : Prepared Cid) : At p (start p).account :=
  at_proceed ⟨rfl, .nil, rfl, rfl, rfl⟩ rfl rfl

-- A signal to a settled attempt changes nothing but its watch.
theorem account_record_resolved (ha : u.attempts[k]? = some a) (hr : a.resolved)
    (h : Attempt.Receives waitFor a signal a' statuses) :
    (u.record k a' statuses).account = u.account := by
  have hv : a'.toSubmission = a.toSubmission ∧ statuses = [] := by
    cases h
    case watching hs _    => exact ⟨rfl, hs hr⟩
    case released         => exact ⟨rfl, rfl⟩
    case fulfilled hn _ _ => exact absurd (hr.symm.trans hn) (by decide)
    case rejected hn _    => exact absurd (hr.symm.trans hn) (by decide)
  obtain ⟨hv, rfl⟩ := hv
  have hs : (u.attempts.set k a').map (·.toSubmission) = u.attempts.map (·.toSubmission) := by
    obtain ⟨hk, rfl⟩ := List.getElem?_eq_some_iff.mp ha
    rw [List.map_set, hv]
    exact List.ext_getElem (by simp) fun i _ _ => by grind
  simp only [account, submissions, record, hs, List.map_nil, List.append_nil]

theorem milestones_record (u : Upload Cid) (k : Nat) (a : Attempt) (statuses : List TxStatus) :
    (u.record k a statuses).account.milestones = u.account.milestones := by
  simp [account, submissions, record, ProgressEvent.isMilestone]

theorem alarmed_record (u : Upload Cid) (k : Nat) (a : Attempt) (statuses : List TxStatus) :
    (u.record k a statuses).account.alarmed =
      (u.account.alarmed || statuses.any TxStatus.isAlarm) := by
  simp only [account, submissions, record, List.any_append, List.any_map]
  rfl

end Upload

-- Every submission but the last is settled.
theorem Tries.settled (h : Tries alg task es s) : ∀ e ∈ es, e.settlements ≠ [] := by
  cases h
  case first  => simp
  case second he _ =>
    intro e hm hn
    cases List.mem_singleton.mp hm
    simp [Submission.expired, hn] at he

theorem Finished.settled (h : Finished alg done ss) : ∀ s ∈ ss, s.settlements ≠ [] := by
  induction h
  case nil => simp
  case snoc s _ ht hf hi =>
    intro e hm hn
    simp only [List.mem_append, List.mem_singleton] at hm
    obtain hm | hm | rfl := hm
    · exact hi e hm hn
    · exact ht.settled e hm hn
    · simp [Submission.fulfilled, hn] at hf

theorem Tries.of_for (h : Tries alg task es s) (ht : s'.tx = s.tx) (hc : s'.chunkIndex = s.chunkIndex)
    (hr : s'.willRetryEraExpiry = s.willRetryEraExpiry) : Tries alg task es s' := by
  cases h
  case first h        => exact .first ⟨ht.trans h.tx, hc.trans h.chunkIndex, hr.trans h.willRetryEraExpiry⟩
  case second h he h' => exact .second h he ⟨ht.trans h'.tx, hc.trans h'.chunkIndex, hr.trans h'.willRetryEraExpiry⟩

-- What a signal leaves as it is.
theorem Attempt.Receives.submission (h : Receives waitFor a signal a' statuses) :
    a'.tx = a.tx ∧ a'.chunkIndex = a.chunkIndex ∧ a'.willRetryEraExpiry = a.willRetryEraExpiry := by
  cases h
  case fulfilled => split <;> exact ⟨rfl, rfl, rfl⟩
  all_goals exact ⟨rfl, rfl, rfl⟩

-- Where all but the last are settled, one that is not settled is the last.
theorem eq_last_of_unsettled {xs : List Submission} (hx : ∀ e ∈ xs, e.settlements ≠ [])
    (hk : (xs ++ [s])[k]? = some b) (hn : b.settlements = []) : k = xs.length ∧ b = s := by
  rw [List.getElem?_append] at hk
  split at hk
  case isTrue => exact absurd hn (hx b (List.mem_of_getElem? hk))
  case isFalse hl =>
    obtain ⟨hi, hb⟩ := List.getElem?_eq_some_iff.mp hk
    simp only [List.length_singleton] at hi
    exact ⟨by omega, by simpa using hb.symm⟩

namespace Upload

open Account

theorem at_record (h : At p u.account) (hw : ∀ a ∈ u.attempts, a.Wf p.waitFor)
    (ha : u.attempts[k]? = some a) (hr : Attempt.Receives p.waitFor a signal a' statuses) :
    At p (u.record k a' statuses).account := by
  cases hb : a.resolved
  case true  => rwa [account_record_resolved ha hb hr]
  case false =>
    have hn := (hw a (List.mem_of_getElem? ha)).settlements_eq_nil hb
    have hk : u.account.submissions[k]? = some a.toSubmission := by simp [account, submissions, ha]
    have hset : (u.record k a' statuses).account.submissions = u.account.submissions.set k a'.toSubmission :=
      List.map_set
    have last {ss es : List Submission} {s : Submission} {done : List (Task Cid)} {task : Task Cid}
        (hs : u.account.submissions = ss ++ (es ++ [s])) (hf : Finished p.hashAlgorithm done ss)
        (ht : Tries p.hashAlgorithm task es s) : k = (ss ++ es).length ∧ a.toSubmission = s := by
      rw [hs, ← List.append_assoc] at hk
      refine eq_last_of_unsettled (fun e he => ?_) hk hn
      exact (List.mem_append.mp he).elim (hf.settled e) (ht.settled e)
    cases h
    case completed hd _ hs _ _ =>
      exact absurd hn (hd.finished.settled _ (List.mem_of_getElem? (hs ▸ hk)))
    case failed hd _ hs ht hf _ =>
      obtain ⟨_, rfl⟩ := last hs hd.finished ht
      exact absurd (hf.left.symm.trans hn) (by simp)
    case awaiting ss _ es s task hd htodo hs ht ho hal =>
      obtain ⟨hl, rfl⟩ := last hs hd.finished ht
      obtain ⟨htx, hci, hre⟩ := hr.submission
      refine .awaiting task (hd.of_eq rfl rfl rfl (milestones_record ..)) htodo ?_
        (ht.of_for htx hci hre) ho ?_
      · rw [hset, hs, hl, ← List.append_assoc, List.set_append_right _ _ (Nat.le_refl _)]
        simp
      · intro hal'
        have hq : u.account.alarmed = false := by
          by_contra hq
          obtain ⟨err, hf, _⟩ := hal (by simpa using hq)
          exact absurd (hf.symm.trans hn) (by simp)
        rw [alarmed_record, hq, Bool.false_or] at hal'
        cases hr
        case watching _ hs      => exact absurd (hal'.symm.trans hs) (by decide)
        case released           => cases hal'
        case fulfilled _ _ hs   => exact absurd (hal'.symm.trans hs) (by decide)
        case rejected err _ hse =>
          refine ⟨err, by simp [Attempt.cleanup, Attempt.settle, hn], ?_⟩
          by_contra hre
          rw [hse (by simpa [Attempt.cleanup, Attempt.settle] using hre)] at hal'
          cases hal'

-- A task whose last submission was fulfilled is done.
theorem done_completeTask
    (hd : u.account.Done p done ss [task.started p.chunks.length]) (ht : u.todo = task :: rest)
    (hs : u.account.submissions = ss ++ (es ++ [s])) (hr : Tries p.hashAlgorithm task es s)
    (hf : s.fulfilled) :
    let u₁ := u.completeTask task
    let u₂ := { u₁ with progress := u₁.progress ++ [task.completed p.chunks.length] }
    u₂.account.Done p (done ++ [task]) u₂.account.submissions [] := by
  have hm := hd.milestones
  have hc := hd.chunkCids
  have hi := hd.manifestCid
  have htasks := hd.tasks
  simp only [account, submissions] at hm hc hi htasks hs
  constructor
  case finished =>
    have he := hd.finished.snoc hr hf
    rw [← hs] at he
    cases task <;> exact he
  case tasks => cases task <;> simp [account, submissions, completeTask, htasks, ht]
  case chunkCids => cases task <;> simp [account, submissions, completeTask, hc, Task.chunkCid]
  case manifestCid => cases task <;> simp [account, submissions, completeTask, hi, Task.manifestCid]
  case milestones =>
    have hp : (u.completeTask task).progress = u.progress := by cases task <;> rfl
    simp [account, submissions, hp, hm, task.isMilestone_completed]

theorem at_resume (h : At p u.account) (hw : ∀ a ∈ u.attempts, a.Wf p.waitFor)
    (he : u.step p .resume = some u') : At p u'.account := by
  simp only [step, Option.ite_none_left_eq_some] at he
  obtain ⟨hn, he⟩ := he
  have hn : u.outcome = none := by simpa using hn
  obtain ⟨task', htask, he⟩ := Option.bind_eq_some_iff.mp he
  obtain ⟨a, hl, he⟩ := Option.bind_eq_some_iff.mp he
  obtain ⟨x, hx, he⟩ := Option.bind_eq_some_iff.mp he
  cases he
  cases h
  case failed ho    => cases hn.symm.trans ho
  case completed ho => cases hn.symm.trans ho
  case awaiting done ss _ es s task hd ht hs hr ho ha =>
    have htt : task' = task := by
      have ht : u.todo = _ := ht
      rw [ht] at htask
      exact (Option.some.inj htask).symm
    have hsa : a.toSubmission = s := by
      have hl' : u.account.submissions.getLast? = some a.toSubmission := by simp [account, submissions, hl]
      rw [hs, ← List.append_assoc, List.getLast?_concat] at hl'
      exact (Option.some.inj hl').symm
    have hxs : a.settlements = [x] := by
      have ho := (hw a (List.mem_of_getLast? hl)).once
      cases hc : a.settlements <;> rw [hc] at hx ho
      case nil          => cases hx
      case cons y ys =>
        cases hx
        rw [List.eq_nil_of_length_eq_zero (Nat.le_zero.mp (Nat.le_of_succ_le_succ ho))]
    subst htt hsa
    cases x
    case fulfilled r =>
      have hq : u.account.alarmed = false := by
        by_contra hq
        obtain ⟨err, hf, _⟩ := ha (by simpa using hq)
        exact absurd (hf.symm.trans hxs) (by simp)
      have hf : a.toSubmission.fulfilled := by simp [Submission.fulfilled, hxs, Settlement.isFulfilled]
      refine at_proceed (done_completeTask hd ht hs hr hf) ?_ ?_
      · cases task' <;> exact hn
      · have hp : (u.completeTask task').progress = u.progress := by cases task' <;> rfl
        have hq : u.progress.any ProgressEvent.isAlarm = false := hq
        simp [account, submissions, hp, hq, task'.isAlarm_completed]
    case rejected err =>
      simp only [resume]
      split
      case isTrue hre =>
        have hq : u.account.alarmed = false := by
          by_contra hq
          obtain ⟨err', hf, hn⟩ := ha (by simpa using hq)
          cases hf.symm.trans hxs
          exact absurd (hre.symm.trans hn) (by decide)
        obtain ⟨hre, hae⟩ := Bool.and_eq_true_iff.mp hre
        cases hr
        case second hb => exact absurd (hre.symm.trans hb.willRetryEraExpiry) (by decide)
        case first hb =>
          have hex : a.toSubmission.expired := by
            simp [Submission.expired, hxs, Settlement.isExpired, hae]
          let s : Submission := ⟨a.tx, a.chunkIndex, false, []⟩
          have hb' : s.For p.hashAlgorithm task' false := ⟨hb.tx, hb.chunkIndex, rfl⟩
          have hq' : u.progress.any ProgressEvent.isAlarm = false := hq
          refine .awaiting task' (hd.of_eq rfl rfl rfl rfl) ht ?_ (.second hb hex hb') hn ?_
          · simp only [account, submissions, List.map_append] at hs ⊢
            rw [hs, List.append_assoc]
            rfl
          · intro hal
            exact absurd (hq'.symm.trans hal) (by decide)
      case isFalse hre =>
        refine .failed task' ⟨hd.tasks, hd.finished, hd.chunkCids, hd.manifestCid, ?_⟩ ht hs hr
          ⟨hxs, by simpa using hre⟩ rfl
        have hm := hd.milestones
        simp only [account, submissions, List.filter_append, task'.filter_failed] at hm ⊢
        rw [hm, List.append_assoc]
        rfl

-- The continuation submits one transaction, or settles the upload.
theorem proceed_submits (u : Upload Cid) (ho : u.outcome = none) :
    (u.proceed p).outcome.isSome ∧ (u.proceed p).attempts = u.attempts ∨
    (u.proceed p).outcome = none ∧ ∃ tx i r,
      (u.proceed p).attempts = u.attempts ++ [.signAndSubmitAttempt tx i r] := by
  simp only [proceed]
  split
  case h_1 => exact .inl ⟨rfl, rfl⟩
  case h_2 => exact .inr ⟨ho, _, _, _, rfl⟩

theorem resume_submits (h : u.step p .resume = some u') :
    u'.outcome.isSome ∧ u'.attempts = u.attempts ∨
    u'.outcome = none ∧ ∃ tx i r, u'.attempts = u.attempts ++ [.signAndSubmitAttempt tx i r] := by
  simp only [step, Option.ite_none_left_eq_some] at h
  obtain ⟨hn, h⟩ := h
  have hn : u.outcome = none := by simpa using hn
  obtain ⟨task, _, h⟩ := Option.bind_eq_some_iff.mp h
  obtain ⟨a, _, h⟩ := Option.bind_eq_some_iff.mp h
  obtain ⟨x, _, h⟩ := Option.bind_eq_some_iff.mp h
  cases h
  cases x
  case fulfilled =>
    cases task <;> exact proceed_submits _ hn
  case rejected err =>
    simp only [resume]
    split
    case isTrue  => exact .inr ⟨hn, _, _, _, rfl⟩
    case isFalse => exact .inl ⟨rfl, rfl⟩

theorem signal_receives (h : u.step p (.signal k signal) = some u') : ∃ a a' statuses,
    u.attempts[k]? = some a ∧ Attempt.Receives p.waitFor a signal a' statuses ∧
      u' = u.record k a' statuses := by
  obtain ⟨a, ha, h⟩ := Option.bind_eq_some_iff.mp h
  obtain ⟨⟨a', statuses⟩, hr, h⟩ := Option.bind_eq_some_iff.mp h
  cases h
  exact ⟨a, a', statuses, ha, Attempt.receive_receives hr, rfl⟩

theorem step_wf (hw : ∀ a ∈ u.attempts, a.Wf p.waitFor) (h : u.step p action = some u') :
    ∀ a ∈ u'.attempts, a.Wf p.waitFor := by
  intro b hb
  cases action
  case signal =>
    obtain ⟨a, a', statuses, ha, hr, rfl⟩ := signal_receives h
    obtain hb | rfl := List.mem_or_eq_of_mem_set hb
    · exact hw b hb
    · exact (hw a (List.mem_of_getElem? ha)).receives hr
  case resume =>
    obtain ⟨_, ha⟩ | ⟨_, tx, i, r, ha⟩ := resume_submits h <;> rw [ha] at hb
    case inl => exact hw b hb
    case inr =>
      obtain hb | hb := List.mem_append.mp hb
      · exact hw b hb
      · cases List.mem_singleton.mp hb
        exact Attempt.wf_signAndSubmitAttempt tx i r

theorem step_at (h : At p u.account) (hw : ∀ a ∈ u.attempts, a.Wf p.waitFor)
    (he : u.step p action = some u') : At p u'.account := by
  cases action
  case resume => exact at_resume h hw he
  case signal k signal =>
    obtain ⟨a, a', statuses, ha, hr, rfl⟩ := signal_receives he
    exact at_record h hw ha hr

theorem start_wf : ∀ a ∈ (start p).attempts, a.Wf p.waitFor := by
  intro a ha
  obtain ⟨_, hs⟩ | ⟨_, tx, i, r, hs⟩ := proceed_submits (p := p) ⟨p.tasks, [], none, [], [], none⟩ rfl
  · cases hs ▸ ha
  · cases List.mem_singleton.mp (hs ▸ ha)
    exact Attempt.wf_signAndSubmitAttempt tx i r

theorem at_of_runs (h : Runs (step p) guard (start p) as u) :
    At p u.account ∧ ∀ a ∈ u.attempts, a.Wf p.waitFor :=
  h.invariant (fun u => At p u.account ∧ ∀ a ∈ u.attempts, a.Wf p.waitFor) ⟨at_start p, start_wf⟩
    fun h _ e => ⟨step_at h.left h.right e, step_wf h.right e⟩

-- What was fulfilled was confirmed by an event to that very attempt.
theorem confirmed_of_runs (h : Runs (step p) guard (start p) as u) (ha : u.attempts[k]? = some a)
    (hf : .fulfilled r ∈ a.settlements) :
    ∃ ev, .signal k (.next ev) ∈ as ∧ ev.Confirms p.waitFor r := by
  let I (u : Upload Cid) : Prop := ∀ {k a r}, u.attempts[k]? = some a → .fulfilled r ∈ a.settlements →
    ∃ ev, .signal k (.next ev) ∈ as ∧ ev.Confirms p.waitFor r
  have hnew {u u' : Upload Cid} {tx i b} (hI : I u)
      (hs : u'.attempts = u.attempts ++ [.signAndSubmitAttempt tx i b]) : I u' := by
    intro k a r ha hf
    rw [hs, List.getElem?_append] at ha
    split at ha
    case isTrue  => exact hI ha hf
    case isFalse =>
      cases List.mem_singleton.mp (List.mem_of_getElem? ha)
      cases hf
  have h₀ : I (start p) := by
    obtain ⟨_, hs⟩ | ⟨_, tx, i, b, hs⟩ := proceed_submits (p := p) ⟨p.tasks, [], none, [], [], none⟩ rfl
    · intro k a r ha
      rw [start, hs] at ha
      cases ha
    · exact hnew (fun ha => by cases ha) hs
  refine h.mem.invariant I h₀ (fun {u action u'} hI hg e => ?_) ha hf
  cases action
  case resume =>
    obtain ⟨_, hs⟩ | ⟨_, _, _, _, hs⟩ := resume_submits e
    · intro k a r ha
      exact hI (hs ▸ ha)
    · exact hnew hI hs
  case signal k signal =>
    obtain ⟨a, a', statuses, ha, hr, rfl⟩ := signal_receives e
    intro j b r hb hf
    rw [record, List.getElem?_set] at hb
    split at hb
    case isFalse => exact hI hb hf
    case isTrue hj =>
      subst hj
      obtain ⟨_, hb⟩ := Option.ite_none_right_eq_some.mp hb
      cases hb
      cases hr
      case watching => exact hI ha hf
      case released => exact hI ha hf
      case fulfilled ev _ _ hc _ =>
        obtain hf | hf : .fulfilled r ∈ a.settlements ∨ r = _ := by
          split at hf <;> simpa [Attempt.cleanup, Attempt.settle] using hf
        · exact hI ha hf
        · exact ⟨ev, hg.right, hf ▸ hc⟩
      case rejected =>
        refine hI ha ?_
        simpa [Attempt.cleanup, Attempt.settle] using hf

end Upload

-- Settled once, a submission is not both.
theorem Submission.not_expired {s : Submission} (ho : s.settlements.length ≤ 1) (hf : s.fulfilled) :
    s.expired = false := by
  simp only [fulfilled, expired] at hf ⊢
  cases hs : s.settlements <;> rw [hs] at ho hf
  case nil => rfl
  case cons x xs =>
    rw [List.eq_nil_of_length_eq_zero (Nat.le_zero.mp (Nat.le_of_succ_le_succ ho))] at hf ⊢
    cases x
    case fulfilled => rfl
    case rejected  => cases hf

namespace Tries

theorem tx (h : Tries alg task es s) : s.tx = task.tx alg := by
  cases h
  case first h       => exact h.tx
  case second _ _ h' => exact h'.tx

theorem expired (h : Tries alg task es s) : ∀ e ∈ es, e.expired := by
  cases h
  case first          => simp
  case second _ he _ => simpa using he

theorem length_le (h : Tries alg task es s) : es.length ≤ 1 := by
  cases h <;> simp

-- What is left of the submissions of a task without those that have expired.
theorem filter_sent (h : Tries alg task es s) :
    (es ++ [s]).filter (!·.expired) = [s].filter (!·.expired) := by
  have he : es.filter (!·.expired) = [] := by
    rw [List.filter_eq_nil_iff]
    intro e hm
    simp [h.expired e hm]
  rw [List.filter_append, he, List.nil_append]

end Tries

namespace Finished

theorem length_le (h : Finished alg done ss) : ss.length ≤ 2 * done.length := by
  induction h
  case nil => simp
  case snoc _ ht _ hi =>
    have hl := ht.length_le
    simp only [List.length_append, List.length_singleton]
    omega

theorem fulfilled_or_expired (h : Finished alg done ss) : ∀ s ∈ ss, s.fulfilled ∨ s.expired := by
  induction h
  case nil => simp
  case snoc _ ht hf hi =>
    intro e he
    simp only [List.mem_append, List.mem_singleton] at he
    obtain he | he | rfl := he
    · exact hi e he
    · exact .inr (ht.expired e he)
    · exact .inl hf

theorem filter_sent (h : Finished alg done ss) (ho : ∀ s ∈ ss, s.settlements.length ≤ 1) :
    (ss.filter (!·.expired)).map (·.tx) = done.map (·.tx alg) := by
  induction h
  case nil => rfl
  case snoc s _ ht hf hi =>
    have hn := s.not_expired (ho s (by simp)) hf
    rw [List.filter_append, ht.filter_sent, List.filter_singleton, hn, List.map_append,
      hi fun e he => ho e (List.mem_append_left _ he), List.map_append]
    simp [ht.tx]

end Finished

open Account

-- The transactions of an upload in the order in which they are submitted.
def Prepared.txs (p : Prepared Cid) : List PapiTransaction :=
  p.tasks.map (·.tx p.hashAlgorithm)

theorem once_of_wf (hw : ∀ a ∈ u.attempts, a.Wf p.waitFor) :
    ∀ s ∈ u.submissions, s.settlements.length ≤ 1 := by
  intro s hs
  obtain ⟨a, ha, rfl⟩ := List.mem_map.mp hs
  exact (hw a ha).once

-- The submissions that count, and those of the tasks that are done.
theorem Finished.fulfilled_of_sent (h : Finished alg done ss) :
    ∀ s ∈ ss.filter (!·.expired), s.fulfilled := by
  intro s hs
  obtain ⟨hm, he⟩ := List.mem_filter.mp hs
  refine (h.fulfilled_or_expired s hm).resolve_right ?_
  simpa using he

-- Apart from the submissions whose era is over, the transactions are submitted once each and in order,
-- each after the one before it was fulfilled.
structure Sequential (p : Prepared Cid) (ss : List Submission) : Prop where
  inOrder   : (ss.filter (!·.expired)).map (·.tx) <+: p.txs
  fulfilled : ∀ s ∈ (ss.filter (!·.expired)).dropLast, s.fulfilled
  length_le : ss.length ≤ 2 * p.txs.length

theorem sequential_of_tries {rest : List (Task Cid)} (hp : p.tasks = done ++ task :: rest)
    (hf : Finished p.hashAlgorithm done ss) (hr : Tries p.hashAlgorithm task es s)
    (ho : ∀ e ∈ ss ++ (es ++ [s]), e.settlements.length ≤ 1) :
    Sequential p (ss ++ (es ++ [s])) := by
  have ht := hf.filter_sent fun e he => ho e (List.mem_append_left _ he)
  have hl := hf.length_le
  have hle := hr.length_le
  constructor
  case inOrder =>
    rw [List.filter_append, hr.filter_sent, List.map_append, ht, Prepared.txs, hp, List.map_append,
      List.map_cons, ← hr.tx]
    refine List.prefix_append_right_inj _ |>.mpr ?_
    cases hs : s.expired <;> simp [hs]
  case fulfilled =>
    rw [List.filter_append, hr.filter_sent]
    cases hs : s.expired
    case false => simpa [hs] using hf.fulfilled_of_sent
    case true =>
      intro x hx
      simp only [List.filter_singleton, hs, Bool.not_true, cond_false, List.append_nil] at hx
      exact hf.fulfilled_of_sent x ((List.dropLast_sublist _).subset hx)
  case length_le =>
    simp only [Prepared.txs, hp, List.length_map, List.length_append, List.length_cons,
      List.length_nil]
    omega

theorem sequential_of_finished (hf : Finished p.hashAlgorithm p.tasks ss)
    (ho : ∀ s ∈ ss, s.settlements.length ≤ 1) : Sequential p ss where
  inOrder   := hf.filter_sent ho ▸ List.prefix_rfl
  fulfilled := fun x hx => hf.fulfilled_of_sent x ((List.dropLast_sublist _).subset hx)
  length_le := by simpa [Prepared.txs] using hf.length_le

theorem InTurn.sequential (h : InTurn p ss) (ho : ∀ s ∈ ss, s.settlements.length ≤ 1) :
    Sequential p ss := by
  cases h
  case current hp hf hr => exact sequential_of_tries hp hf hr ho
  case all hf           => exact sequential_of_finished hf ho

theorem Account.At.inTurn {v : Account Cid} (h : v.At p) : InTurn p v.submissions := by
  cases h
  case awaiting hd ht hs hr _ _ => exact hs ▸ .current (ht ▸ hd.tasks) hd.finished hr
  case failed hd ht hs hr _ _   => exact hs ▸ .current (ht ▸ hd.tasks) hd.finished hr
  case completed hd ht hs _ _   =>
    have htasks := hd.tasks
    rw [ht, List.append_nil] at htasks
    exact hs ▸ .all (htasks ▸ hd.finished)

-- However the statuses of the transactions, their errors and their timers interleave, and those of the
-- attempts that are still watched with those of the one that is awaited: a chunk is submitted after
-- the chunk before it was confirmed by an event to that very attempt, and the manifest after all the
-- chunks. Each is submitted at most twice, and again only after its era was over.
theorem upload_sequential {as : List UploadAction}
    (h : Runs (Upload.step p) guard (Upload.start p) as u) :
    InTurn p u.submissions ∧ Sequential p u.submissions ∧
    ∀ k a r, u.attempts[k]? = some a → .fulfilled r ∈ a.settlements →
      ∃ ev, .signal k (.next ev) ∈ as ∧ ev.Confirms p.waitFor r := by
  obtain ⟨hat, hw⟩ := Upload.at_of_runs h
  exact ⟨hat.inTurn, hat.inTurn.sequential (once_of_wf hw),
    fun k a r ha hf => Upload.confirmed_of_runs h ha hf⟩

-- Two chunks and their manifest. The first chunk is submitted again when its era is over, and it is
-- finalized after the second chunk was submitted.
def twoChunks : Prepared Nat where
  totalSize     := 3
  chunks        := [⟨⟨[1, 2], 0, 2⟩, 10⟩, ⟨⟨[3], 1, 2⟩, 11⟩]
  manifest      := some ([9], 12)
  hashAlgorithm := .blake2b256
  waitFor       := .inBlock

def statusIn (type : EventType) (number : Nat) : Signal :=
  .next ⟨"0x01", type, true, some ⟨"0x02", number, some 0⟩, [⟨"TransactionStorage", "Stored", some 0⟩]⟩

def eraOver : Signal :=
  .error ⟨"InvalidTxError", "invalid", some ("Invalid", "AncientBirthBlock"), none⟩

def uploading : List UploadAction :=
  [.signal 0 eraOver, .resume, .signal 1 (statusIn .txBestBlocksState 5), .resume,
   .signal 1 (statusIn .finalized 5), .signal 2 (statusIn .txBestBlocksState 6), .resume,
   .signal 3 (statusIn .finalized 8), .resume]

theorem upload_sequential_twoChunks : ∃ u : Upload Nat,
    Runs (Upload.step twoChunks) (fun _ _ => true) (Upload.start twoChunks) uploading u ∧
    u.submissions.map (·.tx) = [.store [1, 2], .store [1, 2], .store [3],
      .storeWithCidConfig dagPbCodec .blake2b256 [9]] ∧
    InTurn twoChunks u.submissions ∧ Sequential twoChunks u.submissions := by
  obtain ⟨u, hr, hs⟩ := Runs.exists_of_any (Upload.step twoChunks) (fun _ _ => true)
    (Upload.start twoChunks) uploading (fun u => u.submissions.map (·.tx) = [.store [1, 2],
      .store [1, 2], .store [3], .storeWithCidConfig dagPbCodec .blake2b256 [9]]) (by decide +kernel)
  obtain ⟨ht, hq, _⟩ := upload_sequential hr
  exact ⟨u, hr, hs, ht, hq⟩

namespace Prepared

end Prepared

-- What happens without the network: the turns of the caller's continuation, and the timers.
def UploadAction.isOwn : UploadAction → Bool
  | resume            => true
  | signal _ .timeout => true
  | signal _ _        => false

def UploadAction.isTimer : UploadAction → Bool
  | signal _ .timeout => true
  | _                 => false

namespace Upload

-- The timer of an attempt that nothing else settles rejects it for good.
theorem timeout_final (h : a.Wf waitFor) (hn : a.settlements = []) :
    ∃ a' err, a.receive waitFor .timeout = some (a', []) ∧ a'.settlements = [.rejected err] ∧
      isAncientBirthBlockError err = false := by
  have hr : a.resolved = false := by simp [h.resolved, hn]
  have ht : a.timer := h.timer.trans (h.alive hr)
  refine ⟨a.timeout.1, .bulletinError "Transaction timed out" .timeout, ?_, ?_, by decide⟩
  · simp [Attempt.receive, ht, Attempt.timeout, Attempt.abort, hr]
  · simp [Attempt.timeout, Attempt.abort, hr, Attempt.cleanup, Attempt.settle, hn]

theorem resume_eq (ho : u.outcome = none) (ht : u.todo = task :: rest)
    (hl : u.attempts.getLast? = some a) (hx : a.settlements.head? = some x) :
    u.step p .resume = some (u.resume p task a x) := by
  simp [step, ho, ht, hl, hx]

theorem settles_of_unsettled (hw : ∀ a ∈ u.attempts, a.Wf p.waitFor) (ho : u.outcome = none)
    (ht : u.todo = task :: rest) (hl : u.attempts.getLast? = some a) (hn : a.settlements = []) :
    ∃ as u', as.length ≤ 2 ∧ (∀ x ∈ as, x.isOwn) ∧ as.countP (·.isTimer) ≤ 1 ∧
      Runs (step p) (fun _ _ => True) u as u' ∧ u'.outcome.isSome := by
  obtain ⟨a', err, hr, hs, he⟩ := timeout_final (hw a (List.mem_of_getLast? hl)) hn
  obtain ⟨init, hi⟩ := List.getLast?_eq_some_iff.mp hl
  have h₁ : u.step p (.signal init.length .timeout) = some (u.record init.length a' []) := by
    simp [step, hi, hr]
  have hl' : (u.record init.length a' []).attempts.getLast? = some a' := by
    simp [record, hi]
  have h₂ := resume_eq (p := p) (u := u.record init.length a' []) ho ht hl' (by rw [hs]; rfl)
  refine ⟨_, _, by simp, ?_, ?_, .cons trivial h₁ (.cons trivial h₂ .nil), ?_⟩
  · simp [UploadAction.isOwn]
  · simp [UploadAction.isTimer]
  · simp [resume, he]

-- An upload that is not settled never depends on the network to be.
theorem settles_of_at (h : Account.At p u.account) (hw : ∀ a ∈ u.attempts, a.Wf p.waitFor)
    (ho : u.outcome = none) :
    ∃ as u', as.length ≤ 3 ∧ (∀ x ∈ as, x.isOwn) ∧ as.countP (·.isTimer) ≤ 1 ∧
      Runs (step p) (fun _ _ => True) u as u' ∧ u'.outcome.isSome := by
  have awaited {u : Upload Cid} (h : Account.At p u.account) (ho : u.outcome = none) :
      ∃ task rest a, u.todo = task :: rest ∧ u.attempts.getLast? = some a := by
    cases h
    case failed hn    => cases ho.symm.trans hn
    case completed hn => cases ho.symm.trans hn
    case awaiting rest _ _ task _ ht hs _ _ _ =>
      have hs : u.attempts.map (·.toSubmission) = _ := hs
      cases hl : u.attempts.getLast?
      case none =>
        rw [List.getLast?_eq_none_iff.mp hl] at hs
        simp at hs
      case some a => exact ⟨task, rest, a, ht, rfl⟩
  obtain ⟨task, rest, a, ht, hl⟩ := awaited h ho
  cases hx : a.settlements.head?
  case none =>
    obtain ⟨as, u', hle, hown, htm, hr, hs⟩ :=
      settles_of_unsettled hw ho ht hl (List.head?_eq_none_iff.mp hx)
    exact ⟨as, u', by omega, hown, htm, hr, hs⟩
  case some x =>
    have h₁ := resume_eq (p := p) ho ht hl hx
    obtain ⟨hs, _⟩ | ⟨hn, tx, i, r, ha⟩ := resume_submits h₁
    · exact ⟨[.resume], _, by simp, by simp [UploadAction.isOwn], by simp [UploadAction.isTimer],
        .cons trivial h₁ .nil, hs⟩
    · obtain ⟨_, _, _, ht', _⟩ := awaited (step_at h hw h₁) hn
      have hl' : (u.resume p task a x).attempts.getLast? = some (.signAndSubmitAttempt tx i r) := by
        simp [ha]
      obtain ⟨as, u', hle, hown, htm, hr, hs⟩ := settles_of_unsettled (step_wf hw h₁) hn ht' hl' rfl
      exact ⟨.resume :: as, u', Nat.succ_le_succ hle, by simpa [UploadAction.isOwn] using hown,
        by simpa [UploadAction.isTimer] using htm, .cons trivial h₁ hr, hs⟩

end Upload

-- Every promise is settled at most once, and its watch is kept until then and released with it; only a
-- transaction that was fulfilled in a block stays watched, until it is final. And an upload never
-- hangs: from every point of it, at most three steps settle it, turns of the continuation and at most one
-- timer.
theorem upload_settles {as : List UploadAction}
    (h : Runs (Upload.step p) guard (Upload.start p) as u) :
    (∀ a ∈ u.attempts, a.settlements.length ≤ 1 ∧ a.timer = a.subscribed ∧
      (a.settlements = [] → a.subscribed) ∧
      (a.subscribed → a.settlements = [] ∨ p.waitFor = .inBlock ∧ a.fulfilled)) ∧
    (u.outcome = none → ∃ as' u', as'.length ≤ 3 ∧ (∀ x ∈ as', x.isOwn) ∧
      as'.countP (·.isTimer) ≤ 1 ∧ Runs (Upload.step p) (fun _ _ => True) u as' u' ∧
      u'.outcome.isSome) := by
  obtain ⟨hat, hw⟩ := Upload.at_of_runs h
  refine ⟨fun a ha => ?_, Upload.settles_of_at hat hw⟩
  have w := hw a ha
  refine ⟨w.once, w.timer, fun hn => w.alive (by simp [w.resolved, hn]), fun hs => ?_⟩
  cases hx : a.settlements
  case nil => exact .inl rfl
  case cons x xs =>
    have hr : a.resolved := by simp [w.resolved, hx]
    refine .inr ⟨?_, ?_⟩
    · cases hf : p.waitFor
      case inBlock   => rfl
      case finalized => exact absurd (hs.symm.trans (w.finalized hf hr)) (by decide)
    · cases x
      case fulfilled => simp [Submission.fulfilled, hx, Settlement.isFulfilled]
      case rejected err =>
        have he : .rejected err ∈ a.settlements := by simp [hx]
        exact absurd (hs.symm.trans (w.rejected he)) (by decide)

theorem upload_settles_twoChunks : ∃ u : Upload Nat,
    Runs (Upload.step twoChunks) (fun _ _ => true) (Upload.start twoChunks) (uploading.take 4) u ∧
    (∃ a ∈ u.attempts, a.fulfilled ∧ a.subscribed) ∧
    ∃ as u', as.length ≤ 3 ∧ Runs (Upload.step twoChunks) (fun _ _ => True) u as u' ∧
      u'.outcome.isSome := by
  obtain ⟨u, hr, hn, ha⟩ := Runs.exists_of_any (Upload.step twoChunks) (fun _ _ => true)
    (Upload.start twoChunks) (uploading.take 4)
    (fun u => u.outcome.isNone ∧ ∃ a ∈ u.attempts, a.fulfilled ∧ a.subscribed) (by decide +kernel)
  obtain ⟨as, u', hl, _, _, hr', hs⟩ := (upload_settles hr).right (Option.isNone_iff_eq_none.mp hn)
  exact ⟨u, hr, ha, as, u', hl, hr', hs⟩

end TypescriptSdk
end Bulletin
