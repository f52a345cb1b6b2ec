import PorSe.Por.Cone

/-! Configurations: the events executed so far, kept as the most recent events of every
thread, lock and condition variable. An extension method answers `none` when one of its
assertions, or one of the assertions of the event constructor, fails. -/

namespace Por
open Event SortedMap

structure Configuration (D : Type) where
  threadHeads : SortedMap ThreadId (Event D)
  lockHeads : SortedMap LockId (Event D)
  condHeads : SortedMap CondId (List (Event D))
  w2Heads : SortedMap CondId (List (Event D))
  usedCondIds : Finset CondId
  usedLockIds : Finset LockId
  size : ℕ

namespace Configuration
variable {D : Type} [DecidableEq D]

def initial : Configuration D where
  threadHeads := empty.insert .main (.mk .main .threadInit [programInit])
  lockHeads := empty
  condHeads := empty
  w2Heads := empty
  usedCondIds := ∅
  usedLockIds := ∅
  size := 2

variable (C : Configuration D)

def events : List (Event D) :=
  C.threadHeads.values.reverse.flatMap threadChain ++ [programInit]

instance : Membership (Event D) (Configuration D) := ⟨fun C e => e ∈ C.events⟩

instance (e : Event D) (C : Configuration D) : Decidable (e ∈ C) := inferInstanceAs (Decidable (e ∈ C.events))

def lastOfTid (tid : ThreadId) : Option (Event D) := C.threadHeads.find? tid

def lastOfLid (lid : LockId) : Option (Event D) := C.lockHeads.find? lid

def lastOfCid (cid : CondId) : List (Event D) := (C.condHeads.find? cid).getD []

def canAcquireLock (lock : LockId) : Bool :=
  match C.lastOfLid lock with
  | some lockEvent => lockEvent.kind ∈ [Kind.lockCreate, .lockRelease, .wait1]
  -- after a lock_destroy the source would dereference a null pointer
  | none => lock ∉ C.usedLockIds

def activeThreads : ℕ :=
  (C.threadHeads.values.filter fun e => e.kind ≠ .threadExit && e.kind ≠ .wait1).length

/-! ## `commit` -/

variable (e : Event D)

def commitLock : Configuration D :=
  { C with lockHeads := C.lockHeads.insert e.lid e }

def useLockId : Configuration D :=
  { C with usedLockIds := insert e.lid C.usedLockIds }

def useCondId : Configuration D :=
  { C with usedCondIds := insert e.cid C.usedCondIds }

def useCondIdIfFirst : Configuration D :=
  { C with usedCondIds :=
    if e.conditionVariablePredecessors.isEmpty then insert e.cid C.usedCondIds else C.usedCondIds }

def setCondHeads (cid : CondId) (heads : List (Event D)) : Configuration D :=
  { C with condHeads := C.condHeads.insert cid heads }

def signalHeads (heads : List (Event D)) : List (Event D) :=
  match e.signalWaitPredecessor with
  | some w => heads.replace w e
  | none => heads ++ [e]

lemma mem_of_mem_signalHeads {e x : Event D} {heads : List (Event D)} (h : x ∈ signalHeads e heads) :
    x ∈ heads ∨ x = e := by
  unfold signalHeads at h
  split at h
  · exact ListSearch.mem_of_mem_replace h
  · simpa using h

def broadcastHeads (heads : List (Event D)) : List (Event D) :=
  (if e.broadcastIsLost then heads else heads.filter fun p => p ∉ e.broadcastWaitPredecessors) ++ [e]

lemma mem_broadcastHeads {e x : Event D} {heads : List (Event D)} :
    x ∈ broadcastHeads e heads ↔ x ∈ heads ∧ x ∉ e.broadcastWaitPredecessors ∨ x = e := by
  unfold broadcastHeads
  split_ifs with h
  · have : e.broadcastWaitPredecessors = [] := by
      rw [broadcastWaitPredecessors, of_decide_eq_true h, List.take_zero]
    simp [this]
  · simp

def commit : Configuration D :=
  let C := { C with threadHeads := C.threadHeads.insert e.tid e, size := C.size + 1 }
  match e.kind with
  | .lockCreate => (C.useLockId e).commitLock e
  | .lockAcquire => (if e.lockPredecessor.isNone then C.useLockId e else C).commitLock e
  | .lockRelease => C.commitLock e
  | .lockDestroy =>
    if e.lockPredecessor.isNone then C.useLockId e else { C with lockHeads := C.lockHeads.erase e.lid }
  | .conditionVariableCreate =>
    -- `emplace` keeps an entry that is already there
    if (C.condHeads.find? e.cid).isNone then (C.useCondId e).setCondHeads e.cid [e] else C.useCondId e
  | .wait1 => ((C.useCondIdIfFirst e).commitLock e).setCondHeads e.cid (C.lastOfCid e.cid ++ [e])
  | .wait2 =>
    { C.commitLock e with w2Heads := C.w2Heads.insert e.cid ((C.w2Heads.find? e.cid).getD [] ++ [e]) }
  | .signal => (C.useCondIdIfFirst e).setCondHeads e.cid (signalHeads e (C.lastOfCid e.cid))
  | .broadcast => (C.useCondIdIfFirst e).setCondHeads e.cid (broadcastHeads e (C.lastOfCid e.cid))
  | .conditionVariableDestroy =>
    if e.conditionVariablePredecessors.isEmpty then C.useCondId e
    else { C with condHeads := C.condHeads.erase e.cid, w2Heads := C.w2Heads.erase e.cid }
  | .localEvent | .programInit | .threadCreate | .threadExit | .threadInit | .threadJoin => C

/-! ## The extension methods -/

variable (thread : ThreadId)

def activeHead : Option (Event D) := do
  let threadEvent ← C.lastOfTid thread
  if threadEvent.kind ≠ .threadExit ∧ threadEvent.kind ≠ .wait1 then some threadEvent else none

def createThread (thread newTid : ThreadId) : Option (Event D) := do
  let threadEvent ← C.activeHead thread
  if !newTid.isEmpty ∧ (C.lastOfTid newTid).isNone then allocThreadCreate thread threadEvent newTid else none

def initThread (thread createdFrom : ThreadId) : Option (Event D) := do
  let threadCreate ← C.lastOfTid createdFrom
  if threadCreate.kind = .threadCreate ∧ threadCreate.tid ≠ thread ∧ (C.lastOfTid thread).isNone then
    allocThreadInit thread threadCreate
  else none

def joinThread (thread joined : ThreadId) : Option (Event D) := do
  let threadEvent ← C.activeHead thread
  let joinedEvent ← C.lastOfTid joined
  if joinedEvent.kind = .threadExit then allocThreadJoin thread threadEvent joinedEvent else none

def exitThread (atomic : Bool) : Option (Event D) := do
  let threadEvent ← C.activeHead thread
  if C.activeThreads > 0 then allocThreadExit thread threadEvent atomic else none

def createLock (lock : LockId) : Option (Event D) := do
  let threadEvent ← C.activeHead thread
  if lock > 0 ∧ (C.lastOfLid lock).isNone ∧ lock ∉ C.usedLockIds then allocLockCreate thread lock threadEvent
  else none

def destroyLock (lock : LockId) : Option (Event D) := do
  let threadEvent ← C.activeHead thread
  match C.lastOfLid lock with
  | none => if lock > 0 then allocLockDestroy thread lock threadEvent none else none
  | some lockEvent => allocLockDestroy thread lock threadEvent (some lockEvent)

def acquireLock (lock : LockId) : Option (Event D) := do
  let threadEvent ← C.activeHead thread
  if lock > 0 ∧ C.canAcquireLock lock then allocLockAcquire thread lock threadEvent (C.lastOfLid lock) else none

def releaseLock (lock : LockId) (atomic : Bool) : Option (Event D) := do
  let threadEvent ← C.activeHead thread
  let lockEvent ← C.lastOfLid lock
  allocLockRelease thread lock threadEvent lockEvent atomic

variable (cond : CondId)

def createCond : Option (Event D) := do
  let threadEvent ← C.activeHead thread
  if cond > 0 ∧ (C.condHeads.find? cond).isNone ∧ cond ∉ C.usedCondIds then
    allocConditionVariableCreate thread cond threadEvent
  else none

def destroyCond : Option (Event D) := do
  let threadEvent ← C.activeHead thread
  if cond > 0 then
    match C.condHeads.find? cond with
    | none => allocConditionVariableDestroy thread cond threadEvent []
    | some condPreds =>
      if condPreds.length > 0 then
        allocConditionVariableDestroy thread cond threadEvent (condPreds ++ (C.w2Heads.find? cond).getD [])
      else none
  else none

variable (threadEvent : Event D)

def wait1PredecessorsCond (condPreds : List (Event D)) : List (Event D) :=
  condPreds.filter fun pred =>
    !(pred.kind = .wait1) && !(pred.kind = .signal && !pred.signalIsLost) &&
      !(pred.kind = .broadcast && pred.isNotifyingThread threadEvent.tid) &&
      !(pred.tid = threadEvent.tid) && !pred.isLessThanEq threadEvent

def wait1 (lock : LockId) : Option (Event D) := do
  let threadEvent ← C.activeHead thread
  let lockEvent ← C.lastOfLid lock
  match C.condHeads.find? cond with
  | none =>
    if cond > 0 ∧ lock > 0 then allocWait1 thread cond lock threadEvent lockEvent [] else none
  | some condPreds =>
    allocWait1 thread cond lock threadEvent lockEvent (wait1PredecessorsCond threadEvent condPreds)

def notifiesWait1 (wait1 e : Event D) : Bool :=
  match e.kind with
  | .broadcast => wait1 ∈ e.broadcastWaitPredecessors
  | .signal => e.signalWaitPredecessor = some wait1
  | _ => false

def wait2PredecessorCond (wait1 : Event D) (condPreds : List (Event D)) : Option (Event D) :=
  condPreds.find? (notifiesWait1 wait1)

def wait2 (lock : LockId) : Option (Event D) := do
  let threadEvent ← C.lastOfTid thread
  let condPreds ← C.condHeads.find? cond
  let lockEvent ← C.lastOfLid lock
  if threadEvent.kind = .wait1 then
    let condEvent ← wait2PredecessorCond threadEvent condPreds
    allocWait2 thread cond lock threadEvent lockEvent condEvent
  else none

def notifiedWait1Predecessor (notifiedThread : ThreadId) (condPreds : List (Event D)) : Option (Event D) :=
  condPreds.find? fun e => e.tid = notifiedThread && e.kind = .wait1

/-- The head of a waiting thread, which has to be its wait1 on the condition variable. -/
def notifiedHead (thread notifiedThread : ThreadId) (condPreds : List (Event D)) : Option (Event D) := do
  let notifiedThreadEvent ← C.lastOfTid notifiedThread
  if notifiedThread ≠ thread ∧ notifiedThreadEvent.kind = .wait1 ∧
      notifiedWait1Predecessor notifiedThread condPreds = some notifiedThreadEvent then
    some notifiedThreadEvent
  else none

/-- A wait1 among the heads means that the notification would not have been lost. -/
def lostNotificationPredecessorsCond (condPreds : List (Event D)) : Option (List (Event D)) :=
  if condPreds.any fun pred => pred.kind = .wait1 then none
  else some <| condPreds.filter fun pred =>
    !(pred.kind = .broadcast && (pred.broadcastIsLost || pred.isNotifyingThread threadEvent.tid)) &&
      !(pred.kind = .signal && (pred.signalIsLost || pred.notifiedThread = threadEvent.tid)) &&
      !(pred.tid = threadEvent.tid) && !pred.isLessThanEq threadEvent

def signalThread (notifiedThread : ThreadId) : Option (Event D) := do
  let threadEvent ← C.activeHead thread
  match C.condHeads.find? cond with
  | none =>
    if notifiedThread.isEmpty ∧ cond > 0 then allocLostSignal thread cond threadEvent [] else none
  | some condPreds =>
    if notifiedThread.isEmpty then
      let prevNotifications ← lostNotificationPredecessorsCond threadEvent condPreds
      allocLostSignal thread cond threadEvent prevNotifications
    else
      let condEvent ← C.notifiedHead thread notifiedThread condPreds
      allocSignal thread cond threadEvent condEvent

variable (notifiedThreads : List ThreadId)

/-- The earlier signals to other waiters that a notifying broadcast is ordered after. -/
def broadcastPredecessorsCond (condPreds : List (Event D)) : List (Event D) :=
  condPreds.filter fun pred =>
    !(pred.kind = .wait1) && !(pred.kind = .conditionVariableCreate) && !(pred.kind = .broadcast) &&
      !(pred.kind = .signal && (pred.signalIsLost || pred.notifiedThread = thread ||
        pred.notifiedThread ∈ notifiedThreads)) &&
      !(pred.tid = thread) && !pred.isLessThanEq threadEvent

def broadcastThreads : Option (Event D) := do
  let threadEvent ← C.activeHead thread
  match C.condHeads.find? cond with
  | none =>
    if notifiedThreads.isEmpty ∧ cond > 0 then allocBroadcast thread cond threadEvent [] else none
  | some condPreds =>
    if notifiedThreads.isEmpty then
      let prevNotifications ← lostNotificationPredecessorsCond threadEvent condPreds
      allocBroadcast thread cond threadEvent prevNotifications
    else
      let notified ← notifiedThreads.mapM fun nid => C.notifiedHead thread nid condPreds
      allocBroadcast thread cond threadEvent
        (notified ++ broadcastPredecessorsCond thread threadEvent notifiedThreads condPreds)

def localEvent (localPath : List D) : Option (Event D) := do
  let threadEvent ← C.lastOfTid thread
  if threadEvent.kind ≠ .threadExit then allocLocal thread threadEvent localPath else none

end Configuration
end Por
