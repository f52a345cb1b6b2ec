import PorSe.Lib.Concurrent

/-! The mutexes of `runtime/POSIX/pthread/mutex.c`, with `pthread_cond_wait`, `pthread_cond_signal` and
`pthread_cond_broadcast` of `cond.c` and the part of `pthread_exit` that other threads see. -/

namespace Pthread.Mutex
open Concurrent Function
variable {T C : Type*}

inductive MutexType
  | normal
  | errorcheck
  | recursive
  deriving DecidableEq

inductive Robustness
  | stalled
  | robust
  deriving DecidableEq

inductive TrylockSupport
  | unknown
  | enabled
  | disabled
  deriving DecidableEq

inductive RobustState
  | normal
  | inconsistent
  | unusable
  deriving DecidableEq

structure Attributes where
  type : MutexType
  robust : Robustness
  trylockSupport : TrylockSupport

def Attributes.kprMutexDefault (m : Attributes) : Bool :=
  m.type = .normal ∧ m.robust = .stalled ∧ m.trylockSupport ≠ .enabled

inductive Result
  | success
  | EINVAL
  | EDEADLOCK
  | EOWNERDEAD
  | EBUSY
  | EPERM
  deriving DecidableEq

/-- The condition variable, `waitingMutex` saying whether it is set. -/
structure Cond where
  waitingMutex : Bool
  waitingCount : ℕ

structure Data (T C : Type*) where
  acquired : BitVec 32
  holdingThread : Option T
  robustState : RobustState
  exited : T → Bool
  conds : C → Cond

/-- KLEE's locks and condition variables: those of the mutex and of each condition variable. -/
inductive Lock (C : Type*)
  | mutex
  | cond (c : C)
  deriving DecidableEq

/-- `pthread_cond_wait` calls `pthread_mutex_lock` once, and then again as often as the mutex had been locked. -/
inductive Locker
  | user
  | condWait (acquiredCount : BitVec 32)
  | again (acquiredCount : BitVec 32)

inductive Unlocker (C : Type*)
  | user
  | condWait (c : C) (acquiredCount : BitVec 32)

inductive Point (C : Type*)
  | idle
  | lockAcquire (w : Locker)
  | lockWait (w : Locker)
  | lockRelease (r : Result) (w : Locker)
  | lockTwice
  | trylockAcquire
  | trylockRelease (r : Result)
  | consistentAcquire
  | consistentRelease (r : Result)
  | unlockAcquire (w : Unlocker C)
  | unlockRelease (r : Result) (w : Unlocker C)
  | unlockDefault (w : Unlocker C)
  | condAcquire (c : C)
  | condFail (c : C)
  | condWait (c : C) (acquiredCount : BitVec 32)
  | condRelease (c : C) (acquiredCount : BitVec 32)
  | signalAcquire (c : C)
  | signalRelease (c : C)
  | broadcastAcquire (c : C)
  | broadcastRelease (c : C)
  /-- Behind a reported error or a failed assertion, with the locks held. -/
  | failed (locks : List (Lock C))

/-- A point, and how often the thread has locked the mutex, from the step that takes it to the one that gives it back.
-/
structure Place (C : Type*) where
  depth : ℕ
  point : Point C

inductive Call (C : Type*)
  | lock
  | trylock
  | unlock
  | consistent
  | condWait (c : C)
  | condSignal (c : C)
  | condBroadcast (c : C)
  | exit

/-! ## The functions -/

section
variable [DecidableEq T] (m : Attributes) (t : T)

def Data.take (d : Data T C) : Data T C := { d with acquired := 1, holdingThread := some t }

def Data.give (d : Data T C) : Data T C := { d with acquired := 0, holdingThread := none }

/-- `pthread_mutex_lock_internal` returns, waits, locks its own lock twice or fails. -/
inductive Internal
  | ret (r : Result)
  | wait
  | twice
  | assertion

def lockLoop (mayBlock : Bool) (d : Data T C) : Internal × Data T C :=
  if m.robust = .robust ∧ d.robustState = .unusable then (.ret .EINVAL, d)
  else
    match d.holdingThread with
    | some h =>
      if m.robust = .robust ∧ d.exited h = true then
        (.ret .EOWNERDEAD, { d.take t with robustState := .inconsistent })
      else if mayBlock then (.wait, d) else (.ret .EBUSY, d)
    | none => if m.robust = .robust then (.assertion, d) else if mayBlock then (.wait, d) else (.ret .EBUSY, d)

def lockWoken (d : Data T C) : Internal × Data T C :=
  if d.acquired = 0 then (.ret .success, d.take t) else lockLoop m t true d

def lockInternal (mayBlock : Bool) (d : Data T C) : Internal × Data T C :=
  if m.robust = .robust ∧ d.robustState = .unusable then (.ret .EINVAL, d)
  else if d.acquired = 0 then (.ret .success, d.take t)
  else
    match d.holdingThread with
    | none => (.assertion, d)
    | some h =>
      if h = t then
        match m.type with
        | .errorcheck => (.ret .EDEADLOCK, d)
        | .recursive => (.ret .success, { d with acquired := d.acquired + 1 })
        | .normal => (.twice, d)
      else lockLoop m t mayBlock d

/-- `kpr_mutex_unlock` between its lock and its unlock: nothing on an error, else whether the mutex is given back. -/
inductive Unlocked
  | notPermitted
  | kept
  | given
  | error

def kprMutexUnlock (force : Bool) (d : Data T C) : Unlocked × Data T C :=
  if d.acquired = 0 ∨ d.holdingThread ≠ some t then
    if m.type = .errorcheck then (.notPermitted, d) else (.error, d)
  else if m.type = .recursive ∧ d.acquired.toInt ≤ 0 then (.error, d)
  else if m.type = .recursive ∧ ¬ (d.acquired - 1 = 0 ∨ force) then (.kept, { d with acquired := d.acquired - 1 })
  else if m.robust = .robust ∧ d.robustState = .inconsistent then (.given, { d.give with robustState := .unusable })
  else (.given, d.give)

def pthreadMutexConsistent (d : Data T C) : Result × Data T C :=
  if m.robust ≠ .robust then (.EINVAL, d)
  else if d.holdingThread ≠ some t ∨ d.robustState ≠ .inconsistent then (.EINVAL, d)
  else (.success, { d with robustState := .normal })

def returnLock (r : Result) : Locker → Point C
  | .user => .idle
  | .condWait n => if r = .success ∧ (n - 1).toInt > 0 then .lockAcquire (.again (n - 1)) else .idle
  | .again n => if (n - 1).toInt > 0 then .lockAcquire (.again (n - 1)) else .idle

variable [DecidableEq C]

def returnUnlock (r : Result) (n : ℕ) (d : Data T C) : Unlocker C → Outcome (Lock C) (Place C) (Data T C)
  | .user => ⟨⟨n, .idle⟩, d, .nobody⟩
  | .condWait c acquiredCount =>
    if r ≠ .success then ⟨⟨n, .condFail c⟩, d, .nobody⟩
    else if acquiredCount.toInt < 1 then ⟨⟨n, .failed [.cond c]⟩, d, .nobody⟩
    else
      ⟨⟨n, .condWait c acquiredCount⟩,
        { d with conds := update d.conds c ⟨true, (d.conds c).waitingCount + 1⟩ }, .nobody⟩

def takenDepth (n : ℕ) (r : Result) : ℕ := if r = .success ∨ r = .EOWNERDEAD then n + 1 else n

def afterInternal (n : ℕ) (release : Result → Point C) (wait : Point C) (x : Internal × Data T C) :
    Outcome (Lock C) (Place C) (Data T C) :=
  match x.1 with
  | .ret r => ⟨⟨takenDepth n r, release r⟩, x.2, .nobody⟩
  | .wait => ⟨⟨n, wait⟩, x.2, .nobody⟩
  | .twice => ⟨⟨n, .lockTwice⟩, x.2, .nobody⟩
  | .assertion => ⟨⟨n, .failed [.mutex]⟩, x.2, .nobody⟩

def Unlocker.locks : Unlocker C → List (Lock C)
  | .user => [.mutex]
  | .condWait c _ => [.mutex, .cond c]

def Unlocker.force : Unlocker C → Bool
  | .user => false
  | .condWait _ _ => true

def afterUnlock (n : ℕ) (w : Unlocker C) (x : Unlocked × Data T C) : Outcome (Lock C) (Place C) (Data T C) :=
  match x.1 with
  | .notPermitted => ⟨⟨n, .unlockRelease .EPERM w⟩, x.2, .nobody⟩
  | .kept => ⟨⟨n - 1, .unlockRelease .success w⟩, x.2, .nobody⟩
  | .given => ⟨⟨0, .unlockRelease .success w⟩, x.2, .one .mutex⟩
  | .error => ⟨⟨n, .failed w.locks⟩, x.2, .nobody⟩

def Cond.signalled (c : Cond) : Cond :=
  let waitingCount := c.waitingCount - 1
  ⟨c.waitingMutex && waitingCount != 0, waitingCount⟩

def program : Program T (Lock C) (Lock C) (Place C) (Data T C) (Call C) where
  primitive x :=
    match x.point with
    | .idle | .failed _ => .call
    | .lockAcquire _ | .lockTwice | .trylockAcquire | .consistentAcquire | .unlockAcquire _ => .acquire .mutex
    | .lockRelease _ _ | .trylockRelease _ | .consistentRelease _ | .unlockRelease _ _ | .unlockDefault _ =>
      .release .mutex
    | .lockWait _ => .wait .mutex .mutex
    | .condAcquire c | .signalAcquire c | .broadcastAcquire c => .acquire (.cond c)
    | .condFail c | .condRelease c _ | .signalRelease c | .broadcastRelease c => .release (.cond c)
    | .condWait c _ => .wait (.cond c) (.cond c)
  call t a x d :=
    match x.point, a with
    | .idle, .lock => some (⟨x.depth, .lockAcquire .user⟩, d)
    | .idle, .trylock =>
      some (⟨x.depth, if m.kprMutexDefault then .failed [] else .trylockAcquire⟩, d)
    | .idle, .unlock =>
      if m.kprMutexDefault then if x.depth > 0 then some (⟨0, .unlockDefault .user⟩, d.give) else none
      else some (⟨x.depth, .unlockAcquire .user⟩, d)
    | .idle, .consistent => if m.kprMutexDefault then none else some (⟨x.depth, .consistentAcquire⟩, d)
    | .idle, .condWait c =>
      if m.kprMutexDefault ∧ x.depth = 0 then none else some (⟨x.depth, .condAcquire c⟩, d)
    | .idle, .condSignal c => some (⟨x.depth, .signalAcquire c⟩, d)
    | .idle, .condBroadcast c => some (⟨x.depth, .broadcastAcquire c⟩, d)
    | .idle, .exit =>
      if d.exited t then none else some (⟨x.depth, .idle⟩, { d with exited := update d.exited t true })
    | _, _ => none
  code t x d :=
    match x.point with
    | .lockAcquire w =>
      if m.kprMutexDefault then ⟨⟨x.depth + 1, returnLock .success w⟩, d.take t, .nobody⟩
      else afterInternal x.depth (.lockRelease · w) (.lockWait w) (lockInternal m t true d)
    | .lockWait w => afterInternal x.depth (.lockRelease · w) (.lockWait w) (lockWoken m t d)
    | .lockRelease r w => ⟨⟨x.depth, returnLock r w⟩, d, .nobody⟩
    -- `pthread_mutex_trylock` may not block, so that it never waits
    | .trylockAcquire => afterInternal x.depth .trylockRelease (.lockWait .user) (lockInternal m t false d)
    | .consistentAcquire =>
      ⟨⟨x.depth, .consistentRelease (pthreadMutexConsistent m t d).1⟩, (pthreadMutexConsistent m t d).2, .nobody⟩
    | .unlockAcquire w => afterUnlock x.depth w (kprMutexUnlock m t w.force d)
    | .unlockRelease r w => returnUnlock r x.depth d w
    | .unlockDefault w => returnUnlock .success x.depth d w
    | .condAcquire c =>
      if m.kprMutexDefault then ⟨⟨0, .unlockDefault (.condWait c d.acquired)⟩, d.give, .nobody⟩
      else ⟨⟨x.depth, .unlockAcquire (.condWait c d.acquired)⟩, d, .nobody⟩
    | .condWait c n => ⟨⟨x.depth, .condRelease c n⟩, d, .nobody⟩
    | .condRelease _ n => ⟨⟨x.depth, .lockAcquire (.condWait n)⟩, d, .nobody⟩
    | .signalAcquire c =>
      ⟨⟨x.depth, .signalRelease c⟩, { d with conds := update d.conds c (d.conds c).signalled }, .one (.cond c)⟩
    | .broadcastAcquire c =>
      ⟨⟨x.depth, .broadcastRelease c⟩, { d with conds := update d.conds c ⟨false, 0⟩ }, .all (.cond c)⟩
    | .trylockRelease _ | .consistentRelease _ | .condFail _ | .signalRelease _ | .broadcastRelease _ =>
      ⟨⟨x.depth, .idle⟩, d, .nobody⟩
    | .idle | .failed _ | .lockTwice => ⟨x, d, .nobody⟩

end

def initial : State T (Lock C) (Place C) (Data T C) :=
  ⟨⟨0, none, .normal, fun _ => false, fun _ => ⟨false, 0⟩⟩, fun _ => none, fun _ => .running ⟨0, .idle⟩⟩

end Pthread.Mutex
