import PorSe.Lib.Concurrent
import PorSe.Lib.Monitor

/-! A default mutex and a condition variable, as the barrier and the read-write lock use them
(`pthread_mutex_lock`, `kpr_mutex_unlock` and `pthread_cond_wait`, `pthread_cond_broadcast` of
`runtime/POSIX/pthread/{mutex,cond}.c`). They implement a monitor. -/

namespace Pthread.CondMonitor
open Function
open Concurrent
variable {T K R S A : Type*}

inductive Lock
  | mutex
  | cond
  deriving DecidableEq

inductive Point (K R : Type*)
  | idle
  | lock (k : K)
  | condWaitLock (k : K)
  | condWaitUnlock (k : K) (acquiredCount : ℤ)
  | condWait (k : K) (acquiredCount : ℤ)
  | condWaitRelease (k : K) (acquiredCount : ℤ)
  | relock (k : K) (acquiredCount : ℤ)
  | relockAgain (k : K) (acquiredCount : ℤ)
  | broadcastLock (k : K)
  | broadcastRelease (k : K)
  | unlock (r : R)
  | failed

/-- The mutex and the condition variable, `waitingMutex` saying whether it is set. -/
structure Shared (T S : Type*) where
  acquired : ℤ
  holdingThread : Option T
  waitingMutex : Bool
  waitingCount : ℕ
  client : S

namespace Shared

def mutexLock (t : T) (d : Shared T S) : Shared T S := { d with acquired := 1, holdingThread := some t }

def mutexUnlock (d : Shared T S) : Shared T S := { d with acquired := 0, holdingThread := none }

end Shared

variable (M : Monitor.Client T K R S A)

variable (t : T)

variable (k : K)

variable (d : Shared T S)

def critical : Outcome Unit (Point K R) (Shared T S) :=
  match M.code t k d.client with
  | (.wait k', c) => ⟨.condWaitLock k', { d with client := c }, .nobody⟩
  | (.broadcast k', c) => ⟨.broadcastLock k', { d with client := c }, .nobody⟩
  | (.leave r, c) => ⟨.unlock r, { d with client := c }.mutexUnlock, .nobody⟩

def relocked (acquiredCount : ℤ) (d : Shared T S) : Outcome Unit (Point K R) (Shared T S) :=
  if acquiredCount - 1 > 0 then ⟨.relockAgain k (acquiredCount - 1), d, .nobody⟩ else critical M t k d

def program : Program T Lock Unit (Point K R) (Shared T S) A where
  primitive
    | .idle | .failed => .call
    | .lock _ | .relock _ _ | .relockAgain _ _ => .acquire .mutex
    | .condWaitLock _ | .broadcastLock _ => .acquire .cond
    | .condWaitUnlock _ _ | .unlock _ => .release .mutex
    | .condWait _ _ => .wait () .cond
    | .condWaitRelease _ _ | .broadcastRelease _ => .release .cond
  call t a
    | .idle, d => (M.enter t a d.client).map fun k => (.lock k, d)
    | _, _ => none
  code t
    | .lock k, d => critical M t k (d.mutexLock t)
    | .condWaitLock k, d => ⟨.condWaitUnlock k d.acquired, d.mutexUnlock, .nobody⟩
    | .condWaitUnlock k n, d =>
      if n ≥ 1 then ⟨.condWait k n, { d with waitingMutex := true, waitingCount := d.waitingCount + 1 }, .nobody⟩
      else ⟨.failed, d, .nobody⟩
    | .condWait k n, d => ⟨.condWaitRelease k n, d, .nobody⟩
    | .condWaitRelease k n, d => ⟨.relock k n, d, .nobody⟩
    | .relock k n, d | .relockAgain k n, d => relocked M t k n (d.mutexLock t)
    | .broadcastLock k, d => ⟨.broadcastRelease k, { d with waitingCount := 0, waitingMutex := false }, .all ()⟩
    | .broadcastRelease k, d => critical M t k d
    | .unlock _, d => ⟨.idle, d, .nobody⟩
    | p, d => ⟨p, d, .nobody⟩

def initial (c : S) : State T Lock (Point K R) (Shared T S) :=
  ⟨⟨0, none, false, 0, c⟩, fun _ => none, fun _ => .running .idle⟩

def owns : Point K R → Lock → Prop
  | .condWaitLock _, .mutex | .condWaitUnlock _ _, .mutex | .relockAgain _ _, .mutex | .broadcastLock _, .mutex
  | .broadcastRelease _, .mutex | .unlock _, .mutex => True
  | .condWaitUnlock _ _, .cond | .condWait _ _, .cond | .condWaitRelease _ _, .cond | .broadcastRelease _, .cond
  | .failed, .cond => True
  | _, _ => False

variable {M}

lemma critical_notice : (critical M t k d).notice = .nobody := by
  rw [critical]
  split <;> rfl

lemma critical_client : (critical M t k d).data.client = (M.code t k d.client).2 := by
  rw [critical]
  obtain ⟨a, c⟩ := M.code t k d.client
  cases a <;> rfl

lemma owns_critical (l : Lock) : owns (critical M t k d).point l ↔ l = .mutex := by
  rw [critical]
  split <;> cases l <;> simp [owns]

lemma owns_relocked (n : ℤ) (d : Shared T S) (l : Lock) : owns (relocked M t k n d).point l ↔ l = .mutex := by
  rw [relocked]
  split_ifs
  · cases l <;> simp [owns]
  · exact owns_critical t k d l

lemma discipline : (program M).Discipline (fun _ => True) owns where
  valid_call _ _ := trivial
  valid_code _ := trivial
  call := by
    rintro t a p d r _ hr k
    cases p with
    | idle =>
      obtain ⟨j, _, rfl⟩ := Option.map_eq_some_iff.mp hr
      cases k <;> exact Iff.rfl
    | _ => exact nomatch hr
  acquire := by
    rintro t p d l _ hprim k
    cases p <;> cases hprim
    · change owns (critical M t _ (d.mutexLock t)).point k ↔ _
      rw [owns_critical]
      cases k <;> simp [owns]
    · cases k <;> simp [program, owns]
    · change owns (relocked M t _ _ (d.mutexLock t)).point k ↔ _
      rw [owns_relocked]
      cases k <;> simp [owns]
    · change owns (relocked M t _ _ (d.mutexLock t)).point k ↔ _
      rw [owns_relocked]
      cases k <;> simp [owns]
    · cases k <;> simp [program, owns]
  release := by
    rintro t p d l _ hprim k
    cases p <;> cases hprim
    · rename_i k' n
      change owns (ite (n ≥ 1) _ _ : Outcome Unit (Point K R) (Shared T S)).point k ↔ _
      split_ifs <;> cases k <;> simp [owns]
    · cases k <;> simp [program, owns]
    · change owns (critical M t _ d).point k ↔ _
      rw [owns_critical]
      cases k <;> simp [owns]
    · cases k <;> simp [program, owns]
  wait := by
    rintro p c l _ hprim
    cases p <;> cases hprim
    trivial
  wake := by
    rintro t p d c l _ hprim k
    cases p <;> cases hprim
    cases k <;> exact Iff.rfl

lemma owned_initial (c : S) : (program M).Owned owns (initial c) := by
  intro l t
  cases l <;> exact ⟨fun h => (nomatch h), fun h => h.elim⟩

/-! ## The count of `pthread_cond_wait`

A default mutex is acquired once, so that the assertion holds and the mutex is locked once again. -/

def CountedAt : Point K R → Prop
  | .condWaitLock _ | .broadcastLock _ | .broadcastRelease _ => d.acquired = 1
  | .condWaitUnlock _ n | .condWait _ n | .condWaitRelease _ n | .relock _ n => n = 1
  | .relockAgain _ _ | .failed => False
  | .idle | .lock _ | .unlock _ => True

def Counted (s : State T Lock (Point K R) (Shared T S)) : Prop := ∀ u, CountedAt s.data (s.thread u).point

variable {d : Shared T S} {p : Point K R} {st : Status (Point K R)} {holder : Lock → Option T} {k : K}

lemma CountedAt.critical (k : K) (h : d.acquired = 1) : CountedAt (critical M t k d).data (critical M t k d).point := by
  rw [CondMonitor.critical]
  split
  · exact h
  · exact h
  · trivial

lemma CountedAt.change {d' : Shared T S} (h : CountedAt d p) (hd : d'.acquired = d.acquired ∨ ¬ owns p .mutex) :
    CountedAt d' p := by
  obtain hd | hp := hd
  · cases p with
    | condWaitLock | broadcastLock | broadcastRelease => exact hd.trans h
    | _ => exact h
  · cases p with
    | condWaitLock | broadcastLock | broadcastRelease => exact absurd trivial hp
    | _ => exact h

lemma holds_of_owns (h : owns st.point .mutex) : (program M).holds owns st .mutex := by
  cases st with
  | running p => exact h
  | waiting p | notified p =>
    refine ⟨h, fun c hc => ?_⟩
    cases p <;> cases hc

variable [DecidableEq T] {s s' : State T Lock (Point K R) (Shared T S)} {t : T}

lemma Counted.change (h : Counted s) {thread : T → Status (Point K R)}
    (hpoint : ∀ u, (thread u).point = (s.thread u).point) (ht : CountedAt d st.point)
    (hd : ∀ u, u ≠ t → d.acquired = s.data.acquired ∨ ¬ owns (s.thread u).point .mutex) :
    Counted ⟨d, holder, update thread t st⟩ := by
  intro u
  change CountedAt d (update thread t st u).point
  by_cases hu : u = t
  · rw [hu, update_self]
    exact ht
  · rw [update_of_ne hu, hpoint]
    exact (h u).change (hd u hu)

lemma Counted.step (h : Counted s) (howned : (program M).Owned owns s) (hstep : (program M).Step s t s') :
    Counted s' := by
  have hfree : s.holder .mutex = none → ∀ u, ¬ owns (s.thread u).point .mutex := fun hfree u hu =>
    howned.not_holds hfree (holds_of_owns hu)
  have hheld : owns (s.thread t).point .mutex → ∀ u, u ≠ t → ¬ owns (s.thread u).point .mutex := fun ht u hu ho =>
    hu (howned.unique (holds_of_owns ho) (holds_of_owns ht))
  have hcounted := h t
  cases hstep with
  | @call p a r hp hprim hr =>
    cases p <;> cases hprim
    · obtain ⟨k, _, rfl⟩ := Option.map_eq_some_iff.mp hr
      exact h.change (fun _ => rfl) trivial fun _ _ => .inl rfl
    · exact nomatch hr
  | @acquire p l _ hp hprim hl hn =>
    rw [hp] at hcounted hheld
    cases p with
    | lock k =>
      cases hprim
      exact h.change hn.point (.critical t k rfl) fun u _ => .inr (hfree hl u)
    | condWaitLock k => exact h.change hn.point hcounted fun u hu => .inr (hheld trivial u hu)
    | relock k n =>
      cases hprim
      obtain rfl : n = 1 := hcounted
      exact h.change hn.point (.critical t k rfl) fun u _ => .inr (hfree hl u)
    | relockAgain k n => exact hcounted.elim
    | broadcastLock k => exact h.change hn.point hcounted fun _ _ => .inl rfl
    | _ => cases hprim
  | @release p l _ hp hprim hl hn =>
    rw [hp] at hcounted hheld
    cases p with
    | condWaitUnlock k n =>
      obtain rfl : n = 1 := hcounted
      exact h.change hn.point rfl fun _ _ => .inl rfl
    | condWaitRelease k n => exact h.change hn.point hcounted fun _ _ => .inl rfl
    | broadcastRelease k => exact h.change hn.point (.critical t k hcounted) fun u hu => .inr (hheld trivial u hu)
    | unlock r => exact h.change hn.point trivial fun _ _ => .inl rfl
    | _ => cases hprim
  | @wait p c l hp hprim hl =>
    rw [hp] at hcounted
    exact h.change (fun _ => rfl) hcounted fun _ _ => .inl rfl
  | @wake p c l _ hp hprim hl hn =>
    rw [hp] at hcounted
    cases p with
    | condWait k n => exact h.change hn.point hcounted fun _ _ => .inl rfl
    | _ => cases hprim

/-! ## The monitor -/

def pointStage : Point K R → Monitor.Stage K
  | .idle | .unlock _ | .failed => .outside
  | .lock k | .condWaitRelease k _ | .relock k _ | .relockAgain k _ => .ready k
  | .condWaitLock k | .condWaitUnlock k _ | .condWait k _ => .waiting k
  | .broadcastLock k => .announcing k
  | .broadcastRelease k => .continuing k

def stage : Status (Point K R) → Monitor.Stage K
  | .running p => pointStage p
  | .waiting (.condWait k _) => .waiting k
  | .notified (.condWait k _) => .ready k
  | .waiting _ | .notified _ => .outside

def monitor (s : State T Lock (Point K R) (Shared T S)) : Monitor.State T K S :=
  ⟨s.data.client, fun u => stage (s.thread u)⟩

omit [DecidableEq T] in
lemma pointStage_critical (t : T) (k : K) (d : Shared T S) :
    pointStage (critical M t k d).point = .after (M.code t k d.client).1 := by
  rw [critical]
  obtain ⟨a, c⟩ := M.code t k d.client
  cases a <;> rfl

lemma monitor_update (d : Shared T S) (holder : Lock → Option T) (thread : T → Status (Point K R))
    (st : Status (Point K R)) :
    monitor ⟨d, holder, update thread t st⟩ = ⟨d.client, update (fun u => stage (thread u)) t (stage st)⟩ := by
  refine congrArg (Monitor.State.mk d.client) (funext fun u => ?_)
  exact apply_update (fun _ => stage) thread t st u

lemma Step.stay {st' : Status (Point K R)} (ht : s.thread t = st') (hd : d.client = s.data.client)
    (hst : stage st = stage st') : M.Step (monitor s) t (monitor ⟨d, holder, update s.thread t st⟩) := by
  have heq : monitor ⟨d, holder, update s.thread t st⟩ = monitor s := by
    rw [monitor_update, hst, ← ht, hd, update_eq_self t fun u => stage (s.thread u)]
    rfl
  rw [heq]
  exact .stay

lemma isInside_owns (h : (stage st).isInside) : owns st.point .mutex := by
  cases st with
  | running p => cases p <;> first | exact h.elim | trivial
  | waiting p | notified p => cases p <;> exact h.elim

lemma Step.run (howned : (program M).Owned owns s) (hfree : s.holder .mutex = none)
    (ht : s.thread t = .running p) (hp : pointStage p = .ready k) (hd : d.client = s.data.client) :
    M.Step (monitor s) t (monitor ⟨(critical M t k d).data, holder,
      update s.thread t (.running (critical M t k d).point)⟩) := by
  rw [monitor_update, critical_client]
  change M.Step (monitor s) t ⟨_, update (monitor s).stage t (pointStage (critical M t k d).point)⟩
  rw [pointStage_critical, hd]
  refine .run ?_ fun u hu => howned.not_holds hfree (holds_of_owns (isInside_owns hu))
  change stage (s.thread t) = _
  rw [ht]
  exact hp

omit [DecidableEq T] in
lemma stage_notify (hmutex : ¬ owns st.point .mutex) (hcond : ¬ (program M).holds owns st .cond) :
    stage ((program M).notify () st) = (stage st).wake := by
  cases st with
  | running p =>
    cases p with
    | condWaitLock | condWaitUnlock => exact absurd trivial hmutex
    | condWait => exact absurd trivial hcond
    | _ => rfl
  | waiting p | notified p => cases p <;> rfl

lemma Step.broadcast (howned : (program M).Owned owns s) (ht : s.thread t = .running (.broadcastLock k))
    (hfree : s.holder .cond = none) (hd : d.client = s.data.client) :
    M.Step (monitor s) t (monitor ⟨d, holder,
      update (fun u => (program M).notify () (s.thread u)) t (.running (.broadcastRelease k))⟩) := by
  rw [monitor_update, hd]
  have hstage : update (fun u => stage ((program M).notify () (s.thread u))) t (.continuing k) =
      update (fun u => ((monitor s).stage u).wake) t (.continuing k) := by
    funext u
    by_cases hu : u = t
    · rw [hu, update_self, update_self]
    · rw [update_of_ne hu, update_of_ne hu]
      refine stage_notify (fun ho => hu ?_) (howned.not_holds hfree)
      refine howned.unique (holds_of_owns ho) ?_
      rw [ht]
      trivial
  change M.Step (monitor s) t ⟨_, update _ t (.continuing k)⟩
  rw [hstage]
  refine .broadcast ?_
  change stage (s.thread t) = _
  rw [ht]
  rfl

lemma simulates (howned : (program M).Owned owns s) (hcounted : Counted s) (hstep : (program M).Step s t s') :
    M.Step (monitor s) t (monitor s') := by
  have hquiet : ∀ {k d thread}, (program M).Notifies s.thread (critical M t k d).notice thread → thread = s.thread := by
    intro k d thread hn
    rwa [critical_notice, Program.notifies_nobody] at hn
  have hcounted := hcounted t
  cases hstep with
  | @call p a r hp hprim hr =>
    cases p with
    | idle =>
      obtain ⟨k, hk, rfl⟩ := Option.map_eq_some_iff.mp hr
      rw [monitor_update]
      refine .enter ?_ hk
      change stage (s.thread t) = _
      rw [hp]
      rfl
    | failed => exact nomatch hr
    | _ => cases hprim
  | @acquire p l thread hp hprim hl hn =>
    rw [hp] at hcounted
    cases p with
    | lock k =>
      cases hprim
      obtain rfl := hquiet hn
      exact Step.run howned hl hp rfl rfl
    | condWaitLock k =>
      cases hn
      exact Step.stay hp rfl rfl
    | relock k n =>
      cases hprim
      obtain rfl : n = 1 := hcounted
      obtain rfl := hquiet hn
      exact Step.run howned hl hp rfl rfl
    | relockAgain k n => exact hcounted.elim
    | broadcastLock k =>
      cases hprim
      cases hn
      exact Step.broadcast howned hp hl rfl
    | _ => cases hprim
  | @release p l thread hp hprim hl hn =>
    rw [hp] at hcounted
    cases p with
    | condWaitUnlock k n =>
      obtain rfl : n = 1 := hcounted
      cases hn
      exact Step.stay hp rfl rfl
    | condWaitRelease k n =>
      cases hn
      exact Step.stay hp rfl rfl
    | broadcastRelease k =>
      obtain rfl := hquiet hn
      change M.Step (monitor s) t (monitor ⟨(critical M t k s.data).data, _,
        update s.thread t (.running (critical M t k s.data).point)⟩)
      rw [monitor_update, critical_client]
      change M.Step (monitor s) t ⟨_, update _ t (pointStage (critical M t k s.data).point)⟩
      rw [pointStage_critical]
      refine .goOn ?_
      change stage (s.thread t) = _
      rw [hp]
      rfl
    | unlock r =>
      cases hn
      exact Step.stay hp rfl rfl
    | _ => cases hprim
  | @wait p c l hp hprim hl =>
    cases p with
    | condWait k n => exact Step.stay hp rfl rfl
    | _ => cases hprim
  | @wake p c l thread hp hprim hl hn =>
    cases p with
    | condWait k n =>
      cases hn
      exact Step.stay hp rfl rfl
    | _ => cases hprim

omit [DecidableEq T] in
lemma Counted.initial (c : S) : Counted (initial c : State T Lock (Point K R) (Shared T S)) := fun _ => trivial

lemma monitor_reachable {c : S} (h : (program M).Reachable (initial c) s) :
    M.Reachable (monitor (initial c : State T Lock (Point K R) (Shared T S))) (monitor s) := by
  have hcounted : ∀ {s}, (program M).Reachable (initial c) s → Counted s := fun h =>
    Program.Reaches.invariant h (.initial c) fun s t s' hreach ih hstep _ =>
      ih.step (hreach.owned discipline (fun _ => trivial) (owned_initial c)) hstep
  refine Program.Reaches.invariant (I := fun s => M.Reachable _ (monitor s)) h .refl fun s t s' hreach ih hstep _ => ?_
  exact .step ih (simulates (hreach.owned discipline (fun _ => trivial) (owned_initial c)) (hcounted hreach) hstep)

end Pthread.CondMonitor
