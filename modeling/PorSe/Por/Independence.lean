import PorSe.Por.Constructors

/-! The dependency relation between events. Two events are dependent when they belong
to one thread or when they operate on the same lock, condition variable or thread in
a way that does not commute. -/

namespace Por
namespace Event
variable {D : Type}

def isThreadEvent (e : Event D) : Bool :=
  e.kind ∈ [Kind.threadCreate, .threadExit, .threadInit, .threadJoin]

variable (e other : Event D)

def threadIsIndependentOf : Bool :=
  match e.kind, other.kind with
  | .threadCreate, .threadInit => e.createdTid ≠ other.tid
  | .threadExit, .threadJoin => e.tid ≠ other.joinedThread
  | .threadJoin, .threadJoin => e.joinedThread ≠ other.joinedThread
  | .threadJoin, .threadExit => e.joinedThread ≠ other.tid
  | .threadInit, .threadCreate => e.tid ≠ other.createdTid
  | _, _ => true

variable (a b : Event D)

def threadIsIndependent : Bool :=
  if a.isThreadEvent then a.threadIsIndependentOf b
  else if b.isThreadEvent then b.threadIsIndependentOf a
  else true

def lockIsIndependent (lockEvent other : Event D) : Bool :=
  if other.lid ≠ 0 then lockEvent.lid ≠ other.lid else true

def isLost (e : Event D) : Bool :=
  match e.kind with
  | .signal => e.signalIsLost
  | .broadcast => e.broadcastIsLost
  | _ => false

def lostNotificationIsIndependent (lost other : Event D) : Bool :=
  if other.kind = .wait2 then true
  else if lost.cid ≠ other.cid then true
  else
    match other.kind with
    | .signal => other.signalIsLost
    | .broadcast => other.broadcastIsLost
    | _ => false

def wait1IsIndependent : Bool :=
  if !e.lockIsIndependent other then false
  else
    match other.kind with
    | .signal =>
      if e.cid ≠ other.cid then true
      else if other.signalIsLost then false
      else e.tid ≠ other.notifiedThread
    | .broadcast | .conditionVariableCreate | .conditionVariableDestroy => e.cid ≠ other.cid
    | _ => true

def wait2IsIndependent : Bool :=
  if !e.lockIsIndependent other then false
  else
    match other.kind with
    | .conditionVariableCreate | .conditionVariableDestroy => e.cid ≠ other.cid
    | .signal => e.cid ≠ other.cid || other.notifiedThread ≠ e.tid
    | .broadcast => e.cid ≠ other.cid || !other.isNotifyingThread e.tid
    | _ => true

def signalIsIndependent : Bool :=
  if e.signalIsLost then e.lostNotificationIsIndependent other
  else
    match other.kind with
    | .wait1 | .wait2 => e.cid ≠ other.cid || e.notifiedThread ≠ other.tid
    | .conditionVariableCreate | .conditionVariableDestroy | .broadcast | .signal => e.cid ≠ other.cid
    | _ => true

def broadcastIsIndependent : Bool :=
  if e.broadcastIsLost then e.lostNotificationIsIndependent other
  else
    match other.kind with
    | .wait2 => e.cid ≠ other.cid || !e.isNotifyingThread other.tid
    | .wait1 | .conditionVariableCreate | .conditionVariableDestroy | .broadcast | .signal =>
      e.cid ≠ other.cid
    | _ => true

def isIndependentOf : Bool :=
  if e.tid = other.tid then false
  else if e.kind = .localEvent ∨ other.kind = .localEvent then true
  else if e.kind = .programInit ∨ other.kind = .programInit then false
  else if !threadIsIndependent e other then false
  else
    match e.kind with
    | .lockCreate | .lockAcquire | .lockRelease | .lockDestroy => e.lockIsIndependent other
    | .wait1 => e.wait1IsIndependent other
    | .wait2 => e.wait2IsIndependent other
    | .signal => e.signalIsIndependent other
    | .broadcast => e.broadcastIsIndependent other
    | .conditionVariableCreate | .conditionVariableDestroy => e.cid = 0 || e.cid ≠ other.cid
    | .threadCreate | .threadInit | .threadExit | .threadJoin => threadIsIndependent e other
    -- unreachable, both kinds are excluded above
    | .localEvent | .programInit => false

/-! ## The relation as a table -/

/-- The pairs of operations on one condition variable that do not commute. -/
def condDependent : Bool :=
  match a.kind, b.kind with
  | .wait1, .signal => b.signalIsLost || b.notifiedThread = a.tid
  | .signal, .wait1 => a.signalIsLost || a.notifiedThread = b.tid
  | .wait1, .broadcast | .broadcast, .wait1 => true
  | .wait2, .signal => b.notifiedThread = a.tid
  | .signal, .wait2 => a.notifiedThread = b.tid
  | .wait2, .broadcast => b.isNotifyingThread a.tid
  | .broadcast, .wait2 => a.isNotifyingThread b.tid
  | .signal, .signal | .signal, .broadcast | .broadcast, .signal | .broadcast, .broadcast =>
    !(a.isLost && b.isLost)
  | .conditionVariableCreate, _ | .conditionVariableDestroy, _ | _, .conditionVariableCreate
  | _, .conditionVariableDestroy => true
  | _, _ => false

variable {e : Event D}

lemma lid_eq_zero (h : e.kind ∉ [Kind.lockCreate, .lockDestroy, .lockAcquire, .lockRelease, .wait1, .wait2]) :
    e.lid = 0 := by
  obtain ⟨t, l, ps⟩ := e
  cases l <;> simp_all []

def lockHeadKinds : List Kind := [.lockCreate, .lockAcquire, .lockRelease, .wait1, .wait2]

lemma lid_ne_zero [DecidableEq D] (hc : e.checks = true) (h : e.kind ∈ lockHeadKinds) : e.lid ≠ 0 := by
  obtain ⟨t, l, ps⟩ := e
  cases l <;> simp_all [Label.lid, checks, lockHeadKinds]

lemma mem_lockHeadKinds (hl : e.lid ≠ 0) (hd : e.kind ≠ .lockDestroy) : e.kind ∈ lockHeadKinds := by
  obtain ⟨t, l, ps⟩ := e
  cases l <;> simp_all [Label.lid, lockHeadKinds]

def condKinds : List Kind := [.conditionVariableCreate, .conditionVariableDestroy, .wait1, .wait2, .signal, .broadcast]

lemma cid_eq_zero (h : e.kind ∉ condKinds) : e.cid = 0 := by
  obtain ⟨t, l, ps⟩ := e
  cases l <;> simp_all [Label.cid, condKinds]

lemma cid_ne_zero [DecidableEq D] (hc : e.checks = true) (h : e.kind ∈ condKinds) : e.cid ≠ 0 := by
  obtain ⟨t, l, ps⟩ := e
  cases l <;> simp_all [Label.cid, checks, condKinds]

lemma notifiedThread_of_lost (h : e.signalIsLost = true) : e.notifiedThread = .empty := by
  unfold signalIsLost at h
  unfold notifiedThread
  split <;> simp_all

lemma isNotifyingThread_of_lost (h : e.broadcastIsLost = true) (t : ThreadId) : e.isNotifyingThread t = false := by
  simp [isNotifyingThread, broadcastWaitPredecessors, show e.numNotified = 0 by simpa [broadcastIsLost] using h]

lemma signalIsLost_iff : e.signalIsLost = true ↔ e.signalWaitPredecessor = none := by
  unfold signalIsLost signalWaitPredecessor
  split <;> simp

lemma broadcastIsLost_iff : e.broadcastIsLost = true ↔ e.broadcastWaitPredecessors = [] := by
  have hlen : e.numNotified ≤ (e.preds.drop 1).length := List.length_filter_le _ _
  rw [broadcastIsLost, decide_eq_true_eq, broadcastWaitPredecessors, ← List.length_eq_zero_iff, List.length_take,
    Nat.min_eq_left hlen]

lemma isLost_iff : e.isLost = true ↔ (e.kind = .signal ∨ e.kind = .broadcast) ∧ e.waitPredecessors = [] := by
  obtain ⟨t, l, ps⟩ := e
  cases l <;> simp [isLost, waitPredecessors, signalIsLost_iff, broadcastIsLost_iff]

lemma lockDependent_iff {a b : Event D} : a.lockIsIndependent b = false ↔ a.lid = b.lid ∧ a.lid ≠ 0 := by
  by_cases h : a.lid = b.lid <;> simp [lockIsIndependent, h]

def SameLock : Prop := a.lid = b.lid ∧ a.lid ≠ 0

def CondDependent : Prop := a.cid = b.cid ∧ a.cid ≠ 0 ∧ a.condDependent b = true

lemma condDependent_comm : a.condDependent b = b.condDependent a := by
  cases hka : a.kind <;> cases hkb : b.kind <;> simp [condDependent, hka, hkb, Bool.and_comm]

lemma threadIsIndependent_comm : threadIsIndependent a b = threadIsIndependent b a := by
  cases hka : a.kind <;> cases hkb : b.kind <;>
    simp [threadIsIndependent, isThreadEvent, threadIsIndependentOf, hka, hkb, eq_comm]

section
variable [DecidableEq D] {a b : Event D}

lemma tid_ne_empty (h : a.checks = true) (hp : a.kind ≠ .programInit) (hi : a.kind ≠ .threadInit) : a.tid ≠ .empty := by
  obtain ⟨p, -, hpt, _, -⟩ := threadPred_of_checks h hp hi
  rwa [← hpt]

section
variable (ha : a.checks = true)
include ha

lemma wait1IsIndependent_eq_false (hk : a.kind = .wait1) :
    a.wait1IsIndependent b = false ↔ SameLock a b ∨ CondDependent a b := by
  have hc : a.cid ≠ 0 := cid_ne_zero ha (by simp [hk, condKinds])
  by_cases hl : SameLock a b
  · simp [wait1IsIndependent, lockDependent_iff.mpr hl, hl]
  · have h : a.lockIsIndependent b = true := by simpa using mt lockDependent_iff.mp hl
    simp only [wait1IsIndependent]
    cases hkb : b.kind <;> simp_all [CondDependent, condDependent]
    grind

lemma wait2IsIndependent_eq_false (hk : a.kind = .wait2) :
    a.wait2IsIndependent b = false ↔ SameLock a b ∨ CondDependent a b := by
  have hc : a.cid ≠ 0 := cid_ne_zero ha (by simp [hk, condKinds])
  by_cases hl : SameLock a b
  · simp [wait2IsIndependent, lockDependent_iff.mpr hl, hl]
  · have h : a.lockIsIndependent b = true := by simpa using mt lockDependent_iff.mp hl
    simp only [wait2IsIndependent]
    cases hkb : b.kind <;> simp_all [CondDependent, condDependent]

lemma signalIsIndependent_eq_false (hb : b.checks = true) (hk : a.kind = .signal) :
    a.signalIsIndependent b = false ↔ SameLock a b ∨ CondDependent a b := by
  have hc : a.cid ≠ 0 := cid_ne_zero ha (by simp [hk, condKinds])
  have hla : a.lid = 0 := lid_eq_zero (by simp [hk])
  have hcb := @cid_eq_zero D b
  have htb := tid_ne_empty hb
  have hlost := @notifiedThread_of_lost D a
  cases hl : a.signalIsLost <;> cases hkb : b.kind <;>
    simp_all [signalIsIndependent, lostNotificationIsIndependent, SameLock, CondDependent,
      condDependent, condKinds, isLost]
  exact fun _ h => htb h.symm

lemma broadcastIsIndependent_eq_false (hk : a.kind = .broadcast) :
    a.broadcastIsIndependent b = false ↔ SameLock a b ∨ CondDependent a b := by
  have hc : a.cid ≠ 0 := cid_ne_zero ha (by simp [hk, condKinds])
  have hla : a.lid = 0 := lid_eq_zero (by simp [hk])
  have hcb := @cid_eq_zero D b
  have hlost := @isNotifyingThread_of_lost D a
  cases hl : a.broadcastIsLost <;> cases hkb : b.kind <;>
    simp_all [broadcastIsIndependent, lostNotificationIsIndependent, SameLock, CondDependent,
      condDependent, condKinds, isLost]

lemma dependent_iff (hb : b.checks = true) :
    a.isIndependentOf b = false ↔ a.tid = b.tid ∨ (a.kind ≠ .localEvent ∧ b.kind ≠ .localEvent ∧
      (a.kind = .programInit ∨ b.kind = .programInit ∨ threadIsIndependent a b = false ∨
        SameLock a b ∨ CondDependent a b)) := by
  by_cases ht : a.tid = b.tid
  · simp [isIndependentOf, ht]
  by_cases hl : a.kind = .localEvent ∨ b.kind = .localEvent
  · rcases hl with hl | hl <;> simp [isIndependentOf, hl]
  by_cases hp : a.kind = .programInit ∨ b.kind = .programInit
  · have : a.isIndependentOf b = false := by simp [isIndependentOf, hl, hp]
    rw [not_or] at hl
    simp only [this, true_iff]
    exact .inr ⟨hl.1, hl.2, or_assoc.mp (.inl hp)⟩
  cases hth : threadIsIndependent a b with
  | false => simp [isIndependentOf, ht, hth]
  | true =>
    suffices h : a.isIndependentOf b = false ↔ SameLock a b ∨ CondDependent a b by
      rw [h]
      simp [ht, not_or.mp hl, not_or.mp hp]
    simp only [isIndependentOf, ht, hl, hp, hth]
    rw [not_or] at hl hp
    have hca := @cid_eq_zero D a
    cases hk : a.kind with
    | lockCreate | lockDestroy | lockAcquire | lockRelease =>
      simp [lockDependent_iff, SameLock, CondDependent, hca (by simp [hk, condKinds])]
    | threadCreate | threadJoin | threadInit | threadExit =>
      simp [SameLock, CondDependent, hca (by simp [hk, condKinds]), lid_eq_zero (e := a) (by simp [hk])]
    | localEvent => exact absurd hk hl.1
    | programInit => exact absurd hk hp.1
    | wait1 => exact wait1IsIndependent_eq_false ha hk
    | wait2 => exact wait2IsIndependent_eq_false ha hk
    | signal => exact signalIsIndependent_eq_false ha hb hk
    | broadcast => exact broadcastIsIndependent_eq_false ha hk
    | conditionVariableCreate | conditionVariableDestroy =>
      simp [SameLock, CondDependent, condDependent, hk, lid_eq_zero (e := a) (by simp [hk])]
      tauto

lemma isIndependentOf_comm (hb : b.checks = true) : a.isIndependentOf b = b.isIndependentOf a := by
  have h : a.isIndependentOf b = false ↔ b.isIndependentOf a = false := by
    rw [dependent_iff ha hb, dependent_iff hb ha, threadIsIndependent_comm a b]
    unfold SameLock CondDependent
    rw [condDependent_comm a b]
    grind
  cases hab : a.isIndependentOf b <;> simp_all

end

/-- The tests of the classes agree in both directions on what makes two accepted events dependent. -/
theorem isIndependentOf_exact (ha : a.checks = true) (hb : b.checks = true) :
    a.isIndependentOf b = b.isIndependentOf a ∧ (a.isIndependentOf b = false ↔
      a.tid = b.tid ∨ (a.kind ≠ .localEvent ∧ b.kind ≠ .localEvent ∧ (a.kind = .programInit ∨ b.kind = .programInit ∨
        threadIsIndependent a b = false ∨ SameLock a b ∨ CondDependent a b))) :=
  ⟨isIndependentOf_comm ha hb, dependent_iff ha hb⟩

theorem isIndependentOf_exact_sameLock :
    let start : Event Unit := ⟨.main, .threadInit, [programInit]⟩
    let create : Event Unit := ⟨.main, .threadCreate worker, [start]⟩
    let acquire : Event Unit := ⟨.main, .lockAcquire 1, [create]⟩
    let acquireByWorker : Event Unit := ⟨worker, .lockAcquire 1, [⟨worker, .threadInit, [create]⟩]⟩
    acquire.isIndependentOf acquireByWorker = false ∧
      acquireByWorker.isIndependentOf acquire = false := by
  intro start create acquire acquireByWorker
  obtain ⟨hcomm, hiff⟩ := isIndependentOf_exact (a := acquire) (b := acquireByWorker)
    (by decide) (by decide)
  have hdep : acquire.isIndependentOf acquireByWorker = false :=
    hiff.mpr (.inr ⟨by decide, by decide, .inr (.inr (.inr (.inl ⟨rfl, by decide⟩)))⟩)
  exact ⟨hdep, hcomm ▸ hdep⟩

end
end Event
end Por
