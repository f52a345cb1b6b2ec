import PorSe.Por.Event

/-! The event constructors. Each `alloc` builds the event and answers `none` when one of
the assertions of the constructor fails. -/

namespace Por
open List Event
namespace Event
variable {D : Type}

/-! ## The assertions -/

variable (e : Event D)

def threadPredecessorChecks : Bool :=
  e.threadPredecessor.any fun p =>
    !p.tid.isEmpty && p.tid = e.tid && p.kind ≠ .programInit && p.kind ≠ .threadExit

def threadJoinChecks : Bool :=
  e.joinedThreadPredecessor.any fun p => !p.tid.isEmpty && p.tid ≠ e.tid && p.kind = .threadExit

def threadInitChecks : Bool :=
  e.preds[0]?.any fun p =>
    p.tid ≠ e.tid &&
      (p.kind = .programInit && p.tid.isEmpty || p.kind = .threadCreate && !p.tid.isEmpty)

def lockPredecessorChecks (kinds : List Kind) : Bool :=
  e.lockPredecessor.any fun p => p.kind ∈ kinds && p.lid = e.lid

def holdsLockChecks : Bool :=
  e.lockPredecessorChecks [.lockAcquire, .wait2] && e.lockPredecessor.any fun p => p.tid = e.tid

def lockReleaseAtomicChecks [DecidableEq D] (e : Event D) : Bool :=
  !e.endsAtomicOperation ||
    e.lockPredecessor = e.threadPredecessor && e.lockPredecessor.any fun p => p.kind = .lockAcquire

def conditionVariableDestroyChecks : Bool :=
  e.conditionVariablePredecessors.all fun p =>
    p.kind ∈ [Kind.conditionVariableCreate, .broadcast, .signal, .wait2] && p.cid = e.cid

def wait1Checks : Bool :=
  e.conditionVariablePredecessors.all fun p =>
    p.cid = e.cid &&
      match p.kind with
      | .signal => p.signalIsLost
      | .broadcast => !p.isNotifyingThread e.tid
      | k => k = .conditionVariableCreate

def wait2Checks [DecidableEq D] (e : Event D) : Bool :=
  (e.threadPredecessor.any fun p => !p.tid.isEmpty && p.tid = e.tid && p.kind = .wait1) &&
    e.notifyingPredecessor.any fun p =>
      p.tid ≠ e.tid && p.cid = e.cid &&
        match p.kind with
        | .signal => p.notifiedThread = e.tid && p.signalWaitPredecessor = e.threadPredecessor
        | k =>
          k = .broadcast && p.isNotifyingThread e.tid &&
            e.threadPredecessor.any fun w => w ∈ p.broadcastWaitPredecessors

/-- What precedes a lost notification: those that reached another thread, or the creation of the condition variable. -/
def lostChecks : Bool :=
  e.conditionVariablePredecessors.all fun p =>
    p.cid = e.cid &&
      match p.kind with
      | .signal => !p.signalIsLost && p.notifiedThread ≠ e.tid
      | .broadcast => !p.broadcastIsLost && !p.isNotifyingThread e.tid
      | k => k = .conditionVariableCreate

def signalChecks : Bool :=
  if e.signalIsLost then e.lostChecks
  else e.signalWaitPredecessor.any fun w => !w.tid.isEmpty && w.tid ≠ e.tid && w.cid = e.cid

def broadcastChecks : Bool :=
  (e.broadcastWaitPredecessors.all fun w =>
      w.kind = .wait1 && w.cid = e.cid && !w.tid.isEmpty && w.tid ≠ e.tid) &&
    if e.broadcastIsLost then
      e.lostChecks && (e.conditionVariablePredecessors.filter fun p =>
        p.kind = .conditionVariableCreate).length ≤ 1
    else
      (e.conditionVariablePredecessors.drop e.numNotified).all fun p =>
        p.kind = .signal && p.cid = e.cid && !p.signalIsLost && p.notifiedThread ≠ e.tid &&
          e.broadcastWaitPredecessors.all fun w => p.notifiedThread ≠ w.tid

/-- The size of the `_predecessors` array and the assertions of the constructor. -/
def checks [DecidableEq D] (e : Event D) : Bool :=
  match e.label with
  | .localEvent _ => e.preds.length = 1 && e.threadPredecessorChecks
  | .programInit => e.preds.length = 0 && e.tid.isEmpty
  | .threadCreate t =>
    e.preds.length = 1 && e.threadPredecessorChecks && !t.isEmpty && t ≠ e.tid
  | .threadJoin => e.preds.length = 2 && e.threadPredecessorChecks && e.threadJoinChecks
  | .threadInit => e.preds.length = 1 && e.threadInitChecks
  | .threadExit atomic =>
    e.preds.length = 1 && e.threadPredecessorChecks &&
      (!atomic || e.threadPredecessor.any fun p => p.kind = .lockRelease)
  | .lockCreate l => e.preds.length = 1 && e.threadPredecessorChecks && l ≠ 0
  | .lockDestroy _ =>
    (e.preds.length = 1 || e.preds.length = 2 &&
        e.lockPredecessorChecks [.lockCreate, .lockRelease]) && e.threadPredecessorChecks
  | .lockAcquire l =>
    (e.preds.length = 1 || e.preds.length = 2 &&
        e.lockPredecessorChecks [.lockCreate, .lockRelease, .wait1]) &&
      e.threadPredecessorChecks && l ≠ 0
  | .lockRelease l _ =>
    e.preds.length = 2 && e.threadPredecessorChecks && e.holdsLockChecks && l ≠ 0 &&
      e.lockReleaseAtomicChecks
  | .conditionVariableCreate c => e.preds.length = 1 && e.threadPredecessorChecks && c ≠ 0
  | .conditionVariableDestroy c =>
    1 ≤ e.preds.length && e.threadPredecessorChecks && e.conditionVariableDestroyChecks && c ≠ 0
  | .wait1 c l =>
    2 ≤ e.preds.length && e.threadPredecessorChecks && e.holdsLockChecks && e.wait1Checks &&
      c ≠ 0 && l ≠ 0
  | .wait2 c l =>
    e.preds.length = 3 && e.wait2Checks && e.lockPredecessorChecks [.lockRelease, .wait1] &&
      c ≠ 0 && l ≠ 0
  | .signal c => 1 ≤ e.preds.length && e.threadPredecessorChecks && e.signalChecks && c ≠ 0
  | .broadcast c => 1 ≤ e.preds.length && e.threadPredecessorChecks && e.broadcastChecks && c ≠ 0

def Valid [DecidableEq D] (e : Event D) : Prop := ∀ x ≤ e, x.checks = true

variable {a e p : Event D} {ps : List (Event D)}

def programInit : Event D := mk .empty .programInit []

lemma not_lt_programInit : ¬ a < programInit := fun h =>
  have ⟨_, hp, _⟩ := lt_iff_pred.mp h
  not_mem_nil hp

def singleKinds : List Kind :=
  [.localEvent, .threadCreate, .threadInit, .threadExit, .lockCreate, .conditionVariableCreate]

lemma threadPred_of_tests (h : e.threadPredecessorChecks = true) :
    ∃ p, e.threadPredecessor = some p ∧ p.tid = e.tid ∧ p.tid ≠ .empty ∧
      p.kind ≠ .programInit ∧ p.kind ≠ .threadExit := by
  obtain ⟨p, hp, h⟩ := (Option.any_eq_true _ _).mp h
  simp only [Bool.and_eq_true, decide_eq_true_eq] at h
  obtain ⟨⟨⟨hne, ht⟩, hk⟩, hx⟩ := h
  exact ⟨p, hp, ht, fun h => by simp [ThreadId.isEmpty_iff.mpr h] at hne, hk, hx⟩

lemma preds_eq_cons_of_threadPred (h : e.threadPredecessor = some p) : ∃ ps, e.preds = p :: ps := by
  have h0 : e.preds[0]? = some p := by
    unfold threadPredecessor at h
    split at h
    · simp at h
    · simp at h
    · exact h
  cases hps : e.preds with
  | nil => simp [hps] at h0
  | cons q qs =>
    rw [hps] at h0
    exact ⟨qs, by simpa using h0⟩

lemma kind_ne_of_threadPred (hp : e.threadPredecessor = some p) :
    e.kind ≠ .programInit ∧ e.kind ≠ .threadInit := by
  obtain ⟨t, l, ps⟩ := e
  cases l <;> simp [threadPredecessor] at hp ⊢

/-! ## What the assertions give -/

section
variable [DecidableEq D]

lemma Valid.mono (h : e.Valid) (hae : a ≤ e) : a.Valid :=
  fun x hx => h x (hx.trans hae)

lemma Valid.checks (h : e.Valid) : e.checks = true := h e le_rfl

lemma valid_of_preds (he : e.checks = true) (hp : ∀ p ∈ e.preds, p.Valid) : e.Valid := by
  intro x hx
  rcases hx.eq_or_lt' with rfl | hx
  · exact he
  · obtain ⟨p, hpm, hxp⟩ := lt_iff_pred.mp hx
    exact hp p hpm x hxp

section
variable (h : e.checks = true)
include h

lemma preds_nil_of_checks (hk : e.kind = .programInit) : e.preds = [] := by
  obtain ⟨t, l, ps⟩ := e
  cases l <;> simp_all [checks]

lemma length_preds_single (hk : e.kind ∈ singleKinds) : e.preds.length = 1 := by
  obtain ⟨t, l, ps⟩ := e
  cases l <;> simp_all [checks, singleKinds]

lemma length_preds_of_wait2 (hk : e.kind = .wait2) : e.preds.length = 3 := by
  obtain ⟨t, l, ps⟩ := e
  cases l <;> simp_all [checks]

lemma threadPred_of_checks (hp : e.kind ≠ .programInit)
    (hi : e.kind ≠ .threadInit) :
    ∃ p, e.threadPredecessor = some p ∧ p.tid = e.tid ∧ p.tid ≠ .empty ∧
      p.kind ≠ .programInit ∧ p.kind ≠ .threadExit := by
  by_cases hw : e.kind = .wait2
  · have hc : e.wait2Checks = true := by
      obtain ⟨t, l, ps⟩ := e
      cases l <;> simp_all [checks]
    obtain ⟨p, hp, h⟩ := (Option.any_eq_true _ _).mp (Bool.and_eq_true_iff.mp hc).1
    simp only [Bool.and_eq_true, decide_eq_true_eq] at h
    obtain ⟨⟨hne, ht⟩, hk⟩ := h
    exact ⟨p, hp, ht, fun h => by simp [ThreadId.isEmpty_iff.mpr h] at hne, by simp [hk], by simp [hk]⟩
  · refine threadPred_of_tests ?_
    obtain ⟨t, l, ps⟩ := e
    cases l <;> simp_all [checks]

lemma eq_programInit_of_preds_eq_nil (hp : e.preds = []) : e = programInit := by
  obtain ⟨t, l, ps⟩ := e
  obtain rfl : ps = [] := hp
  cases l <;> simp [checks] at h
  rw [ThreadId.isEmpty_iff.mp h, programInit]

lemma eq_programInit (hk : e.kind = .programInit) : e = programInit :=
  eq_programInit_of_preds_eq_nil h (preds_nil_of_checks h hk)

lemma depth_of_programInit (hk : e.kind = .programInit) : e.depth = 0 := by
  rw [depth_eq, preds_nil_of_checks h hk]
  rfl

lemma of_threadPred (hp : e.threadPredecessor = some p) :
    p.tid = e.tid ∧ p.tid ≠ .empty ∧ p.kind ≠ .programInit ∧ p.kind ≠ .threadExit := by
  obtain ⟨hk, hk'⟩ := kind_ne_of_threadPred hp
  obtain ⟨q, hq, hof⟩ := threadPred_of_checks h hk hk'
  obtain rfl : p = q := Option.some.inj (hp.symm.trans hq)
  exact hof

lemma tid_of_threadPred (hp : e.threadPredecessor = some p) : p.tid = e.tid := (of_threadPred h hp).1

lemma lid_of_lockPred (hp : e.lockPredecessor = some p) : p.lid = e.lid := by
  have hlid : ∀ {ks}, e.lockPredecessorChecks ks = true → p.lid = e.lid := by
    intro ks hks
    obtain ⟨q, hq, hks⟩ := (Option.any_eq_true _ _).mp hks
    obtain rfl : p = q := Option.some.inj (hp.symm.trans hq)
    simp only [Bool.and_eq_true, decide_eq_true_eq] at hks
    exact hks.2
  have hlen : e.kind ≠ .wait2 → 2 ≤ e.preds.length := by
    intro hk
    obtain ⟨t, l, ps⟩ := e
    cases l <;> simp [lockPredecessor] at hp hk ⊢ <;> obtain ⟨hlt, -⟩ := List.getElem?_eq_some_iff.mp hp <;>
      exact hlt
  obtain ⟨t, l, ps⟩ := e
  cases l <;> simp [checks, lockPredecessor, holdsLockChecks] at h hp hlen
  case lockDestroy | lockAcquire => grind
  case lockRelease | wait1 | wait2 => grind

lemma notifying_of_checks {s : Event D}
    (hs : e.notifyingPredecessor = some s) : ∃ w, e.threadPredecessor = some w ∧ w.kind = .wait1 ∧
      w ∈ s.waitPredecessors ∧ s.cid = e.cid ∧ (s.kind = .signal ∨ s.kind = .broadcast) ∧ s.tid ≠ e.tid := by
  have hc : e.wait2Checks = true := by
    obtain ⟨t, l, ps⟩ := e
    cases l <;> simp [checks, notifyingPredecessor] at h hs
    exact h.1.1.1.2
  simp only [wait2Checks, hs, Bool.and_eq_true, Option.any_some, decide_eq_true_eq] at hc
  obtain ⟨hw, ⟨ht, hcid⟩, hn⟩ := hc
  obtain ⟨w, hw, hwk⟩ := (Option.any_eq_true _ _).mp hw
  simp only [Bool.and_eq_true, decide_eq_true_eq] at hwk
  refine ⟨w, hw, hwk.2, ?_⟩
  obtain ⟨ts, ls, ps⟩ := s
  cases ls <;> simp [hw, waitPredecessors] at hn ⊢
  · exact ⟨hn.2, hcid, ht⟩
  · exact ⟨hn.2, hcid, ht⟩

lemma exists_notifyingPred (hk : e.kind = .wait2) : ∃ n, e.notifyingPredecessor = some n := by
  obtain ⟨t, l, ps⟩ := e
  cases l <;> simp at hk
  have hlen : ps.length = 3 := by
    simp only [checks, Bool.and_eq_true, decide_eq_true_eq] at h
    exact h.1.1.1.1
  exact ⟨ps[1], getElem?_eq_getElem (hlen ▸ by omega)⟩

lemma signalChecks_of_checks (hk : e.kind = .signal) : e.signalChecks = true := by
  obtain ⟨t, l, ps⟩ := e
  cases l <;> simp only [kind_mk, Label.kind, reduceCtorEq] at hk
  simp only [checks, Bool.and_eq_true] at h
  exact h.1.2

lemma broadcastChecks_of_checks (hk : e.kind = .broadcast) : e.broadcastChecks = true := by
  obtain ⟨t, l, ps⟩ := e
  cases l <;> simp only [kind_mk, Label.kind, reduceCtorEq] at hk
  simp only [checks, Bool.and_eq_true] at h
  exact h.1.2

lemma cid_of_mem_condPreds (hk : e.kind ≠ .wait2)
    (hp : p ∈ e.conditionVariablePredecessors) : p.cid = e.cid := by
  obtain ⟨t, l, ps⟩ := e
  cases l <;> simp only [conditionVariablePredecessors, not_mem_nil] at hp
  case wait2 => exact absurd rfl hk
  case conditionVariableDestroy c =>
    simp only [checks, conditionVariableDestroyChecks, Bool.and_eq_true, all_eq_true, decide_eq_true_eq] at h
    exact (h.1.2 p hp).2
  case wait1 c l =>
    simp only [checks, wait1Checks, Bool.and_eq_true, all_eq_true, decide_eq_true_eq] at h
    exact (h.1.1.2 p hp).1
  case signal c =>
    simp only [checks, signalChecks, Bool.and_eq_true] at h
    have hs := h.1.2
    split_ifs at hs with hlost
    · simp only [lostChecks, all_eq_true, Bool.and_eq_true, decide_eq_true_eq] at hs
      exact (hs p hp).1
    · obtain ⟨w, hw, hc⟩ := (Option.any_eq_true _ _).mp hs
      obtain ⟨-, q, rfl⟩ := signalWait_iff.mp hw
      simp only [Bool.and_eq_true, decide_eq_true_eq] at hc
      obtain rfl : p = w := by simpa using hp
      exact hc.2
  case broadcast c =>
    simp only [checks, broadcastChecks, Bool.and_eq_true, all_eq_true] at h
    obtain ⟨hws, hs⟩ := h.1.2
    split_ifs at hs with hlost
    · simp only [lostChecks, all_eq_true, Bool.and_eq_true, decide_eq_true_eq] at hs
      exact (hs.1 p hp).1
    · rw [← take_append_drop (numNotified ⟨t, .broadcast c, ps⟩) (ps.drop 1), mem_append] at hp
      rcases hp with hp | hp
      · have := hws p hp
        simp only [decide_eq_true_eq] at this
        exact this.1.1.2
      · simp only [all_eq_true, Bool.and_eq_true, decide_eq_true_eq] at hs
        exact (hs p hp).1.1.1.2

end

lemma programInit_le (h : e.Valid) : programInit ≤ e := by
  induction e using induction with
  | h e ih =>
    cases hp : e.preds with
    | nil => exact (eq_programInit_of_preds_eq_nil h.checks hp).symm.le
    | cons p ps =>
      have hmem : p ∈ e.preds := by simp [hp]
      exact (ih p hmem (h.mono (lt_of_mem_preds hmem).le)).trans (lt_of_mem_preds hmem).le

lemma tid_of_chain {x : Event D} (h : e.Valid) (hx : x ∈ e.threadChain) : x.tid = e.tid := by
  refine (of_mem_chain (P := fun x => x.Valid ∧ x.tid = e.tid) threadPred_mem ?_ ⟨h, rfl⟩ hx).2
  rintro x p ⟨hx, ht⟩ hp
  exact ⟨hx.mono (threadPred_lt hp).le, (tid_of_threadPred hx.checks hp).trans ht⟩

lemma waitPreds_of_checks {n w : Event D} (h : n.checks = true) (hw : w ∈ n.waitPredecessors) :
    w.kind = .wait1 ∧ w.cid = n.cid ∧ w.tid ≠ n.tid ∧ (n.kind = .signal ∧ n.signalWaitPredecessor = some w ∧
      n.notifiedThread = w.tid ∨ n.kind = .broadcast ∧ w ∈ n.broadcastWaitPredecessors ∧
        n.isNotifyingThread w.tid = true) := by
  obtain ⟨t, l, ps⟩ := n
  cases l <;> simp only [waitPredecessors, not_mem_nil, Option.mem_toList] at hw
  case signal c =>
    obtain ⟨hk, p, rfl⟩ := signalWait_iff.mp hw
    simp [checks, signalChecks, signalIsLost, signalWaitPredecessor, notifiedThread, hk] at h ⊢
    exact ⟨of_decide_eq_true h.1.2.2, h.1.2.1.2⟩
  case broadcast c =>
    simp only [checks, broadcastChecks, Bool.and_eq_true, all_eq_true, decide_eq_true_eq] at h
    obtain ⟨⟨⟨hk, hc⟩, -⟩, ht⟩ := h.1.2.1 w hw
    refine ⟨hk, hc, by simpa using ht, .inr ⟨rfl, hw, ?_⟩⟩
    exact any_eq_true.mpr ⟨w, hw, decide_eq_true rfl⟩

end

/-! ## Allocation -/

def alloc [DecidableEq D] (tid : ThreadId) (label : Label D) (preds : List (Event D)) : Option (Event D) :=
  if (mk tid label preds).checks then some (mk tid label preds) else none

/-- `std::sort` orders by addresses, the model by thread and depth. -/
def sortPredecessors (ps : List (Event D)) : List (Event D) :=
  ps.insertionSort fun a b => toLex (a.tid, a.depth) ≤ toLex (b.tid, b.depth)

def groupByKind (ps : List (Event D)) : List (Event D) :=
  (ps.filter fun p => p.kind = .wait1) ++ (ps.filter fun p => p.kind = .signal || p.kind = .broadcast) ++
    ps.filter fun p => p.kind = .conditionVariableCreate

lemma mem_sortPreds : p ∈ sortPredecessors ps ↔ p ∈ ps :=
  (perm_insertionSort _ ps).mem_iff

lemma mem_groupByKind : p ∈ groupByKind ps ↔
    p ∈ ps ∧ p.kind ∈ [Kind.wait1, .signal, .broadcast, .conditionVariableCreate] := by
  simp [groupByKind, ← and_or_left, or_assoc]

section
variable [DecidableEq D]

variable (tid : ThreadId)

variable (threadPred : Event D)

def allocLocal (path : List D) : Option (Event D) :=
  alloc tid (.localEvent path) [threadPred]

def allocThreadCreate (newTid : ThreadId) : Option (Event D) :=
  alloc tid (.threadCreate newTid) [threadPred]

def allocThreadInit (creationPred : Event D) : Option (Event D) :=
  alloc tid .threadInit [creationPred]

def allocThreadJoin (threadPred joinedPred : Event D) : Option (Event D) :=
  alloc tid .threadJoin [threadPred, joinedPred]

def allocThreadExit (atomic : Bool) : Option (Event D) :=
  alloc tid (.threadExit atomic) [threadPred]

variable (lid : LockId)

def allocLockCreate (threadPred : Event D) : Option (Event D) :=
  alloc tid (.lockCreate lid) [threadPred]

def allocLockDestroy (threadPred : Event D) (lockPred : Option (Event D)) : Option (Event D) :=
  alloc tid (.lockDestroy lid) (threadPred :: lockPred.toList)

def allocLockAcquire (threadPred : Event D) (lockPred : Option (Event D)) : Option (Event D) :=
  alloc tid (.lockAcquire lid) (threadPred :: lockPred.toList)

def allocLockRelease (threadPred lockPred : Event D) (atomic : Bool) : Option (Event D) :=
  alloc tid (.lockRelease lid atomic) [threadPred, lockPred]

variable (cid : CondId)

def allocConditionVariableCreate (threadPred : Event D) : Option (Event D) :=
  alloc tid (.conditionVariableCreate cid) [threadPred]

def allocConditionVariableDestroy (threadPred : Event D) (condPreds : List (Event D)) : Option (Event D) :=
  alloc tid (.conditionVariableDestroy cid) (threadPred :: sortPredecessors condPreds)

def allocWait1 (lid : LockId) (threadPred lockPred : Event D) (condPreds : List (Event D)) : Option (Event D) :=
  alloc tid (.wait1 cid lid) (threadPred :: lockPred :: sortPredecessors condPreds)

def allocWait2 (lid : LockId) (threadPred lockPred condPred : Event D) : Option (Event D) :=
  alloc tid (.wait2 cid lid) [threadPred, condPred, lockPred]

def allocSignal (threadPred notifiedWait : Event D) : Option (Event D) :=
  if (mk tid (.signal cid) [threadPred, notifiedWait]).signalIsLost then none
  else alloc tid (.signal cid) [threadPred, notifiedWait]

def allocLostSignal (threadPred : Event D) (condPreds : List (Event D)) : Option (Event D) :=
  if (mk tid (.signal cid) (threadPred :: sortPredecessors condPreds)).signalIsLost then
    alloc tid (.signal cid) (threadPred :: sortPredecessors condPreds)
  else none

def allocBroadcast (threadPred : Event D) (condPreds : List (Event D)) : Option (Event D) :=
  if (groupByKind (sortPredecessors condPreds)).length = condPreds.length then
    alloc tid (.broadcast cid) (threadPred :: groupByKind (sortPredecessors condPreds))
  else none

end
end Event
end Por
