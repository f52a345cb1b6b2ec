import PorSe.Lib.Concurrent

/-! The semaphores of `runtime/POSIX/pthread/semaphore.c`: the value, the number of waiting threads, and
the wakeups. A post or a wait counts as completed from the step on that changes the value. -/

namespace Pthread.Semaphore
open Concurrent Function Bool
variable {T : Type*}

def semValueMax : ℕ := 32767

inductive Errno
  | EAGAIN
  | EOVERFLOW
  deriving DecidableEq

/-- The primitive about to be performed. The unlocks come with the result of the call. -/
inductive Point
  | idle
  | waitLock
  | waitCond
  | waitUnlock
  | trywaitLock
  | trywaitUnlock (result : Option Errno)
  | postLock
  | postUnlock (result : Option Errno)
  deriving DecidableEq

inductive Call
  | semWait
  | semTrywait
  | semPost

structure Data where
  value : ℤ
  waitingCount : ℕ
  posts : ℕ
  waits : ℕ

def semInit (value : ℕ) : Option Data := if value > semValueMax then none else some ⟨value, 0, 0, 0⟩

variable (d : Data)

def kprSemTrywait : Option Errno × Data :=
  if d.value ≤ 0 then (some .EAGAIN, d) else (none, { d with value := d.value - 1, waits := d.waits + 1 })

def semWaitLoop : Outcome Unit Point Data :=
  match kprSemTrywait d with
  | (some _, d) => ⟨.waitCond, { d with waitingCount := d.waitingCount + 1 }, .nobody⟩
  | (none, d) => ⟨.waitUnlock, d, .nobody⟩

def semPostLocked : Outcome Unit Point Data :=
  if d.value = semValueMax then ⟨.postUnlock (some .EOVERFLOW), d, .nobody⟩
  else
    let d := { d with value := d.value + 1, posts := d.posts + 1 }
    if d.value > 0 ∧ d.waitingCount > 0 then
      ⟨.postUnlock none, { d with waitingCount := d.waitingCount - 1 }, .one ()⟩
    else ⟨.postUnlock none, d, .nobody⟩

def semaphore : Program T Unit Unit Point Data Call where
  primitive
    | .idle => .call
    | .waitLock | .trywaitLock | .postLock => .acquire ()
    | .waitCond => .wait () ()
    | .waitUnlock | .trywaitUnlock _ | .postUnlock _ => .release ()
  call _
    | .semWait, .idle, d => some (.waitLock, d)
    | .semTrywait, .idle, d => some (.trywaitLock, d)
    | .semPost, .idle, d => some (.postLock, d)
    | _, _, _ => none
  code _
    | .waitLock, d | .waitCond, d => semWaitLoop d
    | .trywaitLock, d => ⟨.trywaitUnlock (kprSemTrywait d).1, (kprSemTrywait d).2, .nobody⟩
    | .postLock, d => semPostLocked d
    | _, d => ⟨.idle, d, .nobody⟩

def initial : State T Unit Point Data := ⟨d, fun _ => none, fun _ => .running .idle⟩

def owns (p : Point) (_ : Unit) : Prop :=
  match p with
  | .waitCond | .waitUnlock | .trywaitUnlock _ | .postUnlock _ => True
  | _ => False

lemma kprSemTrywait_cases : (d.value ≤ 0 ∧ kprSemTrywait d = (some .EAGAIN, d)) ∨
    (0 < d.value ∧ kprSemTrywait d = (none, { d with value := d.value - 1, waits := d.waits + 1 })) := by
  rw [kprSemTrywait]
  split_ifs with hvalue
  · exact .inl ⟨hvalue, rfl⟩
  · exact .inr ⟨Int.not_le.mp hvalue, rfl⟩

lemma semWaitLoop_cases :
    (d.value ≤ 0 ∧ semWaitLoop d = ⟨.waitCond, { d with waitingCount := d.waitingCount + 1 }, .nobody⟩) ∨
    (0 < d.value ∧ semWaitLoop d = ⟨.waitUnlock, { d with value := d.value - 1, waits := d.waits + 1 }, .nobody⟩) := by
  rw [semWaitLoop]
  obtain ⟨hvalue, htry⟩ | ⟨hvalue, htry⟩ := kprSemTrywait_cases d
  · rw [htry]
    exact .inl ⟨hvalue, rfl⟩
  · rw [htry]
    exact .inr ⟨hvalue, rfl⟩

lemma semPostLocked_cases : (d.value = semValueMax ∧ semPostLocked d = ⟨.postUnlock (some .EOVERFLOW), d, .nobody⟩) ∨
    (d.value ≠ semValueMax ∧ 0 < d.value + 1 ∧ 0 < d.waitingCount ∧ semPostLocked d =
      ⟨.postUnlock none, ⟨d.value + 1, d.waitingCount - 1, d.posts + 1, d.waits⟩, .one ()⟩) ∨
    (d.value ≠ semValueMax ∧ (0 < d.value + 1 → d.waitingCount = 0) ∧ semPostLocked d =
      ⟨.postUnlock none, ⟨d.value + 1, d.waitingCount, d.posts + 1, d.waits⟩, .nobody⟩) := by
  rw [semPostLocked]
  by_cases hmax : d.value = semValueMax
  · rw [if_pos hmax]
    exact .inl ⟨hmax, rfl⟩
  rw [if_neg hmax]
  by_cases hwaiting : d.value + 1 > 0 ∧ d.waitingCount > 0
  · exact .inr (.inl ⟨hmax, hwaiting.1, hwaiting.2, if_pos hwaiting⟩)
  · refine .inr (.inr ⟨hmax, fun hpos => ?_, if_neg hwaiting⟩)
    by_contra hne
    exact hwaiting ⟨hpos, Nat.pos_of_ne_zero hne⟩

/-! ## The value -/

/-- The value is what the posts have added and the waits have taken, within its bounds. -/
structure Balanced (v : ℕ) (d : Data) : Prop where
  value_eq : d.value = v + d.posts - d.waits
  nonneg : 0 ≤ d.value
  le_max : d.value ≤ semValueMax

lemma Balanced.init {v : ℕ} {d : Data} (h : semInit v = some d) : Balanced v d := by
  obtain ⟨hv, ⟨⟩⟩ := Option.ite_none_left_eq_some.mp h
  refine ⟨?_, Int.natCast_nonneg v, Int.ofNat_le.mpr (Nat.le_of_not_lt hv)⟩
  change (v : ℤ) = v + (0 : ℕ) - (0 : ℕ)
  omega

section
variable {v : ℕ} {d : Data} (h : Balanced v d)
include h

lemma Balanced.take (hvalue : 0 < d.value) (n : ℕ) : Balanced v ⟨d.value - 1, n, d.posts, d.waits + 1⟩ := by
  obtain ⟨_, _, _⟩ := h
  refine ⟨?_, ?_, ?_⟩ <;> dsimp only <;> omega

lemma Balanced.add (hvalue : d.value ≠ semValueMax) (n : ℕ) : Balanced v ⟨d.value + 1, n, d.posts + 1, d.waits⟩ := by
  obtain ⟨_, _, _⟩ := h
  refine ⟨?_, ?_, ?_⟩ <;> dsimp only <;> omega

lemma Balanced.wait : Balanced v (semWaitLoop d).data := by
  obtain ⟨_, heq⟩ | ⟨hvalue, heq⟩ := semWaitLoop_cases d
  · rw [heq]
    exact ⟨h.value_eq, h.nonneg, h.le_max⟩
  · rw [heq]
    exact h.take hvalue _

lemma Balanced.trywait : Balanced v (kprSemTrywait d).2 := by
  obtain ⟨_, heq⟩ | ⟨hvalue, heq⟩ := kprSemTrywait_cases d
  · rw [heq]
    exact h
  · rw [heq]
    exact h.take hvalue _

lemma Balanced.post : Balanced v (semPostLocked d).data := by
  obtain ⟨_, heq⟩ | ⟨hmax, _, _, heq⟩ | ⟨hmax, _, heq⟩ := semPostLocked_cases d
  · rw [heq]
    exact h
  · rw [heq]
    exact h.add hmax _
  · rw [heq]
    exact h.add hmax _

end

/-! ## The wakeups -/

def isBlocked : Status Point → Bool
  | .waiting .waitCond => true
  | _ => false

def isNotified : Status Point → Bool
  | .notified .waitCond => true
  | _ => false

def isAboutToWait : Status Point → Bool
  | .running .waitCond => true
  | _ => false

section
variable [DecidableEq T] {s s' : State T Unit Point Data} {t : T}

omit [DecidableEq T] in
lemma discipline : (semaphore : Program T Unit Unit Point Data Call).Discipline (fun _ => True) owns where
  valid_call _ _ := trivial
  valid_code _ := trivial
  call := by
    rintro t (_ | _ | _) (_ | _ | _ | _ | _ | _ | _ | _) d r _ hr k <;> cases hr <;> exact Iff.rfl
  acquire := by
    rintro t (_ | _ | _ | _ | _ | _ | _ | _) d l _ hprim k <;> cases hprim
    · change owns (semWaitLoop d).point k ↔ _
      obtain ⟨_, heq⟩ | ⟨_, heq⟩ := semWaitLoop_cases d <;> rw [heq] <;> exact ⟨fun _ => .inl rfl, fun _ => trivial⟩
    · exact ⟨fun _ => .inl rfl, fun _ => trivial⟩
    · change owns (semPostLocked d).point k ↔ _
      obtain ⟨_, heq⟩ | ⟨_, _, _, heq⟩ | ⟨_, _, heq⟩ := semPostLocked_cases d <;> rw [heq] <;>
        exact ⟨fun _ => .inl rfl, fun _ => trivial⟩
  release := by
    rintro t (_ | _ | _ | _ | _ | _ | _ | _) d l _ hprim k <;> cases hprim <;>
      exact ⟨False.elim, fun hne => hne.1 rfl⟩
  wait := by
    rintro (_ | _ | _ | _ | _ | _ | _ | _) c l _ hprim <;> cases hprim
    trivial
  wake := by
    rintro t (_ | _ | _ | _ | _ | _ | _ | _) d c l _ hprim k <;> cases hprim
    change owns (semWaitLoop d).point k ↔ True
    obtain ⟨_, heq⟩ | ⟨_, heq⟩ := semWaitLoop_cases d <;> rw [heq] <;> exact Iff.rfl

omit [DecidableEq T] in
lemma owned_initial (d : Data) : semaphore.Owned owns (initial d : State T Unit Point Data) := by
  intro l t
  exact ⟨fun h => (nomatch h), fun h => h.elim⟩

variable [Fintype T]

/-- Who waits is counted; while someone waits unnotified, those about to resume cover the value. -/
structure Accounting (s : State T Unit Point Data) : Prop where
  waitingCount_eq : s.data.waitingCount = count isBlocked s.thread + count isAboutToWait s.thread
  covered : 0 < s.data.waitingCount → s.data.value ≤ count isNotified s.thread

variable {d : Data} {holder : Unit → Option T}

omit [Fintype T] in
lemma notifies_semWaitLoop {thread thread' : T → Status Point}
    (h : (semaphore : Program T Unit Unit Point Data Call).Notifies thread (semWaitLoop d).notice thread') :
    thread' = thread := by
  obtain ⟨_, heq⟩ | ⟨_, heq⟩ := semWaitLoop_cases d
  · rw [heq] at h
    exact Program.notifies_nobody.mp h
  · rw [heq] at h
    exact Program.notifies_nobody.mp h

omit [DecidableEq T] [Fintype T] in
lemma blockedOn_eq (c : Unit) (st : Status Point) :
    (semaphore : Program T Unit Unit Point Data Call).blockedOn c st = isBlocked st := by
  rcases st with p | p | p <;> cases p <;> rfl

lemma counts_update (thread : T → Status Point) (t : T) (st : Status Point) :
    count isBlocked (update thread t st) + (isBlocked (thread t)).toNat =
      count isBlocked thread + (isBlocked st).toNat ∧
    count isNotified (update thread t st) + (isNotified (thread t)).toNat =
      count isNotified thread + (isNotified st).toNat ∧
    count isAboutToWait (update thread t st) + (isAboutToWait (thread t)).toNat =
      count isAboutToWait thread + (isAboutToWait st).toNat :=
  ⟨count_update _ thread t st, count_update _ thread t st, count_update _ thread t st⟩

omit [DecidableEq T] in
lemma count_isAboutToWait (howned : semaphore.Owned owns s) (hfree : s.holder () = none) :
    count isAboutToWait s.thread = 0 := by
  rw [count_eq_zero]
  intro u
  by_contra hu
  refine howned.not_holds (t := u) hfree ?_
  cases hst : s.thread u with
  | running p =>
    rw [hst] at hu
    cases p <;> first | exact absurd rfl hu | trivial
  | waiting p | notified p =>
    rw [hst] at hu
    exact absurd rfl hu

lemma Accounting.goto (h : Accounting s) {st st' : Status Point} (ht : s.thread t = st)
    (hst : isBlocked st = false ∧ isNotified st = false ∧ isAboutToWait st = false)
    (hst' : isBlocked st' = false ∧ isNotified st' = false ∧ isAboutToWait st' = false)
    (hwaiting : d.waitingCount = s.data.waitingCount) (hvalue : 0 < d.waitingCount → d.value ≤ s.data.value) :
    Accounting ⟨d, holder, update s.thread t st'⟩ := by
  obtain ⟨hb, hn, ha⟩ := counts_update s.thread t st'
  simp only [ht, hst.1, hst.2.1, hst.2.2, hst'.1, hst'.2.1, hst'.2.2, toNat_false, Nat.add_zero] at hb hn ha
  refine ⟨?_, fun hpos => ?_⟩
  · dsimp only
    rw [hwaiting, h.waitingCount_eq, hb, ha]
  · have hcovered := h.covered (hwaiting ▸ hpos)
    rw [hn]
    exact (hvalue hpos).trans hcovered

lemma Accounting.loop (h : Accounting s) (hnonneg : 0 ≤ s.data.value) {st : Status Point} (ht : s.thread t = st)
    (hst : isBlocked st = false ∧ isAboutToWait st = false) :
    Accounting ⟨(semWaitLoop s.data).data, holder, update s.thread t (.running (semWaitLoop s.data).point)⟩ := by
  obtain ⟨_, heq⟩ | ⟨_, heq⟩ := semWaitLoop_cases s.data
  · rw [heq]
    obtain ⟨hb, hn, ha⟩ := counts_update s.thread t (.running .waitCond)
    rw [ht, hst.1] at hb
    rw [ht, hst.2] at ha
    have hwaiting := h.waitingCount_eq
    simp only [isBlocked, isAboutToWait, toNat_false, toNat_true] at hb ha
    refine ⟨?_, fun _ => ?_⟩ <;> dsimp only <;> omega
  · rw [heq]
    obtain ⟨hb, hn, ha⟩ := counts_update s.thread t (.running .waitUnlock)
    rw [ht, hst.1] at hb
    rw [ht, hst.2] at ha
    rw [ht] at hn
    have hwaiting := h.waitingCount_eq
    have hcovered := h.covered
    have hle : (isNotified st).toNat ≤ 1 := toNat_le _
    have hunlock : isNotified (.running .waitUnlock) = false := rfl
    simp only [isBlocked, isAboutToWait] at hb ha hn
    refine ⟨?_, fun _ => ?_⟩ <;> dsimp only at * <;> omega

lemma Accounting.post (h : Accounting s) (hnonneg : 0 ≤ s.data.value) (hp : s.thread t = .running .postLock)
    (hnone : count isAboutToWait s.thread = 0) {thread : T → Status Point}
    (hn : (semaphore : Program T Unit Unit Point Data Call).Notifies s.thread (semPostLocked s.data).notice thread) :
    Accounting ⟨(semPostLocked s.data).data, holder, update thread t (.running (semPostLocked s.data).point)⟩ := by
  obtain ⟨_, heq⟩ | ⟨_, _, hpos, heq⟩ | ⟨_, hzero, heq⟩ := semPostLocked_cases s.data
  · rw [heq] at hn ⊢
    cases hn
    exact h.goto hp ⟨rfl, rfl, rfl⟩ ⟨rfl, rfl, rfl⟩ rfl fun _ => le_rfl
  · have hwaiting := h.waitingCount_eq
    have hcovered := h.covered hpos
    rw [heq] at hn ⊢
    cases hn with
    | @one _ u hu =>
      rw [blockedOn_eq] at hu
      have hne : t ≠ u := fun htu => by
        rw [← htu, hp] at hu
        exact false_ne_true hu
      obtain ⟨hb, hn, ha⟩ := counts_update s.thread u (.notified (s.thread u).point)
      have hpoint : s.thread u = .waiting .waitCond := by
        revert hu
        rcases s.thread u with p | p | p <;> cases p <;> simp [isBlocked]
      rw [hpoint] at hb hn ha
      have hmid : Accounting ⟨⟨s.data.value + 1, s.data.waitingCount - 1, s.data.posts + 1, s.data.waits⟩, s.holder,
          update s.thread u (.notified (s.thread u).point)⟩ := by
        rw [hpoint]
        simp only [Status.point, isBlocked, isAboutToWait, isNotified, toNat_false, toNat_true] at hb ha hn
        refine ⟨?_, fun _ => ?_⟩ <;> dsimp only [Status.point] at * <;> omega
      have hself : update s.thread u (.notified (s.thread u).point) t = .running .postLock := by
        rw [update_of_ne hne, hp]
      exact hmid.goto hself ⟨rfl, rfl, rfl⟩ ⟨rfl, rfl, rfl⟩ rfl fun _ => le_rfl
    | none hall =>
      -- some thread is counted as waiting, and none is on its way
      have hblocked : count isBlocked s.thread = 0 := by
        rw [count_eq_zero]
        intro u
        rw [← blockedOn_eq ()]
        exact hall u
      omega
  · have hzero := hzero (by omega)
    rw [heq] at hn ⊢
    cases hn
    exact h.goto hp ⟨rfl, rfl, rfl⟩ ⟨rfl, rfl, rfl⟩ rfl fun hpos => absurd hzero hpos.ne'

lemma Accounting.step (h : Accounting s) (howned : semaphore.Owned owns s) (hnonneg : 0 ≤ s.data.value)
    (hstep : semaphore.Step s t s') : Accounting s' := by
  cases hstep with
  | @call p a r hp hprim hr =>
    cases p <;> cases hprim
    cases a <;> cases hr <;> exact h.goto hp ⟨rfl, rfl, rfl⟩ ⟨rfl, rfl, rfl⟩ rfl fun _ => le_rfl
  | @acquire p l _ hp hprim hfree hn =>
    cases p <;> cases hprim
    · obtain rfl := notifies_semWaitLoop hn
      exact h.loop hnonneg hp ⟨rfl, rfl⟩
    · cases hn
      obtain ⟨_, heq⟩ | ⟨_, heq⟩ := kprSemTrywait_cases s.data
      · refine h.goto hp ⟨rfl, rfl, rfl⟩ ⟨rfl, rfl, rfl⟩ ?_ fun _ => ?_
        · change (kprSemTrywait s.data).2.waitingCount = _
          rw [heq]
        · change (kprSemTrywait s.data).2.value ≤ _
          rw [heq]
      · refine h.goto hp ⟨rfl, rfl, rfl⟩ ⟨rfl, rfl, rfl⟩ ?_ fun _ => ?_
        · change (kprSemTrywait s.data).2.waitingCount = _
          rw [heq]
        · change (kprSemTrywait s.data).2.value ≤ _
          rw [heq]
          exact Int.sub_le_self _ Int.one_nonneg
    · exact h.post hnonneg hp (count_isAboutToWait howned hfree) hn
  | @release p l _ hp hprim _ hn =>
    cases p <;> cases hprim <;> cases hn <;> exact h.goto hp ⟨rfl, rfl, rfl⟩ ⟨rfl, rfl, rfl⟩ rfl fun _ => le_rfl
  | @wait p c l hp hprim _ =>
    cases p <;> cases hprim
    obtain ⟨hb, hn, ha⟩ := counts_update s.thread t (.waiting .waitCond)
    rw [hp] at hb hn ha
    have hwaiting := h.waitingCount_eq
    have hcovered := h.covered
    simp only [isBlocked, isAboutToWait, isNotified] at hb ha hn
    refine ⟨?_, fun _ => ?_⟩ <;> dsimp only at * <;> omega
  | @wake p c l _ hp hprim hfree hn =>
    cases p <;> cases hprim
    obtain rfl := notifies_semWaitLoop hn
    exact h.loop hnonneg hp ⟨rfl, rfl⟩

omit [Fintype T] in
lemma Balanced.of_reachable {v : ℕ} (h : semInit v = some d) (hs : semaphore.Reachable (initial d) s) :
    Balanced v s.data := by
  refine Program.Reaches.data_invariant hs (Balanced.init h) ?_ ?_
  · rintro t (_ | _ | _) (_ | _ | _ | _ | _ | _ | _ | _) d r hd hr <;> cases hr <;> exact hd
  · rintro t (_ | _ | _ | _ | _ | _ | _ | _) d hd
    case waitLock => exact hd.wait
    case waitCond => exact hd.wait
    case trywaitLock => exact hd.trywait
    case postLock => exact hd.post
    all_goals exact hd

lemma Accounting.of_reachable {v : ℕ} (h : semInit v = some d) (hs : semaphore.Reachable (initial d) s) :
    Accounting s := by
  refine Program.Reaches.invariant hs ?_ fun s t s' hreach ih hstep _ => ?_
  · obtain ⟨_, ⟨⟩⟩ := Option.ite_none_left_eq_some.mp h
    refine ⟨?_, fun hpos => absurd hpos (Nat.lt_irrefl 0)⟩
    have hb : count isBlocked (fun _ : T => .running .idle) = 0 := count_eq_zero.mpr fun _ => rfl
    have ha : count isAboutToWait (fun _ : T => .running .idle) = 0 := count_eq_zero.mpr fun _ => rfl
    change 0 = count isBlocked (fun _ : T => .running .idle) + count isAboutToWait fun _ : T => .running .idle
    rw [hb, ha]
  · exact ih.step (hreach.owned discipline (fun _ => trivial) (owned_initial d))
      (Balanced.of_reachable h hreach).nonneg hstep

/-- The value is the initial one plus posts minus waits and never negative; while a thread is blocked unnotified, it
is at most the number of notified threads that have not resumed. -/
theorem semaphore_accounting {v : ℕ} {d : Data} (h : semInit v = some d) (hs : semaphore.Reachable (initial d) s) :
    s.data.value = v + s.data.posts - s.data.waits ∧ 0 ≤ s.data.value ∧
    ((∃ t, s.thread t = .waiting .waitCond) → s.data.value ≤ count isNotified s.thread) := by
  have hbalanced := Balanced.of_reachable h hs
  refine ⟨hbalanced.value_eq, hbalanced.nonneg, ?_⟩
  rintro ⟨t, ht⟩
  have haccounting := Accounting.of_reachable h hs
  apply haccounting.covered
  rw [haccounting.waitingCount_eq]
  apply Nat.add_pos_left
  apply Nat.pos_of_ne_zero
  intro hzero
  have hfalse := count_eq_zero.mp hzero t
  rw [ht] at hfalse
  exact nomatch hfalse

end

theorem semaphore_accounting_two_waiters :
    ∃ s : State (Fin 3) Unit Point Data, semaphore.Reachable (initial ⟨0, 0, 0, 0⟩) s ∧ s.thread 0 =
      .waiting .waitCond ∧
      s.data.value = 1 ∧ s.data.value ≤ count isNotified s.thread := by
  have hrun : (semaphore.run (initial ⟨0, 0, 0, 0⟩ : State (Fin 3) Unit Point Data)
      [(0, .call .semWait), (0, .go), (0, .go), (1, .call .semWait), (1, .go), (1, .go), (2, .call .semPost),
        (2, .notify 1)]).map (fun s => (s.thread 0, s.data)) = some (.waiting .waitCond, ⟨1, 1, 1, 0⟩) := rfl
  obtain ⟨s, hs, heq⟩ := Option.map_eq_some_iff.mp hrun
  obtain ⟨hthread, hdata⟩ := Prod.mk.inj heq
  have hreach := Program.reachable_of_run _ hs
  refine ⟨s, hreach, hthread, ?_, ?_⟩
  · rw [hdata]
  · exact (semaphore_accounting (v := 0) rfl hreach).2.2 ⟨0, hthread⟩

end Pthread.Semaphore
