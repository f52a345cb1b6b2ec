import PorSe.Pthread.CondMonitor

/-! The read-write locks of `runtime/POSIX/pthread/rwlock.c`: exclusion, the reader count and the wakeups. -/

namespace Pthread.RwLock
open Concurrent Option Function CondMonitor
variable {T : Type*}

/-- The fields of the lock, the locks that each thread holds and the most read locks ever held. -/
structure Data (T : Type*) where
  acquiredWriter : Option T
  acquiredReaderCount : BitVec 64
  reads : T → ℕ
  writes : T → Bool
  mostReads : ℕ

inductive Result
  | success
  | EDEADLK
  | EBUSY
  | invalidUnlock
  deriving DecidableEq

inductive Op
  | rdlock
  | wrlock
  | tryrdlock
  | trywrlock
  | unlock
  | unlocked
  deriving DecidableEq

namespace Data
variable (t : T) (d : Data T)

def readsHeld [Fintype T] : ℕ := ∑ u, d.reads u

variable [DecidableEq T]

def addRead [Fintype T] : Data T :=
  { d with
    acquiredReaderCount := d.acquiredReaderCount + 1
    reads := update d.reads t (d.reads t + 1)
    mostReads := max d.mostReads (d.readsHeld + 1) }

def dropRead : Data T :=
  { d with
    acquiredReaderCount := d.acquiredReaderCount - 1
    reads := update d.reads t (d.reads t - 1) }

def setWriter : Data T := { d with acquiredWriter := some t, writes := update d.writes t true }

def clearWriter : Data T := { d with acquiredWriter := none, writes := update d.writes t false }

end Data

section
variable [DecidableEq T]

def rwlockTryrdlock [Fintype T] (t : T) (d : Data T) : Result × Data T :=
  match d.acquiredWriter with
  | some w => if w = t then (.EDEADLK, d) else (.EBUSY, d)
  | none => (.success, d.addRead t)

def rwlockTrywrlock (t : T) (d : Data T) : Result × Data T :=
  match d.acquiredWriter with
  | some w => if w = t then (.EDEADLK, d) else (.EBUSY, d)
  | none => if d.acquiredReaderCount > 0 then (.EBUSY, d) else (.success, d.setWriter t)

def enter (t : T) (op : Op) (d : Data T) : Option Op :=
  match op with
  | .rdlock | .wrlock | .tryrdlock | .trywrlock => some op
  | .unlock => if d.writes t = true ∨ d.reads t > 0 then some .unlock else none
  | .unlocked => none

/-- One round of the loop of `pthread_rwlock_rdlock` or `pthread_rwlock_wrlock`. -/
def lockRound (op : Op) (r : Result × Data T) : Monitor.Action Op Result × Data T :=
  if r.1 = .EBUSY then (.wait op, r.2) else (.leave r.1, r.2)

def pthreadRwlockUnlock (t : T) (d : Data T) : Monitor.Action Op Result × Data T :=
  if d.acquiredWriter = some t then (.broadcast .unlocked, d.clearWriter t)
  else if d.acquiredReaderCount > 0 then
    if (d.dropRead t).acquiredReaderCount = 0 then (.broadcast .unlocked, d.dropRead t)
    else (.leave .success, d.dropRead t)
  else (.leave .invalidUnlock, d)

def client [Fintype T] : Monitor.Client T Op Result (Data T) Op where
  enter := enter
  code t
    | .rdlock, d => lockRound .rdlock (rwlockTryrdlock t d)
    | .wrlock, d => lockRound .wrlock (rwlockTrywrlock t d)
    | .tryrdlock, d => (.leave (rwlockTryrdlock t d).1, (rwlockTryrdlock t d).2)
    | .trywrlock, d => (.leave (rwlockTrywrlock t d).1, (rwlockTrywrlock t d).2)
    | .unlock, d => pthreadRwlockUnlock t d
    | .unlocked, d => (.leave .success, d)

end

def pthreadRwlockInit : Data T := ⟨none, 0, fun _ => 0, fun _ => false, 0⟩

/-! ## The invariant of the data -/

def Ready (t : T) : Op → Data T → Prop
  | .unlock, d => d.writes t = true ∨ d.reads t > 0
  | _, _ => True

variable [Fintype T]

/-- Only the exclusion of readers rests on a count that has not wrapped around. -/
structure Inv (d : Data T) : Prop where
  readerCount : d.acquiredReaderCount = BitVec.ofNat 64 d.readsHeld
  readsHeld_le : d.readsHeld ≤ d.mostReads
  writer : ∀ u, d.writes u = true ↔ d.acquiredWriter = some u
  exclusive : d.mostReads < 2 ^ 64 → d.acquiredWriter ≠ none → d.readsHeld = 0

def Mid (_ : T) (op : Op) (d : Data T) : Prop := op = .unlocked ∧ Inv d

def Waits (_ : T) : Op → Data T → Prop
  | .rdlock, d => d.acquiredWriter ≠ none
  | .wrlock, d => d.acquiredWriter ≠ none ∨ 0 < d.readsHeld
  | _, _ => False

variable {t : T} {d : Data T}

lemma Inv.toNat_readerCount (h : Inv d) (hmost : d.mostReads < 2 ^ 64) :
    d.acquiredReaderCount.toNat = d.readsHeld := by
  rw [h.readerCount, BitVec.toNat_ofNat, Nat.mod_eq_of_lt (h.readsHeld_le.trans_lt hmost)]

lemma Inv.readsHeld_pos (h : Inv d) (hr : d.acquiredReaderCount ≠ 0) : 0 < d.readsHeld := by
  refine Nat.pos_of_ne_zero fun hzero => hr ?_
  rw [h.readerCount, hzero]
  rfl

variable [DecidableEq T]

lemma rwlockTryrdlock_cases (t : T) (d : Data T) :
    (d.acquiredWriter ≠ none ∧ (rwlockTryrdlock t d).2 = d) ∨
    (d.acquiredWriter = none ∧ rwlockTryrdlock t d = (.success, d.addRead t)) := by
  rw [rwlockTryrdlock]
  split
  · rename_i w hw
    rw [hw]
    refine .inl ⟨nofun, ?_⟩
    split_ifs <;> rfl
  · rename_i hw
    exact .inr ⟨hw, rfl⟩

omit [Fintype T] in
lemma rwlockTrywrlock_cases (t : T) (d : Data T) :
    ((d.acquiredWriter ≠ none ∨ d.acquiredReaderCount ≠ 0) ∧ (rwlockTrywrlock t d).2 = d) ∨
    (d.acquiredWriter = none ∧ d.acquiredReaderCount = 0 ∧
      rwlockTrywrlock t d = (.success, d.setWriter t)) := by
  rw [rwlockTrywrlock]
  split
  · rename_i w hw
    rw [hw]
    refine .inl ⟨.inl nofun, ?_⟩
    split_ifs <;> rfl
  · rename_i hw
    split_ifs with hreaders
    · exact .inl ⟨.inr ((BitVec.pos_iff_ne_zero _).mp hreaders), rfl⟩
    · exact .inr ⟨hw, not_not.mp (hreaders ∘ (BitVec.pos_iff_ne_zero _).mpr), rfl⟩

inductive Effect (t : T) (op : Op) (d : Data T) : Monitor.Action Op Result × Data T → Prop
  | wait : (Inv d → Waits t op d) → Effect t op d (.wait op, d)
  | leave (r : Result) : Effect t op d (.leave r, d)
  | addRead : d.acquiredWriter = none → Effect t op d (.leave .success, d.addRead t)
  | setWriter : d.acquiredWriter = none → d.acquiredReaderCount = 0 →
      Effect t op d (.leave .success, d.setWriter t)
  | clearWriter : d.acquiredWriter = some t → Effect t op d (.broadcast .unlocked, d.clearWriter t)
  | dropLast : op = .unlock → d.acquiredWriter ≠ some t →
      Effect t op d (.broadcast .unlocked, d.dropRead t)
  | dropRead : op = .unlock → d.acquiredWriter ≠ some t → (d.dropRead t).acquiredReaderCount ≠ 0 →
      Effect t op d (.leave .success, d.dropRead t)

lemma effect (t : T) (op : Op) (d : Data T) : Effect t op d (client.code t op d) := by
  cases op with
  | rdlock =>
    change Effect t .rdlock d (lockRound .rdlock (rwlockTryrdlock t d))
    rw [lockRound]
    obtain ⟨hw, heq⟩ | ⟨hw, heq⟩ := rwlockTryrdlock_cases t d
    · rw [heq]
      split_ifs
      · exact .wait fun _ => hw
      · exact .leave _
    · rw [heq]
      exact .addRead hw
  | wrlock =>
    change Effect t .wrlock d (lockRound .wrlock (rwlockTrywrlock t d))
    rw [lockRound]
    obtain ⟨hw, heq⟩ | ⟨hw, hr, heq⟩ := rwlockTrywrlock_cases t d
    · rw [heq]
      split_ifs
      · exact .wait fun hinv => hw.imp_right hinv.readsHeld_pos
      · exact .leave _
    · rw [heq]
      exact .setWriter hw hr
  | tryrdlock =>
    change Effect t .tryrdlock d (.leave (rwlockTryrdlock t d).1, (rwlockTryrdlock t d).2)
    obtain ⟨hw, heq⟩ | ⟨hw, heq⟩ := rwlockTryrdlock_cases t d
    · rw [heq]
      exact .leave _
    · rw [heq]
      exact .addRead hw
  | trywrlock =>
    change Effect t .trywrlock d (.leave (rwlockTrywrlock t d).1, (rwlockTrywrlock t d).2)
    obtain ⟨hw, heq⟩ | ⟨hw, hr, heq⟩ := rwlockTrywrlock_cases t d
    · rw [heq]
      exact .leave _
    · rw [heq]
      exact .setWriter hw hr
  | unlock =>
    change Effect t .unlock d (pthreadRwlockUnlock t d)
    rw [pthreadRwlockUnlock]
    split_ifs with hw _ hlast
    · exact .clearWriter hw
    · exact .dropLast rfl hw
    · exact .dropRead rfl hw hlast
    · exact .leave _
  | unlocked => exact .leave _

lemma readsHeld_addRead : (d.addRead t).readsHeld = d.readsHeld + 1 := by
  have := sum_update d.reads t (d.reads t + 1)
  change ∑ u, update d.reads t (d.reads t + 1) u = ∑ u, d.reads u + 1
  omega

lemma readsHeld_dropRead (hr : d.reads t > 0) : (d.dropRead t).readsHeld + 1 = d.readsHeld := by
  have := sum_update d.reads t (d.reads t - 1)
  change ∑ u, update d.reads t (d.reads t - 1) u + 1 = ∑ u, d.reads u
  omega

lemma Inv.addRead (h : Inv d) (hw : d.acquiredWriter = none) : Inv (d.addRead t) := by
  refine ⟨?_, ?_, h.writer, fun _ hne => absurd hw hne⟩
  · rw [readsHeld_addRead, BitVec.ofNat_add, ← h.readerCount]
    rfl
  · rw [readsHeld_addRead]
    exact le_max_right ..

lemma Inv.setWriter (h : Inv d) (hw : d.acquiredWriter = none) (hr : d.acquiredReaderCount = 0) :
    Inv (d.setWriter t) := by
  refine ⟨h.readerCount, h.readsHeld_le, fun u => ?_, fun hmost _ => ?_⟩
  · change update d.writes t true u = true ↔ some t = some u
    by_cases hu : u = t
    · rw [hu, update_self]
      exact ⟨fun _ => rfl, fun _ => rfl⟩
    · rw [update_of_ne hu, h.writer u, hw]
      exact ⟨fun heq => (nomatch heq), fun heq => absurd (some.inj heq).symm hu⟩
  · exact (h.toNat_readerCount hmost).symm.trans (by rw [hr]; rfl)

lemma Inv.clearWriter (h : Inv d) (hw : d.acquiredWriter = some t) : Inv (d.clearWriter t) := by
  refine ⟨h.readerCount, h.readsHeld_le, fun u => ?_, fun _ hne => absurd rfl hne⟩
  change update d.writes t false u = true ↔ none = some u
  by_cases hu : u = t
  · rw [hu, update_self]
    exact ⟨fun heq => (nomatch heq), fun heq => nomatch heq⟩
  · rw [update_of_ne hu, h.writer u, hw]
    exact ⟨fun heq => absurd (some.inj heq).symm hu, fun heq => nomatch heq⟩

lemma Inv.dropRead (h : Inv d) (hr : d.reads t > 0) : Inv (d.dropRead t) := by
  have hdrop := readsHeld_dropRead hr
  refine ⟨?_, ?_, h.writer, fun hmost hne => ?_⟩
  · change d.acquiredReaderCount - 1 = _
    rw [h.readerCount, ← hdrop, BitVec.ofNat_add]
    exact BitVec.add_sub_cancel ..
  · have := h.readsHeld_le
    change _ ≤ d.mostReads
    omega
  · have := h.exclusive hmost hne
    omega

omit [DecidableEq T] in
lemma inv_of_pre {op : Op} (h : Inv d ∧ Ready t op d ∨ Mid t op d) : Inv d := h.elim And.left And.right

omit [DecidableEq T] in
lemma reads_of_pre (h : Inv d ∧ Ready t .unlock d ∨ Mid t .unlock d) (hw : d.acquiredWriter ≠ some t) :
    d.reads t > 0 := by
  obtain ⟨hinv, hwrites | hreads⟩ | ⟨hop, _⟩ := h
  · exact absurd ((hinv.writer t).mp hwrites) hw
  · exact hreads
  · exact nomatch hop

lemma Ready.stable {op op' : Op} {u : T} (hu : u ≠ t) (h : Ready u op' d) :
    Ready u op' (client.code t op d).2 := by
  cases op' with
  | unlock =>
    change (client.code t op d).2.writes u = true ∨ (client.code t op d).2.reads u > 0
    have hcases : (client.code t op d).2.writes u = d.writes u ∧
        (client.code t op d).2.reads u = d.reads u := by
      have heffect := effect t op d
      generalize client.code t op d = r at heffect ⊢
      cases heffect with
      | wait | leave => exact ⟨rfl, rfl⟩
      | addRead | dropLast | dropRead => exact ⟨rfl, update_of_ne hu _ d.reads⟩
      | setWriter | clearWriter => exact ⟨update_of_ne hu _ d.writes, rfl⟩
    rw [hcases.1, hcases.2]
    exact h
  | _ => trivial

lemma rule : (client : Monitor.Client T Op Result (Data T) Op).Rule Inv Mid Waits Ready Ready where
  enter := by
    intro t op d k h
    cases op with
    | unlock =>
      obtain ⟨hholds, ⟨⟩⟩ := ite_none_right_eq_some.mp h
      exact hholds
    | unlocked => exact nomatch h
    | _ =>
      cases h
      trivial
  stable := fun _ hu h => h.stable hu
  wake := id
  wait := by
    intro t op d _ d' hpre hcode
    have heffect := effect t op d
    rw [hcode] at heffect
    cases heffect with
    | wait hwaits => exact ⟨inv_of_pre hpre, hwaits (inv_of_pre hpre), fun _ _ _ => id⟩
  broadcast := by
    intro t op d _ d' hpre hcode
    have hready : ∀ {u j} {d' : Data T}, Waits u j d → Ready u j d' := fun {u j d'} h => by
      cases j with
      | unlock => exact h.elim
      | _ => trivial
    have heffect := effect t op d
    rw [hcode] at heffect
    cases heffect with
    | clearWriter hw => exact ⟨⟨rfl, (inv_of_pre hpre).clearWriter hw⟩, fun _ _ _ => hready⟩
    | dropLast hop hw =>
      subst hop
      exact ⟨⟨rfl, (inv_of_pre hpre).dropRead (reads_of_pre hpre hw)⟩, fun _ _ _ => hready⟩
  leave := by
    intro t op d r d' hpre hcode
    have hinv := inv_of_pre hpre
    have heffect := effect t op d
    rw [hcode] at heffect
    cases heffect with
    | leave => exact ⟨hinv, fun _ _ _ => id⟩
    | addRead hw =>
      refine ⟨hinv.addRead hw, fun u j _ hwaits => ?_⟩
      cases j with
      | rdlock => exact absurd hw hwaits
      | wrlock => exact .inr (readsHeld_addRead (t := t) ▸ Nat.succ_pos d.readsHeld)
      | _ => exact hwaits
    | setWriter hw hr =>
      refine ⟨hinv.setWriter hw hr, fun u j _ hwaits => ?_⟩
      cases j with
      | rdlock => exact some_ne_none t
      | wrlock => exact .inl (some_ne_none t)
      | _ => exact hwaits
    | dropRead hop hw hleft =>
      subst hop
      have hinv' := hinv.dropRead (reads_of_pre hpre hw)
      refine ⟨hinv', fun u j _ hwaits => ?_⟩
      cases j with
      | wrlock => exact .inr (hinv'.readsHeld_pos hleft)
      | _ => exact hwaits

/-! ## The lock -/

variable {s : State T CondMonitor.Lock (CondMonitor.Point Op Result) (CondMonitor.Shared T (Data T))}

lemma sound (h : (CondMonitor.program client).Reachable (CondMonitor.initial pthreadRwlockInit) s) :
    Monitor.Client.Sound Inv Mid Waits Ready Ready (CondMonitor.monitor s) := by
  have hzero : (pthreadRwlockInit : Data T).readsHeld = 0 := Finset.sum_const_zero
  refine (monitor_reachable h).sound rule ⟨?_, hzero.le, fun u => ?_, fun _ hne => absurd rfl hne⟩
    fun _ => rfl
  · change 0 = BitVec.ofNat 64 (pthreadRwlockInit : Data T).readsHeld
    rw [hzero]
    rfl
  · exact ⟨fun heq => (nomatch heq), fun heq => nomatch heq⟩

lemma reachable_lock {s0 : State T CondMonitor.Lock (Point Op Result) (Shared T (Data T))}
    {op : Op} {d : Data T} (hs : (CondMonitor.program client).Reachable s0 s)
    (hfree : s.holder .mutex = none) (ht : s.thread t = .running .idle)
    (hop : enter t op s.data.client = some op)
    (hcode : client.code t op s.data.client = (.leave .success, d)) :
    (CondMonitor.program client).Reachable s0 ⟨{ s.data with client := d }.mutexUnlock, s.holder,
      update s.thread t (.running .idle)⟩ := by
  have hcritical : (CondMonitor.program client).code t (.lock op) s.data =
      ⟨.unlock .success, { s.data with client := d }.mutexUnlock, .nobody⟩ := by
    change critical client t op (s.data.mutexLock t) = _
    rw [critical, show (s.data.mutexLock t).client = s.data.client from rfl, hcode]
    rfl
  refine hs.runs_alone (a := op) ht rfl ?_ rfl hfree hcritical rfl rfl
  change (enter t op s.data.client).map _ = _
  rw [hop]
  rfl

end Pthread.RwLock
