import PorSe.Por.Configuration
import PorSe.Por.Independence

/-! The operations a thread can perform next and the rules by which a configuration is
extended. -/

namespace Por
open Option Event List

inductive Op (D : Type)
  | createThread (thread newTid : ThreadId)
  | initThread (thread createdFrom : ThreadId)
  | joinThread (thread joined : ThreadId)
  | exitThread (thread : ThreadId) (atomic : Bool)
  | createLock (thread : ThreadId) (lock : LockId)
  | destroyLock (thread : ThreadId) (lock : LockId)
  | acquireLock (thread : ThreadId) (lock : LockId)
  | releaseLock (thread : ThreadId) (lock : LockId) (atomic : Bool)
  | createCond (thread : ThreadId) (cond : CondId)
  | destroyCond (thread : ThreadId) (cond : CondId)
  | wait1 (thread : ThreadId) (cond : CondId) (lock : LockId)
  | wait2 (thread : ThreadId) (cond : CondId) (lock : LockId)
  | signalThread (thread : ThreadId) (cond : CondId) (notifiedThread : ThreadId)
  | broadcastThreads (thread : ThreadId) (cond : CondId) (notifiedThreads : List ThreadId)
  | localEvent (thread : ThreadId) (localPath : List D)
deriving DecidableEq

namespace Configuration
variable {D : Type}

variable {C : Configuration D} {t : ThreadId}

lemma activeHead_eq_some {p : Event D} :
    C.activeHead t = some p ↔ C.lastOfTid t = some p ∧ p.kind ≠ .threadExit ∧ p.kind ≠ .wait1 := by
  simp only [activeHead, bind_eq_bind, bind_eq_some_iff, ite_none_right_eq_some, some.injEq]
  constructor
  · rintro ⟨q, hq, hk, rfl⟩
    exact ⟨hq, hk⟩
  · rintro ⟨hp, hk⟩
    exact ⟨p, hp, hk, rfl⟩

lemma activeThreads_pos {p : Event D} (h : C.activeHead t = some p) : 0 < C.activeThreads := by
  obtain ⟨hp, hx, hw⟩ := activeHead_eq_some.mp h
  refine length_pos_of_mem (a := p) (mem_filter.mpr ⟨?_, by simp [hx, hw]⟩)
  exact SortedMap.mem_values_iff.mpr ⟨t, hp⟩

variable [DecidableEq D]

def extend (C : Configuration D) : Op D → Option (Event D)
  | .createThread t newTid => C.createThread t newTid
  | .initThread t createdFrom => C.initThread t createdFrom
  | .joinThread t joined => C.joinThread t joined
  | .exitThread t atomic => C.exitThread t atomic
  | .createLock t l => C.createLock t l
  | .destroyLock t l => C.destroyLock t l
  | .acquireLock t l => C.acquireLock t l
  | .releaseLock t l atomic => C.releaseLock t l atomic
  | .createCond t c => C.createCond t c
  | .destroyCond t c => C.destroyCond t c
  | .wait1 t c l => C.wait1 t c l
  | .wait2 t c l => C.wait2 t c l
  | .signalThread t c n => C.signalThread t c n
  | .broadcastThreads t c ns => C.broadcastThreads t c ns
  | .localEvent t path => C.localEvent t path

/-- The rules behind the extension methods, one for each way to build an event. -/
inductive Extends (C : Configuration D) : Op D → Event D → Prop
  | createThread {t new p} (hp : C.activeHead t = some p) (hne : new ≠ .empty) (hnew : C.lastOfTid new = none) :
    Extends C (.createThread t new) ⟨t, .threadCreate new, [p]⟩
  | initThread {t createdFrom p} (hp : C.lastOfTid createdFrom = some p) (hk : p.kind = .threadCreate)
      (hne : p.tid ≠ t) (ht : C.lastOfTid t = none) :
    Extends C (.initThread t createdFrom) ⟨t, .threadInit, [p]⟩
  | joinThread {t joined p x} (hp : C.activeHead t = some p) (hx : C.lastOfTid joined = some x)
      (hk : x.kind = .threadExit) :
    Extends C (.joinThread t joined) ⟨t, .threadJoin, [p, x]⟩
  | exitThread {t atomic p} (hp : C.activeHead t = some p) :
    Extends C (.exitThread t atomic) ⟨t, .threadExit atomic, [p]⟩
  | createLock {t l p} (hp : C.activeHead t = some p) (hl : C.lastOfLid l = none) (hused : l ∉ C.usedLockIds) :
    Extends C (.createLock t l) ⟨t, .lockCreate l, [p]⟩
  | destroyLock {t l p} (hp : C.activeHead t = some p) (hl : C.lastOfLid l = none → l ≠ 0) :
    Extends C (.destroyLock t l) ⟨t, .lockDestroy l, p :: (C.lastOfLid l).toList⟩
  | acquireLock {t l p} (hp : C.activeHead t = some p) (hl : C.canAcquireLock l = true) :
    Extends C (.acquireLock t l) ⟨t, .lockAcquire l, p :: (C.lastOfLid l).toList⟩
  | releaseLock {t l atomic p x} (hp : C.activeHead t = some p) (hx : C.lastOfLid l = some x) :
    Extends C (.releaseLock t l atomic) ⟨t, .lockRelease l atomic, [p, x]⟩
  | createCond {t c p} (hp : C.activeHead t = some p) (hc : C.condHeads.find? c = none)
      (hused : c ∉ C.usedCondIds) :
    Extends C (.createCond t c) ⟨t, .conditionVariableCreate c, [p]⟩
  | destroyUnusedCond {t c p} (hp : C.activeHead t = some p) (hc : C.condHeads.find? c = none) :
    Extends C (.destroyCond t c) ⟨t, .conditionVariableDestroy c, [p]⟩
  | destroyCond {t c p qs} (hp : C.activeHead t = some p) (hc : C.condHeads.find? c = some qs) (hne : qs ≠ []) :
    Extends C (.destroyCond t c)
      ⟨t, .conditionVariableDestroy c, p :: Event.sortPredecessors (qs ++ (C.w2Heads.find? c).getD [])⟩
  | wait1 {t c l p x} (hp : C.activeHead t = some p) (hx : C.lastOfLid l = some x) :
    Extends C (.wait1 t c l)
      ⟨t, .wait1 c l, p :: x :: Event.sortPredecessors (wait1PredecessorsCond p (C.lastOfCid c))⟩
  | wait2 {t c l w n x} (hw : C.lastOfTid t = some w) (hk : w.kind = .wait1) (hx : C.lastOfLid l = some x)
      (hn : wait2PredecessorCond w (C.lastOfCid c) = some n) :
    Extends C (.wait2 t c l) ⟨t, .wait2 c l, [w, n, x]⟩
  | lostSignal {t c p qs} (hp : C.activeHead t = some p)
      (hqs : lostNotificationPredecessorsCond p (C.lastOfCid c) = some qs)
      (hlost : (Event.mk t (.signal c) (p :: Event.sortPredecessors qs)).signalIsLost = true) :
    Extends C (.signalThread t c .empty) ⟨t, .signal c, p :: Event.sortPredecessors qs⟩
  | signal {t c n p w} (hp : C.activeHead t = some p) (hn : n ≠ .empty)
      (hw : C.notifiedHead t n (C.lastOfCid c) = some w) :
    Extends C (.signalThread t c n) ⟨t, .signal c, [p, w]⟩
  | lostBroadcast {t c p qs} (hp : C.activeHead t = some p)
      (hqs : lostNotificationPredecessorsCond p (C.lastOfCid c) = some qs)
      (hlen : (Event.groupByKind (Event.sortPredecessors qs)).length = qs.length) :
    Extends C (.broadcastThreads t c []) ⟨t, .broadcast c, p :: Event.groupByKind (Event.sortPredecessors qs)⟩
  | broadcast {t c ns p ws} (hp : C.activeHead t = some p) (hns : ns ≠ [])
      (hws : (ns.mapM fun n => C.notifiedHead t n (C.lastOfCid c)) = some ws)
      (hlen : (Event.groupByKind (Event.sortPredecessors
        (ws ++ broadcastPredecessorsCond t p ns (C.lastOfCid c)))).length =
          (ws ++ broadcastPredecessorsCond t p ns (C.lastOfCid c)).length) :
    Extends C (.broadcastThreads t c ns)
      ⟨t, .broadcast c, p :: Event.groupByKind (Event.sortPredecessors
        (ws ++ broadcastPredecessorsCond t p ns (C.lastOfCid c)))⟩
  | localEvent {t path p} (hp : C.lastOfTid t = some p) (hk : p.kind ≠ .threadExit) :
    Extends C (.localEvent t path) ⟨t, .localEvent path, [p]⟩

lemma alloc_eq_some {l : Label D} {ps : List (Event D)} {e : Event D} :
    alloc t l ps = some e ↔ e = ⟨t, l, ps⟩ ∧ e.checks = true := by
  rw [alloc, ite_none_right_eq_some, some.injEq]
  constructor
  · rintro ⟨h, rfl⟩
    exact ⟨rfl, h⟩
  · rintro ⟨rfl, h⟩
    exact ⟨h, rfl⟩

/-! ## The methods follow the rules -/

section
variable {e : Event D} {l : LockId} {c : CondId}

lemma createThread_eq_some {new : ThreadId} :
    C.createThread t new = some e ↔ C.Extends (.createThread t new) e ∧ e.checks = true := by
  simp only [createThread, bind_eq_bind, bind_eq_some_iff, ite_none_right_eq_some,
    allocThreadCreate, alloc_eq_some, isNone_iff_eq_none, Bool.not_eq_true', ThreadId.isEmpty_eq_false_iff]
  constructor
  · rintro ⟨p, hp, ⟨hne, hnew⟩, rfl, hk⟩
    exact ⟨.createThread hp hne hnew, hk⟩
  · rintro ⟨h, hk⟩
    cases h with
    | createThread hp hne hnew => exact ⟨_, hp, ⟨hne, hnew⟩, rfl, hk⟩

lemma initThread_eq_some {createdFrom : ThreadId} :
    C.initThread t createdFrom = some e ↔ C.Extends (.initThread t createdFrom) e ∧ e.checks = true := by
  simp only [initThread, bind_eq_bind, bind_eq_some_iff, ite_none_right_eq_some,
    allocThreadInit, alloc_eq_some, isNone_iff_eq_none]
  constructor
  · rintro ⟨p, hp, ⟨hk, hne, ht⟩, rfl, hc⟩
    exact ⟨.initThread hp hk hne ht, hc⟩
  · rintro ⟨h, hc⟩
    cases h with
    | initThread hp hk hne ht => exact ⟨_, hp, ⟨hk, hne, ht⟩, rfl, hc⟩

lemma joinThread_eq_some {joined : ThreadId} :
    C.joinThread t joined = some e ↔ C.Extends (.joinThread t joined) e ∧ e.checks = true := by
  simp only [joinThread, bind_eq_bind, bind_eq_some_iff, ite_none_right_eq_some, allocThreadJoin, alloc_eq_some]
  constructor
  · rintro ⟨p, hp, x, hx, hk, rfl, hc⟩
    exact ⟨.joinThread hp hx hk, hc⟩
  · rintro ⟨h, hc⟩
    cases h with
    | joinThread hp hx hk => exact ⟨_, hp, _, hx, hk, rfl, hc⟩

variable {atomic : Bool} {p n w : Event D} {qs : List (Event D)}

lemma exitThread_eq_some : C.exitThread t atomic = some e ↔ C.Extends (.exitThread t atomic) e ∧ e.checks = true := by
  simp only [exitThread, bind_eq_bind, bind_eq_some_iff, ite_none_right_eq_some, allocThreadExit, alloc_eq_some]
  constructor
  · rintro ⟨p, hp, -, rfl, hc⟩
    exact ⟨.exitThread hp, hc⟩
  · rintro ⟨h, hc⟩
    cases h with
    | exitThread hp => exact ⟨_, hp, activeThreads_pos hp, rfl, hc⟩

lemma createLock_eq_some : C.createLock t l = some e ↔ C.Extends (.createLock t l) e ∧ e.checks = true := by
  simp only [createLock, bind_eq_bind, bind_eq_some_iff, ite_none_right_eq_some,
    allocLockCreate, alloc_eq_some, isNone_iff_eq_none]
  constructor
  · rintro ⟨p, hp, ⟨-, hl, hused⟩, rfl, hc⟩
    exact ⟨.createLock hp hl hused, hc⟩
  · rintro ⟨h, hc⟩
    cases h with
    | createLock hp hl hused =>
      refine ⟨_, hp, ⟨?_, hl, hused⟩, rfl, hc⟩
      simp [checks] at hc
      exact Nat.pos_of_ne_zero hc.2

lemma destroyLock_eq_some : C.destroyLock t l = some e ↔ C.Extends (.destroyLock t l) e ∧ e.checks = true := by
  simp only [destroyLock, bind_eq_bind, bind_eq_some_iff]
  constructor
  · rintro ⟨p, hp, h⟩
    cases hl : C.lastOfLid l with
    | none =>
      simp only [hl, ite_none_right_eq_some] at h
      obtain ⟨rfl, hc⟩ := alloc_eq_some.mp h.2
      exact ⟨hl ▸ .destroyLock hp fun _ => Nat.ne_of_gt h.1, hc⟩
    | some x =>
      simp only [hl] at h
      obtain ⟨rfl, hc⟩ := alloc_eq_some.mp h
      exact ⟨hl ▸ .destroyLock hp fun h => by simp [hl] at h, hc⟩
  · rintro ⟨h, hc⟩
    cases h with
    | destroyLock hp hl =>
      refine ⟨_, hp, ?_⟩
      cases hx : C.lastOfLid l with
      | none =>
        simp only [ite_none_right_eq_some]
        exact ⟨Nat.pos_of_ne_zero (hl hx), alloc_eq_some.mpr ⟨rfl, hx ▸ hc⟩⟩
      | some x => exact alloc_eq_some.mpr ⟨rfl, hx ▸ hc⟩

lemma acquireLock_eq_some : C.acquireLock t l = some e ↔ C.Extends (.acquireLock t l) e ∧ e.checks = true := by
  simp only [acquireLock, bind_eq_bind, bind_eq_some_iff, ite_none_right_eq_some, allocLockAcquire, alloc_eq_some]
  constructor
  · rintro ⟨p, hp, ⟨-, hl⟩, rfl, hc⟩
    exact ⟨.acquireLock hp hl, hc⟩
  · rintro ⟨h, hc⟩
    cases h with
    | acquireLock hp hl =>
      refine ⟨_, hp, ⟨?_, hl⟩, rfl, hc⟩
      simp [checks] at hc
      exact Nat.pos_of_ne_zero hc.2

lemma releaseLock_eq_some :
    C.releaseLock t l atomic = some e ↔ C.Extends (.releaseLock t l atomic) e ∧ e.checks = true := by
  simp only [releaseLock, bind_eq_bind, bind_eq_some_iff, allocLockRelease, alloc_eq_some]
  constructor
  · rintro ⟨p, hp, x, hx, rfl, hc⟩
    exact ⟨.releaseLock hp hx, hc⟩
  · rintro ⟨h, hc⟩
    cases h with
    | releaseLock hp hx => exact ⟨_, hp, _, hx, rfl, hc⟩

lemma createCond_eq_some : C.createCond t c = some e ↔ C.Extends (.createCond t c) e ∧ e.checks = true := by
  simp only [createCond, bind_eq_bind, bind_eq_some_iff, ite_none_right_eq_some,
    allocConditionVariableCreate, alloc_eq_some, isNone_iff_eq_none]
  constructor
  · rintro ⟨p, hp, ⟨-, hc, hused⟩, rfl, hk⟩
    exact ⟨.createCond hp hc hused, hk⟩
  · rintro ⟨h, hk⟩
    cases h with
    | createCond hp hc hused =>
      refine ⟨_, hp, ⟨?_, hc, hused⟩, rfl, hk⟩
      simp [checks] at hk
      exact Nat.pos_of_ne_zero hk.2

lemma destroyCond_eq_some : C.destroyCond t c = some e ↔ C.Extends (.destroyCond t c) e ∧ e.checks = true := by
  simp only [destroyCond, bind_eq_bind, bind_eq_some_iff, ite_none_right_eq_some]
  constructor
  · rintro ⟨p, hp, -, h⟩
    cases hc : C.condHeads.find? c with
    | none =>
      simp only [hc] at h
      obtain ⟨rfl, hk⟩ := alloc_eq_some.mp h
      exact ⟨.destroyUnusedCond hp hc, hk⟩
    | some qs =>
      simp only [hc, ite_none_right_eq_some] at h
      obtain ⟨rfl, hk⟩ := alloc_eq_some.mp h.2
      exact ⟨.destroyCond hp hc (ne_nil_of_length_pos h.1), hk⟩
  · rintro ⟨h, hk⟩
    have hpos : 0 < c := by
      have hcid : e.cid = c := by cases h <;> rfl
      have hkind : e.kind = .conditionVariableDestroy := by cases h <;> rfl
      rw [← hcid]
      exact Nat.pos_of_ne_zero (cid_ne_zero hk (by simp [hkind, condKinds]))
    cases h with
    | destroyUnusedCond hp hc =>
      refine ⟨_, hp, hpos, ?_⟩
      simp only [hc]
      exact alloc_eq_some.mpr ⟨rfl, hk⟩
    | destroyCond hp hc hne =>
      refine ⟨_, hp, hpos, ?_⟩
      simp only [hc, ite_none_right_eq_some]
      exact ⟨length_pos_of_ne_nil hne, alloc_eq_some.mpr ⟨rfl, hk⟩⟩

lemma wait1_eq_some : C.wait1 t c l = some e ↔ C.Extends (.wait1 t c l) e ∧ e.checks = true := by
  simp only [wait1, bind_eq_bind, bind_eq_some_iff]
  constructor
  · rintro ⟨p, hp, x, hx, h⟩
    have halloc : allocWait1 t c l p x (wait1PredecessorsCond p (C.lastOfCid c)) = some e := by
      unfold lastOfCid
      cases hc : C.condHeads.find? c with
      | none =>
        simp only [hc, ite_none_right_eq_some] at h
        exact h.2
      | some qs => simpa only [hc, getD_some] using h
    obtain ⟨rfl, hk⟩ := alloc_eq_some.mp halloc
    exact ⟨.wait1 hp hx, hk⟩
  · rintro ⟨h, hk⟩
    cases h with
    | wait1 hp hx =>
      refine ⟨_, hp, _, hx, ?_⟩
      have hpos : c > 0 ∧ l > 0 := by
        have h := hk
        simp [checks] at h
        exact ⟨Nat.pos_of_ne_zero h.1.2, Nat.pos_of_ne_zero h.2⟩
      unfold lastOfCid at hk ⊢
      cases hc : C.condHeads.find? c with
      | none =>
        rw [hc] at hk
        simp only [hpos]
        exact alloc_eq_some.mpr ⟨rfl, hk⟩
      | some qs =>
        rw [hc] at hk
        exact alloc_eq_some.mpr ⟨rfl, hk⟩

lemma wait2_eq_some : C.wait2 t c l = some e ↔ C.Extends (.wait2 t c l) e ∧ e.checks = true := by
  simp only [wait2, bind_eq_bind, bind_eq_some_iff, ite_none_right_eq_some, allocWait2, alloc_eq_some]
  constructor
  · rintro ⟨w, hw, qs, hqs, x, hx, hk, n, hn, rfl, hc⟩
    exact ⟨.wait2 hw hk hx (by simpa [lastOfCid, hqs] using hn), hc⟩
  · rintro ⟨h, hc⟩
    cases h with
    | wait2 hw hk hx hn =>
      unfold lastOfCid at hn
      cases hqs : C.condHeads.find? c with
      | none => simp [hqs, wait2PredecessorCond] at hn
      | some qs => exact ⟨_, hw, qs, rfl, _, hx, hk, _, by simpa [hqs] using hn, rfl, hc⟩

lemma allocLostSignal_eq_some : allocLostSignal t c p qs = some e ↔
      (⟨t, .signal c, p :: sortPredecessors qs⟩ : Event D).signalIsLost = true ∧
        e = ⟨t, .signal c, p :: sortPredecessors qs⟩ ∧ e.checks = true := by
  rw [allocLostSignal, ite_none_right_eq_some, alloc_eq_some]

lemma allocBroadcast_iff : allocBroadcast t c p qs = some e ↔
      (groupByKind (sortPredecessors qs)).length = qs.length ∧
        e = ⟨t, .broadcast c, p :: groupByKind (sortPredecessors qs)⟩ ∧ e.checks = true := by
  rw [allocBroadcast, ite_none_right_eq_some, alloc_eq_some]

lemma notifiedHead_eq_some {n : ThreadId} : C.notifiedHead t n qs = some w ↔
      C.lastOfTid n = some w ∧ n ≠ t ∧ w.kind = .wait1 ∧ notifiedWait1Predecessor n qs = some w := by
  simp only [notifiedHead, bind_eq_bind, bind_eq_some_iff, ite_none_right_eq_some, some.injEq]
  constructor
  · rintro ⟨w, hw, h, rfl⟩
    exact ⟨hw, h⟩
  · rintro ⟨hw, h⟩
    exact ⟨w, hw, h, rfl⟩

omit [DecidableEq D] in
lemma mem_waitPreds : w ∈ n.waitPredecessors ↔
    n.kind = .signal ∧ n.signalWaitPredecessor = some w ∨ n.kind = .broadcast ∧ w ∈ n.broadcastWaitPredecessors := by
  obtain ⟨t, l, ps⟩ := n
  cases l <;> simp [waitPredecessors]

lemma notifiesWait1_iff : notifiesWait1 w n = true ↔ w ∈ n.waitPredecessors := by
  rw [mem_waitPreds, notifiesWait1]
  cases n.kind <;> simp

lemma mem_of_wait2PredCond (h : wait2PredecessorCond w qs = some n) : n ∈ qs ∧ w ∈ n.waitPredecessors :=
  ⟨mem_of_find?_eq_some h, notifiesWait1_iff.mp (find?_some h)⟩

lemma lostPredsCond_nil (p : Event D) : lostNotificationPredecessorsCond p [] = some [] := by
  simp [lostNotificationPredecessorsCond]

lemma notifiedHead_nil (n : ThreadId) : C.notifiedHead t n [] = none := by
  simp [notifiedHead, notifiedWait1Predecessor]

lemma notification_eq_some_iff {lost : Bool} {allocLost allocWaking : List (Event D) → Option (Event D)}
    (hpos : allocLost [] = some e → 0 < c) (hwaking : lost = false → allocWaking [] = none) :
    (match C.condHeads.find? c with
      | none => if lost = true ∧ c > 0 then allocLost [] else none
      | some qs => if lost = true then (lostNotificationPredecessorsCond p qs).bind allocLost else allocWaking qs) =
        some e ↔
      (if lost = true then (lostNotificationPredecessorsCond p (C.lastOfCid c)).bind allocLost
        else allocWaking (C.lastOfCid c)) = some e := by
  unfold lastOfCid
  cases C.condHeads.find? c with
  | none =>
    cases lost with
    | false => simp [hwaking rfl]
    | true => simpa [lostPredsCond_nil] using hpos
  | some qs => rfl

lemma signalThread_eq_some {n : ThreadId} :
    C.signalThread t c n = some e ↔ C.Extends (.signalThread t c n) e ∧ e.checks = true := by
  have hpos : ∀ {p}, allocLostSignal t c p [] = some e → 0 < c := fun {p} h => by
    obtain ⟨-, rfl, hk⟩ := allocLostSignal_eq_some.mp h
    exact Nat.pos_of_ne_zero (cid_ne_zero hk (by simp [condKinds]))
  have hwaking : ∀ {p}, (C.notifiedHead t n []).bind (allocSignal t c p) = none := by simp [notifiedHead_nil]
  rw [signalThread, bind_eq_bind, bind_eq_some_iff]
  refine (exists_congr fun p => and_congr_right fun _ => notification_eq_some_iff hpos fun _ => hwaking).trans ?_
  simp only [ThreadId.isEmpty_iff]
  constructor
  · rintro ⟨p, hp, h⟩
    split_ifs at h with hn
    · obtain ⟨ps, hps, h⟩ := bind_eq_some_iff.mp h
      obtain ⟨hlost, rfl, hk⟩ := allocLostSignal_eq_some.mp h
      exact ⟨hn ▸ .lostSignal hp hps hlost, hk⟩
    · obtain ⟨w, hw, h⟩ := bind_eq_some_iff.mp h
      rw [allocSignal, ite_none_left_eq_some, alloc_eq_some] at h
      obtain ⟨-, rfl, hk⟩ := h
      exact ⟨.signal hp hn hw, hk⟩
  · rintro ⟨h, hk⟩
    cases h with
    | lostSignal hp hqs hlost =>
      refine ⟨_, hp, ?_⟩
      rw [hqs]
      exact allocLostSignal_eq_some.mpr ⟨hlost, rfl, hk⟩
    | signal hp hn hw =>
      refine ⟨_, hp, ?_⟩
      rw [if_neg hn, hw, bind_some, allocSignal, ite_none_left_eq_some, alloc_eq_some]
      exact ⟨by simp [signalIsLost, (notifiedHead_eq_some.mp hw).2.2.1], rfl, hk⟩

lemma broadcastThreads_eq_some {ns : List ThreadId} :
    C.broadcastThreads t c ns = some e ↔ C.Extends (.broadcastThreads t c ns) e ∧ e.checks = true := by
  have hpos : ∀ {p}, allocBroadcast t c p [] = some e → 0 < c := fun {p} h => by
    obtain ⟨-, rfl, hk⟩ := allocBroadcast_iff.mp h
    exact Nat.pos_of_ne_zero (cid_ne_zero hk (by simp [condKinds]))
  have hwaking : ∀ {p}, ns.isEmpty = false → ((ns.mapM fun n => C.notifiedHead t n []).bind fun ws =>
      allocBroadcast t c p (ws ++ broadcastPredecessorsCond t p ns [])) = none := fun hns => by
    obtain ⟨n, ns, rfl⟩ := exists_cons_of_ne_nil (isEmpty_eq_false_iff.mp hns)
    simp [notifiedHead_nil]
  rw [broadcastThreads, bind_eq_bind, bind_eq_some_iff]
  refine (exists_congr fun p => and_congr_right fun _ => notification_eq_some_iff hpos hwaking).trans ?_
  simp only [List.isEmpty_iff]
  constructor
  · rintro ⟨p, hp, h⟩
    split_ifs at h with hn
    · obtain ⟨ps, hps, h⟩ := bind_eq_some_iff.mp h
      obtain ⟨hlen, rfl, hk⟩ := allocBroadcast_iff.mp h
      exact ⟨hn ▸ .lostBroadcast hp hps hlen, hk⟩
    · obtain ⟨ws, hws, h⟩ := bind_eq_some_iff.mp h
      obtain ⟨hlen, rfl, hk⟩ := allocBroadcast_iff.mp h
      exact ⟨.broadcast hp hn hws hlen, hk⟩
  · rintro ⟨h, hk⟩
    cases h with
    | lostBroadcast hp hqs hlen =>
      refine ⟨_, hp, ?_⟩
      rw [hqs]
      exact allocBroadcast_iff.mpr ⟨hlen, rfl, hk⟩
    | broadcast hp hns hws hlen =>
      refine ⟨_, hp, ?_⟩
      rw [if_neg hns, hws]
      exact allocBroadcast_iff.mpr ⟨hlen, rfl, hk⟩

lemma localEvent_eq_some {path : List D} :
    C.localEvent t path = some e ↔ C.Extends (.localEvent t path) e ∧ e.checks = true := by
  simp only [localEvent, bind_eq_bind, bind_eq_some_iff, ite_none_right_eq_some, allocLocal, alloc_eq_some]
  constructor
  · rintro ⟨p, hp, hk, rfl, hc⟩
    exact ⟨.localEvent hp hk, hc⟩
  · rintro ⟨h, hc⟩
    cases h with
    | localEvent hp hk => exact ⟨_, hp, hk, rfl, hc⟩

lemma extend_iff {op : Op D} : C.extend op = some e ↔ C.Extends op e ∧ e.checks = true := by
  cases op with
  | createThread => exact createThread_eq_some
  | initThread => exact initThread_eq_some
  | joinThread => exact joinThread_eq_some
  | exitThread => exact exitThread_eq_some
  | createLock => exact createLock_eq_some
  | destroyLock => exact destroyLock_eq_some
  | acquireLock => exact acquireLock_eq_some
  | releaseLock => exact releaseLock_eq_some
  | createCond => exact createCond_eq_some
  | destroyCond => exact destroyCond_eq_some
  | wait1 => exact wait1_eq_some
  | wait2 => exact wait2_eq_some
  | signalThread => exact signalThread_eq_some
  | broadcastThreads => exact broadcastThreads_eq_some
  | localEvent => exact localEvent_eq_some

end
end Configuration
end Por
