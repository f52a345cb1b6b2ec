import PorSe.Por.CexAcquire
import PorSe.Por.Causes

/-! Conflicting extensions of a deadlocked thread: `conflicting_extensions_deadlock`
looks for earlier moments at which the lock a thread is blocked on was free. -/

namespace Por
open Event Option
namespace Configuration
variable {D : Type} [DecidableEq D]

def allocDeadlock (tid : ThreadId) (lid : LockId) (et : Event D) (es : Option (Event D)) (r : Event D) :
    Option (Event D) :=
  match es with
  | none => allocLockAcquire tid lid et (some r)
  | some es => allocWait2 tid es.cid lid et r es

def deadlockEvent (tid : ThreadId) (lid : LockId) (et : Event D) (es : Option (Event D)) (r : Event D) : Event D :=
  match es with
  | none => ⟨tid, .lockAcquire lid, [et, r]⟩
  | some es => ⟨tid, .wait2 es.cid lid, [et, es, r]⟩

variable (C : Configuration D)

variable (isCutoff : Event D → Bool)

def deadlockCandidates (tid : ThreadId) (lid : LockId)
    (et : Event D) (es : Option (Event D)) (em : Event D) (P : Cone D) : Option (List (Event D)) :=
  let A := Comb.insert (Cone.setminus C.threadHeads P) em
  let X := A.filter fun e => e.lid = lid && !isCutoff e && e.kind ∈ freeKinds
  X.events.mapM (allocDeadlock tid lid et es)

def conflictingExtensionsDeadlock (tid : ThreadId) (lid : LockId) (kind : Kind) : Option (List (Event D)) := do
  let et ← C.lastOfTid tid
  if isCutoff et then some []
  else
    let em ← C.lastOfLid lid
    match kind with
    | .lockAcquire => C.deadlockCandidates isCutoff tid lid et none em (Cone.ofEvent et)
    | .wait2 =>
      if et.kind = .wait1 then
        let condPreds ← C.condHeads.find? et.cid
        match wait2PredecessorCond et condPreds with
        | none => some []
        | some es =>
          if isCutoff es then some []
          else C.deadlockCandidates isCutoff tid lid et (some es) em (Cone.insert (Cone.ofEvent et) es)
      else none
    | _ => none

def pastOf (et : Event D) (es : Option (Event D)) : Set (Event D) := {x | x ≤ et ∨ ∃ s, es = some s ∧ x ≤ s}

/-- With the lock free, the acquisition of the thread would be enabled. -/
inductive Blocked (C : Configuration D) (tid : ThreadId) (lid : LockId) : Kind → Event D → Option (Event D) → Prop
  | acquire {et em} (htid : tid ≠ .empty) (het : C.activeHead tid = some et)
      (hem : C.lastOfLid lid = some em) (hk : em.kind ∉ freeKinds) :
    Blocked C tid lid .lockAcquire et none
  | wait2 {et es em} (het : C.lastOfTid tid = some et) (hw : et.kind = .wait1) (hl : et.lid = lid)
      (hes : wait2PredecessorCond et (C.lastOfCid et.cid) = some es) (hem : C.lastOfLid lid = some em)
      (hk : em.kind ∉ freeKinds) : Blocked C tid lid .wait2 et (some es)

/-- In some causally closed part of `C` with the past of the thread the lock is free after `r`. -/
def FreeAfter (lid : LockId) (et : Event D) (es : Option (Event D)) (r : Event D) : Prop :=
  r.kind ∈ freeKinds ∧ ∃ K : Set (Event D), (∀ x ∈ K, x ∈ C) ∧ IsLowerSet K ∧ et ∈ K ∧
    (∀ s, es = some s → s ∈ K) ∧ IsLastOn K lid (some r)

/-! ## The two sides -/

section
variable {C : Configuration D} (hW : C.WellFormed) {et : Event D} {es : Option (Event D)} {lid : LockId}
  (het : et ∈ C) (hes : ∀ s, es = some s → s ∈ C)

omit [DecidableEq D] in
lemma isLowerSet_pastOf : IsLowerSet (pastOf et es) := by
  rintro a b hba (ha | ⟨s, hs, ha⟩)
  · exact .inl (hba.trans ha)
  · exact .inr ⟨s, hs, hba.trans ha⟩

include hW het hes

lemma mem_of_mem_pastOf {x : Event D} (hx : x ∈ pastOf et es) : x ∈ C := by
  rcases hx with hx | ⟨s, hs, hx⟩
  · exact hW.mem_of_le hx het
  · exact hW.mem_of_le hx (hes s hs)

lemma freeAfter_iff {r : Event D} : C.FreeAfter lid et es r ↔ r.kind ∈ freeKinds ∧ r ∈ C ∧ r.lid = lid ∧
    (r ∉ pastOf et es ∨ IsLastOn (pastOf et es) lid (some r)) := by
  constructor
  · rintro ⟨hk, K, hKC, hK, hetK, hesK, hlast⟩
    have hpast : ∀ {x}, x ∈ pastOf et es → x ∈ K := by
      rintro x (hx | ⟨s, hs, hx⟩)
      · exact hK hx hetK
      · exact hK hx (hesK s hs)
    refine ⟨hk, hKC r hlast.1.1, hlast.1.2, ?_⟩
    by_cases hr : r ∈ pastOf et es
    · exact .inr ⟨⟨hr, hlast.1.2⟩, fun y hy => hlast.2 ⟨hpast hy.1, hy.2⟩⟩
    · exact .inl hr
  · rintro ⟨hk, hrC, hrl, hr⟩
    refine ⟨hk, pastOf et es ∪ Set.Iic r, ?_, isLowerSet_pastOf.union (isLowerSet_Iic r), ?_, ?_, ?_⟩
    · rintro x (hx | hx)
      · exact mem_of_mem_pastOf hW het hes hx
      · exact hW.mem_of_le hx hrC
    · exact .inl (.inl le_rfl)
    · exact fun s hs => .inl (.inr ⟨s, hs, le_rfl⟩)
    · refine ⟨⟨.inr (Set.mem_Iic.mpr le_rfl), hrl⟩, ?_⟩
      rintro y ⟨hy | hy, hyl⟩ hry
      · rcases hr with hr | hr
        · exact absurd (isLowerSet_pastOf hry hy) hr
        · exact hr.2 ⟨hy, hyl⟩ hry
      · exact hy

lemma mem_setminus_pastOf {P : Cone D} (hP : P.Represents (pastOf et es)) {x : Event D}
    (hk : x.kind ≠ .programInit) : x ∈ (Cone.setminus C.threadHeads P).events ↔ x ∈ C ∧ x ∉ pastOf et es := by
  refine @WellFormed.mem_setminus_iff D _ C hW C.threadHeads P {x | x ∈ C} (pastOf et es) (fun x hx => hx) ?_ ?_ ?_ hP
    (fun x => mem_of_mem_pastOf hW het hes) isLowerSet_pastOf x hk
  · exact fun hh => ⟨mem_of_lastOfTid hh, hW.tid_of_lastOfTid hh⟩
  · intro x hx hk
    obtain ⟨h, hh, hxh⟩ := hW.le_lastOfTid hx hk
    exact ⟨h, hh, hW.mem_chain_of_le hx (mem_of_lastOfTid hh) (hW.tid_of_lastOfTid hh).symm hk hxh⟩
  · exact fun a b hba ha => hW.mem_of_le hba ha

lemma deadlockCandidates_spec {P : Cone D} (hP : P.Represents (pastOf et es)) {isCutoff : Event D → Bool}
    (hcut : ∀ x ∈ C, isCutoff x = false) {tid : ThreadId} {em : Event D} (hem : em.kind ∉ freeKinds)
    (halloc : ∀ r ∈ C, r ∉ pastOf et es → r.lid = lid → r.kind ∈ freeKinds →
      allocDeadlock tid lid et es r = some (deadlockEvent tid lid et es r)) :
    ∃ xs, C.deadlockCandidates isCutoff tid lid et es em P = some xs ∧ ∀ x, x ∈ xs ↔
      ∃ r, r.kind ∈ freeKinds ∧ r ∈ C ∧ r.lid = lid ∧ r ∉ pastOf et es ∧ x = deadlockEvent tid lid et es r := by
  have hX : ∀ r, r ∈ (((Cone.setminus C.threadHeads P).insert em).filter fun e =>
      e.lid = lid && !isCutoff e && e.kind ∈ freeKinds).events ↔
        r.kind ∈ freeKinds ∧ r ∈ C ∧ r.lid = lid ∧ r ∉ pastOf et es := by
    intro r
    have hroot : r.kind ∈ freeKinds → r.kind ≠ .programInit := by
      intro hk h
      simp [h, freeKinds] at hk
    rw [Comb.mem_filter, Comb.mem_insert, Bool.and_eq_true, Bool.and_eq_true, decide_eq_true_eq, decide_eq_true_eq]
    constructor
    · rintro ⟨hr, ⟨hl, -⟩, hk⟩
      rcases hr with rfl | hr
      · exact absurd hk hem
      · obtain ⟨hrC, hpast⟩ := (mem_setminus_pastOf hW het hes hP (hroot hk)).mp hr
        exact ⟨hk, hrC, hl, hpast⟩
    · rintro ⟨hk, hrC, hl, hpast⟩
      refine ⟨.inr ((mem_setminus_pastOf hW het hes hP (hroot hk)).mpr ⟨hrC, hpast⟩), ⟨hl, ?_⟩, hk⟩
      simp [hcut r hrC]
  have hall := fun r hr => by
    obtain ⟨hk, hrC, hrl, hpast⟩ := (hX r).mp hr
    exact halloc r hrC hpast hrl hk
  refine ⟨_, ListSearch.mapM_eq_some_map hall, fun x => ?_⟩
  rw [List.mem_map]
  refine exists_congr fun r => ?_
  rw [hX]
  tauto

end

variable {tid : ThreadId} {lid : LockId} {et r : Event D} {es : Option (Event D)}

lemma exact_iff_of_spec {C : Configuration D} (hW : C.WellFormed)
    (het : et ∈ C) (hes : ∀ s, es = some s → s ∈ C) {res : Option (List (Event D))}
    (hres : ∃ xs, res = some xs ∧ ∀ x, x ∈ xs ↔ ∃ r, r.kind ∈ freeKinds ∧ r ∈ C ∧ r.lid = lid ∧ r ∉ pastOf et es ∧
      x = deadlockEvent tid lid et es r) :
    (∃ xs, res = some xs ∧ ∀ x, x ∈ xs ↔ ∃ r, C.FreeAfter lid et es r ∧ x = deadlockEvent tid lid et es r) ↔
      ∀ m, IsLastOn (pastOf et es) lid (some m) → m.kind ∉ freeKinds := by
  obtain ⟨xs, hxs, hmem⟩ := hres
  constructor
  · rintro ⟨ys, hys, hmem'⟩ m hm hk
    obtain rfl : xs = ys := some.inj (hxs.symm.trans hys)
    have hmC := mem_of_mem_pastOf hW het hes hm.1.1
    have hfree := (freeAfter_iff hW het hes).mpr ⟨hk, hmC, hm.1.2, .inr hm⟩
    obtain ⟨r, -, -, -, hpast, hr⟩ := (hmem _).mp ((hmem' _).mpr ⟨m, hfree, rfl⟩)
    have heq : m = r := by cases es <;> simpa [deadlockEvent] using congrArg preds hr
    exact hpast (heq ▸ hm.1.1)
  · intro hlast
    refine ⟨xs, hxs, fun x => (hmem x).trans (exists_congr fun r => ?_)⟩
    rw [freeAfter_iff hW het hes]
    constructor
    · rintro ⟨hk, hrC, hl, hpast, rfl⟩
      exact ⟨⟨hk, hrC, hl, .inl hpast⟩, rfl⟩
    · rintro ⟨⟨hk, hrC, hl, hpast | hm⟩, rfl⟩
      · exact ⟨hk, hrC, hl, hpast, rfl⟩
      · exact absurd hk (hlast r hm)

lemma allocDeadlock_acquire (htid : tid ≠ .empty) (ht : et.tid = tid) (hc : et.checks = true)
    (hx : et.kind ≠ .threadExit) (hkr : r.kind ∈ freeKinds) (hrl : r.lid = lid) (hl : lid ≠ 0) :
    allocDeadlock tid lid et none r = some (deadlockEvent tid lid et none r) := by
  refine alloc_eq_some.mpr ⟨rfl, ?_⟩
  have hroot : et.kind ≠ .programInit := by
    intro h
    rw [eq_programInit hc h] at ht
    exact htid ht.symm
  simp [freeKinds] at hkr
  simp [deadlockEvent, checks, threadPredecessorChecks, threadPredecessor,
    lockPredecessorChecks, lockPredecessor, ht, hx, hroot, hl, ThreadId.isEmpty_eq_false_iff, htid]
  exact ⟨by tauto, decide_eq_true hrl⟩

lemma allocDeadlock_wait2 {es : Event D} (ht : et.tid = tid) (hc : et.checks = true) (hcs : es.checks = true)
    (hn : et ∈ es.waitPredecessors) (hkr : r.kind ∈ freeKinds) (hcreate : r.kind ≠ .lockCreate)
    (hrl : r.lid = lid) (hl : lid ≠ 0) :
    allocDeadlock tid lid et (some es) r = some (deadlockEvent tid lid et (some es) r) := by
  refine alloc_eq_some.mpr ⟨rfl, ?_⟩
  obtain ⟨hw, _, hne, hnot⟩ := waitPreds_of_checks hcs hn
  have htid : tid ≠ .empty := ht ▸ tid_ne_empty hc (by simp [hw]) (by simp [hw])
  have hcs0 : es.cid ≠ 0 := cid_ne_zero hcs (by rcases hnot with h | h <;> simp [h.1, condKinds])
  rw [ht] at hne hnot
  have hw2 : (deadlockEvent tid lid et (some es) r).wait2Checks = true := by
    simp only [deadlockEvent, wait2Checks, threadPredecessor, notifyingPredecessor]
    rcases hnot with ⟨hk, hs, hnt⟩ | ⟨hk, hs, hnt⟩
    · simp [ht, hw, hk, hs, hnt, hne.symm, ThreadId.isEmpty_eq_false_iff, htid]
    · simp [ht, hw, hk, hs, hnt, hne.symm, ThreadId.isEmpty_eq_false_iff, htid]
  have hlock : (deadlockEvent tid lid et (some es) r).lockPredecessorChecks [.lockRelease, .wait1] = true := by
    simp [freeKinds, hcreate] at hkr
    simp [deadlockEvent, lockPredecessorChecks, lockPredecessor]
    exact ⟨hkr, decide_eq_true hrl⟩
  simp only [deadlockEvent, checks] at hw2 hlock ⊢
  simp [hw2, hlock, hl, hcs0]

/-- Exact for a blocked thread exactly when the last lock event of its past does not leave the lock free. -/
theorem Reachable.conflictingExtensionsDeadlock_exact_iff {C : Configuration D} (hC : Reachable anyOp C)
    {isCutoff : Event D → Bool} (hcut : ∀ x ∈ C, isCutoff x = false) {tid : ThreadId} {lid : LockId} {kind : Kind}
    {et : Event D} {es : Option (Event D)} (h : C.Blocked tid lid kind et es) :
    (∃ xs, C.conflictingExtensionsDeadlock isCutoff tid lid kind = some xs ∧ ∀ x, x ∈ xs ↔
        ∃ r, C.FreeAfter lid et es r ∧ x = deadlockEvent tid lid et es r) ↔
      ∀ m, IsLastOn (pastOf et es) lid (some m) → m.kind ∉ freeKinds := by
  have hW := hC.wellFormed
  cases h with
  | @acquire et em htid het hem hk =>
    obtain ⟨het', hx, hw⟩ := activeHead_eq_some.mp het
    have hetC := mem_of_lastOfTid het'
    refine exact_iff_of_spec hW hetC (by simp) ?_
    have hP : (Cone.ofEvent et).Represents (pastOf et none) := by
      refine (cone_represents (hW.valid hetC)).ofImmediate.congr fun a _ => ?_
      simp [pastOf]
    simp only [conflictingExtensionsDeadlock, het', hem, bind_eq_bind, bind_some, hcut et hetC]
    refine deadlockCandidates_spec hW hetC (by simp) hP hcut hk fun r hrC _ hl hkr => ?_
    exact allocDeadlock_acquire htid (hW.tid_of_lastOfTid het') (hW.checks hetC) hx hkr hl (hW.lid_ne_zero hem)
  | @wait2 et es em het hw hl hes hem hk =>
    have hetC := mem_of_lastOfTid het
    obtain ⟨hesH, hn⟩ := mem_of_wait2PredCond hes
    have hesC := (hW.mem_of_lastOfCid hesH).1
    have hesC' : ∀ s, some es = some s → s ∈ C := fun s hs => some.inj hs ▸ hesC
    refine exact_iff_of_spec hW hetC hesC' ?_
    have hP : (Cone.insert (Cone.ofEvent et) es).Represents (pastOf et (some es)) := by
      refine ((cone_represents (hW.valid hetC)).ofImmediate.insertWith
        (cone_represents (hW.valid hesC)) (preds_nil_of_checks (hW.checks hesC))).congr fun a _ => ?_
      simp [pastOf]
    have hcond : ∃ qs, C.condHeads.find? et.cid = some qs ∧ wait2PredecessorCond et qs = some es := by
      unfold lastOfCid at hes
      cases hq : C.condHeads.find? et.cid with
      | none => simp [hq, wait2PredecessorCond] at hes
      | some qs => exact ⟨qs, rfl, by simpa [hq] using hes⟩
    obtain ⟨qs, hqs, hfind⟩ := hcond
    simp only [conflictingExtensionsDeadlock, het, hem, bind_eq_bind, bind_some, hcut et hetC, hw,
      hqs, hfind, hcut es hesC]
    refine deadlockCandidates_spec hW hetC hesC' hP hcut hk fun r hrC hpast hrl hkr => ?_
    refine allocDeadlock_wait2 (hW.tid_of_lastOfTid het) (hW.checks hetC)
      (hW.checks hesC) hn hkr ?_ hrl (hW.lid_ne_zero hem)
    -- the lock was created before the wait1 of the thread, so in its past
    intro hc
    have hkc : r.kind ∈ lockHeadKinds := by simp [hc, lockHeadKinds]
    rcases hC.lockOrdered.le_lockPredecessor hrC hetC hkc (hl.trans hrl.symm) (by simp [hw]) with h | ⟨p, hp, -⟩
    · exact hpast (.inl h)
    · simp [lockPred_of_lockCreate hc] at hp

/-- The worker takes the lock after the main thread's release, and the main thread is blocked on it. -/
def releasedThenBlocked : List (Op Unit) :=
  [.createThread .main worker, .initThread worker .main, .acquireLock .main 1, .releaseLock .main 1 false,
    .acquireLock worker 1]

def ownRelease : Event Unit := ((after releasedThenBlocked).lastOfTid .main).getD programInit

lemma releasedThenBlocked_blocked : (after releasedThenBlocked).Blocked .main 1 .lockAcquire ownRelease none :=
  .acquire (by decide) (by decide)
    (by decide : _ = some (((after releasedThenBlocked).lastOfLid 1).getD programInit)) (by decide)

/-- The main thread could have kept the lock after its own release. -/
theorem conflictingExtensionsDeadlock_misses_ownRelease : Reachable anyOp (after releasedThenBlocked) ∧
    (after releasedThenBlocked).Blocked .main 1 .lockAcquire ownRelease none ∧
    (after releasedThenBlocked).FreeAfter 1 ownRelease none ownRelease ∧
    (after releasedThenBlocked).conflictingExtensionsDeadlock (fun _ => false) .main 1 .lockAcquire = some [] := by
  have hmem : ownRelease ∈ after releasedThenBlocked := by decide
  refine ⟨reachable_after _, releasedThenBlocked_blocked, ?_, by decide⟩
  refine (freeAfter_iff (reachable_after _).wellFormed hmem (by simp)).mpr ⟨by decide, hmem, by decide, .inr ?_⟩
  refine ⟨⟨.inl le_rfl, by decide⟩, ?_⟩
  rintro y ⟨hy | ⟨s, hs, -⟩, -⟩ -
  · exact hy
  · simp at hs

/-- The worker takes the lock twice, and the main thread is blocked on it. -/
def takenTwice : List (Op Unit) :=
  [.createThread .main worker, .initThread worker .main, .acquireLock worker 1,
    .releaseLock worker 1 false, .acquireLock worker 1]

def blockedAt : Event Unit := ((after takenTwice).lastOfTid .main).getD programInit

/-- The acquisition after the worker's release is found. -/
theorem Reachable.conflictingExtensionsDeadlock_exact_iff_takenTwice : ∃ xs,
    (after takenTwice).conflictingExtensionsDeadlock (fun _ => false) .main 1 .lockAcquire = some xs ∧
      xs ≠ [] ∧ ∀ x, x ∈ xs ↔ ∃ r, (after takenTwice).FreeAfter 1 blockedAt none r ∧
        x = deadlockEvent .main 1 blockedAt none r := by
  have hW := (reachable_after takenTwice).wellFormed
  have het : blockedAt ∈ after takenTwice := by decide
  have hblocked : (after takenTwice).Blocked .main 1 .lockAcquire blockedAt none :=
    .acquire (by decide) (by decide)
      (by decide : _ = some (((after takenTwice).lastOfLid 1).getD programInit)) (by decide)
  obtain ⟨xs, hxs, hiff⟩ := (Reachable.conflictingExtensionsDeadlock_exact_iff
    (reachable_after takenTwice) (fun _ _ => rfl) hblocked).mpr fun m hm => by
      have hle : m ≤ blockedAt := hm.1.1.resolve_right (by simp)
      have hnone : ∀ x ∈ (after takenTwice).events, x.lid = 1 →
        x.isLessThanEq blockedAt = false := by decide
      have hmC := hW.mem_of_le hle het
      simpa [hnone m hmC hm.1.2] using (hW.isLessThanEq_iff hmC het).mpr hle
  refine ⟨xs, hxs, ?_, hiff⟩
  rintro rfl
  exact absurd hxs (by decide)

end Configuration
end Por
