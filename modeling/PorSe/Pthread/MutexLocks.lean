import PorSe.Pthread.Mutex

/-! Who holds the locks of KLEE that a mutex is made of. -/

namespace Pthread.Mutex
open Concurrent
variable {T C : Type*} {m : Attributes} {x : Place C}

def pointOwns : Point C → Lock C → Prop
  | .lockWait _, .mutex | .lockRelease _ _, .mutex | .lockTwice, .mutex | .trylockRelease _, .mutex
  | .consistentRelease _, .mutex | .unlockDefault _, .mutex | .unlockRelease _ _, .mutex => True
  | .unlockAcquire (.condWait c _), .cond k | .unlockRelease _ (.condWait c _), .cond k
  | .unlockDefault (.condWait c _), .cond k | .condFail c, .cond k | .condWait c _, .cond k
  | .condRelease c _, .cond k | .signalRelease c, .cond k | .broadcastRelease c, .cond k => k = c
  | .failed locks, k => k ∈ locks
  | _, _ => False

/-- The lock of a default mutex is held between the calls. -/
def owns (m : Attributes) (x : Place C) (k : Lock C) : Prop :=
  pointOwns x.point k ∨ (m.kprMutexDefault = true ∧ k = .mutex ∧ 0 < x.depth)

def validDefault (x : Place C) : Prop :=
  match x.point with
  | .lockWait _ | .lockRelease _ _ | .lockTwice | .trylockAcquire | .trylockRelease _ | .consistentAcquire
  | .consistentRelease _ | .unlockAcquire _ | .unlockRelease _ _ => False
  | .condAcquire _ => 0 < x.depth
  | .unlockDefault _ => x.depth = 0
  | _ => True

/-- The points that occur with another mutex. A call returns zero with the mutex taken. -/
def validEmulated (x : Place C) : Prop :=
  match x.point with
  | .unlockDefault _ => False
  | .lockRelease r _ | .trylockRelease r => r = .success → 0 < x.depth
  | _ => True

def valid (m : Attributes) (x : Place C) : Prop := if m.kprMutexDefault then validDefault x else validEmulated x

lemma valid_default (hm : m.kprMutexDefault = true) : valid m x = validDefault x := if_pos hm

lemma valid_emulated (hm : m.kprMutexDefault = false) : valid m x = validEmulated x :=
  if_neg (Bool.eq_false_iff.mp hm)

inductive Releases : (Result → Point C) → Prop
  | lock (w : Locker) : Releases (.lockRelease · w)
  | trylock : Releases .trylockRelease

variable {release : Result → Point C}

lemma pointOwns_after (hrelease : Releases release) (w : Locker) (n : ℕ) (x : Internal × Data T C) (k : Lock C) :
    pointOwns (afterInternal n release (.lockWait w) x).point.point k ↔ k = .mutex := by
  rw [afterInternal]
  split
  · cases hrelease <;> cases k <;> simp [pointOwns]
  · cases k <;> simp [pointOwns]
  · cases k <;> simp [pointOwns]
  · exact List.mem_singleton

lemma pointOwns_afterUnlock (n : ℕ) (w : Unlocker C) (x : Unlocked × Data T C) (k : Lock C) :
    pointOwns (afterUnlock n w x).point.point k ↔ k = .mutex ∨ pointOwns (.unlockAcquire w) k := by
  rw [afterUnlock]
  split <;> cases w <;> cases k <;> simp [pointOwns, Unlocker.locks]

lemma owns_emulated (hm : m.kprMutexDefault = false) (x : Place C) (k : Lock C) : owns m x k ↔ pointOwns x.point k := by
  simp [owns, hm]

lemma owns_default (hm : m.kprMutexDefault = true) (x : Place C) (k : Lock C) :
    owns m x k ↔ pointOwns x.point k ∨ (k = .mutex ∧ 0 < x.depth) := by
  simp [owns, hm]

lemma returnLock_cases (r : Result) (w : Locker) :
    returnLock r w = (.idle : Point C) ∨ ∃ w', returnLock r w = (.lockAcquire w' : Point C) := by
  cases w with
  | user => exact .inl rfl
  | condWait l | again l =>
    rw [returnLock]
    split_ifs
    · exact .inr ⟨_, rfl⟩
    · exact .inl rfl

lemma pointOwns_returnLock (r : Result) (w : Locker) (k : Lock C) : ¬ pointOwns (returnLock r w) k := by
  obtain h | ⟨w', h⟩ := returnLock_cases r w <;> rw [h] <;> exact not_false

lemma valid_returnLock (r : Result) (w : Locker) (n : ℕ) : valid m (⟨n, returnLock r w⟩ : Place C) := by
  rw [valid]
  obtain h | ⟨w', h⟩ := returnLock_cases r w <;> rw [h] <;> split_ifs <;> trivial

lemma validEmulated_after (hrelease : Releases release) (w : Locker) (n : ℕ) (x : Internal × Data T C) :
    validEmulated (afterInternal n release (.lockWait w) x).point := by
  have htaken : ∀ r, r = .success → 0 < takenDepth n r := fun r hr => by
    rw [takenDepth, if_pos (.inl hr)]
    exact Nat.succ_pos n
  rw [afterInternal]
  split
  · cases hrelease <;> exact htaken _
  all_goals trivial

lemma validEmulated_afterUnlock (n : ℕ) (w : Unlocker C) (x : Unlocked × Data T C) :
    validEmulated (afterUnlock n w x).point := by
  rw [afterUnlock]
  split <;> trivial

section
variable [DecidableEq C]

section
variable (r : Result) (n : ℕ) (d : Data T C) (w : Unlocker C)
include r n d w

lemma pointOwns_returnUnlock (k : Lock C) :
    pointOwns (returnUnlock r n d w).point.point k ↔ k ≠ .mutex ∧ pointOwns (.unlockRelease r w) k := by
  cases w with
  | user => cases k <;> simp [returnUnlock, pointOwns]
  | condWait c l =>
    rw [returnUnlock]
    split_ifs <;> cases k <;> simp [pointOwns]

lemma depth_returnUnlock : (returnUnlock r n d w).point.depth = n := by
  cases w with
  | user => rfl
  | condWait c l =>
    rw [returnUnlock]
    split_ifs <;> rfl

lemma valid_returnUnlock : valid m (returnUnlock r n d w).point := by
  rw [valid]
  cases w with
  | user => split_ifs <;> trivial
  | condWait c l =>
    rw [returnUnlock]
    split_ifs <;> trivial

end

variable [DecidableEq T] {t : T} {d : Data T C}

inductive Begins (m : Attributes) (t : T) (x : Place C) (d : Data T C) : Place C × Data T C → Prop
  | lock : Begins m t x d (⟨x.depth, .lockAcquire .user⟩, d)
  | trylock : m.kprMutexDefault = false → Begins m t x d (⟨x.depth, .trylockAcquire⟩, d)
  | trylockDefault : m.kprMutexDefault = true → Begins m t x d (⟨x.depth, .failed []⟩, d)
  | unlock : m.kprMutexDefault = false → Begins m t x d (⟨x.depth, .unlockAcquire .user⟩, d)
  | unlockDefault : m.kprMutexDefault = true → 0 < x.depth → Begins m t x d (⟨0, .unlockDefault .user⟩, d.give)
  | consistent : m.kprMutexDefault = false → Begins m t x d (⟨x.depth, .consistentAcquire⟩, d)
  | condWait (c : C) : (m.kprMutexDefault = true → 0 < x.depth) → Begins m t x d (⟨x.depth, .condAcquire c⟩, d)
  | condSignal (c : C) : Begins m t x d (⟨x.depth, .signalAcquire c⟩, d)
  | condBroadcast (c : C) : Begins m t x d (⟨x.depth, .broadcastAcquire c⟩, d)
  | exit : d.exited t = false → Begins m t x d (⟨x.depth, .idle⟩, { d with exited := Function.update d.exited t true })

variable {a : Call C} {r : Place C × Data T C} {l c : Lock C}

section
variable (h : (program m).call t a x d = some r)
include h

lemma begins : x.point = .idle ∧ Begins m t x d r := by
  obtain ⟨n, p⟩ := x
  cases p with
  | idle =>
    refine ⟨rfl, ?_⟩
    cases a with
    | lock =>
      cases h
      exact .lock
    | trylock =>
      cases h
      split_ifs with hm
      · exact .trylockDefault hm
      · exact .trylock (Bool.eq_false_iff.mpr hm)
    | unlock =>
      simp only [program] at h
      split_ifs at h with hm hdepth
      · cases h
        exact .unlockDefault hm hdepth
      · cases h
        exact .unlock (Bool.eq_false_iff.mpr hm)
    | consistent =>
      simp only [program] at h
      split_ifs at h with hm
      cases h
      exact .consistent (Bool.eq_false_iff.mpr hm)
    | condWait c =>
      simp only [program] at h
      split_ifs at h with hm
      cases h
      exact .condWait c fun hdefault => Nat.pos_of_ne_zero fun hzero => hm ⟨hdefault, hzero⟩
    | condSignal c =>
      cases h
      exact .condSignal c
    | condBroadcast c =>
      cases h
      exact .condBroadcast c
    | exit =>
      simp only [program] at h
      split_ifs at h with hexited
      cases h
      exact .exit (Bool.eq_false_iff.mpr hexited)
  | _ => exact nomatch h

lemma valid_call : valid m r.1 := by
  cases (begins h).2 with
  | lock | exit | condSignal c | condBroadcast c =>
    rw [valid]
    split_ifs <;> trivial
  | trylock hm | unlock hm | consistent hm =>
    rw [valid_emulated hm]
    trivial
  | trylockDefault hm =>
    rw [valid_default hm]
    trivial
  | unlockDefault hm hdepth =>
    rw [valid_default hm]
    rfl
  | condWait c hdepth =>
    rw [valid]
    split_ifs with hm
    · exact hdepth hm
    · trivial

lemma owns_call (k : Lock C) : owns m r.1 k ↔ owns m x k := by
  obtain ⟨hpoint, hbegins⟩ := begins h
  obtain ⟨n, p⟩ := x
  cases hpoint
  cases hbegins with
  | unlockDefault hm _ => cases k <;> simp_all [owns, pointOwns]
  | _ => cases k <;> simp [owns, pointOwns]

end

lemma valid_code (h : valid m x) : valid m ((program m).code t x d).point := by
  obtain ⟨n, p⟩ := x
  cases hm : m.kprMutexDefault with
  | true =>
    rw [valid_default hm] at h
    cases p with
    | lockAcquire w =>
      simp only [program, hm]
      exact valid_returnLock .success w (n + 1)
    | unlockDefault w => exact valid_returnUnlock .success n d w
    | condAcquire c =>
      simp only [program, hm]
      rw [valid_default hm]
      rfl
    | lockWait | lockRelease | lockTwice | trylockAcquire | trylockRelease | consistentAcquire | consistentRelease
    | unlockAcquire | unlockRelease => exact h.elim
    | _ =>
      rw [valid_default hm]
      trivial
  | false =>
    rw [valid_emulated hm] at h
    cases p with
    | lockAcquire w =>
      simp only [program, hm]
      rw [valid_emulated hm]
      exact validEmulated_after (.lock w) w n _
    | lockWait w =>
      rw [valid_emulated hm]
      exact validEmulated_after (.lock w) w n _
    | lockRelease r w => exact valid_returnLock r w n
    | trylockAcquire =>
      rw [valid_emulated hm]
      exact validEmulated_after .trylock .user n _
    | unlockAcquire w =>
      rw [valid_emulated hm]
      exact validEmulated_afterUnlock n w _
    | unlockRelease r w => exact valid_returnUnlock r n d w
    | unlockDefault w => exact h.elim
    | condAcquire c =>
      simp only [program, hm]
      rw [valid_emulated hm]
      trivial
    | _ =>
      rw [valid_emulated hm]
      trivial

lemma owns_acquire (h : valid m x) (hprim : (program m : Program T _ _ _ (Data T C) _).primitive x = .acquire l)
    (k : Lock C) : owns m ((program m).code t x d).point k ↔ k = l ∨ owns m x k := by
  obtain ⟨n, p⟩ := x
  cases hm : m.kprMutexDefault with
  | true =>
    rw [valid_default hm] at h
    rw [owns_default hm, owns_default hm]
    cases p with
    | lockAcquire w =>
      cases hprim
      simp only [program, hm, if_true, pointOwns_returnLock]
      cases k <;> simp [pointOwns]
    | condAcquire c =>
      cases hprim
      have hdepth : 0 < n := h
      simp only [program, hm]
      cases k <;> simp [pointOwns, hdepth]
    | signalAcquire c | broadcastAcquire c =>
      cases hprim
      cases k <;> simp [program, pointOwns]
    | lockTwice | trylockAcquire | consistentAcquire | unlockAcquire => exact h.elim
    | _ => cases hprim
  | false =>
    rw [owns_emulated hm, owns_emulated hm]
    have hmutex : ∀ {p q : Point C}, (pointOwns p k ↔ k = .mutex) → ¬ pointOwns q k →
        (pointOwns p k ↔ k = .mutex ∨ pointOwns q k) := fun hp hq => by rw [hp, or_iff_left hq]
    cases p with
    | lockAcquire w =>
      cases hprim
      simp only [program, hm]
      exact hmutex (pointOwns_after (.lock w) w n _ k) (by cases k <;> exact not_false)
    | trylockAcquire =>
      cases hprim
      exact hmutex (pointOwns_after .trylock .user n _ k) (by cases k <;> exact not_false)
    | unlockAcquire w =>
      cases hprim
      exact pointOwns_afterUnlock n w _ k
    | condAcquire c =>
      cases hprim
      simp only [program, hm]
      cases k <;> simp [pointOwns]
    | lockTwice | consistentAcquire | signalAcquire c | broadcastAcquire c =>
      cases hprim
      cases k <;> simp [program, pointOwns]
    | _ => cases hprim

lemma owns_release (h : valid m x) (hprim : (program m : Program T _ _ _ (Data T C) _).primitive x = .release l)
    (k : Lock C) : owns m ((program m).code t x d).point k ↔ k ≠ l ∧ owns m x k := by
  obtain ⟨n, p⟩ := x
  cases hm : m.kprMutexDefault with
  | true =>
    rw [valid_default hm] at h
    rw [owns_default hm, owns_default hm]
    cases p with
    | unlockDefault w =>
      cases hprim
      obtain rfl : n = 0 := h
      change pointOwns (returnUnlock .success 0 d w).point.point k ∨ _ ∧ 0 <
        (returnUnlock .success 0 d w).point.depth ↔ _
      rw [pointOwns_returnUnlock, depth_returnUnlock]
      cases w <;> cases k <;> simp [pointOwns]
    | condFail c | condRelease c | signalRelease c | broadcastRelease c =>
      cases hprim
      cases k <;> simp [program, pointOwns]
    | lockRelease | trylockRelease | consistentRelease | unlockRelease => exact h.elim
    | _ => cases hprim
  | false =>
    rw [valid_emulated hm] at h
    rw [owns_emulated hm, owns_emulated hm]
    cases p with
    | lockRelease r w =>
      cases hprim
      change pointOwns (returnLock r w) k ↔ _
      rw [iff_false_left (pointOwns_returnLock r w k)]
      cases k <;> simp [pointOwns]
    | unlockRelease r w =>
      cases hprim
      exact pointOwns_returnUnlock r n d w k
    | unlockDefault w => exact h.elim
    | trylockRelease | consistentRelease | condFail c | condRelease c | signalRelease c | broadcastRelease c =>
      cases hprim
      cases k <;> simp [program, pointOwns]
    | _ => cases hprim

lemma owns_wait (hprim : (program m : Program T _ _ _ (Data T C) _).primitive x = .wait c l) : owns m x l := by
  obtain ⟨n, p⟩ := x
  cases p <;> cases hprim
  · exact .inl trivial
  · exact .inl rfl

lemma owns_wake (h : valid m x) (hprim : (program m : Program T _ _ _ (Data T C) _).primitive x = .wait c l)
    (k : Lock C) : owns m ((program m).code t x d).point k ↔ owns m x k := by
  obtain ⟨n, p⟩ := x
  cases p with
  | lockWait w =>
    cases hm : m.kprMutexDefault with
    | true =>
      rw [valid_default hm] at h
      exact h.elim
    | false =>
      rw [owns_emulated hm, owns_emulated hm]
      have hcode : pointOwns ((program m).code t ⟨n, .lockWait w⟩ d).point.point k ↔ k = .mutex :=
        pointOwns_after (.lock w) w n _ k
      rw [hcode]
      cases k <;> simp [pointOwns]
  | condWait c l => cases k <;> exact Iff.rfl
  | _ => cases hprim

lemma discipline (m : Attributes) :
    (program m : Program T (Lock C) (Lock C) (Place C) (Data T C) (Call C)).Discipline (valid m) (owns m) where
  valid_call _ := valid_call
  valid_code := valid_code
  call _ := owns_call
  acquire := owns_acquire
  release := owns_release
  wait _ := owns_wait
  wake := owns_wake

end

lemma valid_initial (m : Attributes) (t : T) : valid m ((initial : State T (Lock C) _ _).thread t).point := by
  rw [valid]
  split_ifs <;> trivial

lemma owned_initial [DecidableEq T] [DecidableEq C] (m : Attributes) :
    (program m).Owned (owns m) (initial : State T (Lock C) (Place C) (Data T C)) := by
  intro l t
  refine ⟨fun h => (nomatch h), fun h => ?_⟩
  obtain h | ⟨_, _, h⟩ := h
  · cases l <;> exact h.elim
  · exact absurd h (Nat.lt_irrefl 0)

end Pthread.Mutex
