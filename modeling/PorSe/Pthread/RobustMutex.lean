import PorSe.Pthread.MutexSteps

/-! Robust mutexes: what becomes of an unusable mutex, and of a mutex whose holder has exited. -/

namespace Pthread.Mutex
open Concurrent Option Program
variable {T C : Type*} {m : Attributes} {s s' : State T (Lock C) (Place C) (Data T C)} {t : T}

lemma emulated_of_robust (hrobust : m.robust = .robust) : m.kprMutexDefault = false := by
  simp [Attributes.kprMutexDefault, hrobust]

/-! ## Unusable mutexes -/

def Returning (r : Result) (st : Status (Place C)) : Prop :=
  ∃ n, (∃ w, st = .running ⟨n, .lockRelease r w⟩) ∨ st = .running ⟨n, .trylockRelease r⟩

def inWait : Status (Place C) → Bool
  | .waiting ⟨_, .lockWait _⟩ | .notified ⟨_, .lockWait _⟩ => true
  | _ => false

def NobodyWaits (s : State T (Lock C) (Place C) (Data T C)) (_ : T)
    (s' : State T (Lock C) (Place C) (Data T C)) : Prop :=
  s.data.robustState ≠ .unusable → s'.data.robustState = .unusable → ∀ u, inWait (s.thread u) = false

instance [Fintype T] : Decidable (NobodyWaits s t s') := inferInstanceAs (Decidable (_ → _ → ∀ _, _))

/-- While the mutex is unusable, nobody waits for it or returns with it. -/
def Closed (s : State T (Lock C) (Place C) (Data T C)) : Prop :=
  s.data.robustState = .unusable → ∀ u, Plain (s.thread u).point.point

lemma plain_of_free [DecidableEq T] [DecidableEq C] (howned : (program m).Owned (owns m) s)
    (hfree : s.holder .mutex = none)
    (hwait : ∀ u, inWait (s.thread u) = false) (u : T) : Plain (s.thread u).point.point := by
  have hnot := howned.not_holds (t := u) hfree
  have hwait := hwait u
  cases hst : s.thread u with
  | running x =>
    obtain ⟨n, p⟩ := x
    rw [hst] at hnot
    cases p with
    | lockWait | lockRelease | trylockRelease => exact absurd (.inl trivial) hnot
    | _ => trivial
  | waiting x | notified x =>
    obtain ⟨n, p⟩ := x
    rw [hst] at hnot hwait
    cases p with
    | lockWait => exact nomatch hwait
    | lockRelease | trylockRelease => exact absurd ⟨.inl trivial, nofun⟩ hnot
    | _ => trivial

lemma plain_of_arrives {i : Internal} {n : ℕ} {y : Place C} (h : Arrives i n y) (hwait : i ≠ .wait)
    (hret : ∀ r, i = .ret r → r ≠ .success ∧ r ≠ .EOWNERDEAD) : Plain y.point := by
  cases i with
  | ret r =>
    obtain ⟨_, ⟨w, hy⟩ | hy⟩ := h <;> rw [hy] <;> exact hret r rfl
  | wait => exact absurd rfl hwait
  | twice | assertion => exact h.2

variable [DecidableEq T]

variable {st : Status (Place C)} {d : Data T C}

/-- An unusable mutex stays so, and no thread comes to wait for it or to return with it. -/
lemma Moves.unusable (h : Moves m s t st d) (hrobust : m.robust = .robust)
    (hunusable : s.data.robustState = .unusable) (hplain : Plain (s.thread t).point.point) :
    d.robustState = .unusable ∧ Plain st.point.point := by
  have hm := emulated_of_robust hrobust
  cases h with
  | sleep hx =>
    rw [hx] at hplain
    exact ⟨hunusable, hplain⟩
  | quiet _ hsame hp => exact ⟨hsame.2.2.1.trans hunusable, hp⟩
  | exit _ _ hp => exact ⟨hunusable, hp⟩
  | takeDefault hdefault | giveDefault hdefault => exact nomatch hm.symm.trans hdefault
  | @lock x y woken i _ _ _ hx heffect harrives =>
    have hwoken : woken = false := by
      obtain ⟨_, hwoken⟩ | ⟨hx, w, hw⟩ := hx
      · exact hwoken
      · -- a thread that waits does not stand at such a point
        rw [hx] at hplain
        change Plain x.point at hplain
        rw [hw] at hplain
        exact hplain.elim
    cases heffect with
    | refuse h1 h2 => exact ⟨hunusable, plain_of_arrives harrives nofun fun r hr => by cases hr; exact ⟨h1, h2⟩⟩
    | halt hi => obtain rfl | rfl := hi <;> exact ⟨hunusable, harrives.2⟩
    | wait husable => exact absurd hunusable (husable hrobust).1
    | take husable => exact absurd hunusable (husable hwoken hrobust)
    | again husable => exact absurd hunusable (husable hrobust)
    | ownerDead _ husable => exact absurd hunusable husable
  | kept _ _ _ heffect =>
    cases heffect with
    | fail hfail => simp at hfail
    | kept => exact ⟨hunusable, trivial⟩
  | given _ _ _ heffect =>
    cases heffect with
    | fail hfail => simp at hfail
    | given _ hs =>
      obtain rfl | ⟨_, rfl, _⟩ := hs
      · exact ⟨hunusable, trivial⟩
      · exact ⟨rfl, trivial⟩
  | consistent _ _ hinconsistent => exact nomatch hunusable.symm.trans hinconsistent

lemma Moves.becomes_unusable (h : Moves m s t st d) (husable : s.data.robustState ≠ .unusable)
    (hunusable : d.robustState = .unusable) : s.holder .mutex = none ∧ Plain st.point.point := by
  cases h with
  | sleep | exit | takeDefault | giveDefault => exact absurd hunusable husable
  | quiet _ hsame => exact absurd (hsame.2.2.1.symm.trans hunusable) husable
  | lock _ _ _ heffect =>
    cases heffect with
    | ownerDead => exact nomatch hunusable
    | _ => exact absurd hunusable husable
  | kept _ _ _ heffect =>
    cases heffect with
    | fail hfail => simp at hfail
    | kept => exact absurd hunusable husable
  | given _ hfree => exact ⟨hfree, trivial⟩
  | consistent => exact nomatch hunusable

variable [DecidableEq C]

lemma Closed.step (hrobust : m.robust = .robust) (hvalid : valid m (s.thread t).point)
    (howned : (program m).Owned (owns m) s) (h : Closed s) (hstep : (program m).Step s t s')
    (hallowed : NobodyWaits s t s') : Closed s' := by
  obtain ⟨hmoves, hothers⟩ := step_moves hvalid howned hstep
  have hpoints : Plain (s'.thread t).point.point → (∀ u, Plain (s.thread u).point.point) →
      ∀ u, Plain (s'.thread u).point.point := by
    intro ht hplain u
    by_cases hu : u = t
    · rw [hu]
      exact ht
    · rw [point_of_step (hothers u hu)]
      exact hplain u
  intro hunusable'
  by_cases hunusable : s.data.robustState = .unusable
  · exact hpoints (hmoves.unusable hrobust hunusable (h hunusable t)).2 (h hunusable)
  · obtain ⟨hfree, ht⟩ := hmoves.becomes_unusable hunusable hunusable'
    exact hpoints ht (plain_of_free howned hfree (hallowed hunusable hunusable'))

lemma closed_of_reaches (hrobust : m.robust = .robust) (hs : (program m).Reaches NobodyWaits initial s) : Closed s := by
  apply hs.invariant_of_discipline (discipline m) (valid_initial m) (owned_initial m)
  · exact nofun
  · intro s t s' hvalid howned ih hstep hallowed
    exact ih.step hrobust (hvalid t) howned hstep hallowed

/-- If nobody waits when the mutex becomes unusable, it stays so, and no call returns with it later. -/
theorem unusable_stays (hrobust : m.robust = .robust) (hs : (program m).Reaches NobodyWaits initial s)
    (hunusable : s.data.robustState = .unusable) (hs' : (program m).Reaches NobodyWaits s s') :
    s'.data.robustState = .unusable ∧ ∀ t r, Returning r (s'.thread t) → r ≠ .success ∧ r ≠ .EOWNERDEAD := by
  have hstays : s'.data.robustState = .unusable := by
    apply hs'.invariant hunusable
    intro s1 t s2 hreach ih hstep _
    have hreach := hs.trans hreach
    have hvalid := hreach.valid_point (discipline m) (valid_initial m) t
    have howned := hreach.owned (discipline m) (valid_initial m) (owned_initial m)
    obtain ⟨hmoves, _⟩ := step_moves hvalid howned hstep
    exact (hmoves.unusable hrobust ih (closed_of_reaches hrobust hreach ih t)).1
  refine ⟨hstays, fun t r hreturning => ?_⟩
  have hplain := closed_of_reaches hrobust (hs.trans hs') hstays t
  obtain ⟨n, ⟨w, ht⟩ | ht⟩ := hreturning <;> rw [ht] at hplain <;> exact hplain

def robustMutex : Attributes := ⟨.normal, .robust, .unknown⟩

/-- The second thread finds the first one dead and unlocks without making the mutex consistent. The third comes later.
-/
theorem unusable_stays_unlocked : ∃ s s' : State (Fin 3) (Lock Empty) (Place Empty) (Data (Fin 3) Empty),
      (program robustMutex).Reaches NobodyWaits initial s ∧ s.data.robustState = .unusable ∧
      (program robustMutex).Reaches NobodyWaits s s' ∧ Returning .EINVAL (s'.thread 2) ∧
      ∀ r, Returning r (s'.thread 2) → r ≠ .success ∧ r ≠ .EOWNERDEAD := by
  have hrun : ((program robustMutex).runWhile (fun s t s' => NobodyWaits s t s')
      (initial : State (Fin 3) (Lock Empty) (Place Empty) (Data (Fin 3) Empty))
      [(0, .call .lock), (0, .go), (0, .go), (0, .call .exit), (1, .call .lock), (1, .go), (1, .go),
        (1, .call .unlock), (1, .go), (1, .go)]).bind
      (fun s => ((program robustMutex).runWhile (fun s t s' => NobodyWaits s t s') s
        [(2, .call .lock), (2, .go)]).map fun s' => (s.data.robustState, s'.thread 2)) =
      some (.unusable, .running ⟨0, .lockRelease .EINVAL .user⟩) := rfl
  obtain ⟨s, hs, hrun⟩ := bind_eq_some_iff.mp hrun
  obtain ⟨s', hs', heq⟩ := map_eq_some_iff.mp hrun
  obtain ⟨hunusable, hthread⟩ := Prod.mk.inj heq
  have hs := reaches_of_runWhile _ hs
  have hs' := reaches_of_runWhile _ hs'
  obtain ⟨_, hreturns⟩ := unusable_stays rfl hs hunusable hs'
  exact ⟨s, s', hs, hunusable, hs', ⟨0, .inl ⟨.user, hthread⟩⟩, hreturns 2⟩

/-- The third thread waits when the mutex becomes unusable, and returns with it. -/
theorem unusable_mutex_locked : ∃ s s' : State (Fin 3) (Lock Empty) (Place Empty) (Data (Fin 3) Empty),
      (program robustMutex).Reachable initial s ∧ s.data.robustState = .unusable ∧
      (program robustMutex).Reachable s s' ∧ Returning .success (s'.thread 2) :=
  ⟨_, _, reachable_of_run [(0, .call .lock), (0, .go), (0, .go), (0, .call .exit), (1, .call .lock), (1, .go), (1, .go),
      (2, .call .lock), (2, .go), (2, .go), (1, .call .unlock), (1, .notify 2)] rfl, rfl,
    reachable_of_run [(1, .go), (2, .go)] rfl, 1, .inl ⟨.user, rfl⟩⟩

/-! ## Exited holders -/

/-- In the wait of `pthread_mutex_lock` without having been notified, or about to begin it. -/
def unnotified : Status (Place C) → Bool
  | .running ⟨_, .lockWait _⟩ | .waiting ⟨_, .lockWait _⟩ => true
  | _ => false

/-- An exited thread makes no step, and the holder does not exit while a thread waits. -/
def Careful (s : State T (Lock C) (Place C) (Data T C)) (t : T) (s' : State T (Lock C) (Place C) (Data T C)) : Prop :=
  s.data.exited t = false ∧
    (s'.data.exited t = true → s.data.holdingThread = some t → ∀ u, unnotified (s.thread u) = false)

instance [Fintype T] : Decidable (Careful s t s') := inferInstanceAs (Decidable (_ ∧ (_ → _ → ∀ _, _)))

def Watched (s : State T (Lock C) (Place C) (Data T C)) : Prop :=
  ∀ h, s.data.holdingThread = some h → s.data.exited h = true → ∀ u, unnotified (s.thread u) = false

omit [DecidableEq T] [DecidableEq C] in
lemma unnotified_of_plain (h : Plain st.point.point) : unnotified st = false := by
  obtain ⟨n, p⟩ | ⟨n, p⟩ | ⟨n, p⟩ := st <;> cases p <;> first | rfl | exact h.elim

omit [DecidableEq C] in
lemma Moves.exited_holder {h : T} (hmoves : Moves m s t st d) (hrobust : m.robust = .robust)
    (hlive : s.data.exited t = false) (hholder : d.holdingThread = some h) (hexited : d.exited h = true) :
    s.data.holdingThread = some h ∧ (s.data.exited h = true ∨ h = t) ∧
      (unnotified (s.thread t) = false → unnotified st = false) := by
  have hm := emulated_of_robust hrobust
  cases hmoves with
  | @sleep x hx =>
    refine ⟨hholder, .inl hexited, fun hw => ?_⟩
    obtain ⟨n, p⟩ := x
    rw [hx] at hw
    cases p <;> exact hw
  | quiet _ hsame hp =>
    obtain ⟨_, hholding, _, hexit⟩ := hsame
    exact ⟨hholding.symm.trans hholder, .inl (hexit ▸ hexited), fun _ => unnotified_of_plain hp⟩
  | exit _ _ hp =>
    refine ⟨hholder, ?_, fun _ => unnotified_of_plain hp⟩
    by_cases ht : h = t
    · exact .inr ht
    · exact .inl ((Function.update_of_ne ht true s.data.exited).symm.trans hexited)
  | takeDefault hdefault | giveDefault hdefault => exact nomatch hm.symm.trans hdefault
  | lock _ _ _ heffect harrives =>
    cases heffect with
    | refuse h1 h2 =>
      have hplain := plain_of_arrives harrives nofun fun r hr => by cases hr; exact ⟨h1, h2⟩
      exact ⟨hholder, .inl hexited, fun _ => unnotified_of_plain hplain⟩
    | halt hi => obtain rfl | rfl := hi <;> exact ⟨hholder, .inl hexited, fun _ => unnotified_of_plain harrives.2⟩
    | wait hwait =>
      obtain ⟨_, h', hh', halive⟩ := hwait hrobust
      cases hh'.symm.trans hholder
      exact nomatch halive.symm.trans hexited
    | take | ownerDead =>
      cases hholder
      exact nomatch hlive.symm.trans hexited
    | again _ _ hholds =>
      cases hholds.symm.trans hholder
      exact nomatch hlive.symm.trans hexited
  | kept _ _ _ heffect =>
    cases heffect with
    | fail hfail => simp at hfail
    | kept => exact ⟨hholder, .inl hexited, fun _ => rfl⟩
  | given _ _ _ heffect =>
    cases heffect with
    | fail hfail => simp at hfail
    | given => exact nomatch hholder
  | consistent => exact ⟨hholder, .inl hexited, fun _ => rfl⟩

lemma Watched.step (hrobust : m.robust = .robust) (hvalid : valid m (s.thread t).point)
    (howned : (program m).Owned (owns m) s) (h : Watched s) (hstep : (program m).Step s t s')
    (hallowed : Careful s t s') : Watched s' := by
  intro k hholder hexited
  obtain ⟨hmoves, hothers⟩ := step_moves hvalid howned hstep
  obtain ⟨hlive, hcareful⟩ := hallowed
  obtain ⟨hbefore, hk, ht⟩ := hmoves.exited_holder hrobust hlive hholder hexited
  have hnone : ∀ u, unnotified (s.thread u) = false := by
    obtain hk | rfl := hk
    · exact h k hbefore hk
    · exact hcareful hexited hbefore
  intro u
  by_cases hu : u = t
  · rw [hu]
    exact ht (hnone t)
  · obtain heq | ⟨x, _, hx'⟩ := hothers u hu
    · rw [heq]
      exact hnone u
    · rw [hx']
      rfl

/-- If no holder exits while a thread waits, nobody waits for an exited holder. -/
theorem no_waiter_of_exited_holder (hrobust : m.robust = .robust) (hs : (program m).Reaches Careful initial s) {h : T}
    (hholder : s.data.holdingThread = some h) (hexited : s.data.exited h = true) (u : T) (n : ℕ) (w : Locker) :
    s.thread u ≠ .waiting ⟨n, .lockWait w⟩ := by
  have hwatched : Watched s := by
    apply hs.invariant_of_discipline (discipline m) (valid_initial m) (owned_initial m)
    · exact nofun
    · intro s t s' hvalid howned ih hstep hallowed
      exact ih.step hrobust (hvalid t) howned hstep hallowed
  intro hu
  have hwait := hwatched h hholder hexited u
  rw [hu] at hwait
  exact nomatch hwait

theorem no_waiter_of_exited_holder_two : ∃ s : State (Fin 2) (Lock Empty) (Place Empty) (Data (Fin 2) Empty),
      (program robustMutex).Reaches Careful initial s ∧ s.data.holdingThread = some 0 ∧ s.data.exited 0 = true ∧
      ∀ u n w, s.thread u ≠ .waiting ⟨n, .lockWait w⟩ := by
  have hrun : ((program robustMutex).runWhile (fun s t s' => Careful s t s')
      (initial : State (Fin 2) (Lock Empty) (Place Empty) (Data (Fin 2) Empty))
      [(0, .call .lock), (0, .go), (0, .go), (0, .call .exit), (1, .call .lock)]).map
      (fun s => (s.data.holdingThread, s.data.exited 0)) = some (some 0, true) := rfl
  obtain ⟨s, hs, heq⟩ := map_eq_some_iff.mp hrun
  obtain ⟨hholder, hexited⟩ := Prod.mk.inj heq
  have hs := reaches_of_runWhile _ hs
  exact ⟨s, hs, hholder, hexited, no_waiter_of_exited_holder rfl hs hholder hexited⟩

/-- The holder exits while another thread waits, which nobody notifies. -/
theorem exited_holder_with_waiter : ∃ s : State (Fin 2) (Lock Empty) (Place Empty) (Data (Fin 2) Empty),
      (program robustMutex).Reachable initial s ∧ s.data.holdingThread = some 0 ∧ s.data.exited 0 = true ∧
      s.thread 1 = .waiting ⟨0, .lockWait .user⟩ :=
  ⟨_, reachable_of_run [(0, .call .lock), (0, .go), (0, .go), (1, .call .lock), (1, .go), (1, .go),
    (0, .call .exit)] rfl,
    rfl, rfl, rfl⟩

end Pthread.Mutex
