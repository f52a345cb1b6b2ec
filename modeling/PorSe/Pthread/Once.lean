import PorSe.Lib.Concurrent

/-! `pthread_once` of `runtime/POSIX/pthread/misc/once.c`. The control object's mutex is a default one,
so that `pthread_mutex_lock` and `pthread_mutex_unlock` are `klee_lock_acquire` and `klee_lock_release`. -/

namespace Pthread.Once
open Concurrent
variable {T : Type*}

/-- The primitive about to be performed; `oncefunc` is the run of the init routine. -/
inductive Point
  | idle
  | lock
  | unlockAndReturn
  | unlockAndCall
  | oncefunc
  deriving DecidableEq

structure Data where
  called : ℤ
  initCalls : ℕ
  initReturned : Bool
  returns : ℕ

def pthreadOnce : Program T Unit Empty Point Data Unit where
  primitive
    | .idle | .oncefunc => .call
    | .lock => .acquire ()
    | .unlockAndReturn | .unlockAndCall => .release ()
  call _ _
    | .idle, d => some (.lock, d)
    | .oncefunc, d => some (.idle, { d with initReturned := true, returns := d.returns + 1 })
    | _, _ => none
  code _
    | .lock, d => if d.called ≠ 0 then ⟨.unlockAndReturn, d, .nobody⟩ else
        ⟨.unlockAndCall, { d with called := 1 }, .nobody⟩
    | .unlockAndReturn, d => ⟨.idle, { d with returns := d.returns + 1 }, .nobody⟩
    | .unlockAndCall, d => ⟨.oncefunc, { d with initCalls := d.initCalls + 1 }, .nobody⟩
    | p, d => ⟨p, d, .nobody⟩

def initial : State T Unit Point Data := ⟨⟨0, 0, false, 0⟩, fun _ => none, fun _ => .running .idle⟩

/-- The thread does not take the mutex while the init routine runs. -/
def NotOvertaking (s : State T Unit Point Data) (t : T) (_ : State T Unit Point Data) : Prop :=
  s.thread t = .running .lock → ∀ u, s.thread u ≠ .running .oncefunc

def owns (p : Point) (_ : Unit) : Prop := p = .unlockAndReturn ∨ p = .unlockAndCall

/-- The call has not reached the flag, or it returns without a call of the init routine. -/
def Outside (waits : Prop) (st : Status Point) : Prop :=
  st = .running .idle ∨ st = .running .lock ∨ (¬ waits ∧ st = .running .unlockAndReturn)

/-- The course of a run. With `strict`, no call passes the init routine while it runs. -/
inductive Phase (strict : Prop) (s : State T Unit Point Data) : Prop
  | before (hdata : s.data = ⟨0, 0, false, 0⟩) (hall : ∀ u, Outside True (s.thread u))
  | claimed (t : T) (ht : s.thread t = .running .unlockAndCall) (hdata : s.data = ⟨1, 0, false, 0⟩)
      (hall : ∀ u, u ≠ t → Outside True (s.thread u))
  | running (t : T) (n : ℕ) (ht : s.thread t = .running .oncefunc) (hdata : s.data = ⟨1, 1, false, n⟩)
      (hstrict : strict → n = 0) (hall : ∀ u, u ≠ t → Outside strict (s.thread u))
  | done (n : ℕ) (hdata : s.data = ⟨1, 1, true, n⟩) (hall : ∀ u, Outside False (s.thread u))

lemma discipline : (pthreadOnce : Program T Unit Empty Point Data Unit).Discipline (fun _ => True) owns where
  valid_call _ _ := trivial
  valid_code _ := trivial
  call := by
    rintro t a (_ | _ | _ | _ | _) d r _ hr k <;> cases hr <;> simp [owns]
  acquire := by
    rintro t (_ | _ | _ | _ | _) d l _ hprim k <;> cases hprim
    simp only [pthreadOnce]
    split_ifs <;> simp [owns]
  release := by
    rintro t (_ | _ | _ | _ | _) d l _ hprim k <;> cases hprim <;> simp [owns, pthreadOnce]
  wait := by rintro (_ | _ | _ | _ | _) c l _ hprim <;> cases hprim
  wake := by rintro t (_ | _ | _ | _ | _) d c l _ hprim <;> cases hprim

lemma owned_initial : pthreadOnce.Owned owns (initial : State T Unit Point Data) := by
  intro l t
  simp [initial, Program.holds, owns]

variable [DecidableEq T] {s s' : State T Unit Point Data} {t : T}

lemma step_cases (h : pthreadOnce.Step s t s') : (s.thread t = .running .idle ∧ s' = s.goto t (.lock, s.data)) ∨
    (s.thread t = .running .lock ∧ s.holder () = none ∧ s.data.called = 0 ∧
      s' = (s.setHolder () (some t)).goto t (.unlockAndCall, { s.data with called := 1 })) ∨
    (s.thread t = .running .lock ∧ s.holder () = none ∧ s.data.called ≠ 0 ∧
      s' = (s.setHolder () (some t)).goto t (.unlockAndReturn, s.data)) ∨
    (s.thread t = .running .unlockAndCall ∧
      s' = (s.setHolder () none).goto t (.oncefunc, { s.data with initCalls := s.data.initCalls + 1 })) ∨
    (s.thread t = .running .unlockAndReturn ∧
      s' = (s.setHolder () none).goto t (.idle, { s.data with returns := s.data.returns + 1 })) ∨
    (s.thread t = .running .oncefunc ∧
      s' = s.goto t (.idle, { s.data with initReturned := true, returns := s.data.returns + 1 })) := by
  cases h with
  | @call p a r hp hprim hr =>
    cases p <;> cases hprim <;> cases hr
    · exact .inl ⟨hp, rfl⟩
    · exact .inr (.inr (.inr (.inr (.inr ⟨hp, rfl⟩))))
  | @acquire p l _ hp hprim hfree hn =>
    cases p <;> cases hprim
    by_cases hcalled : s.data.called = 0
    · refine .inr (.inl ⟨hp, hfree, hcalled, ?_⟩)
      simp only [pthreadOnce, hcalled, ne_eq, not_true_eq_false, if_false, Program.notifies_nobody] at hn ⊢
      rw [hn]
      rfl
    · refine .inr (.inr (.inl ⟨hp, hfree, hcalled, ?_⟩))
      simp only [pthreadOnce, hcalled, ne_eq, not_false_eq_true, if_true, Program.notifies_nobody] at hn ⊢
      rw [hn]
      rfl
  | @release p l _ hp hprim _ hn =>
    cases p <;> cases hprim <;> cases hn
    · exact .inr (.inr (.inr (.inr (.inl ⟨hp, rfl⟩))))
    · exact .inr (.inr (.inr (.inl ⟨hp, rfl⟩)))
  | @wait p c | @wake p c => exact c.elim

lemma Outside.mono {waits waits' : Prop} (himp : waits' → waits) {st : Status Point} (h : Outside waits st) :
    Outside waits' st := by
  obtain h | h | ⟨hnot, h⟩ := h
  · exact .inl h
  · exact .inr (.inl h)
  · exact .inr (.inr ⟨fun h' => hnot (himp h'), h⟩)

lemma Outside.goto {waits : Prop} {X : T → Prop} (h : ∀ u, X u → Outside waits (s.thread u)) {r : Point × Data}
    (hr : Outside waits (.running r.1)) (u : T) (hu : X u) : Outside waits ((s.goto t r).thread u) := by
  rw [State.goto_thread]
  split_ifs
  · exact hr
  · exact h u hu

lemma Outside.other {waits : Prop} {p : Point} (h : Outside waits (.running p)) :
    p ≠ .unlockAndCall ∧ p ≠ .oncefunc ∧ (waits → p ≠ .unlockAndReturn) := by
  obtain h | h | ⟨hnot, h⟩ := h <;> cases h
  · exact ⟨nofun, nofun, nofun⟩
  · exact ⟨nofun, nofun, nofun⟩
  · exact ⟨nofun, nofun, fun hw => absurd hw hnot⟩

section
variable {strict : Prop} (h : Phase strict s)
include h

lemma Phase.call (ht : s.thread t = .running .idle) : Phase strict (s.goto t (.lock, s.data)) := by
  have hlock : ∀ waits, Outside waits (.running .lock) := fun _ => .inr (.inl rfl)
  cases h with
  | before hdata hall =>
    exact .before hdata fun u =>
      Outside.goto (X := fun _ => True) (fun u _ => hall u) (hlock _) u trivial
  | claimed v hv hdata hall =>
    exact .claimed v (State.goto_thread_of_point _ hv (by rw [ht]; nofun)) hdata (Outside.goto hall (hlock _))
  | running v n hv hdata hstrict hall =>
    exact .running v n (State.goto_thread_of_point _ hv (by rw [ht]; nofun)) hdata hstrict (Outside.goto hall (hlock _))
  | done n hdata hall =>
    exact .done n hdata fun u =>
      Outside.goto (X := fun _ => True) (fun u _ => hall u) (hlock _) u trivial

lemma Phase.claim (hcalled : s.data.called = 0) :
    Phase strict (s.goto t (.unlockAndCall, { s.data with called := 1 })) := by
  cases h with
  | before hdata hall =>
    refine .claimed t (State.goto_thread_self ..) ?_ fun u hu => ?_
    · rw [State.goto_data, hdata]
    · rw [State.goto_thread_of_ne _ hu]
      exact hall u
  | claimed v hv hdata hall | running v n hv hdata hstrict hall | done n hdata hall =>
    rw [hdata] at hcalled
    exact nomatch hcalled

lemma Phase.pass (ht : s.thread t = .running .lock) (hcalled : s.data.called ≠ 0)
    (hfree : ∀ u, s.thread u ≠ .running .unlockAndCall) (hallowed : strict → ∀ u, s.thread u ≠ .running .oncefunc) :
    Phase strict (s.goto t (.unlockAndReturn, s.data)) := by
  cases h with
  | before hdata hall =>
    rw [hdata] at hcalled
    exact absurd rfl hcalled
  | claimed v hv hdata hall => exact absurd hv (hfree v)
  | running v n hv hdata hstrict hall =>
    have hnot : ¬ strict := fun hs => hallowed hs v hv
    exact .running v n (State.goto_thread_of_point _ hv (by rw [ht]; nofun)) hdata hstrict
      (Outside.goto hall (.inr (.inr ⟨hnot, rfl⟩)))
  | done n hdata hall =>
    exact .done n hdata fun u =>
      Outside.goto (X := fun _ => True) (fun u _ => hall u) (.inr (.inr ⟨not_false, rfl⟩)) u trivial

lemma Phase.callInit (ht : s.thread t = .running .unlockAndCall) :
    Phase strict (s.goto t (.oncefunc, { s.data with initCalls := s.data.initCalls + 1 })) := by
  have hnot : ∀ {waits}, ¬ Outside waits (s.thread t) := fun ho => by
    rw [ht] at ho
    exact ho.other.1 rfl
  cases h with
  | before hdata hall => exact absurd (hall t) hnot
  | claimed v hv hdata hall =>
    obtain rfl : t = v := by_contra fun hne => hnot (hall t hne)
    refine .running t 0 (State.goto_thread_self ..) ?_ (fun _ => rfl) fun u hu => ?_
    · rw [State.goto_data, hdata]
    · rw [State.goto_thread_of_ne _ hu]
      exact (hall u hu).mono fun _ => trivial
  | running v n hv hdata _ hall =>
    refine absurd (hall t ?_) hnot
    rintro rfl
    exact nomatch hv.symm.trans ht
  | done n hdata hall => exact absurd (hall t) hnot

lemma Phase.returns (ht : s.thread t = .running .unlockAndReturn) :
    Phase strict (s.goto t (.idle, { s.data with returns := s.data.returns + 1 })) := by
  have hnot : ∀ {waits}, waits → ¬ Outside waits (s.thread t) := fun hw ho => by
    rw [ht] at ho
    exact ho.other.2.2 hw rfl
  cases h with
  | before hdata hall => exact absurd (hall t) (hnot trivial)
  | claimed v hv hdata hall =>
    refine absurd (hall t ?_) (hnot trivial)
    rintro rfl
    exact nomatch hv.symm.trans ht
  | running v n hv hdata _ hall =>
    have hne : t ≠ v := by
      rintro rfl
      exact nomatch hv.symm.trans ht
    refine .running v (n + 1) (State.goto_thread_of_point _ hv (by rw [ht]; nofun)) ?_
      (fun hs => absurd (hall t hne) (hnot hs)) (Outside.goto hall (.inl rfl))
    rw [State.goto_data, hdata]
  | done n hdata hall =>
    refine .done (n + 1) ?_ fun u => Outside.goto (X := fun _ => True) (fun u _ => hall u) (.inl rfl) u trivial
    rw [State.goto_data, hdata]

lemma Phase.initReturns (ht : s.thread t = .running .oncefunc) :
    Phase strict (s.goto t (.idle, { s.data with initReturned := true, returns := s.data.returns + 1 })) := by
  have hnot : ∀ {waits}, ¬ Outside waits (s.thread t) := fun ho => by
    rw [ht] at ho
    exact ho.other.2.1 rfl
  cases h with
  | before hdata hall => exact absurd (hall t) hnot
  | claimed v hv hdata hall =>
    refine absurd (hall t ?_) hnot
    rintro rfl
    exact nomatch hv.symm.trans ht
  | running v n hv hdata _ hall =>
    obtain rfl : t = v := by_contra fun hne => hnot (hall t hne)
    refine .done (n + 1) ?_ fun u => ?_
    · rw [State.goto_data, hdata]
    · rw [State.goto_thread]
      split_ifs with hu
      · exact .inl rfl
      · exact (hall u hu).mono False.elim
  | done n hdata hall => exact absurd (hall t) hnot

end

omit [DecidableEq T] in
lemma Phase.setHolder {strict : Prop} (h : Phase strict s) (l : Unit) (o : Option T) :
    Phase strict (s.setHolder l o) := by
  cases h with
  | before hdata hall => exact .before hdata hall
  | claimed v hv hdata hall => exact .claimed v hv hdata hall
  | running v n hv hdata hstrict hall => exact .running v n hv hdata hstrict hall
  | done n hdata hall => exact .done n hdata hall

lemma Phase.step {strict : Prop} (h : Phase strict s) (howned : pthreadOnce.Owned owns s)
    (hstep : pthreadOnce.Step s t s') (hallowed : strict → NotOvertaking s t s') : Phase strict s' := by
  obtain ⟨ht, rfl⟩ | ⟨ht, hfree, hcalled, rfl⟩ | ⟨ht, hfree, hcalled, rfl⟩ | ⟨ht, rfl⟩ | ⟨ht, rfl⟩ | ⟨ht, rfl⟩ :=
    step_cases hstep
  · exact h.call ht
  · exact (h.setHolder () (some t)).claim hcalled
  · refine (h.setHolder () (some t)).pass ht hcalled (fun u (hu : s.thread u = _) => ?_) (fun hs => hallowed hs ht)
    refine howned.not_holds (t := u) hfree ?_
    rw [hu]
    exact .inr rfl
  · exact (h.setHolder () none).callInit ht
  · exact (h.setHolder () none).returns ht
  · exact h.initReturns ht

lemma Phase.of_reaches {strict : Prop} {allowed : State T Unit Point Data → T → State T Unit Point Data → Prop}
    (hallowed : ∀ s t s', strict → allowed s t s' → NotOvertaking s t s')
    (h : pthreadOnce.Reaches allowed initial s) : Phase strict s :=
  h.invariant (.before rfl fun _ => .inl rfl) fun s t s' hreach ih hstep ha =>
    ih.step (hreach.owned discipline (fun _ => trivial) owned_initial) hstep fun hs => hallowed s t s' hs ha

/-- The init routine is called at most once, and once if a call has returned; it has returned then if no thread takes
the mutex meanwhile. -/
theorem pthreadOnce_correct : (∀ s, pthreadOnce.Reachable (initial : State T Unit Point Data) s →
      s.data.initCalls ≤ 1 ∧ (0 < s.data.returns → s.data.initCalls = 1)) ∧
    ∀ s, pthreadOnce.Reaches NotOvertaking (initial : State T Unit Point Data) s →
      0 < s.data.returns → s.data.initReturned = true := by
  constructor
  · intro s hs
    have hphase : Phase False s := .of_reaches (fun _ _ _ => False.elim) hs
    cases hphase with
    | before hdata _ | claimed _ _ hdata _ | running _ _ _ hdata _ _ | done _ hdata _ => simp [hdata]
  · intro s hs hreturns
    have hphase : Phase True s := .of_reaches (fun _ _ _ _ ha => ha) hs
    cases hphase with
    | before hdata _ | claimed _ _ hdata _ =>
      rw [hdata] at hreturns
      exact absurd hreturns (Nat.lt_irrefl 0)
    | running _ n _ hdata hstrict _ =>
      rw [hdata, hstrict trivial] at hreturns
      exact absurd hreturns (Nat.lt_irrefl 0)
    | done _ hdata _ => rw [hdata]

instance (s s' : State (Fin 2) Unit Point Data) (t : Fin 2) : Decidable (NotOvertaking s t s') :=
  inferInstanceAs (Decidable (_ → ∀ _, _))

/-- The second call takes the mutex after the init routine has returned. -/
theorem pthreadOnce_correct_inTurn : ∃ s,
    pthreadOnce.Reaches NotOvertaking (initial : State (Fin 2) Unit Point Data) s ∧
      s.data.returns = 2 ∧ s.data.initReturned = true := by
  obtain ⟨s, hs, hreturns⟩ := (Option.any_eq_true _ _).mp (by decide :
    ((pthreadOnce.runWhile (fun s t s' => NotOvertaking s t s')
      (initial : State (Fin 2) Unit Point Data) [(0, .call ()), (1, .call ()), (0, .go), (0, .go),
        (0, .call ()), (1, .go), (1, .go)]).any fun s => s.data.returns = 2) = true)
  have hreach := Program.reaches_of_runWhile _ hs
  have hreturns := of_decide_eq_true hreturns
  exact ⟨s, hreach, hreturns, pthreadOnce_correct.2 s hreach (by omega)⟩

/-- A second call returns while the init routine runs. -/
theorem pthreadOnce_overtakes : ∃ s, pthreadOnce.Reachable (initial : State (Fin 2) Unit Point Data) s ∧
      0 < s.data.returns ∧ s.data.initReturned = false :=
  ⟨_, Program.reachable_of_run [(0, .call ()), (1, .call ()), (0, .go), (0, .go), (1, .go), (1, .go)] rfl,
    Nat.one_pos, rfl⟩

end Pthread.Once
