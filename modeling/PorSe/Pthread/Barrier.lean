import PorSe.Pthread.CondMonitor

/-! The barriers of `runtime/POSIX/pthread/barrier.c`: the rounds. -/

namespace Pthread.Barrier
open Concurrent CondMonitor Nat
variable {T : Type*}

inductive Result
  | zero
  | serialThread
  deriving DecidableEq

/-- The barrier, the number of arrivals, and those that return with their results. A count of zero is refused. -/
structure Data where
  count : ℕ
  count_pos : 0 < count
  currentCount : ℕ
  arrivals : ℕ
  returns : List (ℕ × Result)

/-- The code behind the lock, behind the broadcast and behind the wait, with the number of the arrival. -/
inductive Code
  | arrive
  | completed (arrival : ℕ)
  | waited (arrival : ℕ)

def pthreadBarrierInit (count : ℕ) : Option Data :=
  if h : count = 0 then none else some ⟨count, Nat.pos_of_ne_zero h, 0, 0, []⟩

def arrive (d : Data) : Data := { d with currentCount := d.currentCount + 1, arrivals := d.arrivals + 1 }

def client : Monitor.Client T Code Result Data Unit where
  enter _ _ _ := some .arrive
  code _
    | .arrive, d =>
      if (arrive d).currentCount = (arrive d).count then (.broadcast (.completed (arrive d).arrivals), arrive d)
      else (.wait (.waited (arrive d).arrivals), arrive d)
    | .completed a, d => (.leave .serialThread,
        { d with currentCount := 0, returns := (a, .serialThread) :: d.returns })
    | .waited a, d => (.leave .zero, { d with returns := (a, .zero) :: d.returns })

def Done (d : Data) (a : ℕ) : Prop := ∃ k, a ≤ k * d.count ∧ k * d.count ≤ d.arrivals

/-- Who has returned came in a complete round, and the last one of a round is the serial thread. -/
def Returned (d : Data) : Prop :=
  ∀ x ∈ d.returns, Done d x.1 ∧ (x.2 = .serialThread ↔ d.count ∣ x.1)

structure Inv (d : Data) : Prop where
  currentCount : d.currentCount < d.count
  arrivals : ∃ m, d.arrivals = m * d.count + d.currentCount
  returned : Returned d

def Mid (_ : T) (c : Code) (d : Data) : Prop :=
  c = .completed d.arrivals ∧ d.count ∣ d.arrivals ∧ Returned d

def Waits (_ : T) : Code → Data → Prop
  | .waited a, d => a ≤ d.arrivals ∧ ¬ d.count ∣ a ∧ ∀ k, a ≤ k * d.count → d.arrivals < k * d.count
  | _, _ => False

def Woken (_ : T) : Code → Data → Prop
  | .waited a, d => Done d a ∧ ¬ d.count ∣ a ∧ ∀ k, a ≤ k * d.count → d.arrivals ≤ k * d.count
  | _, _ => False

def Ready (_ : T) : Code → Data → Prop
  | .arrive, _ => True
  | .waited a, d => Done d a ∧ ¬ d.count ∣ a
  | .completed _, _ => False

variable {t : T} {d d' : Data} {a : ℕ}

lemma lt_mul_of_not_dvd {n m k : ℕ} (h : ¬ n ∣ m) (hle : m ≤ k * n) : m < k * n := by
  refine lt_of_le_of_ne hle fun heq => h ?_
  rw [heq]
  exact dvd_mul_left n k

lemma Done.mono (h : Done d a) (hcount : d'.count = d.count) (harrivals : d.arrivals ≤ d'.arrivals) : Done d' a := by
  obtain ⟨k, hk, hle⟩ := h
  refine ⟨k, ?_, ?_⟩
  · rw [hcount]
    exact hk
  · rw [hcount]
    exact hle.trans harrivals

lemma Returned.mono (h : Returned d) (hcount : d'.count = d.count) (harrivals : d.arrivals ≤ d'.arrivals)
    (hreturns : d'.returns = d.returns) : Returned d' := by
  intro x hx
  rw [hreturns] at hx
  refine ⟨(h x hx).1.mono hcount harrivals, ?_⟩
  rw [hcount]
  exact (h x hx).2

lemma Returned.cons (h : Returned d) {r : Result} (ha : Done d a) (hr : r = .serialThread ↔ d.count ∣ a)
    (hcount : d'.count = d.count) (harrivals : d'.arrivals = d.arrivals) (hreturns : d'.returns = (a, r) :: d.returns) :
    Returned d' := by
  intro x hx
  rw [hreturns] at hx
  rw [hcount]
  rcases List.mem_cons.mp hx with rfl | hx
  · exact ⟨ha.mono hcount harrivals.ge, hr⟩
  · exact ⟨(h x hx).1.mono hcount harrivals.ge, (h x hx).2⟩

lemma Inv.dvd_arrive (h : Inv d) : d.count ∣ d.arrivals + 1 ↔ d.currentCount + 1 = d.count := by
  obtain ⟨m, hm⟩ := h.arrivals
  rw [hm, Nat.add_assoc, Nat.dvd_add_right (Nat.dvd_mul_left d.count m)]
  constructor
  · intro hdvd
    exact le_antisymm h.currentCount (le_of_dvd (succ_pos _) hdvd)
  · intro heq
    rw [heq]

lemma Inv.arrive (h : Inv d) (hcount : d.currentCount + 1 ≠ d.count) : Inv (arrive d) := by
  obtain ⟨m, hm⟩ := h.arrivals
  refine ⟨lt_of_le_of_ne h.currentCount hcount, ⟨m, ?_⟩, h.returned.mono rfl (le_succ _) rfl⟩
  change d.arrivals + 1 = m * d.count + (d.currentCount + 1)
  rw [hm, add_assoc]

lemma ready_of_pre_arrive (h : Inv d ∧ Ready t .arrive d ∨ Mid t .arrive d) : Inv d :=
  h.elim And.left fun ⟨heq, _⟩ => nomatch heq

lemma code_arrive (t : T) (d : Data) :
    (d.currentCount + 1 = d.count ∧ client.code t .arrive d = (.broadcast (.completed (d.arrivals + 1)), arrive d)) ∨
    (d.currentCount + 1 ≠ d.count ∧ client.code t .arrive d = (.wait (.waited (d.arrivals + 1)), arrive d)) := by
  by_cases h : d.currentCount + 1 = d.count
  · exact .inl ⟨h, if_pos h⟩
  · exact .inr ⟨h, if_neg h⟩

lemma code_count (t : T) (c : Code) (d : Data) :
    (client.code t c d).2.count = d.count ∧ d.arrivals ≤ (client.code t c d).2.arrivals := by
  cases c with
  | arrive =>
    obtain ⟨_, heq⟩ | ⟨_, heq⟩ := code_arrive t d <;> rw [heq] <;> exact ⟨rfl, le_succ _⟩
  | completed a | waited a => exact ⟨rfl, le_rfl⟩

lemma Waits.arrive (hdvd : ¬ d.count ∣ d.arrivals + 1) {u : T} {c : Code} (h : Waits u c d) : Waits u c (arrive d) := by
  cases c with
  | waited a =>
    obtain ⟨hle, hnot, hall⟩ := h
    exact ⟨hle.trans (le_succ _), hnot, fun k hk => lt_mul_of_not_dvd hdvd (hall k hk)⟩
  | _ => exact h

lemma Waits.woken (hdvd : d.count ∣ d.arrivals + 1) {u : T} {c : Code} (h : Waits u c d) :
    Woken u c (Barrier.arrive d) := by
  cases c with
  | waited a =>
    obtain ⟨hle, hnot, hall⟩ := h
    obtain ⟨m, hm⟩ := hdvd
    refine ⟨⟨m, ?_, ?_⟩, hnot, hall⟩
    · change a ≤ m * d.count
      rw [mul_comm, ← hm]
      exact hle.trans (le_succ _)
    · change m * d.count ≤ d.arrivals + 1
      rw [mul_comm, ← hm]
  | _ => exact h

lemma rule : (client : Monitor.Client T Code Result Data Unit).Rule Inv Mid Waits Woken Ready where
  enter h := by
    cases h
    trivial
  stable := by
    intro t c d u j _ _ h
    obtain ⟨hcount, harrivals⟩ := code_count t c d
    cases j with
    | arrive => trivial
    | completed a => exact h
    | waited a =>
      refine ⟨h.1.mono hcount harrivals, ?_⟩
      rw [hcount]
      exact h.2
  wake := by
    intro u j d h
    cases j with
    | waited a => exact ⟨h.1, h.2.1⟩
    | arrive | completed a => exact h.elim
  wait := by
    intro t c d k' d' hpre hcode
    cases c with
    | arrive =>
      have hinv := ready_of_pre_arrive hpre
      obtain ⟨_, heq⟩ | ⟨hcount, heq⟩ := code_arrive t d
      · exact nomatch heq.symm.trans hcode
      · cases heq.symm.trans hcode
        have hdvd : ¬ d.count ∣ d.arrivals + 1 := fun h => hcount (hinv.dvd_arrive.mp h)
        exact ⟨hinv.arrive hcount, ⟨le_rfl, hdvd, fun k hk => lt_mul_of_not_dvd hdvd hk⟩, fun u j _ h => h.arrive hdvd⟩
    | completed a | waited a => exact nomatch hcode
  broadcast := by
    intro t c d k' d' hpre hcode
    cases c with
    | arrive =>
      have hinv := ready_of_pre_arrive hpre
      obtain ⟨hcount, heq⟩ | ⟨_, heq⟩ := code_arrive t d
      · cases heq.symm.trans hcode
        have hdvd := hinv.dvd_arrive.mpr hcount
        exact ⟨⟨rfl, hdvd, hinv.returned.mono rfl (le_succ _) rfl⟩, fun u j _ h => h.woken hdvd⟩
      · exact nomatch heq.symm.trans hcode
    | completed a => exact nomatch hcode
    | waited a => exact nomatch hcode
  leave := by
    intro t c d r d' hpre hcode
    cases c with
    | arrive => obtain ⟨_, heq⟩ | ⟨_, heq⟩ := code_arrive t d <;> exact nomatch heq.symm.trans hcode
    | completed a =>
      obtain ⟨_, hready⟩ | ⟨heq, hdvd, hreturned⟩ := hpre
      · exact hready.elim
      · cases hcode
        cases heq
        obtain ⟨m, hm⟩ := hdvd
        have hm' : d.arrivals = m * d.count := hm.trans (mul_comm _ _)
        refine ⟨⟨d.count_pos, ⟨m, hm'⟩, hreturned.cons ⟨m, hm'.le, hm'.ge⟩ ?_ rfl rfl rfl⟩, fun u j _ h => ?_⟩
        · exact ⟨fun _ => ⟨m, hm⟩, fun _ => rfl⟩
        · cases j with
          | waited b | _ => exact h
    | waited a =>
      obtain ⟨hinv, hdone, hnot⟩ | ⟨heq, _⟩ := hpre
      · cases hcode
        refine ⟨⟨hinv.currentCount, hinv.arrivals, hinv.returned.cons hdone ?_ rfl rfl rfl⟩, fun u j _ h => ?_⟩
        · exact ⟨fun heq => (nomatch heq), fun hdvd => absurd hdvd hnot⟩
        · cases j with
          | waited b => exact h
          | _ => exact h
      · exact nomatch heq

/-! ## The rounds -/

variable [DecidableEq T] {n : ℕ}
  {s : State T CondMonitor.Lock (CondMonitor.Point Code Result) (CondMonitor.Shared T Data)}

lemma sound (hinit : pthreadBarrierInit n = some d)
    (h : (CondMonitor.program client).Reachable (CondMonitor.initial d) s) :
    s.data.client.count = n ∧ Monitor.Client.Sound Inv Mid Waits Woken Ready (CondMonitor.monitor s) := by
  obtain ⟨hn, ⟨⟩⟩ := Option.dite_none_left_eq_some.mp hinit
  have hreach := monitor_reachable h
  constructor
  · refine hreach.data_invariant (J := fun d => d.count = n) rfl fun t c d hd => ?_
    rw [(code_count t c d).1, hd]
  · exact hreach.sound rule ⟨Nat.pos_of_ne_zero hn, ⟨0, (Nat.zero_mul n).symm⟩, nofun⟩ fun _ => rfl

lemma Done.le {k : ℕ} (h : Done d a) (hk : k * d.count < a) : (k + 1) * d.count ≤ d.arrivals := by
  obtain ⟨m, hm, hle⟩ := h
  have hlt : k < m := Nat.lt_of_mul_lt_mul_right (hk.trans_le hm)
  exact (mul_le_mul_right d.count hlt).trans hle

end Pthread.Barrier
