import PorSe.Por.CsdOptimality

/-! The second search for the context switch degree. It counts only the preempting
switches, leaves out events that cannot block and works on one state: a call advances
its thread, tries the other threads from there and takes the advance back. -/

namespace Por
open List Function

namespace Event
variable {D : Type}

def lockChange (e : Event D) : Option Bool :=
  match e.kind with
  | .lockAcquire | .wait2 => some true
  | .lockRelease | .wait1 => some false
  | _ => none

def changesLock (e : Event D) (l : LockId) : Bool := e.lockChange.isSome && e.lid = l

def takesLock (e : Event D) : Bool := e.lockChange = some true

end Event

namespace CsdSearch
open Csd (Events add sub eventIsEnabled computeThreadCount)
variable {D : Type}

/-! ## The events of the search -/

section
variable [DecidableEq D]

def mayBeBlocking (e : Event D) : Bool :=
  match e.kind with
  | .lockAcquire => e.lockPredecessor.any fun l => e.threadPredecessor.any fun p => !l.isLessThanEq p
  | .threadInit | .threadJoin | .wait2 => true
  | .wait1 | .signal | .broadcast =>
    e.conditionVariablePredecessors.any fun c => e.threadPredecessor.any fun p => !c.isLessThanEq p
  | _ => false

/-- Walks a thread down from its last event; `back` is the event that was kept last. -/
def keptEvents : Option (Event D) → List (Event D) → List (Event D)
  | _, [] => []
  | back, ev :: evs =>
    let keep := match ev.kind with
      | .localEvent => false
      | .threadInit | .threadJoin | .lockAcquire | .lockRelease | .wait1 | .wait2 => true
      | _ => back.all mayBeBlocking
    if keep then ev :: keptEvents (some ev) evs else keptEvents back evs

def vectors (e : Event D) : Events D :=
  SortedMap.insert (e.cone.mapValues fun c => keptEvents none c.threadChain) e.tid
    (e :: (e.cone.find? e.tid).elim [] fun c => keptEvents (some e) c.threadChain)

def csdSearchT (e : Event D) : Option (Events D) :=
  if computeThreadCount e ≤ 1 then if computeThreadCount e = 0 then none else some SortedMap.empty
  else if (∀ vec ∈ (vectors e).values, (vec.getLast?.any fun x => x.kind = .threadInit) = true) ∧
      (vectors e).entries.head?.map Prod.fst = some .main then some (vectors e)
  else none

end

/-! ## The state of the search -/

/-- How many events of each thread are still to run, and which locks count as taken. -/
@[ext]
structure State where
  advancement : ThreadId → ℕ
  locked : LockId → Bool

inductive Preemption where
  | enabled
  | preemptingDisabled
  | nonpreemptingDisabled
  deriving DecidableEq

variable (ev : Event D)

def recordLock (locked : LockId → Bool) : LockId → Bool :=
  match ev.lockChange with
  | some b => update locked ev.lid b
  | none => locked

def undoLock (locked : LockId → Bool) (ev : Event D) : LockId → Bool :=
  match ev.lockChange with
  | some b => update locked ev.lid !b
  | none => locked

variable (V : Events D)

def hasRun (advancement : ThreadId → ℕ) (ev : Event D) : Bool :=
  (V.of ev.tid)[advancement ev.tid]?.any fun x => ev.depth ≤ x.depth

variable (s : State)

def eventPreemption (ev : Event D) : Preemption :=
  if eventIsEnabled (hasRun V s.advancement) ev then .enabled
  else match ev.kind with
    | .threadJoin | .threadInit => .nonpreemptingDisabled
    | .lockAcquire => if s.locked ev.lid then .nonpreemptingDisabled else .preemptingDisabled
    | .wait2 =>
      if !ev.notifyingPredecessor.any (hasRun V s.advancement) || s.locked ev.lid then .nonpreemptingDisabled
      else .preemptingDisabled
    | _ => .preemptingDisabled

variable (t : ThreadId)

def canAdvance : Bool :=
  0 < s.advancement t && (V.of t)[s.advancement t - 1]?.any (eventIsEnabled (hasRun V s.advancement))

/-- `n` more events of the thread are to run after the one that comes next. -/
def advanceLoop (t : ThreadId) : ℕ → State → State × ℕ
  | 0, s => (⟨update s.advancement t 0, s.locked⟩, 0)
  | n + 1, s =>
    let s' : State := ⟨update s.advancement t (n + 1), s.locked⟩
    match (V.of t)[n]? with
    | none => (s', 0)
    | some ev =>
      match eventPreemption V s' ev with
      | .nonpreemptingDisabled => (s', 0)
      | .preemptingDisabled => (s', 1)
      | .enabled => advanceLoop t n ⟨s'.advancement, recordLock ev s'.locked⟩

/-- Runs the thread as far as it gets. The lock of the event that comes next is not recorded. -/
def advanceThread : Option (State × ℕ) :=
  if canAdvance V s t then some (advanceLoop V t (s.advancement t - 1) s) else none

def revertLoop (t : ThreadId) : ℕ → State → State
  | 0, s => s
  | n + 1, s =>
    revertLoop t n ⟨update s.advancement t (s.advancement t + 1),
      (V.of t)[s.advancement t]?.elim s.locked (undoLock s.locked)⟩

def revertThread (target : ℕ) : Option State :=
  if s.advancement t < target ∧ target ≤ (V.of t).length then
    some (revertLoop V t (target - s.advancement t) s)
  else none

/-! ## The searches -/

/-- A call: the states at its start, after the advance and at its end, if it ends. -/
structure Call where
  thread : ThreadId
  entry : State
  advanced : State
  returned : Option State

structure Outcome (α : Type) where
  value : Option (α × State)
  calls : List Call

def Outcome.done {α : Type} (a : α) (s : State) : Outcome α := ⟨some (a, s), []⟩

def Outcome.abort {α : Type} : Outcome α := ⟨none, []⟩

def Outcome.andThen {α β : Type} (r : Outcome α) (f : α → State → Outcome β) : Outcome β :=
  match r.value with
  | none => ⟨none, r.calls⟩
  | some (a, s) => ⟨(f a s).value, r.calls ++ (f a s).calls⟩

def Outcome.leave {α : Type} (t : ThreadId) (entry advanced : State) (r : Outcome α) : Outcome α :=
  match r.value.bind fun p => (revertThread V p.2 t (entry.advancement t)).map (p.1, ·) with
  | none => ⟨none, ⟨t, entry, advanced, none⟩ :: r.calls⟩
  | some (a, s) => ⟨some (a, s), ⟨t, entry, advanced, some s⟩ :: r.calls⟩

def finished : Bool := (V.entries.map Prod.fst).all fun t => s.advancement t = 0

def isAboveLoop (search : State → ThreadId → Outcome Bool) (self : ThreadId) :
    List ThreadId → State → Bool → Outcome Bool
  | [], s, possible => if possible then .done true s else .abort
  | t :: ts, s, possible =>
    if t ≠ self ∧ canAdvance V s t then
      (search s t).andThen fun above s => if above then isAboveLoop search self ts s true else .done false s
    else isAboveLoop search self ts s possible

def isAbove (limit : ℕ) : ℕ → State → ThreadId → ℕ → Outcome Bool
  | 0, _, _, _ => .abort
  | fuel + 1, s, t, csd =>
    match advanceThread V s t with
    | none => .abort
    | some (s', step) =>
      Outcome.leave V t s s' <|
        if finished V s' then .done false s'
        else if limit < add csd step then .done true s'
        else isAboveLoop V (fun s u => isAbove limit fuel s u (add csd step)) t (V.entries.map Prod.fst) s' false

def computeLoop (search : State → ThreadId → ℕ → Outcome ℕ) (self : ThreadId) (step budget : ℕ) :
    List ThreadId → State → Bool → ℕ → Outcome ℕ
  | [], s, hasEnabled, csd => if hasEnabled ∧ step ≤ csd ∧ csd ≤ add budget 1 then .done csd s else .abort
  | t :: ts, s, hasEnabled, csd =>
    if t ≠ self ∧ canAdvance V s t then
      (search s t (sub (sub csd 1) step)).andThen fun v s =>
        if add v step ≤ step then if step ≤ csd ∧ csd ≤ add budget 1 then .done (add v step) s else .abort
        else computeLoop search self step budget ts s true (if add v step < csd then add v step else csd)
    else computeLoop search self step budget ts s hasEnabled csd

def compute : ℕ → State → ThreadId → ℕ → Outcome ℕ
  | 0, _, _, _ => .abort
  | fuel + 1, s, t, budget =>
    match advanceThread V s t with
    | none => .abort
    | some (s', step) =>
      Outcome.leave V t s s' <|
        if finished V s' then .done 0 s'
        else if budget < step then .done (add budget 1) s'
        else computeLoop V (compute fuel) t step budget (V.entries.map Prod.fst) s' false (add budget 1)

def initial : State := ⟨fun t => (V.of t).length, fun _ => false⟩

def runIsAbove (limit : ℕ) : Outcome Bool :=
  match V.entries.head? with
  | none => .done false (initial V)
  | some p => isAbove V limit V.size (initial V) p.1 0

def runCompute : Outcome ℕ :=
  match V.entries.head? with
  | none => .done 0 (initial V)
  | some p => compute V V.size (initial V) p.1 (2 ^ 64 - 2)

section
variable [DecidableEq D]

end

/-! ## One advance -/

lemma recordLock_apply (m : LockId → Bool) (l : LockId) :
    recordLock ev m l = if ev.changesLock l then ev.takesLock else m l := by
  unfold recordLock Event.changesLock Event.takesLock
  cases ev.lockChange with
  | none => simp
  | some b =>
    by_cases hl : l = ev.lid
    · simp [hl]
    · simp [update_of_ne hl, Ne.symm hl]

lemma undoLock_apply (m : LockId → Bool) (l : LockId) :
    undoLock m ev l = if ev.changesLock l then !ev.takesLock else m l := by
  unfold undoLock Event.changesLock Event.takesLock
  cases ev.lockChange with
  | none => simp
  | some b =>
    by_cases hl : l = ev.lid
    · simp [hl]
    · simp [update_of_ne hl, Ne.symm hl]

variable {V}

lemma isEnabled_of_eventPreemption {s : State} {ev : Event D} (h : eventPreemption V s ev = .enabled) :
    eventIsEnabled (hasRun V s.advancement) ev = true := by
  unfold eventPreemption at h
  by_contra hen
  rw [if_neg hen] at h
  split at h <;> (try split_ifs at h) <;> simp at h

variable (V) in
inductive Executes (t : ThreadId) : (ThreadId → ℕ) → List (Event D) → (ThreadId → ℕ) → Prop
  | refl (a : ThreadId → ℕ) : Executes t a [] a
  | step {a a' : ThreadId → ℕ} {n : ℕ} {x : Event D} {xs : List (Event D)} (hn : a t = n + 1)
      (hx : (V.of t)[n]? = some x) (hen : eventIsEnabled (hasRun V a) x = true)
      (h : Executes t (update a t n) xs a') : Executes t a (xs ++ [x]) a'

variable {t : ThreadId} {a a' : ThreadId → ℕ} {xs : List (Event D)}

lemma Executes.advancement_eq (h : Executes V t a xs a') : a' t + xs.length = a t ∧ a' = update a t (a' t) := by
  induction h with
  | refl a => exact ⟨rfl, (update_eq_self t a).symm⟩
  | step hn _ _ _ ih =>
    rw [update_self, update_idem] at ih
    rw [length_append, length_singleton]
    exact ⟨by omega, ih.2⟩

lemma Executes.eq_take_drop (h : Executes V t a xs a') : xs = ((V.of t).drop (a' t)).take (a t - a' t) := by
  induction h with
  | refl a => simp
  | @step a a' n x xs hn hx _ h ih =>
    have hle := h.advancement_eq.1
    rw [update_self] at ih hle
    have hget : ((V.of t).drop (a' t))[n - a' t]? = some x := by
      rw [getElem?_drop, show a' t + (n - a' t) = n by omega, hx]
    rw [hn, show n + 1 - a' t = n - a' t + 1 by omega, take_add_one, hget, ← ih]
    rfl

lemma advanceLoop_executes {n : ℕ} {s : State} {x : Event D} (hn : s.advancement t = n + 1)
    (hx : (V.of t)[n]? = some x) (hen : eventIsEnabled (hasRun V s.advancement) x = true) :
    ∃ xs, Executes V t s.advancement (xs ++ [x]) (advanceLoop V t n s).1.advancement ∧
      (advanceLoop V t n s).1.locked = xs.foldr recordLock s.locked ∧ (advanceLoop V t n s).2 ≤ 1 := by
  induction n generalizing s x with
  | zero => exact ⟨[], .step hn hx hen (.refl _), rfl, Nat.zero_le 1⟩
  | succ n ih =>
    have hstop : Executes V t s.advancement [x] (update s.advancement t (n + 1)) :=
      nil_append [x] ▸ .step hn hx hen (.refl _)
    cases hev : (V.of t)[n]? with
    | none =>
      simp only [advanceLoop, hev]
      exact ⟨[], hstop, rfl, Nat.zero_le 1⟩
    | some ev =>
      simp only [advanceLoop, hev]
      split
      · exact ⟨[], hstop, rfl, Nat.zero_le 1⟩
      · exact ⟨[], hstop, rfl, le_rfl⟩
      · next hpre =>
        have henabled := isEnabled_of_eventPreemption hpre
        obtain ⟨xs, hexec, hlocked, hstep⟩ :=
          ih (s := ⟨_, recordLock ev s.locked⟩) (update_self t _ _) hev henabled
        refine ⟨xs ++ [ev], .step hn hx hen hexec, ?_, hstep⟩
        rw [hlocked, foldr_append, foldr_cons, foldr_nil]

lemma advanceThread_executes {s s' : State} {step : ℕ} (h : advanceThread V s t = some (s', step)) :
    ∃ xs x, Executes V t s.advancement (xs ++ [x]) s'.advancement ∧ s'.locked = xs.foldr recordLock s.locked ∧
      step ≤ 1 := by
  unfold advanceThread at h
  split_ifs at h with hcan
  unfold canAdvance at hcan
  rw [Bool.and_eq_true, decide_eq_true_eq, Option.any_eq_true] at hcan
  obtain ⟨_, x, hx, hen⟩ := hcan
  obtain ⟨xs, hexec, hlocked, hstep⟩ := advanceLoop_executes (by omega) hx hen
  rw [Option.some.inj h] at hexec hlocked hstep
  exact ⟨xs, x, hexec, hlocked, hstep⟩

lemma revertLoop_eq (n : ℕ) (s : State) : revertLoop V t n s = ⟨update s.advancement t (s.advancement t + n),
      (((V.of t).drop (s.advancement t)).take n).foldl undoLock s.locked⟩ := by
  induction n generalizing s with
  | zero => simp [revertLoop]
  | succ n ih =>
    have hadd : s.advancement t + 1 + n = s.advancement t + (n + 1) := by omega
    rw [revertLoop, ih]
    simp only [update_self, update_idem, hadd]
    cases hx : (V.of t)[s.advancement t]? with
    | none =>
      have hlen := getElem?_eq_none_iff.mp hx
      rw [drop_eq_nil_of_le hlen, drop_eq_nil_of_le (by omega)]
      simp
    | some x =>
      obtain ⟨hlt, rfl⟩ := List.getElem?_eq_some_iff.mp hx
      rw [drop_eq_getElem_cons hlt, take_succ_cons, foldl_cons, Option.elim_some]

lemma revertThread_eq_some {s s' : State} {target : ℕ} (h : revertThread V s t target = some s') :
    s'.advancement = update s.advancement t target ∧
      s'.locked = (((V.of t).drop (s.advancement t)).take (target - s.advancement t)).foldl undoLock s.locked := by
  unfold revertThread at h
  split_ifs at h with hlt
  rw [← Option.some.inj h, revertLoop_eq, show s.advancement t + (target - s.advancement t) = target by omega]
  exact ⟨rfl, rfl⟩

end CsdSearch
end Por
