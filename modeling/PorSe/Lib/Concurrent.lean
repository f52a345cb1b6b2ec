import Mathlib

/-! Threads that share data, locks and condition variables. A thread stands before an operation on a
lock; a step performs the operation and runs the code behind it up to the next one. The code may
notify waiting threads, which blocks nobody. A lock has at most one holder, waiting gives the lock
back in the same step, and only a notification ends it. -/

namespace Concurrent
open Option Function Finset
variable {T L C P S A : Type*}

inductive Primitive (L C : Type*)
  /-- The environment chooses how the thread goes on. -/
  | call
  | acquire (l : L)
  | release (l : L)
  | wait (c : C) (l : L)

inductive Notice (C : Type*)
  | nobody
  | one (c : C)
  | all (c : C)

structure Outcome (C P S : Type*) where
  point : P
  data : S
  notice : Notice C := .nobody

structure Program (T L C P S A : Type*) where
  primitive : P → Primitive L C
  call : T → A → P → S → Option (P × S)
  code : T → P → S → Outcome C P S

inductive Status (P : Type*)
  | running (p : P)
  | waiting (p : P)
  | notified (p : P)
  deriving DecidableEq

def Status.point : Status P → P
  | .running p | .waiting p | .notified p => p

structure State (T L P S : Type*) where
  data : S
  holder : L → Option T
  thread : T → Status P

namespace State
variable [DecidableEq T] (s : State T L P S) (t u : T) (r : P × S)

def goto : State T L P S := { s with data := r.2, thread := update s.thread t (.running r.1) }

@[simp] lemma goto_data : (s.goto t r).data = r.2 := rfl

lemma goto_thread : (s.goto t r).thread u = if u = t then .running r.1 else s.thread u :=
  update_apply s.thread t _ u

@[simp] lemma goto_thread_self : (s.goto t r).thread t = .running r.1 := update_self t _ s.thread

variable {s t u}

lemma goto_thread_of_ne (h : u ≠ t) : (s.goto t r).thread u = s.thread u := update_of_ne h _ s.thread

lemma goto_thread_of_point {st : Status P} (hu : s.thread u = st) (hne : s.thread t ≠ st) :
    (s.goto t r).thread u = st := by
  rw [goto_thread_of_ne, hu]
  rintro rfl
  exact hne hu

omit [DecidableEq T] in
variable (s) in
def setHolder [DecidableEq L] (l : L) (o : Option T) : State T L P S :=
  { s with holder := update s.holder l o }

end State

namespace Program
variable [DecidableEq T] [DecidableEq L] [DecidableEq C] (M : Program T L C P S A)

def blockedOn (c : C) : Status P → Bool
  | .waiting p =>
    match M.primitive p with
    | .wait c' _ => c' = c
    | _ => false
  | _ => false

def notify (c : C) (st : Status P) : Status P := if M.blockedOn c st then .notified st.point else st

inductive Notifies (thread : T → Status P) : Notice C → (T → Status P) → Prop
  | nobody : Notifies thread .nobody thread
  | one {c : C} {u : T} : M.blockedOn c (thread u) →
      Notifies thread (.one c) (update thread u (.notified (thread u).point))
  | none {c : C} : (∀ u, M.blockedOn c (thread u) = false) → Notifies thread (.one c) thread
  | all {c : C} : Notifies thread (.all c) fun u => M.notify c (thread u)

inductive Step (s : State T L P S) (t : T) : State T L P S → Prop
  | call {p : P} {a : A} {r : P × S} : s.thread t = .running p → M.primitive p = .call →
      M.call t a p s.data = some r → Step s t ⟨r.2, s.holder, update s.thread t (.running r.1)⟩
  | acquire {p : P} {l : L} {thread : T → Status P} : s.thread t = .running p → M.primitive p = .acquire l →
      s.holder l = none → M.Notifies s.thread (M.code t p s.data).notice thread →
      Step s t ⟨(M.code t p s.data).data, update s.holder l (some t),
        update thread t (.running (M.code t p s.data).point)⟩
  | release {p : P} {l : L} {thread : T → Status P} : s.thread t = .running p → M.primitive p = .release l →
      s.holder l = some t → M.Notifies s.thread (M.code t p s.data).notice thread →
      Step s t ⟨(M.code t p s.data).data, update s.holder l none, update thread t (.running (M.code t p s.data).point)⟩
  | wait {p : P} {c : C} {l : L} : s.thread t = .running p → M.primitive p = .wait c l → s.holder l = some t →
      Step s t ⟨s.data, update s.holder l none, update s.thread t (.waiting p)⟩
  | wake {p : P} {c : C} {l : L} {thread : T → Status P} : s.thread t = .notified p → M.primitive p = .wait c l →
      s.holder l = none → M.Notifies s.thread (M.code t p s.data).notice thread →
      Step s t ⟨(M.code t p s.data).data, update s.holder l (some t),
        update thread t (.running (M.code t p s.data).point)⟩

inductive Reaches (allowed : State T L P S → T → State T L P S → Prop) (s0 : State T L P S) : State T L P S → Prop
  | refl : Reaches allowed s0 s0
  | step {s s' : State T L P S} {t : T} : Reaches allowed s0 s → M.Step s t s' → allowed s t s' → Reaches allowed s0 s'

def Reachable (s0 s : State T L P S) : Prop := M.Reaches (fun _ _ _ => True) s0 s

variable {M} {allowed : State T L P S → T → State T L P S → Prop} {s0 s s' : State T L P S}

lemma Reaches.trans (h : M.Reaches allowed s0 s) (h' : M.Reaches allowed s s') : M.Reaches allowed s0 s' := by
  induction h' with
  | refl => exact h
  | step _ hstep hallowed ih => exact .step ih hstep hallowed

variable {I : State T L P S → Prop} {st : Status P} {thread thread' : T → Status P} {n : Notice C} {t : T} {d : S}
  {l : L}

/-- A call whose code holds one lock, run without an interruption. -/
lemma Reachable.runs_alone {p q q' p' : P} {a : A} {d₁ d₂ : S} (hs : M.Reachable s0 s)
    (ht : s.thread t = .running p) (hp : M.primitive p = .call)
    (hcall : M.call t a p s.data = some (q, d₁)) (hq : M.primitive q = .acquire l)
    (hfree : s.holder l = none) (hcode : M.code t q d₁ = ⟨q', d₂, .nobody⟩)
    (hq' : M.primitive q' = .release l) (hcode' : M.code t q' d₂ = ⟨p', d, .nobody⟩) :
    M.Reachable s0 ⟨d, s.holder, update s.thread t (.running p')⟩ := by
  have h1 := Step.call (M := M) ht hp hcall
  have h2 := Step.acquire (M := M) (s := ⟨d₁, s.holder, update s.thread t (.running q)⟩)
    (update_self ..) hq hfree (by rw [hcode]; exact .nobody)
  rw [hcode, update_idem] at h2
  have h3 := Step.release (M := M) (s := ⟨d₂, update s.holder l (some t),
    update s.thread t (.running q')⟩) (update_self ..) hq' (update_self ..)
    (by rw [hcode']; exact .nobody)
  rw [hcode', update_idem, update_idem, ← hfree, update_eq_self] at h3
  exact .step (.step (.step hs h1 trivial) h2 trivial) h3 trivial

/-- An invariant holds in every state of a run; its step may use what is known of such states. -/
lemma Reaches.invariant (h : M.Reaches allowed s0 s) (hinit : I s0)
    (hstep : ∀ s t s', M.Reaches allowed s0 s → I s → M.Step s t s' → allowed s t s' → I s') : I s := by
  induction h with
  | refl => exact hinit
  | step hreach hs hallowed ih => exact hstep _ _ _ hreach ih hs hallowed

lemma Reaches.data_invariant {J : S → Prop} (h : M.Reaches allowed s0 s) (hinit : J s0.data)
    (hcall : ∀ t a p d r, J d → M.call t a p d = some r → J r.2) (hcode : ∀ t p d, J d → J (M.code t p d).data) :
    J s.data := by
  refine h.invariant (I := fun s => J s.data) hinit fun s t s' _ ih hstep _ => ?_
  cases hstep with
  | call _ _ hr => exact hcall _ _ _ _ _ ih hr
  | acquire | release | wake => exact hcode _ _ _ ih
  | wait => exact ih

/-! ## Notification -/

omit [DecidableEq T] [DecidableEq L] in
lemma notify_of_blockedOn {c : C} (h : M.blockedOn c st) : M.notify c st = .notified st.point := by
  rw [notify, if_pos h]

omit [DecidableEq T] [DecidableEq L] in
lemma notify_cases (c : C) (st : Status P) :
    M.notify c st = st ∨ M.blockedOn c st ∧ ∃ p, st = .waiting p ∧ M.notify c st = .notified p := by
  rw [notify]
  split_ifs with h
  · cases st with
    | waiting p => exact .inr ⟨h, p, rfl, rfl⟩
    | running p | notified p => exact absurd h Bool.false_ne_true
  · exact .inl rfl

section
omit [DecidableEq L]

@[simp] lemma notifies_nobody : M.Notifies thread .nobody thread' ↔ thread' = thread := by
  constructor
  · intro h
    cases h
    rfl
  · rintro rfl
    exact .nobody

lemma Notifies.cases (h : M.Notifies thread n thread') (u : T) :
    thread' u = thread u ∨ ∃ p, thread u = .waiting p ∧ thread' u = .notified p := by
  cases h with
  | nobody => exact .inl rfl
  | @one c v hv =>
    by_cases hu : u = v
    · obtain hsame | ⟨_, p, hp, hnotify⟩ := notify_cases c (thread v)
      · rw [notify_of_blockedOn hv] at hsame
        rw [hu, update_self]
        exact .inl hsame
      · rw [notify_of_blockedOn hv] at hnotify
        rw [hu, update_self]
        exact .inr ⟨p, hp, hnotify⟩
    · exact .inl (update_of_ne hu _ thread)
  | none => exact .inl rfl
  | @all c =>
    obtain hsame | ⟨_, p, hp, hnotify⟩ := notify_cases c (thread u)
    · exact .inl hsame
    · exact .inr ⟨p, hp, hnotify⟩

lemma Notifies.point (h : M.Notifies thread n thread') (u : T) : (thread' u).point = (thread u).point := by
  obtain heq | ⟨p, hp, hp'⟩ := h.cases u
  · rw [heq]
  · rw [hp, hp']
    rfl

end

/-! ## Execution -/

inductive Choice (T A : Type*)
  | go
  | call (a : A)
  | notify (u : T)

variable (M) in
def notifies [Fintype T] (thread : T → Status P) : Notice C → Choice T A → Option (T → Status P)
  | .nobody, .go => some thread
  | .one c, .notify u =>
    if M.blockedOn c (thread u) then some (update thread u (.notified (thread u).point)) else none
  | .one c, .go => if ∀ u, M.blockedOn c (thread u) = false then some thread else none
  | .all c, .go => some fun u => M.notify c (thread u)
  | _, _ => none

variable (M) in
def go [Fintype T] (s : State T L P S) (t : T) (p : P) (l : L) (o : Option T) (x : Choice T A) :
    Option (State T L P S) :=
  (M.notifies s.thread (M.code t p s.data).notice x).map fun thread =>
    ⟨(M.code t p s.data).data, update s.holder l o, update thread t (.running (M.code t p s.data).point)⟩

variable (M) in
def step [Fintype T] (s : State T L P S) (t : T) (x : Choice T A) : Option (State T L P S) :=
  match s.thread t with
  | .running p =>
    match M.primitive p with
    | .call =>
      match x with
      | .call a => (M.call t a p s.data).map fun r => ⟨r.2, s.holder, update s.thread t (.running r.1)⟩
      | _ => none
    | .acquire l => if s.holder l = none then M.go s t p l (some t) x else none
    | .release l => if s.holder l = some t then M.go s t p l none x else none
    | .wait _ l =>
      if s.holder l = some t then
        some ⟨s.data, update s.holder l none, update s.thread t (.waiting p)⟩
      else none
  | .waiting _ => none
  | .notified p =>
    match M.primitive p with
    | .wait _ l => if s.holder l = none then M.go s t p l (some t) x else none
    | _ => none

variable (M) in
def runWhile [Fintype T] (test : State T L P S → T → State T L P S → Bool) (s : State T L P S)
    (schedule : List (T × Choice T A)) : Option (State T L P S) :=
  schedule.foldlM (fun s x => (M.step s x.1 x.2).filter (test s x.1)) s

variable (M) in
def run [Fintype T] (s : State T L P S) (schedule : List (T × Choice T A)) : Option (State T L P S) :=
  M.runWhile (fun _ _ _ => true) s schedule

variable {x : Choice T A}

omit [DecidableEq L] in
lemma Notifies.of_notifies [Fintype T] (h : M.notifies thread n x = some thread') : M.Notifies thread n thread' := by
  rw [notifies.eq_def] at h
  split at h
  · cases h
    exact .nobody
  · obtain ⟨hu, ⟨⟩⟩ := ite_none_right_eq_some.mp h
    exact .one hu
  · obtain ⟨hnone, ⟨⟩⟩ := ite_none_right_eq_some.mp h
    exact .none hnone
  · cases h
    exact .all
  · exact nomatch h

lemma Step.of_step [Fintype T] (h : M.step s t x = some s') : M.Step s t s' := by
  have hgo : ∀ {p l o}, M.go s t p l o x = some s' → ∃ thread, M.Notifies s.thread (M.code t p s.data).notice thread ∧
      s' = ⟨(M.code t p s.data).data, update s.holder l o,
        update thread t (.running (M.code t p s.data).point)⟩ := fun h => by
    obtain ⟨thread, hthread, rfl⟩ := map_eq_some_iff.mp h
    exact ⟨thread, .of_notifies hthread, rfl⟩
  rw [step] at h
  split at h
  case h_1 p hp =>
    split at h
    case h_1 hprim =>
      split at h
      case h_1 a =>
        obtain ⟨r, hr, rfl⟩ := map_eq_some_iff.mp h
        exact .call hp hprim hr
      case h_2 => exact nomatch h
    case h_2 l hprim =>
      obtain ⟨hfree, h⟩ := ite_none_right_eq_some.mp h
      obtain ⟨thread, hthread, rfl⟩ := hgo h
      exact .acquire hp hprim hfree hthread
    case h_3 l hprim =>
      obtain ⟨hheld, h⟩ := ite_none_right_eq_some.mp h
      obtain ⟨thread, hthread, rfl⟩ := hgo h
      exact .release hp hprim hheld hthread
    case h_4 c l hprim =>
      obtain ⟨hheld, ⟨⟩⟩ := ite_none_right_eq_some.mp h
      exact .wait hp hprim hheld
  case h_2 => exact nomatch h
  case h_3 p hp =>
    split at h
    case h_1 c l hprim =>
      obtain ⟨hfree, h⟩ := ite_none_right_eq_some.mp h
      obtain ⟨thread, hthread, rfl⟩ := hgo h
      exact .wake hp hprim hfree hthread
    case h_2 => exact nomatch h

lemma reaches_of_runWhile [Fintype T] [∀ s t s', Decidable (allowed s t s')] (schedule : List (T × Choice T A))
    (h : M.runWhile (fun s t s' => allowed s t s') s schedule = some s') : M.Reaches allowed s s' := by
  induction schedule generalizing s with
  | nil =>
    cases h
    exact .refl
  | cons x schedule ih =>
    obtain ⟨s2, hstep, hrest⟩ := bind_eq_some_iff.mp h
    obtain ⟨hstep, hpassed⟩ := filter_eq_some_iff.mp hstep
    exact Reaches.trans (.step .refl (.of_step hstep) (of_decide_eq_true hpassed)) (ih hrest)

lemma reachable_of_run [Fintype T] (schedule : List (T × Choice T A)) (h : M.run s schedule = some s') :
    M.Reachable s s' := reaches_of_runWhile schedule h

/-! ## Ownership -/

/-- Which locks a thread owns is a matter of its point, among those that occur. -/
structure Discipline (M : Program T L C P S A) (valid : P → Prop) (owns : P → L → Prop) : Prop where
  valid_call : ∀ {t a p d r}, valid p → M.call t a p d = some r → valid r.1
  valid_code : ∀ {t p d}, valid p → valid (M.code t p d).point
  call : ∀ {t a p d r}, valid p → M.call t a p d = some r → ∀ k, owns r.1 k ↔ owns p k
  acquire : ∀ {t p d l}, valid p → M.primitive p = .acquire l → ∀ k, owns (M.code t p d).point k ↔ k = l ∨ owns p k
  release : ∀ {t p d l}, valid p → M.primitive p = .release l → ∀ k, owns (M.code t p d).point k ↔ k ≠ l ∧ owns p k
  wait : ∀ {p c l}, valid p → M.primitive p = .wait c l → owns p l
  wake : ∀ {t p d c l}, valid p → M.primitive p = .wait c l → ∀ k, owns (M.code t p d).point k ↔ owns p k

/-- A blocked thread has given back the lock that it waits with. -/
def holds (M : Program T L C P S A) (owns : P → L → Prop) : Status P → L → Prop
  | .running p, l => owns p l
  | .waiting p, l | .notified p, l => owns p l ∧ ∀ c, M.primitive p ≠ .wait c l

def Owned (M : Program T L C P S A) (owns : P → L → Prop) (s : State T L P S) : Prop :=
  ∀ l t, s.holder l = some t ↔ M.holds owns (s.thread t) l

variable {valid : P → Prop} {owns : P → L → Prop}

lemma Reaches.valid_point (h : M.Reaches allowed s0 s) (hM : M.Discipline valid owns)
    (hinit : ∀ t, valid (s0.thread t).point) (t : T) : valid (s.thread t).point := by
  refine h.invariant (I := fun s => ∀ t, valid (s.thread t).point) hinit (fun s t s' _ ih hstep _ u => ?_) t
  have hupdate : ∀ {thread : T → Status P} {st : Status P}, (∀ u, (thread u).point = (s.thread u).point) →
      valid st.point → valid (update thread t st u).point := fun {thread st} hthread hst => by
    by_cases hu : u = t
    · rw [hu, update_self]
      exact hst
    · rw [update_of_ne hu, hthread u]
      exact ih u
  have ht := ih t
  cases hstep with
  | call hp _ hr =>
    rw [hp] at ht
    exact hupdate (fun _ => rfl) (hM.valid_call ht hr)
  | acquire hp _ _ hn | release hp _ _ hn | wake hp _ _ hn =>
    rw [hp] at ht
    exact hupdate hn.point (hM.valid_code ht)
  | wait hp =>
    rw [hp] at ht
    exact hupdate (fun _ => rfl) ht

omit [DecidableEq L] in
lemma Notifies.holds_iff (h : M.Notifies thread n thread') (u : T) (l : L) :
    M.holds owns (thread' u) l ↔ M.holds owns (thread u) l := by
  obtain heq | ⟨p, hp, hp'⟩ := h.cases u
  · rw [heq]
  · rw [hp, hp']
    exact Iff.rfl

omit [DecidableEq L] [DecidableEq C] in
lemma Owned.change (h : M.Owned owns s) {holder : L → Option T}
    (hthread : ∀ u l, M.holds owns (thread u) l ↔ M.holds owns (s.thread u) l)
    (hother : ∀ k u, u ≠ t → (holder k = some u ↔ s.holder k = some u))
    (hself : ∀ k, holder k = some t ↔ M.holds owns st k) : M.Owned owns ⟨d, holder, update thread t st⟩ := by
  intro k u
  change holder k = some u ↔ M.holds owns (update thread t st u) k
  by_cases hu : u = t
  · rw [hu, update_self]
    exact hself k
  · rw [update_of_ne hu, hother k u hu, hthread]
    exact h k u

omit [DecidableEq T] [DecidableEq L] [DecidableEq C] in
lemma Owned.of_running (h : M.Owned owns s) {p : P} (ht : s.thread t = .running p) (k : L) :
    s.holder k = some t ↔ owns p k := by
  rw [h k t, ht]
  exact Iff.rfl

omit [DecidableEq C] in
lemma Owned.acquire (h : M.Owned owns s) {p q : P} (hfree : s.holder l = none)
    (hthread : ∀ u l, M.holds owns (thread u) l ↔ M.holds owns (s.thread u) l)
    (hp : ∀ k, k ≠ l → (s.holder k = some t ↔ owns p k)) (hq : ∀ k, owns q k ↔ k = l ∨ owns p k) :
    M.Owned owns ⟨d, update s.holder l (some t), update thread t (.running q)⟩ := by
  refine h.change hthread (fun k u hu => ?_) (fun k => ?_)
  · by_cases hk : k = l
    · rw [hk, update_self, hfree]
      exact ⟨fun heq => absurd (some.inj heq).symm hu, fun heq => nomatch heq⟩
    · rw [update_of_ne hk]
  · change update s.holder l (some t) k = some t ↔ owns q k
    by_cases hk : k = l
    · rw [hk, update_self]
      exact ⟨fun _ => (hq l).mpr (.inl rfl), fun _ => rfl⟩
    · rw [update_of_ne hk, hp k hk, hq k]
      exact ⟨.inr, fun ho => ho.resolve_left hk⟩

omit [DecidableEq C] in
lemma Owned.release (h : M.Owned owns s) (hheld : s.holder l = some t)
    (hthread : ∀ u l, M.holds owns (thread u) l ↔ M.holds owns (s.thread u) l)
    (hst : ∀ k, M.holds owns st k ↔ k ≠ l ∧ s.holder k = some t) :
    M.Owned owns ⟨d, update s.holder l none, update thread t st⟩ := by
  refine h.change hthread (fun k u hu => ?_) (fun k => ?_)
  · by_cases hk : k = l
    · rw [hk, update_self, hheld]
      exact ⟨fun heq => (nomatch heq), fun heq => absurd (some.inj heq).symm hu⟩
    · rw [update_of_ne hk]
  · by_cases hk : k = l
    · rw [hk, update_self, hst l]
      exact ⟨fun heq => (nomatch heq), fun ⟨hne, _⟩ => absurd rfl hne⟩
    · rw [update_of_ne hk, hst k]
      exact ⟨fun heq => ⟨hk, heq⟩, And.right⟩

lemma Owned.step (hM : M.Discipline valid owns) (h : M.Owned owns s) (hvalid : valid (s.thread t).point)
    (hstep : M.Step s t s') : M.Owned owns s' := by
  cases hstep with
  | call hp hprim hr =>
    rw [hp] at hvalid
    refine h.change (fun _ _ => Iff.rfl) (fun k u _ => Iff.rfl) (fun k => ?_)
    rw [h.of_running hp k]
    exact (hM.call hvalid hr k).symm
  | acquire hp hprim hfree hn =>
    rw [hp] at hvalid
    exact h.acquire hfree hn.holds_iff (fun k _ => h.of_running hp k) (hM.acquire hvalid hprim)
  | release hp hprim hheld hn =>
    rw [hp] at hvalid
    refine h.release hheld hn.holds_iff fun k => ?_
    rw [h.of_running hp k]
    exact hM.release hvalid hprim k
  | @wait p c l hp hprim hheld =>
    refine h.release hheld (fun _ _ => Iff.rfl) fun k => ?_
    rw [h.of_running hp k]
    constructor
    · rintro ⟨hk, hne⟩
      refine ⟨fun heq => hne c ?_, hk⟩
      rw [heq, hprim]
    · rintro ⟨hne, hk⟩
      refine ⟨hk, fun c' hc' => hne ?_⟩
      exact (Primitive.wait.inj (hprim.symm.trans hc')).2.symm
  | @wake p c l _ hp hprim hfree hn =>
    rw [hp] at hvalid
    refine h.acquire (p := p) hfree hn.holds_iff (fun k hk => ?_) (fun k => ?_)
    · rw [h k t, hp]
      exact ⟨And.left, fun ho => ⟨ho, fun c' hc' => hk (Primitive.wait.inj (hc'.symm.trans hprim)).2⟩⟩
    · rw [hM.wake (p := p) hvalid hprim k]
      exact ⟨.inr, fun ho => ho.elim (fun heq => heq ▸ hM.wait hvalid hprim) id⟩

section
variable (h : M.Reaches allowed s0 s) (hM : M.Discipline valid owns) (hvalid : ∀ t, valid (s0.thread t).point)
include h hM hvalid

/-- In every run, the holder of a lock stands where the lock is owned. -/
lemma Reaches.owned (hinit : M.Owned owns s0) : M.Owned owns s :=
  h.invariant hinit fun _ t _ hreach ih hstep _ => ih.step hM (hreach.valid_point hM hvalid t) hstep

lemma Reaches.invariant_of_discipline (howned : M.Owned owns s0) (hinit : I s0)
    (hstep : ∀ s t s', (∀ u, valid (s.thread u).point) → M.Owned owns s → I s → M.Step s t s' → allowed s t s' → I s') :
    I s :=
  h.invariant hinit fun s t s' hreach ih =>
    hstep s t s' (hreach.valid_point hM hvalid) (hreach.owned hM hvalid howned) ih

end

omit [DecidableEq T] [DecidableEq L] [DecidableEq C] in
lemma Owned.unique (h : M.Owned owns s) {u : T} (ht : M.holds owns (s.thread t) l)
    (hu : M.holds owns (s.thread u) l) : t = u :=
  some.inj (((h l t).mpr ht).symm.trans ((h l u).mpr hu))

omit [DecidableEq T] [DecidableEq L] [DecidableEq C] in
lemma Owned.not_holds (h : M.Owned owns s) (hfree : s.holder l = none) : ¬ M.holds owns (s.thread t) l := fun ht => by
  have := (h l t).mpr ht
  rw [hfree] at this
  exact nomatch this

end Program

/-! ## Counting threads -/

lemma sum_update [Fintype T] [DecidableEq T] (f : T → ℕ) (t : T) (n : ℕ) :
    ∑ u, update f t n u + f t = ∑ u, f u + n := by
  rw [sum_update_of_mem (mem_univ t), ← add_sum_erase univ f (mem_univ t), sdiff_singleton_eq_erase]
  omega

section
variable [Fintype T] (f : Status P → Bool) (thread : T → Status P)

def count : ℕ := (Finset.univ.filter fun t => f (thread t)).card

lemma count_eq_sum : count f thread = ∑ t, (f (thread t)).toNat := by
  rw [count, card_filter]
  refine sum_congr rfl fun t _ => ?_
  cases f (thread t) <;> rfl

lemma count_update [DecidableEq T] (t : T) (st : Status P) :
    count f (update thread t st) + (f (thread t)).toNat = count f thread + (f st).toNat := by
  have hupdate : (fun u => (f (update thread t st u)).toNat) =
      update (fun u => (f (thread u)).toNat) t (f st).toNat := by
    funext u
    exact apply_update (fun _ x => (f x).toNat) thread t st u
  rw [count_eq_sum, count_eq_sum, hupdate]
  exact sum_update (fun u => (f (thread u)).toNat) t (f st).toNat

variable {f thread} in
lemma count_eq_zero : count f thread = 0 ↔ ∀ t, f (thread t) = false := by
  rw [count, card_eq_zero, filter_eq_empty_iff]
  simp

end

end Concurrent
