import Mathlib

/-! Monitors with one condition variable. The code of a client runs alone on the shared data until it
waits, leaves or wakes all waiting threads; a woken thread runs its code when the monitor is free again. -/

namespace Monitor
open Function
variable {T K R S A : Type*}

/-- How a piece of the client's code ends, and with which code the thread goes on. -/
inductive Action (K R : Type*)
  | wait (k : K)
  | broadcast (k : K)
  | leave (r : R)

structure Client (T K R S A : Type*) where
  enter : T → A → S → Option K
  code : T → K → S → Action K R × S

inductive Stage (K : Type*)
  | outside
  | ready (k : K)
  | waiting (k : K)
  /-- About to wake the waiting threads. -/
  | announcing (k : K)
  | continuing (k : K)

namespace Stage

def isInside : Stage K → Prop
  | .announcing _ | .continuing _ => True
  | _ => False

def wake : Stage K → Stage K
  | .waiting k => .ready k
  | st => st

def after : Action K R → Stage K
  | .wait k => .waiting k
  | .broadcast k => .announcing k
  | .leave _ => .outside

end Stage

structure State (T K S : Type*) where
  data : S
  stage : T → Stage K

namespace Client
variable [DecidableEq T] (M : Client T K R S A)

inductive Step (s : State T K S) (t : T) : State T K S → Prop
  | stay : Step s t s
  | enter {a : A} {k : K} : s.stage t = .outside → M.enter t a s.data = some k →
      Step s t ⟨s.data, update s.stage t (.ready k)⟩
  | run {k : K} : s.stage t = .ready k → (∀ u, ¬ (s.stage u).isInside) →
      Step s t ⟨(M.code t k s.data).2, update s.stage t (.after (M.code t k s.data).1)⟩
  | broadcast {k : K} : s.stage t = .announcing k →
      Step s t ⟨s.data, update (fun u => (s.stage u).wake) t (.continuing k)⟩
  | goOn {k : K} : s.stage t = .continuing k →
      Step s t ⟨(M.code t k s.data).2, update s.stage t (.after (M.code t k s.data).1)⟩

inductive Reachable (s0 : State T K S) : State T K S → Prop
  | refl : Reachable s0 s0
  | step {s s' : State T K S} {t : T} : Reachable s0 s → M.Step s t s' → Reachable s0 s'

variable {M} in
lemma Reachable.data_invariant {s0 s : State T K S} (h : M.Reachable s0 s) {J : S → Prop} (hinit : J s0.data)
    (hcode : ∀ t k d, J d → J (M.code t k d).2) : J s.data := by
  induction h with
  | refl => exact hinit
  | step _ hstep ih =>
    cases hstep with
    | stay | enter | broadcast => exact ih
    | run | goOn => exact hcode _ _ _ ih

/-- `Inv` holds while nobody is inside, `Mid` behind a broadcast, `Waits` of a waiting thread, `Woken` of one about to
be woken and `Ready` of one about to run. -/
structure Rule (M : Client T K R S A) (Inv : S → Prop) (Mid Waits Woken Ready : T → K → S → Prop) : Prop where
  enter : ∀ {t a d k}, M.enter t a d = some k → Ready t k d
  stable : ∀ {t k d u j}, Inv d ∧ Ready t k d ∨ Mid t k d → u ≠ t → Ready u j d → Ready u j (M.code t k d).2
  wait : ∀ {t k d k' d'}, Inv d ∧ Ready t k d ∨ Mid t k d → M.code t k d = (.wait k', d') →
    Inv d' ∧ Waits t k' d' ∧ ∀ u j, u ≠ t → Waits u j d → Waits u j d'
  broadcast : ∀ {t k d k' d'}, Inv d ∧ Ready t k d ∨ Mid t k d → M.code t k d = (.broadcast k', d') →
    Mid t k' d' ∧ ∀ u j, u ≠ t → Waits u j d → Woken u j d'
  wake : ∀ {u j d}, Woken u j d → Ready u j d
  leave : ∀ {t k d r d'}, Inv d ∧ Ready t k d ∨ Mid t k d → M.code t k d = (.leave r, d') →
    Inv d' ∧ ∀ u j, u ≠ t → Waits u j d → Waits u j d'

def Fine (Waits Ready : T → K → S → Prop) (d : S) (u : T) : Stage K → Prop
  | .outside => True
  | .ready k => Ready u k d
  | .waiting k => Waits u k d
  | .announcing _ | .continuing _ => False

/-- The monitor is free, or one thread is inside. Before it wakes the others they may have no reason to wait. -/
inductive Sound (Inv : S → Prop) (Mid Waits Woken Ready : T → K → S → Prop) (s : State T K S) : Prop
  | free (hinv : Inv s.data) (hall : ∀ u, Fine Waits Ready s.data u (s.stage u))
  | announcing (t : T) (k : K) (ht : s.stage t = .announcing k) (hmid : Mid t k s.data)
      (hothers : ∀ u, u ≠ t → Fine Woken Ready s.data u (s.stage u))
  | continuing (t : T) (k : K) (ht : s.stage t = .continuing k) (hmid : Mid t k s.data)
      (hothers : ∀ u, u ≠ t → Fine Waits Ready s.data u (s.stage u))

variable {M} {Inv : S → Prop} {Mid Waits Waits' Woken Ready : T → K → S → Prop} {s s' s0 : State T K S} {t u : T}

variable {d : S} {st : Stage K} {k : K}

section
omit [DecidableEq T]

lemma Fine.mono {d' : S} (h : Fine Waits Ready d u st) (hwaits : ∀ k, Waits u k d → Waits' u k d')
    (hready : ∀ k, Ready u k d → Ready u k d') : Fine Waits' Ready d' u st := by
  cases st with
  | outside => trivial
  | ready k => exact hready k h
  | waiting k => exact hwaits k h
  | announcing k | continuing k => exact h

lemma Fine.wake (h : Fine Woken Ready d u st) (hwake : ∀ k, Woken u k d → Ready u k d) :
    Fine Waits Ready d u st.wake := by
  cases st with
  | outside => trivial
  | ready k => exact h
  | waiting k => exact hwake k h
  | announcing k | continuing k => exact h

lemma Fine.not_isInside (h : Fine Waits Ready d u st) : ¬ st.isInside := by
  cases st with
  | outside | ready | waiting => exact not_false
  | announcing k | continuing k => exact h.elim

end

lemma Fine.update {stage : T → Stage K} (hother : u ≠ t → Fine Waits Ready d u (stage u))
    (hst : u = t → Fine Waits Ready d t st) : Fine Waits Ready d u (update stage t st u) := by
  by_cases hu : u = t
  · rw [hu, update_self]
    exact hst hu
  · rw [update_of_ne hu]
    exact hother hu

section
variable (hM : M.Rule Inv Mid Waits Woken Ready)
include hM

lemma Rule.run (hpre : Inv s.data ∧ Ready t k s.data ∨ Mid t k s.data)
    (hothers : ∀ u, u ≠ t → Fine Waits Ready s.data u (s.stage u)) :
    Sound Inv Mid Waits Woken Ready ⟨(M.code t k s.data).2, update s.stage t (.after (M.code t k s.data).1)⟩ := by
  have hready : ∀ u j, u ≠ t → Ready u j s.data → Ready u j (M.code t k s.data).2 := fun u j => hM.stable hpre
  rcases hcode : M.code t k s.data with ⟨k' | k' | r, d⟩
  · rw [hcode] at hready
    obtain ⟨hinv, hself, hkeep⟩ := hM.wait hpre hcode
    exact .free hinv fun u => Fine.update
      (fun hu => (hothers u hu).mono (fun j => hkeep u j hu) fun j => hready u j hu) fun _ => hself
  · rw [hcode] at hready
    obtain ⟨hmid, hwaiting⟩ := hM.broadcast hpre hcode
    refine .announcing t k' (update_self ..) hmid fun u hu => ?_
    exact Fine.update (fun hu => (hothers u hu).mono (fun j => hwaiting u j hu) fun j =>
      hready u j hu) fun hut => absurd hut hu
  · rw [hcode] at hready
    obtain ⟨hinv, hkeep⟩ := hM.leave hpre hcode
    exact .free hinv fun u => Fine.update (fun hu => (hothers u hu).mono
      (fun j => hkeep u j hu) fun j => hready u j hu) fun _ => trivial

lemma Sound.enter (h : Sound Inv Mid Waits Woken Ready s) {a : A}
    (ht : s.stage t = .outside) (hk : M.enter t a s.data = some k) :
    Sound Inv Mid Waits Woken Ready ⟨s.data, update s.stage t (.ready k)⟩ := by
  have hready := hM.enter hk
  cases h with
  | free hinv hall =>
    exact .free hinv fun u => Fine.update (fun _ => hall u) fun _ => hready
  | announcing v j hv hmid hothers =>
    have hne : v ≠ t := fun hvt => nomatch (hvt ▸ hv).symm.trans ht
    exact .announcing v j ((update_of_ne hne _ _).trans hv) hmid fun u hu =>
      Fine.update (fun _ => hothers u hu) fun _ => hready
  | continuing v j hv hmid hothers =>
    have hne : v ≠ t := fun hvt => nomatch (hvt ▸ hv).symm.trans ht
    exact .continuing v j ((update_of_ne hne _ _).trans hv) hmid fun u hu =>
      Fine.update (fun _ => hothers u hu) fun _ => hready

lemma Sound.step (h : Sound Inv Mid Waits Woken Ready s) (hstep : M.Step s t s') :
    Sound Inv Mid Waits Woken Ready s' := by
  cases hstep with
  | stay => exact h
  | enter ht hk => exact h.enter hM ht hk
  | @run k ht hfree =>
    cases h with
    | free hinv hall =>
      have hready := hall t
      rw [ht] at hready
      exact hM.run (.inl ⟨hinv, hready⟩) fun u _ => hall u
    | announcing v j hv | continuing v j hv =>
      refine absurd ?_ (hfree v)
      rw [hv]
      trivial
  | @broadcast k ht =>
    have hinside : (s.stage t).isInside := by
      rw [ht]
      trivial
    cases h with
    | free hinv hall => exact absurd hinside (hall t).not_isInside
    | announcing v j hv hmid hothers =>
      obtain rfl : t = v := by_contra fun hne => (hothers t hne).not_isInside hinside
      obtain rfl := Stage.announcing.inj (ht.symm.trans hv)
      refine .continuing t k (update_self t _ (fun u => (s.stage u).wake)) hmid fun u hu => ?_
      change Fine Waits Ready s.data u (update (fun u => (s.stage u).wake) t (.continuing k) u)
      rw [update_of_ne hu]
      exact (hothers u hu).wake fun _ => hM.wake
    | continuing v j hv hmid hothers =>
      exact absurd hinside (hothers t fun htv => nomatch (htv ▸ ht).symm.trans hv).not_isInside
  | @goOn k ht =>
    have hinside : (s.stage t).isInside := by
      rw [ht]
      trivial
    cases h with
    | free hinv hall => exact absurd hinside (hall t).not_isInside
    | announcing v j hv hmid hothers =>
      exact absurd hinside (hothers t fun htv => nomatch (htv ▸ ht).symm.trans hv).not_isInside
    | continuing v j hv hmid hothers =>
      obtain rfl : t = v := by_contra fun hne => (hothers t hne).not_isInside hinside
      obtain rfl := Stage.continuing.inj (ht.symm.trans hv)
      exact hM.run (.inr hmid) hothers

end

lemma Reachable.sound (h : M.Reachable s0 s) (hM : M.Rule Inv Mid Waits Woken Ready) (hinit : Inv s0.data)
    (houtside : ∀ u, s0.stage u = .outside) : Sound Inv Mid Waits Woken Ready s := by
  induction h with
  | refl =>
    refine .free hinit fun u => ?_
    rw [houtside u]
    trivial
  | step _ hstep ih => exact ih.step hM hstep

omit [DecidableEq T] in
lemma Sound.waits (h : Sound Inv Mid Waits Woken Ready s) (hu : s.stage u = .waiting k) :
    Waits u k s.data ∨ ∃ t k', s.stage t = .announcing k' ∧ Mid t k' s.data ∧ Woken u k s.data := by
  cases h with
  | free _ hall =>
    have hfine := hall u
    rw [hu] at hfine
    exact .inl hfine
  | announcing t k' ht hmid hothers =>
    have hfine := hothers u fun hut => nomatch (hut ▸ hu).symm.trans ht
    rw [hu] at hfine
    exact .inr ⟨t, k', ht, hmid, hfine⟩
  | continuing t k' ht hmid hothers =>
    have hfine := hothers u fun hut => nomatch (hut ▸ hu).symm.trans ht
    rw [hu] at hfine
    exact .inl hfine

end Client

end Monitor
