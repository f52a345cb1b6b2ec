import PorSe.Pthread.MutexExclusion

/-! `pthread_cond_wait` on a mutex that is not robust: the caller gives the mutex back as a whole, and holds it as
often as before when the call returns zero. -/

namespace Pthread.Mutex
open Concurrent Function Option
variable {T C : Type*} {m : Attributes} {n : ℕ}

def Point.isIdle : Point C → Bool
  | .idle => true
  | _ => false

/-- Where a call of `pthread_cond_wait` returns zero. The results of the locks after the first one are ignored. -/
def ReturnsZero : Point C → Prop
  | .lockAcquire _ | .lockRelease .success _ | .lockRelease _ (.again _) => True
  | _ => False

/-- The depth and the saved count, from a call after `n` locks of the mutex on. -/
def Restores (n : ℕ) (x : Place C) : Prop :=
  match x.point with
  | .condAcquire _ => x.depth = n
  | .unlockAcquire (.condWait _ k) => x.depth = n ∧ k.toNat = n
  | .unlockDefault (.condWait _ k) | .condWait _ k | .condRelease _ k | .lockAcquire (.condWait k)
  | .lockWait (.condWait k) => x.depth = 0 ∧ k.toNat = n
  | .unlockRelease r (.condWait _ k) => r = .success → x.depth = 0 ∧ k.toNat = n
  | .lockRelease r (.condWait k) => (r = .success → x.depth = 1) ∧ k.toNat = n
  | .lockAcquire (.again k) => 0 < x.depth ∧ 0 < k.toNat ∧ x.depth + k.toNat = n
  | .lockRelease _ (.again k) => 0 < x.depth ∧ 0 < k.toNat ∧ x.depth + k.toNat = n + 1
  | .condFail _ | .lockTwice | .failed _ => True
  | _ => False

def Continues (n : ℕ) (x y : Place C) : Prop :=
  Restores n y ∨ y.point.isIdle = true ∧ (ReturnsZero x.point → y.depth = n)

lemma toNat_sub_one {k : BitVec 32} (hpos : 0 < k.toNat) (hlt : k.toNat < 2 ^ 31) :
    (k - 1).toNat + 1 = k.toNat ∧ ((k - 1).toInt > 0 ↔ 1 < k.toNat) := by
  have heq : (k - 1).toNat + 1 = k.toNat := by bv_omega
  rw [BitVec.toInt_eq_toNat_of_lt (by omega)]
  omega

section
variable {t : T} {x : Place C} {d : Data T C} {k : BitVec 32}

lemma restores_afterInternal (hk : k.toNat = n) (y : Internal × Data T C) :
    Restores n (afterInternal 0 (.lockRelease · (.condWait k)) (.lockWait (.condWait k)) y).point := by
  rw [afterInternal]
  split
  · refine ⟨fun hr => ?_, hk⟩
    rw [takenDepth, if_pos (.inl hr)]
  · exact ⟨rfl, hk⟩
  · trivial
  · trivial

/-- One of the locks after the first one is due, or the call ends. -/
lemma continues_again {p : Point C} {depth : ℕ} (hlt : n < 2 ^ 31) (hdepth : 0 < depth) (hk : 0 < k.toNat)
    (heq : depth + k.toNat = n + 1) :
    Continues n ⟨depth, p⟩ ⟨depth, if (k - 1).toInt > 0 then .lockAcquire (.again (k - 1)) else .idle⟩ := by
  obtain ⟨_, hpos⟩ := toNat_sub_one hk (by omega)
  split_ifs with hagain
  · have hmore := hpos.mp hagain
    exact .inl ⟨hdepth, by omega, by change depth + _ = n; omega⟩
  · have hone := mt hpos.mpr hagain
    exact .inr ⟨rfl, fun _ => by change depth = n; omega⟩

variable [DecidableEq C]

lemma restores_returnUnlock {depth : ℕ} {r : Result} {c : C} (h : r = .success → depth = 0 ∧ k.toNat = n) :
    Restores n (returnUnlock r depth d (.condWait c k)).point := by
  rw [returnUnlock]
  split_ifs with hr
  · trivial
  · trivial
  · exact h (not_not.mp hr)

variable [DecidableEq T]

lemma Restores.code (h : Restores n x) (hstalled : m.robust = .stalled) (hn : 0 < n) (hlt : n < 2 ^ 31)
    (hmany : 1 < n → m.type = .recursive)
    (hheld : 0 < x.depth → d.holdingThread = some t ∧ d.acquired.toNat = x.depth) :
    Continues n x ((program m).code t x d).point := by
  obtain ⟨depth, p⟩ := x
  have hrobust : ∀ {P : Prop}, ¬ (m.robust = .robust ∧ P) := fun h => by cases hstalled.symm.trans h.1
  cases p with
  | lockAcquire w =>
    cases w with
    | user => exact h.elim
    | condWait k =>
      obtain ⟨rfl, hk⟩ : depth = 0 ∧ k.toNat = n := h
      simp only [program]
      split_ifs
      · simp only [returnLock, true_and]
        exact continues_again hlt Nat.one_pos (hk ▸ hn) (by omega)
      · exact .inl (restores_afterInternal hk _)
    | again k =>
      obtain ⟨hdepth, hk, _⟩ : 0 < depth ∧ 0 < k.toNat ∧ depth + k.toNat = n := h
      have htype := hmany (by omega)
      have hm : m.kprMutexDefault = false := by simp [Attributes.kprMutexDefault, htype]
      obtain ⟨hholding, hacquired⟩ := hheld hdepth
      have hne : d.acquired ≠ 0 := by
        rintro hzero
        rw [hzero] at hacquired
        exact hdepth.ne hacquired
      have hinternal : lockInternal m t true d = (.ret .success, { d with acquired := d.acquired + 1 }) := by
        rw [lockInternal, if_neg hrobust, if_neg hne, hholding]
        simp [htype]
      simp only [program, hm, Bool.false_eq_true, if_false, hinternal]
      exact .inl ⟨Nat.succ_pos _, hk, by change depth + 1 + k.toNat = _; omega⟩
  | lockWait w =>
    cases w with
    | condWait k =>
      obtain ⟨rfl, hk⟩ : depth = 0 ∧ k.toNat = n := h
      exact .inl (restores_afterInternal hk _)
    | _ => exact h.elim
  | lockRelease r w =>
    cases w with
    | user => exact h.elim
    | condWait k =>
      obtain ⟨hdepth, hk⟩ : (r = .success → depth = 1) ∧ k.toNat = n := h
      change Continues n _ ⟨depth, returnLock r (.condWait k)⟩
      by_cases hr : r = .success
      · obtain rfl := hdepth hr
        simp only [returnLock, hr, true_and]
        exact continues_again hlt Nat.one_pos (hk ▸ hn) (by omega)
      · rw [returnLock, if_neg fun h => hr h.1]
        refine .inr ⟨rfl, fun hzero => ?_⟩
        cases r <;> first | exact absurd rfl hr | exact hzero.elim
    | again k => exact continues_again hlt h.1 h.2.1 h.2.2
  | condAcquire c =>
    obtain rfl : depth = n := h
    simp only [program]
    split_ifs <;> exact .inl ⟨rfl, (hheld hn).2⟩
  | unlockAcquire w =>
    cases w with
    | user => exact h.elim
    | condWait c k =>
      left
      change Restores n (afterUnlock depth (.condWait c k) (kprMutexUnlock m t true d)).point
      have hforce : ¬ (m.type = .recursive ∧ ¬ (d.acquired - 1 = 0 ∨ true)) := fun h => h.2 (.inr rfl)
      rw [kprMutexUnlock, if_neg hrobust, if_neg hforce]
      split_ifs
      · rintro ⟨⟩
      · trivial
      · trivial
      · exact fun _ => ⟨rfl, h.2⟩
  | unlockRelease r w =>
    cases w with
    | user => exact h.elim
    | condWait c k => exact .inl (restores_returnUnlock h)
  | unlockDefault w =>
    cases w with
    | user => exact h.elim
    | condWait c k => exact .inl (restores_returnUnlock fun _ => h)
  | condWait | condRelease | lockTwice | failed => exact .inl h
  | condFail => exact .inr ⟨rfl, fun h => h.elim⟩
  | _ => exact h.elim

end

variable [DecidableEq T] {s s0 s' : State T (Lock C) (Place C) (Data T C)} {t : T}

lemma Moves.acquired_le_one {st : Status (Place C)} {d : Data T C} (h : Moves m s t st d)
    (htype : m.type ≠ .recursive) (hd : s.data.acquired.toNat ≤ 1) : d.acquired.toNat ≤ 1 := by
  cases h with
  | sleep | exit | consistent => exact hd
  | quiet _ hsame => rwa [hsame.1]
  | takeDefault => exact le_rfl
  | giveDefault => exact Nat.zero_le 1
  | lock _ _ _ heffect =>
    cases heffect with
    | refuse | halt | wait => exact hd
    | take | ownerDead => exact le_rfl
    | again _ _ _ hrecursive => exact absurd hrecursive htype
  | kept _ _ _ heffect =>
    cases heffect with
    | fail hfail => simp at hfail
    | kept _ hrecursive => exact absurd hrecursive htype
  | given _ _ _ heffect =>
    cases heffect with
    | fail hfail => simp at hfail
    | given => exact Nat.zero_le 1

variable [DecidableEq C]

lemma Restores.step (h : Restores n (s.thread t).point) (hstalled : m.robust = .stalled) (hn : 0 < n)
    (hlt : n < 2 ^ 31) (hmany : 1 < n → m.type = .recursive) (hheld : Held (depth s) s.data)
    (hstep : (program m).Step s t s') : Continues n (s.thread t).point (s'.thread t).point := by
  have htaken (hpos : 0 < (s.thread t).point.depth) :
      s.data.holdingThread = some t ∧ s.data.acquired.toNat = (s.thread t).point.depth :=
    ⟨hheld.eq_holder hpos, (hheld.taken t (hheld.eq_holder hpos)).2⟩
  cases hstep with
  | @call x a r hx hprim hr =>
    obtain ⟨depth, p⟩ := x
    rw [hx] at h
    cases p with
    | idle => exact h.elim
    | failed => exact nomatch hr
    | _ => cases hprim
  | acquire hx | release hx | wake hx =>
    rw [hx] at h htaken ⊢
    simp only [update_self]
    exact h.code hstalled hn hlt hmany htaken
  | wait hx =>
    rw [hx] at h ⊢
    simp only [update_self]
    exact .inl h

/-- A step during a call of `t`. -/
def Inside (m : Attributes) (t : T) (s : State T (Lock C) (Place C) (Data T C)) (u : T)
    (s' : State T (Lock C) (Place C) (Data T C)) : Prop :=
  CountFits m s u s' ∧ (s'.thread t).point.point.isIdle = false

/-- Before and while it waits, the caller has not locked the mutex; returning zero, it has as often as at the call. -/
theorem pthreadCondWait_restores {c : C} (hstalled : m.robust = .stalled)
    (h0 : (program m).Reaches (CountFits m) initial s0) (hcall : s0.thread t = .running ⟨n, .condAcquire c⟩)
    (hn : 0 < n) (h : (program m).Reaches (Inside m t) s0 s) :
    (∀ c k, (s.thread t).point.point = .condWait c k →
      depth s t = 0 ∧ s.data.holdingThread ≠ some t ∧ s.holder .mutex ≠ some t) ∧
    ∀ s', (program m).Step s t s' → CountFits m s t s' → (s'.thread t).point.point.isIdle = true →
      ReturnsZero (s.thread t).point.point → depth s' t = n ∧ s'.data.holdingThread = some t := by
  have hdepth0 : depth s0 t = n := by
    rw [depth, hcall]
    rfl
  have hmany : 1 < n → m.type = .recursive := fun hmany => by
    by_contra htype
    have hheld := held_of_reaches hstalled h0
    have hle : s0.data.acquired.toNat ≤ 1 :=
      h0.invariant_of_discipline (I := fun s => s.data.acquired.toNat ≤ 1) (discipline m) (valid_initial m)
        (owned_initial m) (Nat.zero_le 1) fun s t s' hvalid howned ih hstep _ =>
          (step_moves (hvalid t) howned hstep).1.acquired_le_one htype ih
    have hcount := (hheld.taken t (hheld.eq_holder (hdepth0 ▸ hn))).2
    omega
  have hlt : n < 2 ^ 31 := by
    by_cases hone : 1 < n
    · exact hdepth0 ▸ depth_lt_of_reaches h0 (hmany hone) t
    · omega
  obtain ⟨hreach, hrestores⟩ : (program m).Reaches (CountFits m) initial s ∧ Restores n (s.thread t).point := by
    refine h.invariant (I := fun s => _ ∧ Restores n (s.thread t).point) ⟨h0, by rw [hcall]; rfl⟩ ?_
    rintro s u s' _ ⟨hreach, ih⟩ hstep ⟨hfits, hbusy⟩
    refine ⟨hreach.step hstep hfits, ?_⟩
    by_cases hu : u = t
    · subst hu
      refine (ih.step hstalled hn hlt hmany (held_of_reaches hstalled hreach) hstep).resolve_right fun hidle => ?_
      exact Bool.false_ne_true (hbusy.symm.trans hidle.1)
    · have hvalid := hreach.valid_point (discipline m) (valid_initial m)
      have howned := hreach.owned (discipline m) (valid_initial m) (owned_initial m)
      rwa [point_of_step ((step_moves (hvalid u) howned hstep).2 t (Ne.symm hu))]
  have hheld := held_of_reaches hstalled hreach
  refine ⟨fun c k hpoint => ?_, fun s' hstep hfits hidle hzero => ?_⟩
  · have hdepth : depth s t = 0 := by
      rw [Restores, hpoint] at hrestores
      exact hrestores.1
    refine ⟨hdepth, fun hholding => (hheld.taken t hholding).1.ne' hdepth, fun hholder => ?_⟩
    have hholds := (hreach.owned (discipline m) (valid_initial m) (owned_initial m) .mutex t).mp hholder
    have howns : owns m (s.thread t).point .mutex := by
      cases hst : s.thread t with
      | running =>
        rw [hst] at hholds
        exact hholds
      | waiting | notified =>
        rw [hst] at hholds
        exact hholds.1
    obtain hlock | ⟨_, _, hpos⟩ := howns
    · rw [hpoint] at hlock
      exact hlock
    · exact hpos.ne' hdepth
  · have hheld' := held_of_reaches hstalled (hreach.step hstep hfits)
    obtain hmore | ⟨_, heq⟩ := hrestores.step hstalled hn hlt hmany hheld hstep
    · cases hp : (s'.thread t).point.point with
      | idle =>
        rw [Restores, hp] at hmore
        exact hmore.elim
      | _ =>
        rw [hp] at hidle
        exact absurd hidle Bool.false_ne_true
    · exact ⟨heq hzero, hheld'.eq_holder (hn.trans_eq (heq hzero).symm)⟩

instance [Fintype T] (u : T) : Decidable (Inside m t s u s') := inferInstanceAs (Decidable (_ ∧ _))

abbrev ThreeThreads := State (Fin 3) (Lock Unit) (Place Unit) (Data (Fin 3) Unit)

abbrev Schedule := List (Fin 3 × Program.Choice (Fin 3) (Call Unit))

/-- Thread 0 after its call, before the last step of the call and after it. -/
def waitRun (m : Attributes) (before inside : Schedule) :
    Option (Status (Place Unit) × Status (Place Unit) × Status (Place Unit)) :=
  ((program m).runWhile (fun s t s' => CountFits m s t s') initial before).bind fun s0 =>
    ((program m).runWhile (fun s t s' => Inside m 0 s t s') s0 inside).bind fun s =>
      (((program m).step s 0 .go).filter fun s' => CountFits m s 0 s').map fun s' =>
        (s0.thread 0, s.thread 0, s'.thread 0)

lemma reaches_of_waitRun {before inside : Schedule} {st0 st st' : Status (Place Unit)}
    (h : waitRun m before inside = some (st0, st, st')) :
    ∃ s0 s s' : ThreeThreads, s0.thread 0 = st0 ∧ s.thread 0 = st ∧ s'.thread 0 = st' ∧
      (program m).Reaches (CountFits m) initial s0 ∧ (program m).Reaches (Inside m 0) s0 s ∧
      (program m).Step s 0 s' ∧ CountFits m s 0 s' := by
  obtain ⟨s0, hs0, h⟩ := bind_eq_some_iff.mp h
  obtain ⟨s, hs, h⟩ := bind_eq_some_iff.mp h
  obtain ⟨s', hs', ⟨⟩⟩ := map_eq_some_iff.mp h
  obtain ⟨hs', hfits⟩ := filter_eq_some_iff.mp hs'
  exact ⟨s0, s, s', rfl, rfl, rfl, Program.reaches_of_runWhile before hs0,
    Program.reaches_of_runWhile inside hs, .of_step hs', of_decide_eq_true hfits⟩

def lockTwiceAndWait : Schedule :=
  [(0, .call .lock), (0, .go), (0, .go), (0, .call .lock), (0, .go), (0, .go), (0, .call (.condWait ()))]

theorem pthreadCondWait_restores_two : ∃ s0 s s' : ThreeThreads,
      (program recursiveMutex).Reaches (CountFits recursiveMutex) initial s0 ∧
      s0.thread 0 = .running ⟨2, .condAcquire ()⟩ ∧ (program recursiveMutex).Reaches (Inside recursiveMutex 0) s0 s ∧
      (program recursiveMutex).Step s 0 s' ∧ depth s' 0 = 2 ∧ s'.data.holdingThread = some 0 := by
  have hrun : waitRun recursiveMutex lockTwiceAndWait
      [(0, .go), (0, .go), (0, .go), (0, .go), (1, .call (.condSignal ())), (1, .notify 0), (1, .go), (0, .go),
        (0, .go), (0, .go), (0, .go), (0, .go)] =
      some (.running ⟨2, .condAcquire ()⟩, .running ⟨2, .lockRelease .success (.again 1)⟩, .running ⟨2, .idle⟩) := rfl
  obtain ⟨s0, s, s', hcall, hs, hs', hreach, hinside, hstep, hfits⟩ := reaches_of_waitRun hrun
  obtain ⟨_, hreturn⟩ := pthreadCondWait_restores rfl hreach hcall Nat.two_pos hinside
  obtain ⟨hdepth, hholding⟩ := hreturn s' hstep hfits (by rw [hs']; rfl) (by rw [hs]; trivial)
  exact ⟨s0, s, s', hreach, hcall, hinside, hstep, hdepth, hholding⟩

/-- The mutex has become unusable before the second lock after the wait, but the call returns zero. -/
theorem pthreadCondWait_unusable : ∃ m, ∃ s0 s s' : ThreeThreads,
      (program m).Reaches (CountFits m) initial s0 ∧ s0.thread 0 = .running ⟨2, .condAcquire ()⟩ ∧
      (program m).Reaches (Inside m 0) s0 s ∧ (program m).Step s 0 s' ∧ s'.thread 0 = .running ⟨1, .idle⟩ ∧
      ReturnsZero (s.thread 0).point.point := by
  have hrun : waitRun ⟨.recursive, .robust, .unknown⟩ lockTwiceAndWait
      [(0, .go), (0, .go), (0, .go), (0, .go), (1, .call .lock), (1, .go), (1, .go), (1, .call .exit),
        (2, .call .lock), (2, .go), (2, .go), (2, .call (.condSignal ())), (2, .notify 0), (2, .go), (0, .go),
        (0, .go), (0, .go), (0, .go), (2, .call .unlock), (2, .notify 0), (2, .go), (0, .go), (0, .go), (0, .go)] =
      some (.running ⟨2, .condAcquire ()⟩, .running ⟨1, .lockRelease .EINVAL (.again 1)⟩, .running ⟨1, .idle⟩) := rfl
  obtain ⟨s0, s, s', hcall, hs, hs', hreach, hinside, hstep, _⟩ := reaches_of_waitRun hrun
  exact ⟨_, s0, s, s', hreach, hcall, hinside, hstep, hs', by rw [hs]; trivial⟩

end Pthread.Mutex
