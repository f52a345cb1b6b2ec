import PorSe.Pthread.MutexLocks

/-! What the functions of a mutex do to its fields, and what a step of a thread can do. -/

namespace Pthread.Mutex
open Concurrent Function
variable {T C : Type*} [DecidableEq T] {m : Attributes} {t : T} {d : Data T C}

/-! ## The functions -/

inductive Effect (m : Attributes) (t : T) (d : Data T C) (woken : Bool) : Internal × Data T C → Prop
  | refuse {r : Result} : r ≠ .success → r ≠ .EOWNERDEAD → Effect m t d woken (.ret r, d)
  | halt {i : Internal} : i = .twice ∨ i = .assertion → Effect m t d woken (i, d)
  | wait : (m.robust = .robust → d.robustState ≠ .unusable ∧ ∃ h, d.holdingThread = some h ∧ d.exited h = false) →
      Effect m t d woken (.wait, d)
  | take : (woken = false → m.robust = .robust → d.robustState ≠ .unusable) → d.acquired = 0 →
      Effect m t d woken (.ret .success, d.take t)
  | again : (m.robust = .robust → d.robustState ≠ .unusable) → d.acquired ≠ 0 → d.holdingThread = some t →
      m.type = .recursive → Effect m t d woken (.ret .success, { d with acquired := d.acquired + 1 })
  | ownerDead {h : T} : m.robust = .robust → d.robustState ≠ .unusable → d.holdingThread = some h →
      d.exited h = true → Effect m t d woken (.ret .EOWNERDEAD, { d.take t with robustState := .inconsistent })

omit [DecidableEq T] in
lemma effect_lockLoop (mayBlock woken : Bool) : Effect m t d woken (lockLoop m t mayBlock d) := by
  rw [lockLoop]
  by_cases hunusable : m.robust = .robust ∧ d.robustState = .unusable
  · rw [if_pos hunusable]
    exact .refuse nofun nofun
  rw [if_neg hunusable]
  have husable : m.robust = .robust → d.robustState ≠ .unusable := fun hr hu => hunusable ⟨hr, hu⟩
  split
  · rename_i h hh
    split_ifs with hdead
    · exact .ownerDead hdead.1 (husable hdead.1) hh hdead.2
    · exact .wait fun hr => ⟨husable hr, h, hh, Bool.eq_false_iff.mpr fun he => hdead ⟨hr, he⟩⟩
    · exact .refuse nofun nofun
  · split_ifs with hr
    · exact .halt (.inr rfl)
    · exact .wait fun h => absurd h hr
    · exact .refuse nofun nofun

omit [DecidableEq T] in
lemma effect_lockWoken : Effect m t d true (lockWoken m t d) := by
  rw [lockWoken]
  split_ifs with hfree
  · exact .take nofun hfree
  · exact effect_lockLoop true true

lemma effect_lockInternal (mayBlock : Bool) : Effect m t d false (lockInternal m t mayBlock d) := by
  rw [lockInternal]
  by_cases hunusable : m.robust = .robust ∧ d.robustState = .unusable
  · rw [if_pos hunusable]
    exact .refuse nofun nofun
  rw [if_neg hunusable]
  by_cases hfree : d.acquired = 0
  · rw [if_pos hfree]
    exact .take (fun _ hr hu => hunusable ⟨hr, hu⟩) hfree
  rw [if_neg hfree]
  split
  · exact .halt (.inr rfl)
  · rename_i h hh
    split_ifs with ht
    · subst ht
      split
      · exact .refuse nofun nofun
      · rename_i htype
        exact .again (fun hr hu => hunusable ⟨hr, hu⟩) hfree hh htype
      · exact .halt (.inl rfl)
    · exact effect_lockLoop mayBlock false

inductive UnlockEffect (m : Attributes) (t : T) (d : Data T C) : Unlocked × Data T C → Prop
  | fail {x : Unlocked} : x = .notPermitted ∨ x = .error → UnlockEffect m t d (x, d)
  | kept : d.holdingThread = some t → m.type = .recursive → 0 < d.acquired.toInt → d.acquired - 1 ≠ 0 →
      UnlockEffect m t d (.kept, { d with acquired := d.acquired - 1 })
  | given {s : RobustState} : d.holdingThread = some t →
      s = d.robustState ∨ (m.robust = .robust ∧ s = .unusable ∧ d.robustState = .inconsistent) →
      UnlockEffect m t d (.given, { d.give with robustState := s })

lemma unlockEffect_kprMutexUnlock (force : Bool) : UnlockEffect m t d (kprMutexUnlock m t force d) := by
  rw [kprMutexUnlock]
  split_ifs with hnot htype hneg hkept hrobust
  · exact .fail (.inl rfl)
  · exact .fail (.inr rfl)
  · exact .fail (.inr rfl)
  all_goals
    have hholds : d.holdingThread = some t := by_contra fun hne => hnot (.inr hne)
  · refine .kept hholds hkept.1 ?_ fun hzero => hkept.2 (.inl hzero)
    exact Int.not_le.mp fun hle => hneg ⟨hkept.1, hle⟩
  · exact .given hholds (.inr ⟨hrobust.1, rfl, hrobust.2⟩)
  · exact .given hholds (.inl rfl)

/-! ## The steps -/

def SameFields (d d' : Data T C) : Prop :=
  d'.acquired = d.acquired ∧ d'.holdingThread = d.holdingThread ∧ d'.robustState = d.robustState ∧ d'.exited = d.exited

def Plain : Point C → Prop
  | .lockWait _ => False
  | .lockRelease r _ | .trylockRelease r => r ≠ .success ∧ r ≠ .EOWNERDEAD
  | _ => True

def Arrives (i : Internal) (n : ℕ) (y : Place C) : Prop :=
  match i with
  | .ret r => y.depth = takenDepth n r ∧ ((∃ w, y.point = .lockRelease r w) ∨ y.point = .trylockRelease r)
  | .wait => y.depth = n ∧ ∃ w, y.point = .lockWait w
  | .twice | .assertion => y.depth = n ∧ Plain y.point

omit [DecidableEq T] in
lemma SameFields.refl (d : Data T C) : SameFields d d := ⟨rfl, rfl, rfl, rfl⟩

lemma plain_returnLock (r : Result) (w : Locker) : Plain (returnLock r w : Point C) := by
  obtain h | ⟨w', h⟩ := returnLock_cases r w <;> rw [h] <;> trivial

omit [DecidableEq T] in
lemma afterInternal_spec {release : Result → Point C} (hrelease : Releases release) (w : Locker) (n : ℕ)
    (x : Internal × Data T C) :
    (afterInternal n release (.lockWait w) x).notice = .nobody ∧ (afterInternal n release (.lockWait w) x).data = x.2 ∧
      Arrives x.1 n (afterInternal n release (.lockWait w) x).point := by
  obtain ⟨i, d⟩ := x
  cases i with
  | ret r =>
    cases hrelease with
    | lock w => exact ⟨rfl, rfl, rfl, .inl ⟨w, rfl⟩⟩
    | trylock => exact ⟨rfl, rfl, rfl, .inr rfl⟩
  | wait => exact ⟨rfl, rfl, rfl, w, rfl⟩
  | twice | assertion => exact ⟨rfl, rfl, rfl, trivial⟩

variable [DecidableEq C]

inductive Moves (m : Attributes) (s : State T (Lock C) (Place C) (Data T C)) (t : T) :
    Status (Place C) → Data T C → Prop
  | sleep {x : Place C} : s.thread t = .running x → Moves m s t (.waiting x) s.data
  | quiet {x : Place C} {p : Point C} {d : Data T C} : s.thread t = .running x ∨ s.thread t = .notified x →
      SameFields s.data d → Plain p → Moves m s t (.running ⟨x.depth, p⟩) d
  | exit {x : Place C} : s.thread t = .running x → s.data.exited t = false → Plain x.point →
      Moves m s t (.running x) { s.data with exited := update s.data.exited t true }
  | takeDefault {x : Place C} {p : Point C} : m.kprMutexDefault = true → s.holder .mutex = none →
      s.thread t = .running x → Plain p → Moves m s t (.running ⟨x.depth + 1, p⟩) (s.data.take t)
  | giveDefault {x : Place C} {p : Point C} : m.kprMutexDefault = true → s.thread t = .running x → 0 < x.depth →
      Plain p → Moves m s t (.running ⟨0, p⟩) s.data.give
  | lock {x y : Place C} {woken : Bool} {i : Internal} {d : Data T C} : m.kprMutexDefault = false →
      s.holder .mutex = none →
      (s.thread t = .running x ∧ woken = false) ∨ (s.thread t = .notified x ∧ ∃ w, x.point = .lockWait w) →
      Effect m t s.data woken (i, d) → Arrives i x.depth y → Moves m s t (.running y) d
  | kept {x : Place C} {w : Unlocker C} {d : Data T C} : m.kprMutexDefault = false → s.holder .mutex = none →
      s.thread t = .running x → UnlockEffect m t s.data (.kept, d) →
      Moves m s t (.running ⟨x.depth - 1, .unlockRelease .success w⟩) d
  | given {x : Place C} {w : Unlocker C} {d : Data T C} : m.kprMutexDefault = false → s.holder .mutex = none →
      s.thread t = .running x → UnlockEffect m t s.data (.given, d) →
      Moves m s t (.running ⟨0, .unlockRelease .success w⟩) d
  | consistent {x : Place C} {r : Result} : m.robust = .robust → s.thread t = .running x →
      s.data.robustState = .inconsistent →
      Moves m s t (.running ⟨x.depth, .consistentRelease r⟩) { s.data with robustState := .normal }

omit [DecidableEq T] in
lemma returnUnlock_spec (r : Result) (n : ℕ) (d : Data T C) (w : Unlocker C) :
    (returnUnlock r n d w).notice = .nobody ∧ SameFields d (returnUnlock r n d w).data ∧
      ∃ p, Plain p ∧ (returnUnlock r n d w).point = ⟨n, p⟩ := by
  cases w with
  | user => exact ⟨rfl, .refl d, .idle, trivial, rfl⟩
  | condWait c l =>
    rw [returnUnlock]
    split_ifs
    · exact ⟨rfl, .refl d, .condFail c, trivial, rfl⟩
    · exact ⟨rfl, .refl d, .failed [.cond c], trivial, rfl⟩
    · exact ⟨rfl, ⟨rfl, rfl, rfl, rfl⟩, .condWait c l, trivial, rfl⟩

variable {s s' : State T (Lock C) (Place C) (Data T C)}

lemma moves_call {a : Call C} {x : Place C} {r : Place C × Data T C} (hx : s.thread t = .running x)
    (h : (program m).call t a x s.data = some r) : Moves m s t (.running r.1) r.2 := by
  obtain ⟨hpoint, hbegins⟩ := begins h
  cases hbegins with
  | lock | trylock | trylockDefault | unlock | consistent | condWait | condSignal | condBroadcast =>
    exact .quiet (.inl hx) (.refl _) trivial
  | unlockDefault hm hdepth => exact .giveDefault hm hx hdepth trivial
  | exit hexited =>
    obtain ⟨n, p⟩ := x
    cases hpoint
    exact .exit hx hexited trivial

omit [DecidableEq T] [DecidableEq C] in
lemma emulated_of_valid {x : Place C} (h : valid m x) (hx : ¬ validDefault x) : m.kprMutexDefault = false := by
  cases hm : m.kprMutexDefault with
  | true =>
    rw [valid_default hm] at h
    exact absurd h hx
  | false => rfl

lemma moves_acquire {x : Place C} {l : Lock C} (hvalid : valid m x) (howned : (program m).Owned (owns m) s)
    (hx : s.thread t = .running x) (hprim : (program m : Program T _ _ _ (Data T C) _).primitive x = .acquire l)
    (hfree : s.holder l = none) :
    Moves m s t (.running ((program m).code t x s.data).point) ((program m).code t x s.data).data := by
  obtain ⟨n, p⟩ := x
  cases p with
  | lockAcquire w =>
    cases hprim
    cases hm : m.kprMutexDefault with
    | true =>
      simp only [program, hm]
      exact .takeDefault hm hfree hx (plain_returnLock _ w)
    | false =>
      simp only [program, hm, Bool.false_eq_true, if_false]
      obtain ⟨_, hdata, harrives⟩ := afterInternal_spec (.lock w) w n
        (lockInternal m t true s.data)
      rw [hdata]
      exact .lock hm hfree (.inl ⟨hx, rfl⟩) (effect_lockInternal true) harrives
  | trylockAcquire =>
    cases hprim
    obtain ⟨_, hdata, harrives⟩ := afterInternal_spec .trylock .user n
      (lockInternal m t false s.data)
    change Moves m s t (.running
      (afterInternal n .trylockRelease (.lockWait .user) (lockInternal m t false s.data)).point)
      (afterInternal n .trylockRelease (.lockWait .user) (lockInternal m t false s.data)).data
    rw [hdata]
    exact .lock (emulated_of_valid hvalid not_false) hfree (.inl ⟨hx, rfl⟩) (effect_lockInternal false) harrives
  | lockTwice =>
    cases hprim
    refine absurd ?_ (howned.not_holds (t := t) hfree)
    rw [hx]
    exact .inl trivial
  | consistentAcquire =>
    change Moves m s t (.running ⟨n, .consistentRelease (pthreadMutexConsistent m t s.data).1⟩)
      (pthreadMutexConsistent m t s.data).2
    rw [pthreadMutexConsistent]
    split_ifs with hrobust hnot
    · exact .quiet (.inl hx) (.refl _) trivial
    · exact .quiet (.inl hx) (.refl _) trivial
    · exact .consistent (not_not.mp hrobust) hx (by_contra fun hne => hnot (.inr hne))
  | unlockAcquire w =>
    cases hprim
    have hm := emulated_of_valid hvalid not_false
    have heffect := unlockEffect_kprMutexUnlock (m := m) (t := t) (d := s.data) w.force
    change Moves m s t (.running (afterUnlock n w (kprMutexUnlock m t w.force s.data)).point)
      (afterUnlock n w (kprMutexUnlock m t w.force s.data)).data
    rcases hunlock : kprMutexUnlock m t w.force s.data with ⟨x, d⟩
    rw [hunlock] at heffect
    cases heffect with
    | fail hfail => obtain rfl | rfl := hfail <;> exact .quiet (.inl hx) (.refl _) (by simp [Plain])
    | kept h1 h2 h3 h4 => exact .kept hm hfree hx (.kept h1 h2 h3 h4)
    | given h1 h2 => exact .given hm hfree hx (.given h1 h2)
  | condAcquire c =>
    cases hm : m.kprMutexDefault with
    | true =>
      rw [valid_default hm] at hvalid
      simp only [program, hm]
      exact .giveDefault hm hx hvalid trivial
    | false =>
      simp only [program, hm]
      exact .quiet (.inl hx) (.refl _) trivial
  | signalAcquire c | broadcastAcquire c => exact .quiet (.inl hx) ⟨rfl, rfl, rfl, rfl⟩ trivial
  | _ => cases hprim

lemma moves_release {x : Place C} {l : Lock C} (hx : s.thread t = .running x)
    (hprim : (program m : Program T _ _ _ (Data T C) _).primitive x = .release l) :
    Moves m s t (.running ((program m).code t x s.data).point) ((program m).code t x s.data).data := by
  have hreturn : ∀ r n w, s.thread t = .running x → x.depth = n →
      Moves m s t (.running (returnUnlock r n s.data w).point) (returnUnlock r n s.data w).data := by
    rintro r n w hx rfl
    obtain ⟨_, hsame, p, hplain, hpoint⟩ := returnUnlock_spec r x.depth s.data w
    rw [hpoint]
    exact .quiet (.inl hx) hsame hplain
  obtain ⟨n, p⟩ := x
  cases p with
  | lockRelease r w => exact .quiet (.inl hx) (.refl _) (plain_returnLock r w)
  | unlockRelease r w => exact hreturn r n w hx rfl
  | unlockDefault w => exact hreturn .success n w hx rfl
  | trylockRelease | consistentRelease | condFail | condRelease | signalRelease | broadcastRelease =>
    exact .quiet (.inl hx) (.refl _) trivial
  | _ => cases hprim

lemma moves_wake {x : Place C} {c l : Lock C} (hvalid : valid m x) (hx : s.thread t = .notified x)
    (hprim : (program m : Program T _ _ _ (Data T C) _).primitive x = .wait c l) (hfree : s.holder l = none) :
    Moves m s t (.running ((program m).code t x s.data).point) ((program m).code t x s.data).data := by
  obtain ⟨n, p⟩ := x
  cases p with
  | lockWait w =>
    cases hprim
    obtain ⟨_, hdata, harrives⟩ := afterInternal_spec (.lock w) w n
      (lockWoken m t s.data)
    change Moves m s t (.running (afterInternal n (.lockRelease · w) (.lockWait w) (lockWoken m t s.data)).point)
      (afterInternal n (.lockRelease · w) (.lockWait w) (lockWoken m t s.data)).data
    rw [hdata]
    exact .lock (emulated_of_valid hvalid not_false) hfree (.inr ⟨hx, w, rfl⟩) effect_lockWoken harrives
  | condWait c l => exact .quiet (.inr hx) (.refl _) trivial
  | _ => cases hprim

omit [DecidableEq T] [DecidableEq C] in
lemma point_of_step {u : T} (h : s'.thread u = s.thread u ∨ ∃ x, s.thread u = .waiting x ∧ s'.thread u = .notified x) :
    (s'.thread u).point = (s.thread u).point := by
  obtain heq | ⟨x, hx, hx'⟩ := h
  · rw [heq]
  · rw [hx, hx']
    rfl

lemma step_moves (hvalid : valid m (s.thread t).point) (howned : (program m).Owned (owns m) s)
    (h : (program m).Step s t s') :
    Moves m s t (s'.thread t) s'.data ∧
      ∀ u, u ≠ t → s'.thread u = s.thread u ∨ ∃ x, s.thread u = .waiting x ∧ s'.thread u = .notified x := by
  have hself : ∀ {thread : T → Status (Place C)} {st d}, Moves m s t st d →
      Moves m s t (update thread t st t) d := fun h => by rwa [update_self]
  have hothers : ∀ {thread : T → Status (Place C)} {st},
      (∀ u, thread u = s.thread u ∨ ∃ x, s.thread u = .waiting x ∧ thread u = .notified x) → ∀ u, u ≠ t →
      update thread t st u = s.thread u ∨
        ∃ x, s.thread u = .waiting x ∧ update thread t st u = .notified x := fun h u hu => by
    rw [update_of_ne hu]
    exact h u
  cases h with
  | call hx _ hr => exact ⟨hself (moves_call hx hr), hothers fun _ => .inl rfl⟩
  | acquire hx hprim hfree hn =>
    rw [hx] at hvalid
    exact ⟨hself (moves_acquire hvalid howned hx hprim hfree), hothers hn.cases⟩
  | release hx hprim _ hn => exact ⟨hself (moves_release hx hprim), hothers hn.cases⟩
  | wait hx hprim _ => exact ⟨hself (.sleep hx), hothers fun _ => .inl rfl⟩
  | wake hx hprim hfree hn =>
    rw [hx] at hvalid
    exact ⟨hself (moves_wake hvalid hx hprim hfree), hothers hn.cases⟩

end Pthread.Mutex
