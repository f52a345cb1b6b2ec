import PorSe.Pthread.MutexSteps

/-! A non-robust mutex excludes: at most one thread has locked it, as long as the count of a recursive mutex
does not overflow. -/

namespace Pthread.Mutex
open Concurrent Function
variable {T C : Type*}

def depth (s : State T (Lock C) (Place C) (Data T C)) (t : T) : ℕ := (s.thread t).point.depth

/-- The count of a recursive mutex stays in the range of `int`. -/
def CountFits (m : Attributes) (_ : State T (Lock C) (Place C) (Data T C)) (_ : T)
    (s' : State T (Lock C) (Place C) (Data T C)) : Prop :=
  m.type = .recursive → ∀ u, depth s' u < 2 ^ 31

/-- The fields say who has locked the mutex and how often. -/
structure Held (depth : T → ℕ) (d : Data T C) : Prop where
  others : ∀ u, d.holdingThread ≠ some u → depth u = 0
  free : d.holdingThread = none → d.acquired = 0
  taken : ∀ u, d.holdingThread = some u → 0 < depth u ∧ d.acquired.toNat = depth u

section
variable {f f' : T → ℕ} {d d' : Data T C} {t : T} (h : Held f d)
include h

lemma Held.same (hf : ∀ u, f' u = f u) (hacquired : d'.acquired = d.acquired)
    (hholding : d'.holdingThread = d.holdingThread) : Held f' d' := by
  refine ⟨fun u hu => ?_, fun hnone => ?_, fun u hu => ?_⟩
  · rw [hf]
    exact h.others u (hholding ▸ hu)
  · rw [hacquired]
    exact h.free (hholding ▸ hnone)
  · rw [hf, hacquired]
    exact h.taken u (hholding ▸ hu)

lemma Held.eq_holder (ht : 0 < f t) : d.holdingThread = some t :=
  by_contra fun hne => ht.ne' (h.others t hne)

lemma Held.eq_zero (hzero : d.acquired = 0) (u : T) : f u = 0 := by
  refine h.others u fun hu => ?_
  obtain ⟨hpos, heq⟩ := h.taken u hu
  rw [hzero] at heq
  exact hpos.ne heq

omit h in
lemma Held.take (hf : ∀ u, f u = 0) (ht : f' t = 1) (hf' : ∀ u, u ≠ t → f' u = f u) (hacquired : d'.acquired = 1)
    (hholding : d'.holdingThread = some t) : Held f' d' := by
  refine ⟨fun u hu => ?_, fun hnone => ?_, fun u hu => ?_⟩
  · rw [hf' u fun hut => hu (hut ▸ hholding), hf]
  · exact nomatch hnone.symm.trans hholding
  · cases hholding.symm.trans hu
    rw [ht, hacquired]
    exact ⟨Nat.one_pos, rfl⟩

lemma Held.give (ht : d.holdingThread = some t) (hzero : f' t = 0) (hf' : ∀ u, u ≠ t → f' u = f u)
    (hacquired : d'.acquired = 0) (hholding : d'.holdingThread = none) : Held f' d' := by
  refine ⟨fun u _ => ?_, fun _ => hacquired, fun u hu => nomatch hholding.symm.trans hu⟩
  by_cases hu : u = t
  · rw [hu, hzero]
  · rw [hf' u hu]
    exact h.others u fun hu' => hu (Option.some.inj (hu'.symm.trans ht))

lemma Held.count (ht : d.holdingThread = some t) (hpos : 0 < f' t) (hcount : d'.acquired.toNat = f' t)
    (hf' : ∀ u, u ≠ t → f' u = f u) (hholding : d'.holdingThread = d.holdingThread) : Held f' d' := by
  refine ⟨fun u hu => ?_, fun hnone => ?_, fun u hu => ?_⟩
  · have hut : u ≠ t := fun hut => hu (hholding.trans (hut ▸ ht))
    rw [hf' u hut]
    exact h.others u (hholding ▸ hu)
  · exact nomatch hnone.symm.trans (hholding.trans ht)
  · cases hu.symm.trans (hholding.trans ht)
    exact ⟨hpos, hcount⟩

end

variable [DecidableEq T] [DecidableEq C] {m : Attributes} {s s' : State T (Lock C) (Place C) (Data T C)} {t : T}

lemma depth_eq_zero (hvalid : ∀ u, valid m (s.thread u).point) (howned : (program m).Owned (owns m) s)
    (hm : m.kprMutexDefault = true) (hfree : s.holder .mutex = none) (u : T) : depth s u = 0 := by
  by_contra hdepth
  have howns : owns m (s.thread u).point .mutex := .inr ⟨hm, rfl, Nat.pos_of_ne_zero hdepth⟩
  have hvalid := hvalid u
  refine howned.not_holds (t := u) hfree ?_
  cases hst : s.thread u with
  | running x =>
    rw [hst] at howns
    exact howns
  | waiting x | notified x =>
    rw [hst] at howns hvalid
    refine ⟨howns, fun c hc => ?_⟩
    obtain ⟨n, p⟩ := x
    rw [valid_default hm] at hvalid
    cases p with
    | lockWait => exact hvalid.elim
    | _ => cases hc

lemma Held.step (hstalled : m.robust = .stalled) (hvalid : ∀ u, valid m (s.thread u).point)
    (howned : (program m).Owned (owns m) s) (h : Held (depth s) s.data) (hmoves : Moves m s t (s'.thread t) s'.data)
    (hothers : ∀ u, u ≠ t → depth s' u = depth s u) (hfits : CountFits m s t s') : Held (depth s') s'.data := by
  have hnot : m.robust ≠ .robust := fun hr => nomatch hstalled.symm.trans hr
  have hdepth : ∀ {x}, s.thread t = .running x ∨ s.thread t = .notified x → depth s t = x.depth := fun hx => by
    rw [depth]
    obtain hx | hx := hx <;> rw [hx] <;> rfl
  have hkeep : depth s' t = depth s t → ∀ u, depth s' u = depth s u := fun ht u => by
    by_cases hu : u = t
    · rw [hu, ht]
    · exact hothers u hu
  have hdepth' : depth s' t = (s'.thread t).point.depth := rfl
  generalize s'.thread t = st at hmoves hdepth'
  generalize s'.data = d at hmoves ⊢
  cases hmoves with
  | sleep hx => exact h.same (hkeep (hdepth'.trans (hdepth (.inl hx)).symm)) rfl rfl
  | quiet hx hsame _ => exact h.same (hkeep (hdepth'.trans (hdepth hx).symm)) hsame.1 hsame.2.1
  | exit hx => exact h.same (hkeep (hdepth'.trans (hdepth (.inl hx)).symm)) rfl rfl
  | @takeDefault x p hm hfree hx =>
    have hzero := depth_eq_zero hvalid howned hm hfree
    refine Held.take hzero ?_ hothers rfl rfl
    have hx : x.depth = 0 := (hdepth (.inl hx)).symm.trans (hzero t)
    rw [hdepth']
    change x.depth + 1 = 1
    rw [hx]
  | giveDefault hm hx hpos =>
    exact h.give (h.eq_holder ((hdepth (.inl hx)).symm ▸ hpos)) hdepth' hothers rfl rfl
  | @lock x y _ i _ hm hfree hx heffect harrives =>
    have hx : depth s t = x.depth := hdepth (hx.imp And.left And.left)
    change depth s' t = y.depth at hdepth'
    cases heffect with
    | @refuse r hr hr' =>
      have hsame : takenDepth x.depth r = x.depth := if_neg (not_or.mpr ⟨hr, hr'⟩)
      exact h.same (hkeep (by rw [hdepth', harrives.1, hsame, hx])) rfl rfl
    | halt hi => obtain rfl | rfl := hi <;> exact h.same (hkeep (by rw [hdepth', harrives.1, hx])) rfl rfl
    | wait => exact h.same (hkeep (by rw [hdepth', harrives.1, hx])) rfl rfl
    | take _ hzero =>
      refine Held.take (h.eq_zero hzero) ?_ hothers rfl rfl
      rw [hdepth', harrives.1, ← hx, h.eq_zero hzero]
      rfl
    | again _ hne hholds htype =>
      have hnext : depth s' t = depth s t + 1 := by
        rw [hdepth', harrives.1, hx]
        rfl
      have hcount := (h.taken t hholds).2
      have hlt := hfits htype t
      refine h.count hholds (hnext ▸ Nat.succ_pos _) ?_ hothers rfl
      bv_omega
    | ownerDead hr => exact absurd hr hnot
  | @kept x w _ hm hfree hx heffect =>
    cases heffect with
    | fail hfail => simp at hfail
    | kept hholds htype hpos hne =>
      have hnext : depth s' t = depth s t - 1 := by
        rw [hdepth', hdepth (.inl hx)]
        rfl
      obtain ⟨_, hcount⟩ := h.taken t hholds
      have hcount' : (s.data.acquired - 1).toNat = depth s' t := by bv_omega
      refine h.count hholds ?_ hcount' hothers rfl
      rw [← hcount']
      exact Nat.pos_of_ne_zero fun hzero => hne (BitVec.eq_of_toNat_eq hzero)
  | given hm hfree hx heffect =>
    cases heffect with
    | fail hfail => simp at hfail
    | given hholds => exact h.give hholds hdepth' hothers rfl rfl
  | consistent hr => exact absurd hr hnot

lemma depth_lt_of_reaches (h : (program m).Reaches (CountFits m) initial s) (htype : m.type = .recursive) (u : T) :
    depth s u < 2 ^ 31 := by
  cases h with
  | refl => exact Nat.two_pow_pos 31
  | step _ _ hfits => exact hfits htype u

lemma held_of_reaches (hstalled : m.robust = .stalled) (h : (program m).Reaches (CountFits m) initial s) :
    Held (depth s) s.data := by
  refine h.invariant_of_discipline (I := fun s => Held (depth s) s.data) (discipline m) (valid_initial m)
    (owned_initial m) ⟨fun _ _ => rfl, fun _ => rfl, nofun⟩ ?_
  intro s t s' hvalid howned ih hstep hfits
  obtain ⟨hmoves, hothers⟩ := step_moves (hvalid t) howned hstep
  refine ih.step hstalled hvalid howned hmoves (fun u hu => ?_) hfits
  rw [depth, depth, point_of_step (hothers u hu)]

/-- One thread at most has locked the mutex, a call returns zero only with it locked, `acquired` counts the locks. -/
theorem mutex_exclusive (hstalled : m.robust = .stalled) (h : (program m).Reaches (CountFits m) initial s) :
    (∀ t u, 0 < depth s t → 0 < depth s u → t = u) ∧
    (∀ t n r, (∃ w, s.thread t = .running ⟨n, .lockRelease r w⟩) ∨ s.thread t = .running ⟨n, .trylockRelease r⟩ →
      r = .success → 0 < depth s t) ∧
    (m.type = .recursive → ∀ t, s.data.holdingThread = some t → s.data.acquired.toInt = depth s t) := by
  have hheld := held_of_reaches hstalled h
  refine ⟨fun t u ht hu => ?_, fun t n r ht hr => ?_, fun htype t ht => ?_⟩
  · exact Option.some.inj ((hheld.eq_holder ht).symm.trans (hheld.eq_holder hu))
  · have hvalid := h.valid_point (discipline m) (valid_initial m) t
    obtain ⟨w, ht⟩ | ht := ht
    · rw [ht] at hvalid
      rw [valid_emulated (emulated_of_valid hvalid not_false)] at hvalid
      rw [depth, ht]
      exact hvalid hr
    · rw [ht] at hvalid
      rw [valid_emulated (emulated_of_valid hvalid not_false)] at hvalid
      rw [depth, ht]
      exact hvalid hr
  · have hcount := (hheld.taken t ht).2
    have hlt := depth_lt_of_reaches h htype t
    rw [BitVec.toInt_eq_toNat_of_lt (by omega), hcount]

def recursiveMutex : Attributes := ⟨.recursive, .stalled, .unknown⟩

instance [Fintype T] (u : T) : Decidable (CountFits m s u s') := inferInstanceAs (Decidable (_ → ∀ _, _))

theorem mutex_exclusive_recursive : ∃ s : State (Fin 2) (Lock Empty) (Place Empty) (Data (Fin 2) Empty),
      (program recursiveMutex).Reaches (CountFits recursiveMutex) initial s ∧ depth s 0 = 2 ∧
      s.data.acquired.toInt = depth s 0 ∧ ∀ u, 0 < depth s u → u = 0 := by
  have hrun : ((program recursiveMutex).runWhile (fun s t s' => CountFits recursiveMutex s t s')
      (initial : State (Fin 2) (Lock Empty) (Place Empty) (Data (Fin 2) Empty))
      [(0, .call .lock), (0, .go), (0, .go), (0, .call .lock), (0, .go), (0, .go)]).map
      (fun s => (depth s 0, s.data.holdingThread)) = some (2, some 0) := rfl
  obtain ⟨s, hs, heq⟩ := Option.map_eq_some_iff.mp hrun
  obtain ⟨hdepth, hholding⟩ := Prod.mk.inj heq
  have hreach := Program.reaches_of_runWhile _ hs
  obtain ⟨hone, _, hcount⟩ := mutex_exclusive rfl hreach
  exact ⟨s, hreach, hdepth, hcount rfl 0 hholding, fun u hu => hone u 0 hu (by rw [hdepth]; exact Nat.two_pos)⟩

/-! ## The count overflows -/

lemma reachable_lock {s0 : State T (Lock C) (Place C) (Data T C)} (hs : (program m).Reachable s0 s)
    (hm : m.kprMutexDefault = false) (hfree : s.holder .mutex = none) {n : ℕ}
    (ht : s.thread t = .running ⟨n, .idle⟩) {r : Result} {d : Data T C}
    (hinternal : lockInternal m t true s.data = (.ret r, d)) :
    (program m).Reachable s0 ⟨d, s.holder, update s.thread t (.running ⟨takenDepth n r, .idle⟩)⟩ := by
  have hcode : (program m).code t ⟨n, .lockAcquire .user⟩ s.data =
      ⟨⟨takenDepth n r, .lockRelease r .user⟩, d, .nobody⟩ := by
    simp only [program, hm, hinternal]
    rfl
  exact hs.runs_alone (a := Call.lock) ht rfl rfl rfl hfree hcode rfl rfl

omit [DecidableEq C] in
lemma lockInternal_recursive {d : Data T C} {k : ℕ} (hacquired : d.acquired = BitVec.ofNat 32 k)
    (hholding : k ≠ 0 → d.holdingThread = some t) :
    ∃ d', lockInternal recursiveMutex t true d = (.ret .success, d') ∧ d'.acquired = BitVec.ofNat 32 (k + 1) ∧
      d'.holdingThread = some t := by
  by_cases hzero : d.acquired = 0
  · refine ⟨d.take t, ?_, ?_, rfl⟩
    · rw [lockInternal, if_neg (fun h => by cases h.1), if_pos hzero]
    · rw [hacquired] at hzero
      rw [BitVec.ofNat_add, hzero]
      rfl
  · have hk : k ≠ 0 := fun hk => hzero (by rw [hacquired, hk]; rfl)
    refine ⟨{ d with acquired := d.acquired + 1 }, ?_, ?_, hholding hk⟩
    · rw [lockInternal, if_neg hzero, hholding hk]
      simp only [if_true]
      rfl
    · change d.acquired + 1 = _
      rw [hacquired, BitVec.ofNat_add]
      rfl

lemma reachable_locked (k : ℕ) : ∃ s : State (Fin 2) (Lock Empty) (Place Empty) (Data (Fin 2) Empty),
      (program recursiveMutex).Reachable initial s ∧ s.holder .mutex = none ∧
      s.data.acquired = BitVec.ofNat 32 k ∧ (k ≠ 0 → s.data.holdingThread = some 0) ∧
      s.thread 0 = .running ⟨k, .idle⟩ ∧ s.thread 1 = .running ⟨0, .idle⟩ := by
  induction k with
  | zero => exact ⟨initial, .refl, rfl, rfl, fun h => absurd rfl h, rfl, rfl⟩
  | succ k ih =>
    obtain ⟨s, hreach, hfree, hacquired, hholding, h0, h1⟩ := ih
    obtain ⟨d, hinternal, hacquired', hholding'⟩ := lockInternal_recursive hacquired hholding
    exact ⟨_, reachable_lock hreach rfl hfree h0 hinternal, hfree, hacquired', fun _ => hholding', rfl, h1⟩

/-- After `2 ^ 32` locks the count is zero again, and another thread locks the mutex, too. -/
theorem recursive_mutex_locked_twice : ∃ s : State (Fin 2) (Lock Empty) (Place Empty) (Data (Fin 2) Empty),
      (program recursiveMutex).Reachable initial s ∧ 0 < depth s 0 ∧ 0 < depth s 1 := by
  obtain ⟨s, hreach, hfree, hacquired, _, h0, h1⟩ := reachable_locked (2 ^ 32)
  have hzero : s.data.acquired = 0 := by
    rw [hacquired]
    rfl
  have hinternal : lockInternal recursiveMutex 1 true s.data = (.ret .success, s.data.take 1) := by
    rw [lockInternal, if_neg (fun h => by cases h.1), if_pos hzero]
  refine ⟨_, reachable_lock hreach rfl hfree h1 hinternal, ?_, Nat.one_pos⟩
  change 0 < (s.thread 0).point.depth
  rw [h0]
  exact Nat.two_pow_pos 32

end Pthread.Mutex
