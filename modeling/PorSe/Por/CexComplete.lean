import PorSe.Por.CexReplay

/-! Which signals `cex_notification` finds. The walk down the threads leaves a thread as a whole
when its head is a successor of the notification, and the waits in the past of the thread are
looked up below `et`. -/

namespace Por
open List Option Event ListSearch Comb
namespace Configuration
variable {D : Type} [DecidableEq D]

/-- Among the events is a signal of the thread of `e` after `et` that notifies `w`. -/
def SignalFound (e et w : Event D) (xs : List (Event D)) : Prop :=
  ∃ x ∈ xs, x.kind = .signal ∧ x.tid = e.tid ∧ x.threadPredecessor = some et ∧ x.signalWaitPredecessor = some w

instance (e et w : Event D) (xs : List (Event D)) : Decidable (SignalFound e et w xs) :=
  inferInstanceAs (Decidable (∃ x ∈ xs, _))

/-- A causally closed set with `et` but without `e` in which nothing has notified `w`. -/
def WaitsBefore (C : Configuration D) (e et w : Event D) : Prop :=
  ∃ K : Set (Event D), IsLowerSet K ∧ (∀ x ∈ K, x ∈ C) ∧ et ∈ K ∧ w ∈ K ∧ e ∉ K ∧ ∀ n ∈ K, w ∉ n.waitPredecessors

section
variable {C : Configuration D} (hC : Reachable localWhileRunning C) {e et : Event D} (he : e ∈ C)
  (hk : e.kind = .signal ∨ e.kind = .broadcast) (het : e.threadPredecessor = some et)
include hC he het

variable {x w : Event D}

/-! ## Signals to other waiters -/

lemma mem_notifiable_iff (hw : w ∈ C) (hkw : w.kind = .wait1) (hcw : w.cid = e.cid) :
    w ∈ C.notifiableWait1s e et ↔ (w < et ∧ ∀ n < et, w ∉ n.waitPredecessors) ∨
      (w.tid ≠ e.tid ∧ ¬ w < et ∧ ∀ h, C.lastOfTid w.tid = some h → ¬ e < h) := by
  have hW := hC.wellFormed
  have hetC := hW.closed he (threadPred_mem het)
  rw [notifiableWait1s, mem_append, wait1Comb, mem_ofEvents, mem_filter, mem_outsideOf_iff hC he het (by simp [hkw]),
    mem_outstanding hW hC.waiting hC.localRuns (cone_represents (hW.valid hetC))
      (fun y hy => hW.mem_of_le (le_of_lt hy) hetC) (isLowerSet_Iio et)]
  simp [Outstanding, hw, hkw, hcw]

lemma waitsBefore_iff (hw : w ∈ C) (hwe : w ≠ e) :
    C.WaitsBefore e et w ↔ ¬ e < w ∧ ∀ n ≤ et, w ∉ n.waitPredecessors := by
  have hW := hC.wellFormed
  have hete := threadPred_lt het
  have hetC := hW.mem_of_le hete.le he
  constructor
  · rintro ⟨K, hK, -, hetK, hwK, heK, hnone⟩
    exact ⟨fun hlt => heK (hK hlt.le hwK), fun n hn => hnone n (hK hn hetK)⟩
  · rintro ⟨hew, hnone⟩
    refine ⟨pastWith et [w], isLowerSet_pastWith et [w], fun x => mem_of_mem_pastWith hW hetC (by simpa using hw),
      .inl le_rfl, .inr ⟨w, by simp, le_rfl⟩, ?_, ?_⟩
    · rintro (h | ⟨m, hm, h⟩)
      · exact absurd hete (not_lt_of_ge h)
      · obtain rfl := mem_singleton.mp hm
        exact hew (lt_of_le_of_ne h hwe.symm)
    · rintro n (h | ⟨m, hm, h⟩)
      · exact hnone n h
      · obtain rfl := mem_singleton.mp hm
        exact fun hmn => absurd (lt_of_waitPreds hmn) (not_lt_of_ge h)

omit hC he in
lemma signalFound_iff {isCutoff : Event D → Bool} (hcut : isCutoff et = false) (hk : e.kind = .signal)
    {xs : List (Event D)} (hxs : C.cexNotification isCutoff e = some xs) :
    SignalFound e et w xs ↔ (w ∈ C.notifiableWait1s e et ∧ w.kind = .wait1) ∧ e.signalWaitPredecessor ≠ some w := by
  simp only [cexNotification, het, bind_eq_bind, bind_some, hcut, hk, Bool.false_eq_true, if_false,
    bind_eq_some_iff, some.injEq] at hxs
  obtain ⟨Ms, _, _, hlost, _, hsignals, rfl⟩ := hxs
  have hsig : ∀ {v x}, allocSignal e.tid e.cid et v = some x → x = ⟨e.tid, .signal e.cid, [et, v]⟩ := by
    intro v x h
    rw [allocSignal, ite_none_left_eq_some, alloc_eq_some] at h
    exact h.2.1
  constructor
  · rintro ⟨x, hx, -, -, -, hxw⟩
    rcases mem_append.mp hx with hx | hx
    · obtain ⟨M, -, ys, hM, hx⟩ := (mem_flatten_of_mapM hlost).mp hx
      obtain ⟨-, -, -, ⟨-, halloc⟩ | ⟨hk', -⟩⟩ := mem_of_cexLostFor hM hx
      · obtain ⟨hxlost, rfl, -⟩ := allocLostSignal_eq_some.mp halloc
        simp [signalIsLost_iff.mp hxlost] at hxw
      · simp [hk] at hk'
    · obtain ⟨v, hv, halloc⟩ := (mem_of_mapM hsignals).mp hx
      obtain rfl := hsig halloc
      obtain ⟨hkw, p, hp⟩ := signalWait_iff.mp hxw
      obtain ⟨-, rfl⟩ : et = p ∧ v = w := by simpa using hp
      have := mem_filter.mp hv
      exact ⟨⟨this.1, hkw⟩, of_decide_eq_true this.2⟩
  · rintro ⟨⟨hw, hkw⟩, hne⟩
    obtain ⟨x, hx, halloc⟩ := exists_of_mapM hsignals (mem_filter.mpr ⟨hw, decide_eq_true hne⟩)
    obtain rfl := hsig halloc
    exact ⟨_, mem_append_right _ hx, rfl, rfl, rfl, signalWait_iff.mpr ⟨hkw, et, rfl⟩⟩

end

/-- For a wait1 that `e` does not notify, a signal is built as it should be if and only if `et` has not notified `w`
and, unless `w` is below `et` or above `e`, its thread has not gone on after `e`. -/
theorem Reachable.cexNotification_signal_iff {C : Configuration D} (hC : Reachable localWhileRunning C)
    {isCutoff : Event D → Bool} {e et w : Event D} (he : e ∈ C) (hk : e.kind = .signal)
    (het : e.threadPredecessor = some et) (hcut : isCutoff et = false) {xs : List (Event D)}
    (hxs : C.cexNotification isCutoff e = some xs) (hw : w ∈ C) (hkw : w.kind = .wait1) (hcw : w.cid = e.cid)
    (hne : e.signalWaitPredecessor ≠ some w) :
    (SignalFound e et w xs ↔ C.WaitsBefore e et w) ↔
      w ∉ et.waitPredecessors ∧ (w < et ∨ e < w ∨ ∀ h, C.lastOfTid w.tid = some h → ¬ e < h) := by
  have hW := hC.wellFormed
  have hete := threadPred_lt het
  have hetC := hW.mem_of_le hete.le he
  have hwe : w ≠ e := fun h => by simp [h, hk] at hkw
  rw [signalFound_iff het hcut hk hxs, and_iff_left hne, and_iff_left hkw,
    mem_notifiable_iff hC he het hw hkw hcw, waitsBefore_iff hC he het hw hwe]
  by_cases hwet : w < et
  · -- a wait in the past of `et` is only missed as notified if `et` itself is the notification
    have hew : ¬ e < w := fun h => absurd (hwet.trans hete) h.asymm
    simp only [hwet, hew, not_true, not_false_eq_true, true_and, true_or, and_true, false_and, and_false, or_false]
    constructor
    · intro h hn
      have hnone : ∀ n < et, w ∉ n.waitPredecessors := fun n hnet hwn =>
        hnet.ne (hC.waiting.unique (hW.mem_of_le hnet.le hetC) hetC hwn hn)
      exact h.mp hnone et le_rfl hn
    · intro hn
      refine ⟨fun h n hnet => ?_, fun h n hnet => h n hnet.le⟩
      rcases hnet.eq_or_lt' with rfl | hlt
      · exact hn
      · exact h n hlt
  · have hnone : ∀ n ≤ et, w ∉ n.waitPredecessors := fun n hn hwn =>
      hwet ((lt_of_waitPreds hwn).trans_le hn)
    simp only [hwet, hnone et le_rfl, and_iff_left hnone]
    obtain ⟨h, hh, hwh⟩ := hW.le_lastOfTid hw (by simp [hkw])
    have hhead : (∀ h, C.lastOfTid w.tid = some h → ¬ e < h) ↔ ¬ e < h := by simp [hh]
    rw [hhead]
    by_cases hew : e < w
    · simp [hew.trans_le hwh]
    · have ht : w.tid ≠ e.tid := by
        intro ht
        have hlt : w < e := lt_of_le_of_ne ((hW.le_total hw he ht).resolve_right fun h =>
          hew (lt_of_le_of_ne h hwe.symm)) hwe
        obtain ⟨p, hp, hwp⟩ := hW.le_threadPredecessor hw he ht (by simp [hkw]) hlt
        cases het.symm.trans hp
        refine hwet (lt_of_le_of_ne hwp ?_)
        rintro rfl
        exact threadPred_ne_wait1 hC he (.inl hk) het hkw
      simp [hew, ht]

def twoWaitersOps : List (Op Unit) :=
  [.createThread .main worker, .initThread worker .main, .createThread .main worker2,
    .initThread worker2 .main, .acquireLock worker 1, .wait1 worker 1 1, .acquireLock worker2 2,
    .wait1 worker2 1 2]

def wokenSecond : Configuration Unit := after (twoWaitersOps ++ [.signalThread .main 1 worker2])

def wokenInTurn : Configuration Unit :=
  after (twoWaitersOps ++ [.signalThread .main 1 worker, .signalThread .main 1 worker2])

/-- worker2 wakes the worker, which waits again and goes on after the signal of the main thread. -/
def wokenTwice : Configuration Unit := after
  [.createThread .main worker, .initThread worker .main, .createThread .main worker2, .initThread worker2 .main,
    .acquireLock worker 1, .wait1 worker 1 1, .signalThread worker2 1 worker, .wait2 worker 1 1, .wait1 worker 1 1,
    .signalThread .main 1 worker, .wait2 worker 1 1]

variable (C : Configuration Unit)

def lastOfMain : Event Unit := (C.lastOfTid .main).getD .programInit

def beforeLastOfMain : Event Unit := (lastOfMain C).threadPredecessor.getD .programInit

def firstWait1 : Event Unit :=
  (((C.lastOfTid worker).getD .programInit).threadChain.reverse.find? fun e => e.kind = .wait1).getD .programInit

/-- The worker still waits when the main thread wakes worker2, and the signal to it is found. -/
theorem Reachable.cexNotification_signal_iff_wokenSecond : ∃ xs,
    wokenSecond.cexNotification (fun _ => false) (lastOfMain wokenSecond) = some xs ∧
      SignalFound (lastOfMain wokenSecond) (beforeLastOfMain wokenSecond)
        (firstWait1 wokenSecond) xs ∧
      wokenSecond.WaitsBefore (lastOfMain wokenSecond) (beforeLastOfMain wokenSecond)
        (firstWait1 wokenSecond) := by
  have hC : Reachable localWhileRunning wokenSecond := reachable_after_of_noLocal (by decide)
  have he : lastOfMain wokenSecond ∈ wokenSecond := by decide +kernel
  have hw : firstWait1 wokenSecond ∈ wokenSecond := by decide +kernel
  obtain ⟨xs, hxs, hfound⟩ := (any_eq_true _ _).mp (by decide +kernel :
    (wokenSecond.cexNotification (fun _ => false) (lastOfMain wokenSecond)).any (fun xs =>
      SignalFound (lastOfMain wokenSecond) (beforeLastOfMain wokenSecond)
        (firstWait1 wokenSecond) xs) = true)
  have hhead : ∀ h, wokenSecond.lastOfTid (firstWait1 wokenSecond).tid = some h →
      ¬ lastOfMain wokenSecond < h := by
    intro h hh hlt
    have hlast : wokenSecond.lastOfTid (firstWait1 wokenSecond).tid =
      some (firstWait1 wokenSecond) := by decide +kernel
    cases hlast.symm.trans hh
    exact absurd ((hC.wellFormed.isLessThan_iff he hw).mpr hlt) (by decide +kernel)
  have het : (lastOfMain wokenSecond).threadPredecessor = some (beforeLastOfMain wokenSecond) := by
    decide +kernel
  have h := Reachable.cexNotification_signal_iff hC he (by decide +kernel) het rfl hxs hw
    (by decide +kernel) (by decide +kernel) (by decide +kernel)
  have hfound := of_decide_eq_true hfound
  exact ⟨xs, hxs, hfound, (h.mpr ⟨by decide +kernel, .inr (.inr hhead)⟩).mp hfound⟩

/-- After `wokenInTurn` a signal to the worker is built that `et` has woken, after `wokenTwice` none
to its first wait. -/
theorem cexNotification_signals_inexact :
    (Reachable localWhileRunning wokenInTurn ∧ ∃ e et w xs, e ∈ wokenInTurn ∧ e.kind = .signal ∧
      e.threadPredecessor = some et ∧ w ∈ wokenInTurn ∧ w.kind = .wait1 ∧ w.cid = e.cid ∧
      e.signalWaitPredecessor ≠ some w ∧ wokenInTurn.cexNotification (fun _ => false) e = some xs ∧
      SignalFound e et w xs ∧ ¬ wokenInTurn.WaitsBefore e et w) ∧
    Reachable localWhileRunning wokenTwice ∧ ∃ e et w xs, e ∈ wokenTwice ∧ e.kind = .signal ∧
      e.threadPredecessor = some et ∧ w ∈ wokenTwice ∧ w.kind = .wait1 ∧ w.cid = e.cid ∧
      e.signalWaitPredecessor ≠ some w ∧ wokenTwice.cexNotification (fun _ => false) e = some xs ∧
      ¬ SignalFound e et w xs ∧ wokenTwice.WaitsBefore e et w := by
  constructor
  · refine ⟨reachable_after_of_noLocal (by decide), lastOfMain wokenInTurn, beforeLastOfMain wokenInTurn,
      firstWait1 wokenInTurn, ?_⟩
    obtain ⟨xs, hxs, hx⟩ := (any_eq_true _ _).mp (by decide +kernel :
      (wokenInTurn.cexNotification (fun _ => false) (lastOfMain wokenInTurn)).any (fun xs =>
        SignalFound (lastOfMain wokenInTurn) (beforeLastOfMain wokenInTurn) (firstWait1 wokenInTurn) xs) = true)
    refine ⟨xs, by decide +kernel, by decide +kernel, by decide +kernel, by decide +kernel, by decide +kernel,
      by decide +kernel, by decide +kernel, hxs, of_decide_eq_true hx, ?_⟩
    rintro ⟨K, -, -, het, -, -, hnone⟩
    exact hnone _ het (by decide +kernel)
  · refine ⟨reachable_after_of_noLocal (by decide), lastOfMain wokenTwice, beforeLastOfMain wokenTwice,
      firstWait1 wokenTwice, ?_⟩
    have hC : Reachable localWhileRunning wokenTwice := reachable_after_of_noLocal (by decide)
    obtain ⟨xs, hxs, hx⟩ := (any_eq_true _ _).mp (by decide +kernel :
      (wokenTwice.cexNotification (fun _ => false) (lastOfMain wokenTwice)).any (fun xs =>
        ¬ SignalFound (lastOfMain wokenTwice) (beforeLastOfMain wokenTwice) (firstWait1 wokenTwice) xs) = true)
    have he : lastOfMain wokenTwice ∈ wokenTwice := by decide +kernel
    have het : (lastOfMain wokenTwice).threadPredecessor = some (beforeLastOfMain wokenTwice) := by decide +kernel
    have hw : firstWait1 wokenTwice ∈ wokenTwice := by decide +kernel
    refine ⟨xs, he, by decide +kernel, het, hw, by decide +kernel, by decide +kernel, by decide +kernel, hxs,
      of_decide_eq_true hx, (waitsBefore_iff hC he het hw (by decide +kernel)).mpr ⟨?_, fun n hn hwn => ?_⟩⟩
    · exact fun hlt => absurd ((hC.wellFormed.isLessThan_iff he hw).mpr hlt) (by decide +kernel)
    · have hetC := hC.wellFormed.closed he (threadPred_mem het)
      have hnC := hC.wellFormed.mem_of_le hn hetC
      have hall : ∀ n ∈ wokenTwice.events, firstWait1 wokenTwice ∈ n.waitPredecessors →
          n.isLessThanEq (beforeLastOfMain wokenTwice) = false := by decide +kernel
      simpa [hall n hnC hwn] using (hC.wellFormed.isLessThanEq_iff hnC hetC).mpr hn

end Configuration
end Por
