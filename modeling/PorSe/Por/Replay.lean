import PorSe.Por.CexAcquire
import PorSe.Por.CexNotification
import PorSe.Por.Unfolding

/-! Replaying a conflicting extension: the extension method for its operation, called on a
configuration of its causes, is to give the event back. -/

namespace Por
open Option Event List
namespace Configuration
variable {D : Type} [DecidableEq D]

def cexOf (C : Configuration D) (isCutoff allCexKnown : Event D → Bool) (e : Event D) : Option (List (Event D)) :=
  match e.kind with
  | .lockAcquire | .wait2 => if allCexKnown e then some [] else cexAcquire isCutoff e
  | .wait1 => cexWait1 isCutoff e
  | .signal | .broadcast => C.cexNotification isCutoff e
  | _ => some []

def conflictingExtensions (C : Configuration D) (isCutoff allCexKnown : Event D → Bool) : Option (List (Event D)) := do
  let candidates ← C.events.mapM (C.cexOf isCutoff allCexKnown)
  some (candidates.flatten.filter fun x => !isCutoff x)

def operation (x : Event D) : Option (Op D) :=
  match x.kind with
  | .lockAcquire => some (.acquireLock x.tid x.lid)
  | .wait1 => some (.wait1 x.tid x.cid x.lid)
  | .wait2 => some (.wait2 x.tid x.cid x.lid)
  | .signal => some (.signalThread x.tid x.cid x.notifiedThread)
  | .broadcast => some (.broadcastThreads x.tid x.cid (x.broadcastWaitPredecessors.map tid))
  | _ => none

/-- The extension method builds an event in `K` that `deduplicate` identifies with `x`. -/
def Replays (K : Configuration D) (x : Event D) : Prop :=
  ∃ op x', operation x = some op ∧ K.extend op = some x' ∧ x.compareEvents x' = true

variable {x e et : Event D} {r : Option (Event D)}

lemma replays_of_extends {K : Configuration D} {op : Op D} (hop : operation x = some op) (h : K.Extends op x)
    (hc : x.checks = true) : K.Replays x :=
  ⟨op, x, hop, extend_iff.mpr ⟨h, hc⟩, compareEvents_self x⟩

/-! ## What has to hold of the predecessors -/

def precedesWait1 (x y : Event D) : Prop :=
  y.kind = .conditionVariableCreate ∨ y.kind = .signal ∧ y.signalIsLost = true ∨
    y.kind = .broadcast ∧ y.isNotifyingThread x.tid = false

def precedesLost (x y : Event D) : Prop :=
  y.kind = .conditionVariableCreate ∨ y.kind = .signal ∧ y.signalIsLost = false ∧ y.notifiedThread ≠ x.tid ∨
    y.kind = .broadcast ∧ y.broadcastIsLost = false ∧ y.isNotifyingThread x.tid = false

def precedesBroadcast (x y : Event D) : Prop :=
  y.kind = .signal ∧ y.signalIsLost = false ∧ y.notifiedThread ≠ x.tid ∧
    y.notifiedThread ∉ x.broadcastWaitPredecessors.map tid

/-- All causes of this kind outside of the past of the thread are predecessors. -/
def Listed (x : Event D) (precedes : Event D → Prop) : Prop :=
  ∀ y < x, y.cid = x.cid → precedes y → (∀ et, x.threadPredecessor = some et → ¬ y ≤ et) →
    y ∈ x.conditionVariablePredecessors

/-- The predecessors are those that the extension method would choose. -/
def Replayable (x : Event D) : Prop :=
  match x.kind with
  | .wait1 => Listed x (precedesWait1 x)
  | .signal =>
    if x.signalIsLost then (∀ w, ¬ Outstanding {y | y < x} x.cid w) ∧ Listed x (precedesLost x)
    else ∀ w ∈ x.waitPredecessors, ∀ n < x, w ∉ n.waitPredecessors
  | .broadcast =>
    if x.broadcastIsLost then (∀ w, ¬ Outstanding {y | y < x} x.cid w) ∧ Listed x (precedesLost x)
    else Listed x (precedesBroadcast x)
  | _ => True

/-! ## Alternatives to an event -/

/-- `x` is on the thread of `e`, goes on from the same event and has no cause above `e`. -/
structure Alternative (C : Configuration D) (e et x : Event D) : Prop where
  mem : e ∈ C
  threadPredecessor : e.threadPredecessor = some et
  tid_eq : x.tid = e.tid
  threadPredecessor_eq : x.threadPredecessor = some et
  checks : x.checks = true
  preds_mem : ∀ p ∈ x.preds, p ∈ C ∧ ¬ e ≤ p

section
variable {C K : Configuration D} (hx : C.Alternative e et x) (hC : C.WellFormed) (hKx : ∀ y, y ∈ K ↔ y < x)
include hx hC

lemma Alternative.mem_of_lt {y : Event D} (hy : y < x) : y ∈ C ∧ ¬ e ≤ y := by
  obtain ⟨p, hp, hyp⟩ := lt_iff_pred.mp hy
  obtain ⟨hpC, hep⟩ := hx.preds_mem p hp
  exact ⟨hC.mem_of_le hyp hpC, fun hey => hep (hey.trans hyp)⟩

omit hC in
lemma Alternative.et_lt : et < x := threadPred_lt hx.threadPredecessor_eq

omit hC in
lemma Alternative.tid_et (hC : C.WellFormed) : et.tid = x.tid :=
  (tid_of_threadPred (hC.checks hx.mem) hx.threadPredecessor).trans hx.tid_eq.symm

lemma Alternative.le_et {y : Event D} (hy : y < x) (ht : y.tid = x.tid) : y ≤ et := by
  obtain ⟨hyC, hey⟩ := hx.mem_of_lt hC hy
  have hte : y.tid = e.tid := ht.trans hx.tid_eq
  have hye : y < e := by
    rcases hC.le_total hyC hx.mem hte with h | h
    · exact lt_of_le_of_ne h fun h => hey h.ge
    · exact absurd h hey
  by_cases hk : y.kind = .programInit
  · rw [eq_programInit (hC.checks hyC) hk]
    exact programInit_le (hC.valid (hC.closed hx.mem (threadPred_mem hx.threadPredecessor)))
  · obtain ⟨p, hp, hyp⟩ := hC.le_threadPredecessor hyC hx.mem hte hk hye
    cases hx.threadPredecessor.symm.trans hp
    exact hyp

include hKx

lemma Alternative.lastOfTid (hK : K.WellFormed) (hk : et.kind ≠ .programInit) : K.lastOfTid x.tid = some et := by
  have hetK : et ∈ K := (hKx et).mpr hx.et_lt
  obtain ⟨h, hh, hle⟩ := hK.le_lastOfTid hetK hk
  rw [hx.tid_et hC] at hh
  have hhx : h < x := (hKx h).mp (mem_of_lastOfTid hh)
  rw [hh, le_antisymm (hx.le_et hC hhx (hK.tid_of_lastOfTid hh)) hle]

lemma Alternative.activeHead (hK : K.WellFormed) (hk : et.kind ≠ .programInit ∧ et.kind ≠ .threadExit)
    (hw : et.kind ≠ .wait1) : K.activeHead x.tid = some et :=
  activeHead_eq_some.mpr ⟨hx.lastOfTid hC hKx hK hk.1, hk.2, hw⟩

end

/-! ## Acquisitions -/

lemma eq_of_allocAcquire (hc : e.checks = true) (hk : e.kind = .lockAcquire ∨ e.kind = .wait2)
    (het : e.threadPredecessor = some et) (h : allocAcquire e et e.notifyingPredecessor r = some x) :
    x = replaceLockPredecessor e r ∧ x.checks = true := by
  rcases acquire_shape hc hk with ⟨t, l, p, er, rfl⟩ | ⟨t, c, l, p, es, er, rfl⟩
  · obtain rfl : p = et := by simpa [threadPredecessor] using het
    obtain ⟨rfl, hcx⟩ := alloc_eq_some.mp h
    exact ⟨by simp [replaceLockPredecessor, threadPredecessor, notifyingPredecessor], hcx⟩
  · obtain rfl : p = et := by simpa [threadPredecessor] using het
    cases r with
    | none => simp [allocAcquire] at h
    | some r =>
      obtain ⟨rfl, hcx⟩ := alloc_eq_some.mp h
      exact ⟨by simp [replaceLockPredecessor, threadPredecessor, notifyingPredecessor], hcx⟩

lemma mem_of_cexBoundary {es m : Option (Event D)} {bs : List (Event D)} (h : cexBoundary e et es m = some bs)
    (hx : x ∈ bs) : (∀ y, m = some y → y.kind ∈ freeKinds) ∧ allocAcquire e et es m = some x := by
  have hmap : ∀ {o : Option (Event D)}, o.map ([·]) = some bs → o = some x := by
    intro o ho
    obtain ⟨y, rfl, rfl⟩ := map_eq_some_iff.mp ho
    rw [mem_singleton.mp hx]
  unfold cexBoundary at h
  cases m with
  | none =>
    split_ifs at h
    exact ⟨by simp, hmap h⟩
  | some y =>
    dsimp only at h
    split_ifs at h with h1 h2 h3 h4
    · refine ⟨fun z hz => ?_, hmap h⟩
      cases hz
      rcases h1 with h1 | h1 <;> simp [freeKinds, h1]
    · cases h
      simp at hx
    · refine ⟨fun z hz => ?_, hmap h⟩
      cases hz
      simp [freeKinds, h3]
    · cases h
      simp at hx

lemma Reachable.cexAcquire_sound {P : Configuration D → Op D → Prop} {C : Configuration D} (hC : Reachable P C)
    (he : e ∈ C) (hk : e.kind = .lockAcquire ∨ e.kind = .wait2) {isCutoff : Event D → Bool} {xs : List (Event D)}
    (hxs : cexAcquire isCutoff e = some xs) (hx : x ∈ xs) :
    ∃ r, C.FreePosition e r ∧ x = replaceLockPredecessor e r ∧ x.checks = true := by
  have hW := hC.wellFormed
  have hL := hC.lockOrdered
  have hc := hW.checks he
  have hlk := lockHeadKind_of_acquire hk
  obtain ⟨et, het, -⟩ := threadPred_of_checks hc
    (by rcases hk with hk | hk <;> simp [hk]) (by rcases hk with hk | hk <;> simp [hk])
  have hm := isLastOn_past hW hL he hlk het rfl
  have hnil : ∀ {ys : List (Event D)}, some [] = some ys → x ∈ ys → False := by
    rintro ys h hx
    cases h
    simp at hx
  by_cases hcut : isCutoff et = true
  · simp only [cexAcquire, het, bind_eq_bind, bind_some, hcut] at hxs
    exact (hnil hxs hx).elim
  by_cases hcut' : ∃ es, e.notifyingPredecessor = some es ∧ isCutoff es = true
  · obtain ⟨es, hes, hces⟩ := hcut'
    have hw2 : e.kind = .wait2 := by
      obtain ⟨t, l, ps⟩ := e
      cases l <;> simp [notifyingPredecessor] at hes ⊢
    simp only [cexAcquire, het, bind_eq_bind, bind_some, hcut, hw2, hes, any_some, hces] at hxs
    exact (hnil hxs hx).elim
  rw [cexAcquire_eq hW hL he hk het hm (by simpa using hcut)
    (fun es hes => by simpa using fun h => hcut' ⟨es, hes, h⟩)] at hxs
  split_ifs at hxs with hmr
  · exact (hnil hxs hx).elim
  obtain ⟨bs, hbs, hxs⟩ := bind_eq_some_iff.mp hxs
  obtain ⟨as, has, hxs⟩ := bind_eq_some_iff.mp hxs
  cases hxs
  rcases mem_append.mp hx with hx | hx
  · obtain ⟨hfree, halloc⟩ := mem_of_cexBoundary hbs hx
    refine ⟨_, (freePosition_iff hW hL he hlk hm).mpr ⟨fun y hy => ?_, id⟩, eq_of_allocAcquire hc hk het halloc⟩
    rw [hy] at hm
    refine ⟨hfree y hy, (mem_lockEventsBelow hW hL he hlk).mpr ⟨lt_of_mem_past hm.1.1, hm.1.2⟩, fun z hz => ?_⟩
    rw [hy] at hz
    exact (some.inj hz).ge
  · obtain ⟨p, hp, halloc⟩ := (ListSearch.mem_of_mapM has).mp hx
    obtain ⟨hkp, hpL, -, hlt⟩ := (mem_freeAbove hW hL he hk hm).mp hp
    refine ⟨some p, (freePosition_iff hW hL he hlk hm).mpr ⟨fun y hy => ?_, by simp⟩,
      eq_of_allocAcquire hc hk het halloc⟩
    cases hy
    exact ⟨hkp, hpL, fun z hz => (hlt z hz).le⟩

omit [DecidableEq D] in
lemma lt_replaceLockPred_iff {z : Event D} :
    z < replaceLockPredecessor e r ↔ z ∈ past e ∨ ∃ m, r = some m ∧ z ≤ m := by
  rw [lt_iff_pred]
  simp only [replaceLockPredecessor, mem_append, mem_toList]
  constructor
  · rintro ⟨p, (hp | hp) | hp, hz⟩
    · exact .inl (.inl ⟨p, hp, hz⟩)
    · exact .inl (.inr ⟨p, hp, hz⟩)
    · exact .inr ⟨p, hp, hz⟩
  · rintro ((⟨p, hp, hz⟩ | ⟨p, hp, hz⟩) | ⟨p, hp, hz⟩)
    · exact ⟨p, .inl (.inl hp), hz⟩
    · exact ⟨p, .inl (.inr hp), hz⟩
    · exact ⟨p, .inr hp, hz⟩

section
variable {C K : Configuration D} {P : Configuration D → Op D → Prop} (hC : Reachable P C) (he : e ∈ C)
  (hk : e.kind = .lockAcquire ∨ e.kind = .wait2) (het : e.threadPredecessor = some et) (hr : C.FreePosition e r)
  (hc : (replaceLockPredecessor e r).checks = true) (hK : Reachable anyOp K)
  (hKx : ∀ y, y ∈ K ↔ y < replaceLockPredecessor e r)
include hC he hk het hr

lemma lastOfLid_of_freePosition (hK : Reachable anyOp K) (hKx : ∀ y, y ∈ K ↔ y < replaceLockPredecessor e r) :
    K.lastOfLid e.lid = r ∧ K.canAcquireLock e.lid = true := by
  have hW := hC.wellFormed
  have hL := hC.lockOrdered
  have hlk := lockHeadKind_of_acquire hk
  have hm := isLastOn_past hW hL he hlk het rfl
  obtain ⟨hsome, hnone⟩ := (freePosition_iff hW hL he hlk hm).mp hr
  cases r with
  | none =>
    rw [hnone rfl] at hm
    obtain ⟨hh, hused⟩ := hK.lock_unused fun z hz => by
      rcases lt_replaceLockPred_iff.mp ((hKx z).mp hz) with hz | ⟨m, hm, -⟩
      · exact hm z hz
      · simp at hm
    exact ⟨hh, by simpa [canAcquireLock, hh] using hused⟩
  | some m =>
    obtain ⟨hkm, hmL, hem⟩ := hsome m rfl
    obtain ⟨hme, hml⟩ := (mem_lockEventsBelow hW hL he hlk).mp hmL
    have hmK : m ∈ K := (hKx m).mpr (lt_replaceLockPred_iff.mpr (.inr ⟨m, rfl, le_rfl⟩))
    have hkm' : m.kind ∈ lockHeadKinds :=
      hL.lockHeadKind_of_le (hW.mem_of_le hme.le he) he hml hlk (lid_ne_zero (hW.checks he) hlk) hme.le
    have hhead : K.lastOfLid m.lid = some m := by
      refine hK.lastOfLid_eq_some hmK hkm' fun z hz hzl => ?_
      rcases lt_replaceLockPred_iff.mp ((hKx z).mp hz) with hzp | ⟨m', hm', hz⟩
      · generalize (lockEventsBelow e).find? _ = em at hm hem
        cases em with
        | none => exact absurd (hzl.trans hml) (hm z hzp)
        | some y => exact (le_of_isLastOn_past hW hL he hlk hm hzp (hzl.trans hml)).trans (hem y rfl)
      · exact some.inj hm' ▸ hz
    rw [hml] at hhead
    refine ⟨hhead, ?_⟩
    simp only [freeKinds, mem_cons, not_mem_nil, or_false] at hkm
    rcases hkm with h | h | h <;> simp [canAcquireLock, hhead, h]

include hc in
omit hC in
lemma alternative_of_freePosition : C.Alternative e et (replaceLockPredecessor e r) where
  mem := he
  threadPredecessor := het
  tid_eq := rfl
  threadPredecessor_eq := by
    have hne : ∀ l ∈ [Label.programInit, Label.threadInit], e.label ≠ l := by
      intro l hl h
      simp only [mem_cons, not_mem_nil, or_false] at hl
      rcases hl with rfl | rfl <;> rcases hk with hk | hk <;> simp [kind, h] at hk
    obtain ⟨t, l, ps⟩ := e
    simp only [replaceLockPredecessor, het]
    cases l <;> simp [threadPredecessor] at hne ⊢
  checks := hc
  preds_mem p hp := by
    obtain ⟨-, K', hK'C, hK', het', hes', heK', hlast⟩ := hr
    have hpK' : p ∈ K' := by
      simp only [replaceLockPredecessor, mem_append, mem_toList] at hp
      rcases hp with (hp | hp) | hp
      · exact het' p hp
      · exact hes' p hp
      · rw [hp] at hlast
        exact hlast.1.1
    exact ⟨hK'C p hpK', fun hep => heK' (hK' hep hpK')⟩

include hc in
lemma replays_acquire (hK : Reachable anyOp K) (hKx : ∀ y, y ∈ K ↔ y < replaceLockPredecessor e r)
    (hd : ∀ y ∈ K, y.kind = .conditionVariableDestroy → y.cid ≠ e.cid) : K.Replays (replaceLockPredecessor e r) := by
  have hW := hC.wellFormed
  have halt := alternative_of_freePosition he hk het hr hc
  obtain ⟨-, -, hpi, hpx⟩ := of_threadPred (hW.checks he) het
  obtain ⟨hlock, hfree⟩ := lastOfLid_of_freePosition hC he hk het hr hK hKx
  have hlast := halt.lastOfTid hW hKx hK.wellFormed hpi
  rcases acquire_shape (hW.checks he) hk with ⟨t, l, p, er, rfl⟩ | ⟨t, c, l, p, es, er, rfl⟩
  · obtain rfl : p = et := by simpa [threadPredecessor] using het
    have hw : p.kind ≠ .wait1 := fun hw => by simpa using hC.waiting.resumed he het hw
    have hext : K.Extends (.acquireLock t l) ⟨t, .lockAcquire l, p :: (K.lastOfLid l).toList⟩ :=
      .acquireLock (activeHead_eq_some.mpr ⟨hlast, hpx, hw⟩) hfree
    rw [show K.lastOfLid l = r from hlock] at hext
    have heq : replaceLockPredecessor ⟨t, .lockAcquire l, p :: er.toList⟩ r = ⟨t, .lockAcquire l, p :: r.toList⟩ := by
      simp [replaceLockPredecessor, threadPredecessor, notifyingPredecessor]
    exact replays_of_extends rfl hext hc
  · obtain rfl : p = et := by simpa [threadPredecessor] using het
    obtain ⟨w, hw, hkw, hwes, hces, hkes, -⟩ := notifying_of_checks (hW.checks he) rfl
    cases het.symm.trans hw
    have hesK : es ∈ K := (hKx es).mpr (lt_replaceLockPred_iff.mpr (.inl (.inr ⟨es, rfl, le_rfl⟩)))
    have hmem : es ∈ K.lastOfCid c := by
      refine (hK.mem_lastOfCid_iff hd).mpr ⟨hesK, hces, ?_, fun n hn h => ?_⟩
      · rcases hkes with h | h <;> simp [condHeadKinds, h]
      · have := (waitPreds_of_checks (hK.wellFormed.checks hn) h).1
        rcases hkes with h | h <;> simp [h] at this
    cases r with
    | none =>
      exact absurd hc (by simp [replaceLockPredecessor, threadPredecessor, notifyingPredecessor, checks])
    | some m =>
      have heq : replaceLockPredecessor ⟨t, .wait2 c l, [p, es, er]⟩ (some m) = ⟨t, .wait2 c l, [p, es, m]⟩ := by
        simp [replaceLockPredecessor, threadPredecessor, notifyingPredecessor]
      exact replays_of_extends rfl
        (.wait2 hlast hkw hlock (hK.waiting.wait2PredCond_eq_some hK.wellFormed hmem hwes)) hc

end

end Configuration
end Por
