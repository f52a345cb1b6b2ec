import PorSe.Por.Notification

/-! Independent extensions commute: each stays enabled after the other one, and both
orders lead to the same heads. -/

namespace Por
open List Event ListSearch
namespace Event
variable {D : Type} [DecidableEq D] {a b : Event D}

section
variable (ha : a.checks = true) (hb : b.checks = true) (h : a.isIndependentOf b = true)
include ha hb h

omit [DecidableEq D] ha hb in
lemma tid_ne_of_independent : a.tid ≠ b.tid := by
  intro ht
  simp [isIndependentOf, ht] at h

lemma lid_ne_of_independent (hl : b.lid ≠ 0) : a.lid ≠ b.lid := by
  intro hab
  have hk : ∀ {e : Event D}, e.lid ≠ 0 → e.kind ≠ .localEvent := fun hl hk => hl (lid_eq_zero (by simp [hk]))
  have hdep := (dependent_iff ha hb).mpr
    (.inr ⟨hk (hab ▸ hl), hk hl, .inr (.inr (.inr (.inl ⟨hab, hab ▸ hl⟩)))⟩)
  simp [h] at hdep

lemma condDependent_of_independent (hc : b.cid ≠ 0) (hab : a.cid = b.cid) : a.condDependent b = false := by
  have hk : ∀ {e : Event D}, e.cid ≠ 0 → e.kind ≠ .localEvent := fun hc hk => hc (cid_eq_zero (by simp [hk, condKinds]))
  by_contra hdep
  have hdep := (dependent_iff ha hb).mpr
    (.inr ⟨hk (hab ▸ hc), hk hc, .inr (.inr (.inr (.inr ⟨hab, hab ▸ hc, by simpa using hdep⟩)))⟩)
  simp [h] at hdep

omit [DecidableEq D] ha hb h in
lemma kind_of_condDependent_eq_false (hk : b.kind = .signal ∨ b.kind = .broadcast) (hw : b.waitPredecessors ≠ [])
    (hc : a.cid ≠ 0) (hdep : a.condDependent b = false) :
    a.kind = .wait1 ∧ b.kind = .signal ∨ a.kind = .wait2 := by
  have hlost : b.isLost = false := by
    rw [← Bool.not_eq_true, isLost_iff]
    exact fun h => hw h.2
  have hzero := mt (@cid_eq_zero D a) hc
  rcases hk with hk | hk <;> cases hka : a.kind <;> simp_all [condDependent, condKinds]

omit [DecidableEq D] ha hb h in
lemma condDependent_of_ends
    (hk : b.kind = .conditionVariableCreate ∨ b.kind = .conditionVariableDestroy) : a.condDependent b = true := by
  rcases hk with hk | hk <;> cases hka : a.kind <;> simp [condDependent, hk, hka]

lemma threadIsIndependent_of_independent (hka : a.kind ≠ .localEvent) (hkb : b.kind ≠ .localEvent) :
    threadIsIndependent a b = true := by
  by_contra hdep
  have hdep := (dependent_iff ha hb).mpr
    (.inr ⟨hka, hkb, .inr (.inr (.inl (by simpa using hdep)))⟩)
  simp [h] at hdep

end
end Event

namespace Configuration
variable {D : Type} [DecidableEq D]

/-- A start needs its creation as the last event of the creator, and a waiting thread that makes a local step cannot be
notified any more. -/
def Disables (b a : Event D) : Prop :=
  (a.kind = .threadInit ∧ ∃ p ∈ a.preds, p.tid = b.tid) ∨
    (b.kind = .localEvent ∧ ∃ w ∈ a.waitPredecessors, w.tid = b.tid)

/-! ## What the other extension leaves alone -/

section
variable {C : Configuration D} {op : Op D} {a : Event D}

lemma lastOfTid_of_ne {t : ThreadId} (ht : a.tid ≠ t) : (C.commit a).lastOfTid t = C.lastOfTid t := by
  rw [lastOfTid_commit, if_neg ht]

lemma activeHead_commit_of_ne {t : ThreadId} (ht : a.tid ≠ t) : (C.commit a).activeHead t = C.activeHead t := by
  unfold activeHead
  rw [lastOfTid_of_ne ht]

lemma lastOfLid_of_ne {l : LockId} (hl : a.lid ≠ l) : (C.commit a).lastOfLid l = C.lastOfLid l := by
  rw [lastOfLid_commit, if_neg hl]

lemma mem_usedLockIds_of_ne {l : LockId} (hl : a.lid ≠ l) :
    l ∈ (C.commit a).usedLockIds ↔ l ∈ C.usedLockIds := by
  rw [usedLockIds_commit]
  split_ifs
  · simp [hl.symm]
  · rfl

lemma mem_usedCondIds_of_ne {c : CondId} (hc : a.cid ≠ c) :
    c ∈ (C.commit a).usedCondIds ↔ c ∈ C.usedCondIds := by
  unfold commit
  cases a.kind <;> dsimp only [commitLock, useLockId, useCondId, useCondIdIfFirst, setCondHeads] <;>
    (try split_ifs) <;> simp [hc.symm]

lemma canAcquireLock_commit_of_ne {l : LockId} (hl : a.lid ≠ l) :
    (C.commit a).canAcquireLock l = C.canAcquireLock l := by
  unfold canAcquireLock
  simp [lastOfLid_of_ne hl, mem_usedLockIds_of_ne hl]

lemma condHeads_commit_of_ne {c : CondId} (hc : a.cid ≠ c) : (C.commit a).condHeads.find? c = C.condHeads.find? c := by
  rw [condHeads_commit, if_neg hc]

lemma w2Heads_commit_of_ne {c : CondId} (hc : a.cid ≠ c) : (C.commit a).w2Heads.find? c = C.w2Heads.find? c := by
  rw [w2Heads_commit, if_neg hc]

end

/-! ## What is known of an extension from the head of its thread -/

section
variable {C : Configuration D} {op : Op D} {a : Event D} (h : C.Extends op a)
include h

lemma Extends.kind_of_lastOfTid_eq_none (hnone : C.lastOfTid a.tid = none) : a.kind = .threadInit := by
  have hp := h.threadPredecessor_eq
  rw [hnone] at hp
  cases h with
  | initThread => rfl
  | _ => simp [threadPredecessor] at hp

lemma Extends.kind_ne_threadExit (hc : a.checks = true) {x : Event D} (hx : C.lastOfTid a.tid = some x) :
    x.kind ≠ .threadExit := by
  obtain ⟨-, -, -, hk⟩ := of_threadPred hc (h.threadPredecessor_eq.trans hx)
  exact hk

end

/-! ## Enabledness -/

section
variable {C : Configuration D} {opa opb : Op D} {a b : Event D}

lemma Waiting.tid_ne_of_waitPreds (hN : C.Waiting) (hW : C.WellFormed) (ha : C.Extends opa a)
    (hb : C.Extends opb b) (hdis : ¬ Disables a b) {w : Event D} (hw : w ∈ b.waitPredecessors) : a.tid ≠ w.tid := by
  intro ht
  obtain ⟨hmem, hlast, hk⟩ := hb.waitPreds_mem hw
  rcases ha.of_waiting (ht ▸ hlast) hk with hlocal | ⟨-, n, hn, hwn⟩
  · exact hdis (.inr ⟨hlocal, w, hw, ht.symm⟩)
  · exact hN.not_notified hmem (hW.mem_of_lastOfCid hn).1 hwn

lemma lastOfCid_commit_wait1 (hk : a.kind = .wait1) : (C.commit a).lastOfCid a.cid = C.lastOfCid a.cid ++ [a] := by
  rw [lastOfCid, condHeads_commit, if_pos rfl, condHeadsAfter, hk]
  rfl

lemma lastOfCid_commit_signal (hk : a.kind = .signal) :
    (C.commit a).lastOfCid a.cid = signalHeads a (C.lastOfCid a.cid) := by
  rw [lastOfCid, condHeads_commit, if_pos rfl, condHeadsAfter, hk]
  rfl

lemma lastOfCid_commit_broadcast (hk : a.kind = .broadcast) :
    (C.commit a).lastOfCid a.cid = broadcastHeads a (C.lastOfCid a.cid) := by
  rw [lastOfCid, condHeads_commit, if_pos rfl, condHeadsAfter, hk]
  rfl

lemma wait1PredsCond_commit (p : Event D) (hc : a.cid ≠ 0) (hkb : b.kind = .wait1)
    (hind : a.condDependent b = false) :
    wait1PredecessorsCond p ((C.commit a).lastOfCid a.cid) = wait1PredecessorsCond p (C.lastOfCid a.cid) := by
  have hzero := mt (@cid_eq_zero D a) hc
  cases hka : a.kind <;> simp only [condDependent, hka, hkb, Bool.or_eq_false_iff, Bool.true_eq_false] at hind <;>
    simp [condKinds, hka] at hzero
  case wait1 =>
    rw [lastOfCid_commit_wait1 hka, wait1PredecessorsCond]
    simp [hka, wait1PredecessorsCond]
  case wait2 => rw [lastOfCid_of_kind _ (by simp [hka, condHeadKinds])]
  case signal =>
    rw [lastOfCid_commit_signal hka, signalHeads]
    cases hs : a.signalWaitPredecessor with
    | none =>
      simp [wait1PredecessorsCond, hka, hind.1]
    | some w =>
      have hkw := (signalWait_iff.mp hs).1
      refine filter_replace ?_ ?_
      · simp [hkw]
      · simp [hka, hind.1]

lemma lostPredsCond_commit (p : Event D) (hc : a.cid ≠ 0) (hkb : b.isLost = true)
    (hind : a.condDependent b = false) : lostNotificationPredecessorsCond p ((C.commit a).lastOfCid a.cid) =
      lostNotificationPredecessorsCond p (C.lastOfCid a.cid) := by
  have hzero := mt (@cid_eq_zero D a) hc
  have hkind : b.kind = .signal ∨ b.kind = .broadcast := by
    unfold isLost at hkb
    cases hk : b.kind <;> simp [hk] at hkb ⊢
  by_cases hwait2 : a.kind = .wait2
  · rw [lastOfCid_of_kind _ (by simp [hwait2, condHeadKinds])]
  · have hlost : a.isLost = true := by
      rcases hkind with hk | hk <;> cases hka : a.kind <;>
        simp_all [condDependent, isLost, condKinds]
    have happend : (C.commit a).lastOfCid a.cid = C.lastOfCid a.cid ++ [a] := by
      unfold isLost at hlost
      cases hka : a.kind <;> simp only [hka, Bool.false_eq_true] at hlost
      case signal =>
        rw [lastOfCid_commit_signal hka, signalHeads]
        cases hs : a.signalWaitPredecessor with
        | none => rfl
        | some w =>
          obtain ⟨hkw, q, hq⟩ := signalWait_iff.mp hs
          rw [signalIsLost, hq] at hlost
          simp [hkw] at hlost
      case broadcast => rw [lastOfCid_commit_broadcast hka, broadcastHeads, if_pos hlost]
    rw [happend]
    unfold lostNotificationPredecessorsCond
    unfold isLost at hlost
    cases hka : a.kind <;> simp only [hka, Bool.false_eq_true] at hlost <;>
      simp [hka, hlost]

lemma wait2PredCond_commit (hW : C.WellFormed) (hN : C.Waiting) (ha : C.Extends opa a)
    (hca : a.checks = true) {w n : Event D} {c : CondId} (hn : wait2PredecessorCond w (C.lastOfCid c) = some n)
    (hd : a.cid = c → a.kind ≠ .conditionVariableDestroy) :
    wait2PredecessorCond w ((C.commit a).lastOfCid c) = some n := by
  have hW' := hW.commit ha hca
  have hN' := hN.commit hW ha hca
  obtain ⟨hnc, hnw⟩ := mem_of_wait2PredCond hn
  have hkn : n.kind ≠ .wait1 := by
    rcases mem_waitPreds.mp hnw with ⟨hk, -⟩ | ⟨hk, -⟩ <;> simp [hk]
  have hmem : n ∈ (C.commit a).lastOfCid c := by
    by_cases hc : a.cid = c
    · subst hc
      by_cases hk : a.kind ∈ condHeadKinds
      · rw [ha.mem_lastOfCid_commit hN.nodup hk]
        exact .inl ⟨hnc, fun h => hkn (ha.waitPreds_mem h).2.2⟩
      · rwa [lastOfCid_of_kind _ (by simp [hk, hd rfl])]
    · rwa [lastOfCid_of_ne hc]
  exact hN'.wait2PredCond_eq_some hW' hmem hnw

lemma notifiedHead_commit {t n : ThreadId} {c : CondId} {w : Event D}
    (hn : C.notifiedHead t n (C.lastOfCid c) = some w) (ht : a.tid ≠ n)
    (hc : a.cid = c → a.kind = .wait1 ∨ a.kind = .wait2) :
    (C.commit a).notifiedHead t n ((C.commit a).lastOfCid c) = some w := by
  obtain ⟨_, hne, hk, hfind⟩ := notifiedHead_eq_some.mp hn
  refine notifiedHead_eq_some.mpr ⟨?_, hne, hk, ?_⟩
  · rwa [lastOfTid_of_ne ht]
  · by_cases hac : a.cid = c
    · subst hac
      rcases hc rfl with hka | hka
      · rw [lastOfCid_commit_wait1 hka, notifiedWait1Predecessor, find?_append]
        unfold notifiedWait1Predecessor at hfind
        rw [hfind]
        rfl
      · rwa [lastOfCid_of_kind _ (by simp [hka, condHeadKinds])]
    · rwa [lastOfCid_of_ne hac]

/-- An extension stays enabled, with the same event, after an independent one. -/
lemma Extends.commit_of_independent (hW : C.WellFormed) (hN : C.Waiting) (ha : C.Extends opa a)
    (hca : a.checks = true) (hb : C.Extends opb b) (hcb : b.checks = true) (hind : a.isIndependentOf b = true)
    (hdis : ¬ Disables a b) : (C.commit a).Extends opb b := by
  have ht : a.tid ≠ b.tid := tid_ne_of_independent hind
  have hhead : (C.commit a).activeHead b.tid = C.activeHead b.tid := activeHead_commit_of_ne ht
  have hlock : b.lid ≠ 0 → a.lid ≠ b.lid := lid_ne_of_independent hca hcb hind
  have hcid : b.kind ∈ condKinds → b.cid ≠ 0 := cid_ne_zero hcb
  have hcond : b.kind ∈ condKinds → a.cid = b.cid → a.condDependent b = false :=
    fun hk => condDependent_of_independent hca hcb hind (hcid hk)
  have hcid_ne : b.kind = .conditionVariableCreate ∨ b.kind = .conditionVariableDestroy → a.cid ≠ b.cid := by
    intro hk hc
    have := hcond (by rcases hk with hk | hk <;> simp [condKinds, hk]) hc
    simp [condDependent_of_ends hk] at this
  have hlostqs : b.isLost = true → ∀ p, lostNotificationPredecessorsCond p ((C.commit a).lastOfCid b.cid) =
      lostNotificationPredecessorsCond p (C.lastOfCid b.cid) := by
    intro hlost p
    have hk : b.kind ∈ condKinds := by rcases (isLost_iff.mp hlost).1 with hk | hk <;> simp [condKinds, hk]
    by_cases hc : a.cid = b.cid
    · rw [← hc]
      exact lostPredsCond_commit p (hc ▸ hcid hk) hlost (hcond hk hc)
    · rw [lastOfCid_of_ne hc]
  have hwoken : ∀ {w}, w ∈ b.waitPredecessors → a.tid ≠ w.tid := hN.tid_ne_of_waitPreds hW ha hb hdis
  cases hb with
  | @createThread t new p hp hne hnew =>
    refine .createThread (hhead.trans hp) hne ?_
    have htn : a.tid ≠ new := by
      intro htn
      have hki := ha.kind_of_lastOfTid_eq_none (htn ▸ hnew)
      have := threadIsIndependent_of_independent hca hcb hind (by simp [hki]) (by simp)
      simp [threadIsIndependent, isThreadEvent, threadIsIndependentOf, hki, createdTid, htn] at this
    rwa [lastOfTid_of_ne htn]
  | @initThread t createdFrom p hp hk hne _ =>
    have hcreator : a.tid ≠ createdFrom := by
      intro h
      exact hdis (.inl ⟨rfl, p, by simp, (hW.tid_of_lastOfTid hp).trans h.symm⟩)
    exact .initThread (by rwa [lastOfTid_of_ne hcreator]) hk hne (by rwa [lastOfTid_of_ne ht])
  | @joinThread t joined p x hp hx hk =>
    have hj : a.tid ≠ joined := fun h => ha.kind_ne_threadExit hca (h ▸ hx) hk
    exact .joinThread (hhead.trans hp) (by rwa [lastOfTid_of_ne hj]) hk
  | exitThread hp => exact .exitThread (hhead.trans hp)
  | @createLock t l p hp hl _ =>
    have hl' : a.lid ≠ l := hlock (lid_ne_zero hcb (by simp [lockHeadKinds]))
    exact .createLock (hhead.trans hp) (by rwa [lastOfLid_of_ne hl'])
      (by rwa [mem_usedLockIds_of_ne hl'])
  | @destroyLock t l p hp hl =>
    have hl0 : l ≠ 0 := by
      cases hx : C.lastOfLid l with
      | none => exact hl hx
      | some x => exact hW.lid_ne_zero hx
    have hl' : a.lid ≠ l := hlock hl0
    rw [← lastOfLid_of_ne hl'] at hl ⊢
    exact .destroyLock (hhead.trans hp) hl
  | @acquireLock t l p hp hl =>
    have hl' : a.lid ≠ l := hlock (lid_ne_zero hcb (by simp [lockHeadKinds]))
    rw [← lastOfLid_of_ne hl']
    exact .acquireLock (hhead.trans hp) (by rwa [canAcquireLock_commit_of_ne hl'])
  | @releaseLock t l _ p x hp hx =>
    have hl' : a.lid ≠ l := hlock (lid_ne_zero hcb (by simp [lockHeadKinds]))
    exact .releaseLock (hhead.trans hp) (by rwa [lastOfLid_of_ne hl'])
  | @createCond t c p hp hc _ =>
    have hc' : a.cid ≠ c := hcid_ne (.inl rfl)
    exact .createCond (hhead.trans hp) (by rwa [condHeads_commit_of_ne hc'])
      (by rwa [mem_usedCondIds_of_ne hc'])
  | @destroyUnusedCond t c p hp hc =>
    have hc' : a.cid ≠ c := hcid_ne (.inr rfl)
    exact .destroyUnusedCond (hhead.trans hp) (by rwa [condHeads_commit_of_ne hc'])
  | @destroyCond t c p qs hp hc hne =>
    have hc' : a.cid ≠ c := hcid_ne (.inr rfl)
    rw [← w2Heads_commit_of_ne hc']
    exact .destroyCond (hhead.trans hp) (by rwa [condHeads_commit_of_ne hc']) hne
  | @wait1 t c l p x hp hx =>
    have hl' : a.lid ≠ l := hlock (lid_ne_zero hcb (by simp [lockHeadKinds]))
    have hsame : wait1PredecessorsCond p ((C.commit a).lastOfCid c) = wait1PredecessorsCond p (C.lastOfCid c) := by
      by_cases hc : a.cid = c
      · subst hc
        exact wait1PredsCond_commit p (hcid (by simp [condKinds])) rfl
          (hcond (by simp [condKinds]) rfl)
      · rw [lastOfCid_of_ne hc]
    rw [← hsame]
    exact .wait1 (hhead.trans hp) (by rwa [lastOfLid_of_ne hl'])
  | @wait2 t c l w n x hw hk hx hn =>
    have hl' : a.lid ≠ l := hlock (lid_ne_zero hcb (by simp [lockHeadKinds]))
    refine .wait2 (by rwa [lastOfTid_of_ne ht]) hk (by rwa [lastOfLid_of_ne hl']) ?_
    refine wait2PredCond_commit hW hN ha hca hn fun hc hd => ?_
    have := hcond (by simp [condKinds]) hc
    simp [condDependent, hd] at this
  | @lostSignal t c p qs hp hqs hlost =>
    exact .lostSignal (hhead.trans hp) ((hlostqs hlost p).trans hqs) hlost
  | @signal t c n p w hp hn hw =>
    have hwk := mem_of_notifiedHead hw
    have hwb : w ∈ (⟨t, .signal c, [p, w]⟩ : Event D).waitPredecessors := by
      simp [waitPredecessors, signalWaitPredecessor, hwk.2.2.1]
    refine .signal (hhead.trans hp) hn (notifiedHead_commit hw (hwk.2.2.2 ▸ hwoken hwb) ?_)
    intro hc
    have hc0 := hcid (by simp [condKinds])
    exact (kind_of_condDependent_eq_false (.inl rfl) (ne_nil_of_mem hwb) (hc ▸ hc0)
      (hcond (by simp [condKinds]) hc)).imp_left And.left
  | @lostBroadcast t c p qs hp hqs hlen =>
    exact .lostBroadcast (hhead.trans hp) ((hlostqs (isLost_of_lostBroadcast hp hqs hlen) p).trans hqs) hlen
  | @broadcast t c ns p ws hp hns hws hlen =>
    have hwb : ∀ {w}, w ∈ ws → w ∈ (⟨t, .broadcast c, p :: groupByKind (sortPredecessors
        (ws ++ broadcastPredecessorsCond t p ns (C.lastOfCid c)))⟩ : Event D).waitPredecessors := by
      intro w hw
      obtain ⟨n, -, hn⟩ := (mem_of_mapM hws).mp hw
      exact mem_waitPreds_broadcast.mpr ⟨mem_append_left _ hw, (mem_of_notifiedHead hn).2.2.1⟩
    have hwait : ∀ n ∈ ns, ∃ w ∈ ws, C.notifiedHead t n (C.lastOfCid c) = some w :=
      fun n hn => (exists_of_mapM hws hn :)
    obtain ⟨n0, _, rfl⟩ := exists_cons_of_ne_nil hns
    obtain ⟨w0, hw0, -⟩ := hwait n0 mem_cons_self
    have hkind : a.cid = c → a.kind = .wait2 := by
      intro hc
      have := kind_of_condDependent_eq_false (.inr rfl) (ne_nil_of_mem (hwb hw0))
        (hc ▸ hcid (by simp [condKinds])) (hcond (by simp [condKinds]) hc)
      simpa using this
    have hheads : (C.commit a).lastOfCid c = C.lastOfCid c := by
      by_cases hc : a.cid = c
      · exact lastOfCid_of_kind _ (by simp [hkind hc, condHeadKinds])
      · exact lastOfCid_of_ne hc
    rw [← hheads] at hlen ⊢
    refine .broadcast (hhead.trans hp) hns ?_ hlen
    rw [mapM_eq_some_iff] at hws ⊢
    rw [← hws]
    refine map_congr_left fun n hn => ?_
    obtain ⟨w, hw, hnw⟩ := hwait n hn
    rw [hnw]
    exact notifiedHead_commit hnw ((mem_of_notifiedHead hnw).2.2.2 ▸ hwoken (hwb hw)) fun hc => .inr (hkind hc)
  | localEvent hp hk => exact .localEvent (by rwa [lastOfTid_of_ne ht]) hk

end

/-! ## The heads after both extensions -/

def headSet (heads : SortedMap CondId (List (Event D))) (c : CondId) : Option (Finset (Event D)) :=
  (heads.find? c).map List.toFinset

lemma headSet_condHeads_of_mem {C : Configuration D} {e : Event D} (hk : e.kind ∈ condHeadKinds) :
    headSet (C.commit e).condHeads e.cid = some ((C.commit e).lastOfCid e.cid).toFinset := by
  have hsome : ∃ hs, (C.commit e).condHeads.find? e.cid = some hs := by
    rw [condHeads_commit, if_pos rfl]
    simp only [condHeadKinds, mem_cons, not_mem_nil, or_false] at hk
    rcases hk with hk | hk | hk | hk <;> simp only [condHeadsAfter, hk]
    · split_ifs with h
      · exact ⟨_, rfl⟩
      · exact Option.isSome_iff_exists.mp (by simpa [Option.isSome_iff_ne_none] using h)
    all_goals exact ⟨_, rfl⟩
  obtain ⟨hs, hhs⟩ := hsome
  simp [headSet, lastOfCid, hhs]

lemma condHeadsAfter_of_kind {e : Event D} (hk : e.kind ∉ .conditionVariableDestroy :: condHeadKinds)
    (heads : Option (List (Event D))) : condHeadsAfter e heads = heads := by
  unfold condHeadsAfter
  cases hke : e.kind <;> simp [condHeadKinds, hke] at hk <;> rfl

omit [DecidableEq D] in
lemma w2HeadsAfter_of_kind {e : Event D} (hk : e.kind ∉ [Kind.wait2, .conditionVariableDestroy])
    (heads : Option (List (Event D))) : w2HeadsAfter e heads = heads := by
  unfold w2HeadsAfter
  cases hke : e.kind <;> simp [hke] at hk <;> rfl

lemma Extends.lockHeadAfter_of_lid_eq_zero {C : Configuration D} (hW : C.WellFormed) {op : Op D} {e : Event D}
    (h : C.Extends op e) (hc : e.checks = true) (hl : e.lid = 0) (head : Option (Event D)) :
    lockHeadAfter e head = head := by
  have hk : e.kind ∉ lockHeadKinds := fun hk => lid_ne_zero hc hk hl
  have hd : e.kind ≠ .lockDestroy := by
    intro hd
    cases h with
    | @destroyLock t l p hp hl' =>
      cases hx : C.lastOfLid l with
      | none => exact hl' hx hl
      | some x => exact hW.lid_ne_zero hx hl
    | _ => simp at hd
  unfold lockHeadAfter
  cases hke : e.kind <;> simp [lockHeadKinds, hke] at hk hd <;> rfl

section
variable {C : Configuration D} {opa opb : Op D} {a b : Event D} (hW : C.WellFormed) (hN : C.Waiting)
  (ha : C.Extends opa a) (hca : a.checks = true) (hb : C.Extends opb b) (hcb : b.checks = true)
  (hind : a.isIndependentOf b = true)
include hW ha hca hb hcb hind

omit ha in
lemma lockHeads_commit_comm : ((C.commit a).commit b).lockHeads = ((C.commit b).commit a).lockHeads := by
  refine SortedMap.ext_find? fun l => ?_
  change ((C.commit a).commit b).lastOfLid l = ((C.commit b).commit a).lastOfLid l
  simp only [lastOfLid_commit]
  by_cases hal : a.lid = l
  · by_cases hbl : b.lid = l
    · have hzero : b.lid = 0 := by
        by_contra hl
        exact lid_ne_of_independent hca hcb hind hl (hal.trans hbl.symm)
      have hzero' : a.lid = 0 := hal.trans (hbl.symm.trans hzero)
      simp [hb.lockHeadAfter_of_lid_eq_zero hW hcb hzero]
    · simp [hbl]
  · simp [hal]

omit hW ha hb in
lemma kind_ne_destroy_of_cid_eq (hc : a.cid = b.cid) (hc0 : b.cid ≠ 0) :
    a.kind ≠ .conditionVariableDestroy ∧ b.kind ≠ .conditionVariableDestroy := by
  have hdep := condDependent_of_independent hca hcb hind hc0 hc
  constructor
  · intro hk
    simp [condDependent_comm a b, condDependent_of_ends (.inr hk)] at hdep
  · intro hk
    simp [condDependent_of_ends (.inr hk)] at hdep

lemma condHeads_commit_comm (hN : C.Waiting) (ha' : (C.commit b).Extends opa a) (hb' : (C.commit a).Extends opb b)
    (c : CondId) : headSet ((C.commit a).commit b).condHeads c = headSet ((C.commit b).commit a).condHeads c := by
  by_cases hac : a.cid = c
  swap
  · simp [headSet, condHeads_commit, hac]
  by_cases hbc : b.cid = c
  swap
  · simp [headSet, condHeads_commit, hbc]
  subst hac
  by_cases hka : a.kind ∈ .conditionVariableDestroy :: condHeadKinds
  swap
  · simp [headSet, condHeads_commit, condHeadsAfter_of_kind hka]
  by_cases hkb : b.kind ∈ .conditionVariableDestroy :: condHeadKinds
  swap
  · simp [headSet, condHeads_commit, condHeadsAfter_of_kind hkb]
  have hc0 : b.cid ≠ 0 := cid_ne_zero hcb (by simp [condHeadKinds, condKinds] at hkb ⊢; tauto)
  obtain ⟨hda, hdb⟩ := kind_ne_destroy_of_cid_eq hca hcb hind hbc.symm hc0
  replace hka := (mem_cons.mp hka).resolve_left hda
  replace hkb := (mem_cons.mp hkb).resolve_left hdb
  have hab : a ∉ b.waitPredecessors := fun h => ha.not_mem hW (mem_of_lastOfTid (hb.waitPreds_mem h).2.1)
  have hba : b ∉ a.waitPredecessors := fun h => hb.not_mem hW (mem_of_lastOfTid (ha.waitPreds_mem h).2.1)
  rw [headSet_condHeads_of_mem hka, ← hbc, headSet_condHeads_of_mem hkb]
  congr 1
  ext x
  have hnodup_a := (hN.commit hW ha hca).nodup (c := b.cid)
  have hnodup_b := (hN.commit hW hb hcb).nodup (c := a.cid)
  have hold := ha.mem_lastOfCid_commit (x := x) hN.nodup hka
  have hold' := hb.mem_lastOfCid_commit (x := x) hN.nodup hkb
  rw [mem_toFinset, mem_toFinset, hb'.mem_lastOfCid_commit hnodup_a hkb]
  rw [hbc] at hold' ⊢
  rw [ha'.mem_lastOfCid_commit hnodup_b hka]
  grind

omit hW ha hb in
lemma w2Heads_commit_comm (c : CondId) :
    headSet ((C.commit a).commit b).w2Heads c = headSet ((C.commit b).commit a).w2Heads c := by
  by_cases hac : a.cid = c
  swap
  · simp [headSet, w2Heads_commit, hac]
  by_cases hbc : b.cid = c
  swap
  · simp [headSet, w2Heads_commit, hbc]
  by_cases hka : a.kind ∈ [Kind.wait2, .conditionVariableDestroy]
  swap
  · simp [headSet, w2Heads_commit, w2HeadsAfter_of_kind hka]
  by_cases hkb : b.kind ∈ [Kind.wait2, .conditionVariableDestroy]
  swap
  · simp [headSet, w2Heads_commit, w2HeadsAfter_of_kind hkb]
  have hc0 : b.cid ≠ 0 := cid_ne_zero hcb (by simp [condKinds] at hkb ⊢; tauto)
  obtain ⟨hda, hdb⟩ := kind_ne_destroy_of_cid_eq hca hcb hind (hac.trans hbc.symm) hc0
  have hka : a.kind = .wait2 := by simpa [hda] using hka
  have hkb : b.kind = .wait2 := by simpa [hdb] using hkb
  simp only [headSet, w2Heads_commit, hac, hbc, if_true, w2HeadsAfter, hka, hkb, Option.getD_some, Option.map_some]
  congr 1
  ext x
  simp only [mem_toFinset, mem_append]
  tauto

end

/-- Independent extensions of a reachable configuration form a diamond. -/
theorem Reachable.independent_commute {C : Configuration D} (hC : Reachable anyOp C) {opa opb : Op D} {a b : Event D}
    (ha : C.extend opa = some a) (hb : C.extend opb = some b) (hind : a.isIndependentOf b = true)
    (hab : ¬ Disables a b) (hba : ¬ Disables b a) :
    (C.commit a).extend opb = some b ∧ (C.commit b).extend opa = some a ∧
      ((C.commit a).commit b).threadHeads = ((C.commit b).commit a).threadHeads ∧
      ((C.commit a).commit b).lockHeads = ((C.commit b).commit a).lockHeads ∧
      ∀ c, headSet ((C.commit a).commit b).condHeads c = headSet ((C.commit b).commit a).condHeads c ∧
        headSet ((C.commit a).commit b).w2Heads c = headSet ((C.commit b).commit a).w2Heads c := by
  obtain ⟨ha, hca⟩ := extend_iff.mp ha
  obtain ⟨hb, hcb⟩ := extend_iff.mp hb
  have hW := hC.wellFormed
  have hN := hC.waiting
  have hind' : b.isIndependentOf a = true := by rwa [isIndependentOf_comm hcb hca]
  have hb' := Extends.commit_of_independent hW hN ha hca hb hcb hind hab
  have ha' := Extends.commit_of_independent hW hN hb hcb ha hca hind' hba
  refine ⟨extend_iff.mpr ⟨hb', hcb⟩, extend_iff.mpr ⟨ha', hca⟩, ?_, ?_, fun c => ⟨?_, ?_⟩⟩
  · rw [commit_threadHeads, commit_threadHeads, commit_threadHeads, commit_threadHeads]
    exact SortedMap.insert_comm _ _ _ (tid_ne_of_independent hind)
  · exact lockHeads_commit_comm hW hca hb hcb hind
  · exact condHeads_commit_comm hW ha hca hb hcb hind hN ha' hb' c
  · exact w2Heads_commit_comm hca hcb hind c

theorem Reachable.independent_commute_forked : ∃ a b, forked.extend (.signalThread .main 1 .empty) = some a ∧
    forked.extend (.signalThread worker 1 .empty) = some b ∧
      (forked.commit a).extend (.signalThread worker 1 .empty) = some b ∧
      (forked.commit b).extend (.signalThread .main 1 .empty) = some a := by
  have h := Reachable.independent_commute (reachable_after _ : Reachable anyOp forked)
    (show forked.extend (.signalThread .main 1 .empty) = some _ from rfl)
    (show forked.extend (.signalThread worker 1 .empty) = some _ from rfl) (by decide) (by unfold Disables; decide)
    (by unfold Disables; decide)
  exact ⟨_, _, rfl, rfl, h.1, h.2.1⟩

def creating : Configuration Unit := after [.createThread .main worker]

def mainWaits : Configuration Unit :=
  after [.createThread .main worker, .initThread worker .main, .acquireLock .main 1, .wait1 .main 1 1]

/-- A start and its creator's next event, and a waiting thread's local step and its notification, are independent but
do not stay enabled. -/
theorem independent_not_commute :
    (Reachable anyOp creating ∧ ∃ a b, creating.extend (.initThread worker .main) = some a ∧
      creating.extend (.acquireLock .main 1) = some b ∧ a.tid ≠ b.tid ∧ a.isIndependentOf b = true ∧
        (creating.commit b).extend (.initThread worker .main) = none) ∧
    (Reachable anyOp mainWaits ∧ ∃ a b, mainWaits.extend (.localEvent .main []) = some a ∧
      mainWaits.extend (.signalThread worker 1 .main) = some b ∧ a.tid ≠ b.tid ∧ a.isIndependentOf b = true ∧
        (mainWaits.commit a).extend (.signalThread worker 1 .main) = none) :=
  ⟨⟨reachable_after _, _, _, rfl, rfl, by decide, by decide, by decide⟩,
    ⟨reachable_after _, _, _, rfl, rfl, by decide, by decide, by decide⟩⟩

end Configuration
end Por
