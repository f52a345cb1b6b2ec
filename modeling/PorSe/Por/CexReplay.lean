import PorSe.Por.ReplayCond

/-! Which conflicting extensions can be replayed: all acquisitions, and those waits and
notifications whose predecessors are the ones that the extension method chooses. -/

namespace Por
open List Option Event ListSearch
namespace Configuration
variable {D : Type} [DecidableEq D]

/-! ## `cex_wait1` -/

variable {P : Configuration D → Op D → Prop} {C K : Configuration D} {e et x : Event D} {isCutoff : Event D → Bool}
  {xs : List (Event D)}

lemma Reachable.wait1_outside (hC : Reachable P C) {p : Event D} (he : e ∈ C) (hk : e.kind = .wait1)
    (het : e.threadPredecessor = some et) (hp : p ∈ e.conditionVariablePredecessors) : ¬ p ≤ et := by
  induction hC with
  | initial => rcases kind_of_initial he with hk' | hk' <;> simp [hk'] at hk
  | commit hC _ hx ih =>
    obtain ⟨h, -⟩ := extend_iff.mp hx
    rcases (mem_commit h.threadPredecessor_eq).mp he with rfl | he
    · cases h with
      | wait1 hhead hl =>
        obtain rfl : _ = et := some.inj het
        have hp := mem_filter.mp (mem_sortPreds.mp hp)
        have hpC := (hC.wellFormed.mem_of_lastOfCid hp.1).1
        have hetC := mem_of_lastOfTid (activeHead_eq_some.mp hhead).1
        rw [← hC.wellFormed.isLessThanEq_iff hpC hetC]
        simpa using (Bool.and_eq_true_iff.mp hp.2).2
      | _ => simp at hk
    · exact ih he

lemma of_mem_cexWait1For {condCreate : Option (Event D)} {M ys : List (Event D)}
    (h : cexWait1For e et condCreate M = some ys) (hx : x ∈ ys) : ∃ lp, e.lockPredecessor = some lp ∧
      allocWait1 e.tid e.cid e.lid et lp (M ++ condCreate.toList) = some x := by
  simp only [cexWait1For, ite_none_right_eq_some] at h
  obtain ⟨-, h⟩ := h
  have hys : (e.lockPredecessor.bind fun lp =>
      (allocWait1 e.tid e.cid e.lid et lp (M ++ condCreate.toList)).map ([·])) = some ys ∨ ys = [] := by
    split at h
    · exact .inl h
    · obtain ⟨_, -, h⟩ := bind_eq_some_iff.mp h
      split_ifs at h
      · exact .inl h
      · exact .inr (some.inj h).symm
  rcases hys with h | rfl
  · obtain ⟨lp, hlp, h⟩ := bind_eq_some_iff.mp h
    obtain ⟨y, hy, rfl⟩ := map_eq_some_iff.mp h
    exact ⟨lp, hlp, mem_singleton.mp hx ▸ hy⟩
  · cases hx

lemma of_mem_cexWait1 (hxs : cexWait1 isCutoff e = some xs) (hx : x ∈ xs) :
    ∃ et lp N, e.threadPredecessor = some et ∧ e.lockPredecessor = some lp ∧
      x = ⟨e.tid, .wait1 e.cid e.lid, et :: lp :: sortPredecessors N⟩ ∧ x.checks = true ∧ N.Nodup ∧
        ∀ y ∈ N, y ∈ e.conditionVariablePredecessors := by
  simp only [cexWait1, bind_eq_bind, bind_eq_some_iff] at hxs
  obtain ⟨et, het, hxs⟩ := hxs
  split_ifs at hxs with hcut hall
  · cases hxs
    simp at hx
  obtain ⟨Ms, hMs, hxs⟩ := bind_eq_some_iff.mp hxs
  obtain ⟨_, hresult, hxs⟩ := bind_eq_some_iff.mp hxs
  cases hxs
  obtain ⟨ys, hys, hx⟩ := mem_flatten.mp hx
  obtain ⟨M, hM, hMys⟩ := (mem_of_mapM hresult).mp hys
  obtain ⟨lp, hlp, halloc⟩ := of_mem_cexWait1For hMys hx
  obtain ⟨rfl, hc⟩ := alloc_eq_some.mp halloc
  have hother : ∀ m ∈ M, m ∈ e.conditionVariablePredecessors ∧ m.kind ≠ .conditionVariableCreate := by
    intro m hm
    have := mem_filter.mp (Comb.mem_ofEvents.mp ((Comb.mem_of_mem_combinations hMs hM).1 m hm))
    exact ⟨this.1, of_decide_eq_true this.2⟩
  have hcreate : ∀ d ∈ ((e.conditionVariablePredecessors.filter fun p =>
      p.kind = .conditionVariableCreate).getLast?).toList,
        d ∈ e.conditionVariablePredecessors ∧ d.kind = .conditionVariableCreate := by
    intro d hd
    have := mem_filter.mp (mem_of_getLast? (mem_toList.mp hd))
    exact ⟨this.1, of_decide_eq_true this.2⟩
  refine ⟨et, lp, _, het, hlp, rfl, hc, ?_, fun y hy => ?_⟩
  · refine List.Nodup.append (Comb.nodup_of_concurrent (Comb.keyed_ofEvents _) hMs hM)
      (toList_nodup _) fun m hm hd => ?_
    exact (hother m hm).2 (hcreate m hd).2
  · rcases mem_append.mp hy with hy | hy
    · exact (hother y hy).1
    · exact (hcreate y hy).1

lemma Reachable.alternative_of_mem_cexWait1 (hC : Reachable P C) {lp : Event D} {N : List (Event D)}
    (he : e ∈ C) (het : e.threadPredecessor = some et) (hlp : e.lockPredecessor = some lp)
    (hN : ∀ y ∈ N, y ∈ e.conditionVariablePredecessors)
    (hxdef : x = ⟨e.tid, .wait1 e.cid e.lid, et :: lp :: sortPredecessors N⟩) (hc : x.checks = true) :
    C.Alternative e et x ∧ ∀ p ∈ x.preds, p ∈ e.preds := by
  subst hxdef
  have hpreds : ∀ p ∈ et :: lp :: sortPredecessors N, p ∈ e.preds := by
    intro p hp
    simp only [mem_cons, mem_sortPreds] at hp
    rcases hp with rfl | rfl | hp
    · exact threadPred_mem het
    · exact lockPred_mem hlp
    · exact condPreds_subset (hN p hp)
  exact ⟨{ mem := he, threadPredecessor := het, tid_eq := rfl, threadPredecessor_eq := rfl, checks := hc
           preds_mem := fun p hp => ⟨hC.wellFormed.closed he (hpreds p hp),
             (lt_of_mem_preds (hpreds p hp)).not_ge⟩ }, hpreds⟩

lemma Reachable.replays_cexWait1_iff (hC : Reachable localWhileRunning C) (he : e ∈ C) (hk : e.kind = .wait1)
    (hxs : cexWait1 isCutoff e = some xs) (hx : x ∈ xs) (hK : Reachable anyOp K) (hKx : ∀ y, y ∈ K ↔ y < x)
    (hd : ∀ y < x, y.kind = .conditionVariableDestroy → y.cid ≠ x.cid) : K.Replays x ↔ Replayable x := by
  obtain ⟨et, lp, N, het, hlp, hxdef, hc, hN, hNe⟩ := of_mem_cexWait1 hxs hx
  have hW := hC.wellFormed
  have hlk : e.kind ∈ lockHeadKinds := by simp [lockHeadKinds, hk]
  obtain ⟨halt, hpreds⟩ := hC.alternative_of_mem_cexWait1 he het hlp hNe hxdef hc
  have hlt : ∀ {y}, y < x → y < e := by
    intro y hy
    obtain ⟨p, hp, hyp⟩ := lt_iff_pred.mp hy
    exact hyp.trans_lt (lt_of_mem_preds (hpreds p hp))
  have hlid := lid_of_lockPred (hW.checks he) hlp
  have hne := lid_ne_zero (hW.checks he) hlk
  have hlpx : lp < x := lt_of_mem_preds (by simp [hxdef])
  have hlast : K.lastOfLid e.lid = some lp := by
    rw [← hlid]
    refine hK.lastOfLid_eq_some ((hKx lp).mpr hlpx) ?_ fun z hz hzl => ?_
    · exact hC.lockOrdered.lockHeadKind_of_le (hW.closed he (lockPred_mem hlp)) he hlid hlk hne
        (lockPred_lt hlp).le
    · have hze := hlt ((hKx z).mp hz)
      obtain ⟨p, hp, hzp⟩ := hC.lockOrdered.exists_lockPred_of_lt (hW.mem_of_le hze.le he) he (hzl.trans hlid) hlk
        hne hze
      exact some.inj (hlp.symm.trans hp) ▸ hzp
  exact replays_wait1_iff hC hK (by simp [hk]) halt hKx hd hxdef hlast hN fun y hy =>
    hC.wait1_outside he hk het (hNe y hy)

/-! ## `cex_notification` -/

section
variable (hC : Reachable localWhileRunning C) (he : e ∈ C) (hk : e.kind = .signal ∨ e.kind = .broadcast)
  (het : e.threadPredecessor = some et)
include hC he het

lemma not_le_of_mem_outsideOf {y : Event D} (hy : y ∈ C.outsideOf e et) : y ∈ C ∧ ¬ e ≤ y ∧ ¬ y ≤ et := by
  obtain ⟨hyC, ht, hey, hyet⟩ := of_mem_outsideOf hC he het hy
  refine ⟨hyC, fun h => ?_, fun h => ?_⟩
  · rcases h.eq_or_lt' with rfl | h
    · exact ht rfl
    · exact hey h
  · rcases h.eq_or_lt' with rfl | h
    · exact ht (tid_of_threadPred (hC.wellFormed.checks he) het)
    · exact hyet h

lemma alternative_of_outsideOf (ht : x.tid = e.tid) (hp : x.threadPredecessor = some et) (hc : x.checks = true)
    (hpreds : ∀ p ∈ x.preds, p ≤ et ∨ p ∈ C.outsideOf e et) : C.Alternative e et x where
  mem := he
  threadPredecessor := het
  tid_eq := ht
  threadPredecessor_eq := hp
  checks := hc
  preds_mem p hp := by
    have hW := hC.wellFormed
    have hete := threadPred_lt het
    rcases hpreds p hp with h | h
    · exact ⟨hW.mem_of_le h (hW.mem_of_le hete.le he), fun hle => (hle.trans h).not_gt hete⟩
    · exact ⟨(not_le_of_mem_outsideOf hC he het h).1, (not_le_of_mem_outsideOf hC he het h).2.1⟩

variable {Ms : List (List (Event D))} {M N : List (Event D)}

omit hC he het in
lemma of_mem_notificationComb (hMs : (C.notificationComb e et).concurrentCombinations = some Ms) (hM : M ∈ Ms)
    {m : Event D} (hm : m ∈ M) : m ∈ C.outsideOf e et ∧ m.kind ≠ .conditionVariableCreate := by
  have := mem_filter.mp (Comb.mem_ofEvents.mp ((Comb.mem_of_mem_combinations hMs hM).1 m hm))
  simp only [Bool.and_eq_true, decide_eq_true_eq] at this
  exact ⟨this.1, this.2.1.2⟩

omit hC he het in
lemma of_mem_lostPreds_append (hMs : (C.notificationComb e et).concurrentCombinations = some Ms)
    (hM : M ∈ Ms) :
    (lostPredecessors e M ++ (C.notificationCondCreate e et).toList).Nodup ∧
      ∀ y ∈ lostPredecessors e M ++ (C.notificationCondCreate e et).toList, y ∈ C.outsideOf e et ∧
        y.kind ∈ [Kind.signal, .broadcast, .conditionVariableCreate] := by
  have hlost : ∀ y ∈ lostPredecessors e M, y ∈ M ∧ (y.kind = .signal ∨ y.kind = .broadcast) := by
    intro y hy
    obtain ⟨hyM, hyk⟩ := mem_filter.mp hy
    refine ⟨hyM, ?_⟩
    cases hky : y.kind <;> simp [hky] at hyk ⊢
  have hcreate : ∀ d ∈ (C.notificationCondCreate e et).toList,
      d ∈ C.outsideOf e et ∧ d.kind = .conditionVariableCreate := by
    intro d hd
    obtain ⟨hdo, -, hkd⟩ := of_mem_notificationCondCreate (mem_toList.mp hd)
    exact ⟨hdo, hkd⟩
  constructor
  · refine List.Nodup.append ?_ (toList_nodup _) fun y hy hd => ?_
    · exact (Comb.nodup_of_concurrent (Comb.keyed_ofEvents _) hMs hM).filter _
    · exact (of_mem_notificationComb hMs hM (hlost y hy).1).2 (hcreate y hd).2
  · intro y hy
    rcases mem_append.mp hy with hy | hy
    · refine ⟨(of_mem_notificationComb hMs hM (hlost y hy).1).1, ?_⟩
      rcases (hlost y hy).2 with h | h <;> simp [h]
    · exact ⟨(hcreate y hy).1, by simp [(hcreate y hy).2]⟩

lemma alternative_broadcastAfter (hc : (broadcastAfter e.tid e.cid et N).checks = true)
    (hNo : ∀ y ∈ N, y ∈ C.outsideOf e et) : C.Alternative e et (broadcastAfter e.tid e.cid et N) := by
  refine alternative_of_outsideOf hC he het rfl rfl hc fun p hp => ?_
  rcases mem_cons.mp hp with rfl | hp
  · exact .inl le_rfl
  · exact .inr (hNo p (mem_sortPreds.mp (mem_groupByKind.mp hp).1))

lemma alternative_of_mem_cexSignals (hxs : C.cexSignals e et = some xs) (hx : x ∈ xs) :
    ∃ w, w.kind = .wait1 ∧ x = ⟨e.tid, .signal e.cid, [et, w]⟩ ∧ C.Alternative e et x := by
  have hW := hC.wellFormed
  have hetC := hW.closed he (threadPred_mem het)
  obtain ⟨w, hw, halloc⟩ := (mem_of_mapM hxs).mp hx
  have hwp : w.kind = .wait1 ∧ (w ≤ et ∨ w ∈ C.outsideOf e et) := by
    rcases mem_append.mp (mem_of_mem_filter hw) with hw | hw
    · obtain ⟨hwet, hkw, -⟩ := (mem_outstanding hW hC.waiting hC.localRuns (cone_represents (hW.valid hetC))
        (fun y hy => hW.mem_of_le (le_of_lt hy) hetC) (isLowerSet_Iio et)).mp hw
      exact ⟨hkw, .inl (le_of_lt hwet)⟩
    · obtain ⟨hwo, hwk⟩ := mem_filter.mp (Comb.mem_ofEvents.mp hw)
      simp only [Bool.and_eq_true, decide_eq_true_eq] at hwk
      exact ⟨hwk.2, .inr hwo⟩
  rw [allocSignal, ite_none_left_eq_some, alloc_eq_some] at halloc
  obtain ⟨-, rfl, hc⟩ := halloc
  refine ⟨w, hwp.1, rfl, alternative_of_outsideOf hC he het rfl rfl hc fun p hp => ?_⟩
  simp only [mem_cons, not_mem_nil, or_false] at hp
  rcases hp with rfl | rfl
  · exact .inl le_rfl
  · exact hwp.2

section
variable (hK : Reachable anyOp K) (hKx : ∀ y, y ∈ K ↔ y < x)
  (hd : ∀ y < x, y.kind = .conditionVariableDestroy → y.cid ≠ x.cid)
include hK hKx hd hk

lemma replays_broadcastAfter_iff (hx : allocBroadcast e.tid e.cid et N = some x)
    (hN : N.Nodup) (hNo : ∀ y ∈ N, y ∈ C.outsideOf e et)
    (hkinds : ∀ m ∈ N, m.kind ∈ [Kind.wait1, .signal, .broadcast, .conditionVariableCreate])
    (hwait : (∀ w ∈ N, w.kind ≠ .wait1) ∨ (∀ m ∈ N, m.kind = .wait1 ∨ m.kind = .signal) ∧
      ∀ w ∈ N, w.kind = .wait1 → Outstanding (pastWith et N) e.cid w) : K.Replays x ↔ Replayable x := by
  obtain ⟨hlen, rfl, hc⟩ := allocBroadcast_iff.mp hx
  have hke : e.kind ∉ [Kind.localEvent, .wait2] := by rcases hk with h | h <;> simp [h]
  have halt := alternative_broadcastAfter hC he het hc hNo
  have hout : ∀ y ∈ N, ¬ y ≤ et := fun y hy => (not_le_of_mem_outsideOf hC he het (hNo y hy)).2.2
  cases hl : (broadcastAfter e.tid e.cid et N).broadcastIsLost with
  | true => exact replays_lostBroadcast_iff hC hK hke halt hKx hd rfl hl hlen hkinds hN hout
  | false =>
    obtain ⟨w, hw⟩ := exists_mem_of_ne_nil _
      (fun h => by simp [broadcastIsLost_iff.mpr h] at hl :
        (broadcastAfter e.tid e.cid et N).broadcastWaitPredecessors ≠ [])
    obtain ⟨hwN, hwk⟩ := mem_waitPreds_after.mp (mem_waitPreds.mpr (.inr ⟨rfl, hw⟩))
    obtain ⟨hsig, hwait⟩ := hwait.resolve_left fun h => h w hwN hwk
    refine replays_broadcast_iff hC hK hke halt hKx hd rfl hl hlen hsig hN hout fun w hw hkw => ?_
    have hset : {y | y < broadcastAfter e.tid e.cid et N} = pastWith et N := Set.ext fun y =>
      lt_broadcastAfter_iff hkinds
    rw [← broadcastAfter, hset]
    exact hwait w hw hkw

variable {max : List (Event D)}

section
variable (hMs : (C.notificationComb e et).concurrentCombinations = some Ms) (hM : M ∈ Ms)
include hMs hM

lemma replays_cexLostFor_iff (hxs : cexLostFor e et (C.notificationCondCreate e et) max M = some xs) (hx : x ∈ xs) :
    K.Replays x ↔ Replayable x := by
  obtain ⟨hN, hNo⟩ := of_mem_lostPreds_append hMs hM
  have hout := fun y hy => (not_le_of_mem_outsideOf hC he het (hNo y hy).1).2.2
  have hke : e.kind ∉ [Kind.localEvent, .wait2] := by rcases hk with h | h <;> simp [h]
  obtain ⟨-, -, -, ⟨-, halloc⟩ | ⟨-, halloc⟩⟩ := mem_of_cexLostFor hxs hx
  · obtain ⟨hlost, rfl, hc⟩ := allocLostSignal_eq_some.mp halloc
    refine replays_lostSignal_iff hC hK hke (alternative_of_outsideOf hC he het rfl rfl hc fun p hp => ?_) hKx hd rfl
      hlost hN hout
    rcases mem_cons.mp hp with rfl | hp
    · exact .inl le_rfl
    · exact .inr (hNo p (mem_sortPreds.mp hp)).1
  · refine replays_broadcastAfter_iff hC he hk het hK hKx hd halloc hN (fun y hy => (hNo y hy).1)
      (fun y hy => mem_cons_of_mem _ (hNo y hy).2) (.inl fun w hw hkw => ?_)
    have := (hNo w hw).2
    simp [hkw] at this

lemma replays_cexBroadcastFor_iff
    (hxs : cexBroadcastFor e et max M = some xs) (hx : x ∈ xs) : K.Replays x ↔ Replayable x := by
  obtain ⟨-, honly, -, halloc⟩ := (mem_cexBroadcastFor hxs).mp hx
  obtain ⟨hmem, hconc⟩ := of_mem_combination hC he het hMs hM
  have hkinds := fun m hm => kind_of_onlyWaitsAndSignals honly (m := m) hm
  refine replays_broadcastAfter_iff hC he hk het hK hKx hd halloc
    (Comb.nodup_of_concurrent (Comb.keyed_ofEvents _) hMs hM)
    (fun y hy => (of_mem_notificationComb hMs hM hy).1) (fun y hy => ?_)
    (.inr ⟨hkinds, fun w hw hkw => outstanding_of_mem hmem hconc hw hkw⟩)
  rcases hkinds y hy with h | h <;> simp [h]

end

lemma replays_cexSignals_iff (hxs : C.cexSignals e et = some xs) (hx : x ∈ xs) : K.Replays x ↔ Replayable x := by
  have hke : e.kind ∉ [Kind.localEvent, .wait2] := by rcases hk with h | h <;> simp [h]
  obtain ⟨w, hwk, rfl, halt⟩ := alternative_of_mem_cexSignals hC he het hxs hx
  exact replays_signal_iff hC hK hke halt hKx hd rfl hwk

end
end

lemma Reachable.replays_cexNotification_iff (hC : Reachable localWhileRunning C) (he : e ∈ C)
    (hk : e.kind = .signal ∨ e.kind = .broadcast) (hxs : C.cexNotification isCutoff e = some xs) (hx : x ∈ xs)
    (hK : Reachable anyOp K) (hKx : ∀ y, y ∈ K ↔ y < x)
    (hd : ∀ y < x, y.kind = .conditionVariableDestroy → y.cid ≠ x.cid) : K.Replays x ↔ Replayable x := by
  simp only [cexNotification, bind_eq_bind, bind_eq_some_iff] at hxs
  obtain ⟨et, het, hxs⟩ := hxs
  split_ifs at hxs with hcut
  · cases hxs
    simp at hx
  obtain ⟨Ms, hMs, hxs⟩ := bind_eq_some_iff.mp hxs
  obtain ⟨lost, hlost, hxs⟩ := bind_eq_some_iff.mp hxs
  have hlostx : x ∈ lost.flatten → (K.Replays x ↔ Replayable x) := by
    intro hx
    obtain ⟨ys, hys, hx⟩ := mem_flatten.mp hx
    obtain ⟨M, hM, hMys⟩ := (mem_of_mapM hlost).mp hys
    exact replays_cexLostFor_iff hC he hk het hK hKx hd hMs hM hMys hx
  rcases hk with hk | hk <;> simp only [hk] at hxs
  · obtain ⟨_, hsig, hxs⟩ := bind_eq_some_iff.mp hxs
    cases hxs
    rcases mem_append.mp hx with hx | hx
    · exact hlostx hx
    · exact replays_cexSignals_iff hC he (.inl hk) het hK hKx hd hsig hx
  · obtain ⟨_, hbro, hxs⟩ := bind_eq_some_iff.mp hxs
    cases hxs
    rcases mem_append.mp hx with hx | hx
    · exact hlostx hx
    · obtain ⟨ys, hys, hx⟩ := mem_flatten.mp hx
      obtain ⟨M, hM, hMys⟩ := (mem_of_mapM hbro).mp hys
      exact replays_cexBroadcastFor_iff hC he (.inr hk) het hK hKx hd hMs hM hMys hx

/-! ## All conflicting extensions -/

/-- Replayed on its causes if and only if it has the predecessors that the extension method chooses there. -/
theorem Reachable.replay_iff {C K : Configuration D} (hC : Reachable localWhileRunning C)
    {isCutoff allCexKnown : Event D → Bool} {xs : List (Event D)}
    (hxs : C.conflictingExtensions isCutoff allCexKnown = some xs) {x : Event D} (hx : x ∈ xs)
    (hK : Reachable anyOp K) (hKx : ∀ y, y ∈ K ↔ y < x)
    (hd : ∀ y < x, y.kind = .conditionVariableDestroy → y.cid ≠ x.cid) : K.Replays x ↔ Replayable x := by
  obtain ⟨_, hcand, hxs⟩ := bind_eq_some_iff.mp hxs
  cases hxs
  obtain ⟨ys, hys, hx⟩ := mem_flatten.mp (mem_of_mem_filter hx)
  obtain ⟨e, he, hcex⟩ := (mem_of_mapM hcand).mp hys
  have hacquire : e.kind = .lockAcquire ∨ e.kind = .wait2 →
      (if allCexKnown e then some [] else cexAcquire isCutoff e) = some ys → (K.Replays x ↔ Replayable x) := by
    intro hk h
    split_ifs at h
    · cases h
      simp at hx
    obtain ⟨r, hr, rfl, hc⟩ := hC.cexAcquire_sound he hk h hx
    obtain ⟨et, het, -⟩ := threadPred_of_checks (hC.wellFormed.checks he)
      (by rcases hk with hk | hk <;> simp [hk]) (by rcases hk with hk | hk <;> simp [hk])
    refine iff_of_true (replays_acquire hC he hk het hr hc hK hKx fun y hy => hd y ((hKx y).mp hy)) ?_
    rw [Replayable, show (replaceLockPredecessor e r).kind = e.kind from rfl]
    rcases hk with hk | hk <;> simp [hk]
  unfold cexOf at hcex
  cases hk : e.kind <;> simp only [hk] at hcex
  case lockAcquire => exact hacquire (.inl hk) hcex
  case wait2 => exact hacquire (.inr hk) hcex
  case wait1 => exact hC.replays_cexWait1_iff he hk hcex hx hK hKx hd
  case signal => exact hC.replays_cexNotification_iff he (.inl hk) hcex hx hK hKx hd
  case broadcast => exact hC.replays_cexNotification_iff he (.inr hk) hcex hx hK hKx hd
  all_goals
    cases hcex
    simp at hx

def lostThrice : Configuration Unit :=
  after [.createThread .main worker, .initThread worker .main, .signalThread worker 1 .empty,
    .signalThread worker 1 .empty, .signalThread worker 1 .empty, .acquireLock .main 1, .wait1 .main 1 1]

def lostTwice : Configuration Unit :=
  after [.createThread .main worker, .initThread worker .main, .signalThread worker 1 .empty,
    .signalThread worker 1 .empty, .acquireLock .main 1]

def secondSignal : Event Unit := (lostTwice.lastOfTid worker).getD .programInit
def mainAcquire : Event Unit := (lostTwice.lastOfTid .main).getD .programInit

/-- The wait1 that `cex_wait1` builds for the combination of the second signal alone. -/
def waitAfterSecond : Event Unit := ⟨.main, .wait1 1 1, [mainAcquire, mainAcquire, secondSignal]⟩

lemma reachable_lostThrice : Reachable localWhileRunning lostThrice := 
  reachable_after_of_noLocal (by decide)

lemma lostTwice_eq_causes (y : Event Unit) : y ∈ lostTwice ↔ y < waitAfterSecond := by
  have hW := (reachable_after _ : Reachable anyOp lostTwice).wellFormed
  have hmem : mainAcquire ∈ lostTwice ∧ secondSignal ∈ lostTwice := by decide +kernel
  rw [lt_iff_pred]
  constructor
  · intro hy
    have hall : ∀ y ∈ lostTwice.events, y.isLessThanEq mainAcquire = true ∨ y.isLessThanEq secondSignal = true := by
      decide +kernel
    rcases hall y hy with h | h
    · exact ⟨mainAcquire, by simp [waitAfterSecond], (hW.isLessThanEq_iff hy hmem.1).mp h⟩
    · exact ⟨secondSignal, by simp [waitAfterSecond], (hW.isLessThanEq_iff hy hmem.2).mp h⟩
  · rintro ⟨p, hp, hyp⟩
    refine hW.mem_of_le hyp ?_
    simp only [waitAfterSecond, mem_cons, not_mem_nil, or_false] at hp
    rcases hp with rfl | rfl | rfl
    exacts [hmem.1, hmem.1, hmem.2]

lemma exists_waitAfterSecond : ∃ xs,
    lostThrice.conflictingExtensions (fun _ => false) (fun _ => false) = some xs ∧ waitAfterSecond ∈ xs := by
  obtain ⟨xs, hxs, hx⟩ := (any_eq_true _ _).mp
    (by decide +kernel : (lostThrice.conflictingExtensions (fun _ => false) (fun _ => false)).any
      (fun xs => waitAfterSecond ∈ xs) = true)
  exact ⟨xs, hxs, of_decide_eq_true hx⟩

theorem Reachable.replay_iff_lostTwice : lostTwice.Replays waitAfterSecond ↔ Replayable waitAfterSecond := by
  obtain ⟨xs, hxs, hx⟩ := exists_waitAfterSecond
  refine Reachable.replay_iff reachable_lostThrice hxs hx (reachable_after _) lostTwice_eq_causes fun y hy hk => ?_
  have hall : ∀ y ∈ lostTwice.events, y.kind ≠ .conditionVariableDestroy := by decide +kernel
  exact absurd hk (hall y ((lostTwice_eq_causes y).mpr hy))

/-- On its causes the wait lists both signals. -/
theorem conflictingExtensions_not_replayed : Reachable localWhileRunning lostThrice ∧
    Reachable anyOp lostTwice ∧ (∀ y, y ∈ lostTwice ↔ y < waitAfterSecond) ∧
      (∃ xs, lostThrice.conflictingExtensions (fun _ => false) (fun _ => false) = some xs ∧ waitAfterSecond ∈ xs) ∧
        ¬ lostTwice.Replays waitAfterSecond := by
  refine ⟨reachable_lostThrice, reachable_after _, lostTwice_eq_causes, exists_waitAfterSecond, ?_⟩
  rintro ⟨op, x', hop, hext, hcmp⟩
  have hnone : (((operation waitAfterSecond).bind lostTwice.extend).any waitAfterSecond.compareEvents) = false := by
    decide +kernel
  rw [hop, bind_some, hext, any_some] at hnone
  simp [hcmp] at hnone

end Configuration
end Por
