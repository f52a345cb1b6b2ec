import PorSe.Por.Replay

/-! Replaying the conflicting extensions of waits and notifications. The extension methods
list all notifications among the heads of the condition variable, `cex_wait1` and
`cex_notification` list a combination of concurrent ones. -/

namespace Por
open List Event
namespace Event
variable {D : Type}

lemma pairwise_sortPreds (ps : List (Event D)) :
    (sortPredecessors ps).Pairwise fun a b => toLex (a.tid, a.depth) ≤ toLex (b.tid, b.depth) :=
  pairwise_insertionSort _ ps

end Event

namespace Configuration
variable {D : Type} [DecidableEq D]

lemma WellFormed.sortPreds_congr {C : Configuration D} (hC : C.WellFormed) {ps qs : List (Event D)}
    (hps : ps.Nodup) (hqs : qs.Nodup) (hmem : ∀ p ∈ ps, p ∈ C) (h : ∀ p, p ∈ ps ↔ p ∈ qs) :
    sortPredecessors ps = sortPredecessors qs := by
  have hperm : (sortPredecessors ps).Perm (sortPredecessors qs) :=
    ((perm_insertionSort _ ps).trans ((perm_ext_iff_of_nodup hps hqs).mpr h)).trans
      (perm_insertionSort _ qs).symm
  refine hperm.eq_of_pairwise ?_ (pairwise_sortPreds ps) (pairwise_sortPreds qs)
  intro a b ha hb hab hba
  have haC := hmem a (mem_sortPreds.mp ha)
  have hbC := hmem b ((h b).mpr (mem_sortPreds.mp hb))
  have heq := toLex_inj.mp (le_antisymm hab hba)
  exact hC.eq_of_depth_eq haC hbC (congrArg Prod.fst heq) (congrArg Prod.snd heq)

/-! ## The heads in a configuration of the causes -/

section
variable {C K : Configuration D} {e et x : Event D} (hC : Reachable localWhileRunning C) (hx : C.Alternative e et x)
  (hK : Reachable anyOp K) (hKx : ∀ y, y ∈ K ↔ y < x)
  (hd : ∀ y < x, y.kind = .conditionVariableDestroy → y.cid ≠ x.cid)
include hK hKx hd

variable {y w : Event D}

lemma mem_lastOfCid_causes : y ∈ K.lastOfCid x.cid ↔
    y < x ∧ y.cid = x.cid ∧ y.kind ∈ condHeadKinds ∧ ∀ n < x, y ∉ n.waitPredecessors := by
  rw [hK.mem_lastOfCid_iff fun y hy => hd y ((hKx y).mp hy)]
  simp [hKx]

lemma mem_lastOfCid_wait1_iff : w ∈ K.lastOfCid x.cid ∧ w.kind = .wait1 ↔ Outstanding {y | y < x} x.cid w := by
  rw [mem_lastOfCid_causes hK hKx hd]
  constructor
  · rintro ⟨⟨hwx, hc, -, hnone⟩, hk⟩
    exact ⟨hwx, hk, hc, hnone⟩
  · rintro ⟨hwx, hk, hc, hnone⟩
    exact ⟨⟨hwx, hc, by simp [condHeadKinds, hk], hnone⟩, hk⟩

lemma mem_lastOfCid_of_ne_wait1 (hk : y.kind ≠ .wait1) :
    y ∈ K.lastOfCid x.cid ↔ y < x ∧ y.cid = x.cid ∧ y.kind ∈ condHeadKinds := by
  rw [mem_lastOfCid_causes hK hKx hd]
  refine ⟨fun h => ⟨h.1, h.2.1, h.2.2.1⟩, fun h => ⟨h.1, h.2.1, h.2.2, fun n hn hy => hk ?_⟩⟩
  exact (waitPreds_of_checks (hK.wellFormed.checks ((hKx n).mpr hn)) hy).1

include hC hx in
lemma notifiedHead_of_outstanding (hw : Outstanding {y | y < x} x.cid w) (ht : w.tid ≠ x.tid) :
    K.notifiedHead x.tid w.tid (K.lastOfCid x.cid) = some w := by
  have hW := hC.wellFormed
  have hnext : ∀ {v y}, Outstanding {y | y < x} x.cid v → y < x → v.tid = y.tid → ¬ v < y := by
    rintro v y ⟨hvx, hk, -, hnone⟩ hyx ht hvy
    obtain ⟨n, hny, hvn⟩ := hC.waiting.notified_of_lt hW hC.localRuns (hx.mem_of_lt hW hvx).1 hk
      (hx.mem_of_lt hW hyx).1 ht hvy
    exact hnone n (hny.trans hyx) hvn
  have hKW := hK.wellFormed
  have hwK := (hKx w).mpr hw.1
  refine notifiedHead_eq_some.mpr ⟨?_, ht, hw.2.1, ?_⟩
  · obtain ⟨h, hh, hwh⟩ := hKW.le_lastOfTid hwK (by simp [hw.2.1])
    rcases hwh.eq_or_lt' with rfl | hlt
    · exact hh
    · exact absurd hlt (hnext hw ((hKx h).mp (mem_of_lastOfTid hh)) (hKW.tid_of_lastOfTid hh).symm)
  · obtain ⟨v, hv⟩ := Option.isSome_iff_exists.mp (find?_isSome.mpr
      ⟨w, ((mem_lastOfCid_wait1_iff hK hKx hd).mpr hw).1, by simp [hw.2.1]⟩ :
        (notifiedWait1Predecessor w.tid (K.lastOfCid x.cid)).isSome = true)
    have hvp := find?_some hv
    simp only [Bool.and_eq_true, decide_eq_true_eq] at hvp
    have hvo := (mem_lastOfCid_wait1_iff hK hKx hd).mp ⟨mem_of_find?_eq_some hv, hvp.2⟩
    rw [notifiedWait1Predecessor, hv]
    rcases hKW.le_total ((hKx v).mpr hvo.1) hwK hvp.1 with h | h
    · rw [h.eq_of_not_lt (hnext hvo hw.1 hvp.1)]
    · rw [h.eq_of_not_lt (hnext hw hvo.1 hvp.1.symm)]

/-! ## What the extension methods list -/

variable (et) in
lemma lostPredsCond_isSome_iff :
    (lostNotificationPredecessorsCond et (K.lastOfCid x.cid)).isSome = true ↔
      ∀ w, ¬ Outstanding {y | y < x} x.cid w := by
  simp only [← mem_lastOfCid_wait1_iff hK hKx hd, lostNotificationPredecessorsCond]
  split_ifs with hany
  · obtain ⟨w, hw, hk⟩ := any_eq_true.mp hany
    simpa using ⟨w, hw, of_decide_eq_true hk⟩
  · simpa using hany

section
include hC hx

omit hd in
lemma outsideThread_iff (hy : y < x) : (!(y.tid = et.tid) && !y.isLessThanEq et) = true ↔ ¬ y ≤ et := by
  rw [Bool.and_eq_true, Bool.not_eq_true', Bool.not_eq_true', decide_eq_false_iff_not, ← Bool.not_eq_true,
    hK.wellFormed.isLessThanEq_iff ((hKx y).mpr hy) ((hKx et).mpr hx.et_lt), hx.tid_et hC.wellFormed]
  exact ⟨And.right, fun h => ⟨fun hty => h (hx.le_et hC.wellFormed hy hty), h⟩⟩

lemma mem_heads_iff {test : Bool} {precedes : Prop}
    (htest : y.kind ≠ .wait1 → y.kind ∈ condHeadKinds → (test = true ↔ precedes))
    (hkind : precedes → y.kind ≠ .wait1 ∧ y.kind ∈ condHeadKinds)
    (hwait : y.kind = .wait1 → y ∈ K.lastOfCid x.cid → test = false) :
    y ∈ K.lastOfCid x.cid ∧ test = true ∧ (!(y.tid = et.tid) && !y.isLessThanEq et) = true ↔
      y < x ∧ y.cid = x.cid ∧ precedes ∧ ¬ y ≤ et := by
  by_cases hk : y.kind = .wait1
  · refine iff_of_false (fun ⟨hy, htrue, _⟩ => ?_) fun ⟨_, _, hp, _⟩ => (hkind hp).1 hk
    exact Bool.false_ne_true ((hwait hk hy).symm.trans htrue)
  rw [mem_lastOfCid_of_ne_wait1 hK hKx hd hk]
  constructor
  · rintro ⟨⟨hyx, hc, hkinds⟩, htrue, hout⟩
    exact ⟨hyx, hc, (htest hk hkinds).mp htrue, (outsideThread_iff hC hx hK hKx hyx).mp hout⟩
  · rintro ⟨hyx, hc, hp, hle⟩
    have hkinds := (hkind hp).2
    exact ⟨⟨hyx, hc, hkinds⟩, (htest hk hkinds).mpr hp, (outsideThread_iff hC hx hK hKx hyx).mpr hle⟩

lemma mem_wait1PredsCond_iff : y ∈ wait1PredecessorsCond et (K.lastOfCid x.cid) ↔
    y < x ∧ y.cid = x.cid ∧ precedesWait1 x y ∧ ¬ y ≤ et := by
  rw [wait1PredecessorsCond, mem_filter, Bool.and_assoc, Bool.and_eq_true]
  refine mem_heads_iff hC hx hK hKx hd (fun hk hkinds => ?_) (fun hp => ?_) fun hk _ => by simp [hk]
  · simp only [condHeadKinds, mem_cons, not_mem_nil, or_false] at hkinds
    rcases hkinds with h | h | h | h <;> simp [h, hx.tid_et hC.wellFormed, precedesWait1] at hk ⊢
  · rcases hp with h | ⟨h, -⟩ | ⟨h, -⟩ <;> simp [condHeadKinds, h]

lemma mem_lostPredsCond_iff {qs : List (Event D)}
    (hqs : lostNotificationPredecessorsCond et (K.lastOfCid x.cid) = some qs) :
    y ∈ qs ↔ y < x ∧ y.cid = x.cid ∧ precedesLost x y ∧ ¬ y ≤ et := by
  unfold lostNotificationPredecessorsCond at hqs
  split_ifs at hqs with hany
  cases hqs
  rw [mem_filter, Bool.and_assoc, Bool.and_eq_true]
  refine mem_heads_iff hC hx hK hKx hd (fun hk hkinds => ?_) (fun hp => ?_) fun hk hy => ?_
  · simp only [condHeadKinds, mem_cons, not_mem_nil, or_false] at hkinds
    rcases hkinds with h | h | h | h <;> simp [h, hx.tid_et hC.wellFormed, precedesLost] at hk ⊢
  · rcases hp with h | ⟨h, -⟩ | ⟨h, -⟩ <;> simp [condHeadKinds, h]
  · exact absurd (any_eq_true.mpr ⟨y, hy, decide_eq_true hk⟩) hany

lemma mem_broadcastPredsCond_iff :
    y ∈ broadcastPredecessorsCond x.tid et (x.broadcastWaitPredecessors.map tid) (K.lastOfCid x.cid) ↔
      y < x ∧ y.cid = x.cid ∧ precedesBroadcast x y ∧ ¬ y ≤ et := by
  rw [broadcastPredecessorsCond, mem_filter, Bool.and_assoc, Bool.and_eq_true, ← hx.tid_et hC.wellFormed]
  refine mem_heads_iff hC hx hK hKx hd (fun hk hkinds => ?_) (fun hp => ?_) fun hk _ => by simp [hk]
  · simp only [condHeadKinds, mem_cons, not_mem_nil, or_false] at hkinds
    rcases hkinds with h | h | h | h <;> simp [h, hx.tid_et hC.wellFormed, precedesBroadcast, and_assoc] at hk ⊢
  · simp [condHeadKinds, hp.1]

end

end

/-! ## wait1 -/

omit [DecidableEq D] in
lemma listed_iff {x et : Event D} {precedes : Event D → Prop} {F : List (Event D)}
    (het : x.threadPredecessor = some et)
    (hF : ∀ y, y ∈ F ↔ y < x ∧ y.cid = x.cid ∧ precedes y ∧ ¬ y ≤ et) :
    Listed x precedes ↔ ∀ y ∈ F, y ∈ x.conditionVariablePredecessors := by
  constructor
  · intro h y hy
    obtain ⟨hyx, hc, hp, hle⟩ := (hF y).mp hy
    exact h y hyx hc hp fun _ het' => Option.some.inj (het.symm.trans het') ▸ hle
  · exact fun h y hyx hc hp hle => h y ((hF y).mpr ⟨hyx, hc, hp, hle et het⟩)

section
variable {C K : Configuration D} {e et : Event D} (hC : Reachable localWhileRunning C) {t : ThreadId} {c : CondId}
  {l : LockId} {lp : Event D} {N : List (Event D)} (hK : Reachable anyOp K) (hke : e.kind ∉ [Kind.localEvent, .wait2])

variable {x w : Event D} (hx : C.Alternative e et x) (hKx : ∀ y, y ∈ K ↔ y < x)
  (hd : ∀ y < x, y.kind = .conditionVariableDestroy → y.cid ≠ x.cid)
include hC hK hke hx hKx

lemma Alternative.activeHead_causes : K.activeHead x.tid = some et := by
  obtain ⟨-, -, hk⟩ := of_threadPred hx.checks hx.threadPredecessor_eq
  refine hx.activeHead hC.wellFormed hKx hK.wellFormed hk fun hw => hke ?_
  rcases hC.waiting.resumed hx.mem hx.threadPredecessor hw with h | h <;> simp [h]

include hd

lemma replays_wait1_iff (hxdef : x = ⟨t, .wait1 c l, et :: lp :: sortPredecessors N⟩)
    (hlock : K.lastOfLid l = some lp) (hN : N.Nodup) (hout : ∀ y ∈ N, ¬ y ≤ et) : K.Replays x ↔ Replayable x := by
  subst hxdef
  set x : Event D := ⟨t, .wait1 c l, et :: lp :: sortPredecessors N⟩ with hxdef
  have hhead : K.activeHead t = some et := hx.activeHead_causes hC hK hke hKx
  have hmem : ∀ {y}, y ∈ x.conditionVariablePredecessors ↔ y ∈ N := mem_sortPreds
  have hF : ∀ y, y ∈ wait1PredecessorsCond et (K.lastOfCid c) ↔
      y < x ∧ y.cid = x.cid ∧ precedesWait1 x y ∧ ¬ y ≤ et := fun y =>
    mem_wait1PredsCond_iff hC hx hK hKx hd
  have hsub : ∀ y ∈ N, y ∈ wait1PredecessorsCond et (K.lastOfCid c) := by
    intro y hy
    have hyc := hmem.mpr hy
    have hchecks := hx.checks
    simp only [hxdef, checks, wait1Checks, Bool.and_eq_true, all_eq_true] at hchecks
    have hyp := hchecks.1.1.2 y hyc
    simp only [decide_eq_true_eq] at hyp
    refine (hF y).mpr ⟨lt_of_mem_preds (condPreds_subset hyc), hyp.1, ?_, hout y hy⟩
    have hkind := hyp.2
    cases hk : y.kind <;> simp [hk, precedesWait1] at hkind ⊢
    · exact hkind
    · exact hkind
  rw [show Replayable x ↔ Listed x (precedesWait1 x) from Iff.rfl, listed_iff hx.threadPredecessor_eq hF]
  constructor
  · rintro ⟨op, x', hop, hext, hcmp⟩
    obtain rfl : Op.wait1 t c l = op := Option.some.inj hop
    obtain ⟨h, -⟩ := extend_iff.mp hext
    cases h with
    | wait1 hp hl =>
      cases hhead.symm.trans hp
      have hpreds := (preds_of_compareEvents hcmp).2
      simp only [hxdef, predecessors, cons.injEq, true_and] at hpreds
      intro y hy
      exact hmem.mpr (mem_sortPreds.mp (hpreds.2 ▸ mem_sortPreds.mpr hy))
  · intro hlisted
    have hsort : sortPredecessors N = sortPredecessors (wait1PredecessorsCond et (K.lastOfCid c)) :=
      hK.wellFormed.sortPreds_congr hN (hK.waiting.nodup.filter _)
        (fun y hy => (hKx y).mpr ((hF y).mp (hsub y hy)).1) fun y => ⟨hsub y, fun hy => hmem.mp (hlisted y hy)⟩
    refine replays_of_extends rfl ?_ hx.checks
    rw [hxdef, hsort]
    exact .wait1 hhead hlock

/-! ## Lost notifications -/

omit hke in
lemma lost_predecessors (hlost : x.lostChecks = true)
    (hmem : ∀ y, y ∈ x.conditionVariablePredecessors ↔ y ∈ N) (hN : N.Nodup) (hout : ∀ y ∈ N, ¬ y ≤ et)
    {F : List (Event D)} (hF : lostNotificationPredecessorsCond et (K.lastOfCid x.cid) = some F) :
    (Listed x (precedesLost x) ↔ ∀ y ∈ F, y ∈ x.conditionVariablePredecessors) ∧
      (Listed x (precedesLost x) → sortPredecessors N = sortPredecessors F) := by
  have hFmem : ∀ y, y ∈ F ↔ y < x ∧ y.cid = x.cid ∧ precedesLost x y ∧ ¬ y ≤ et := fun y =>
    mem_lostPredsCond_iff hC hx hK hKx hd hF
  have hsub : ∀ y ∈ N, y ∈ F := by
    intro y hy
    have hyc := (hmem y).mpr hy
    simp only [lostChecks, all_eq_true, Bool.and_eq_true, decide_eq_true_eq] at hlost
    obtain ⟨hcid, hkind⟩ := hlost y hyc
    refine (hFmem y).mpr ⟨lt_of_mem_preds (condPreds_subset hyc), hcid, ?_, hout y hy⟩
    cases hk : y.kind <;> simp [hk, precedesLost] at hkind ⊢
    · exact hkind
    · exact hkind
  have hlisted := listed_iff hx.threadPredecessor_eq hFmem
  refine ⟨hlisted, fun h => ?_⟩
  have hFnodup : F.Nodup := by
    unfold lostNotificationPredecessorsCond at hF
    split_ifs at hF
    exact Option.some.inj hF ▸ hK.waiting.nodup.filter _
  exact hK.wellFormed.sortPreds_congr hN hFnodup
    (fun y hy => (hKx y).mpr ((hFmem y).mp (hsub y hy)).1) fun y => ⟨hsub y, fun hy => (hmem y).mp (hlisted.mp h y hy)⟩

lemma replays_lostSignal_iff (hxdef : x = ⟨t, .signal c, et :: sortPredecessors N⟩) (hlost : x.signalIsLost = true)
    (hN : N.Nodup) (hout : ∀ y ∈ N, ¬ y ≤ et) : K.Replays x ↔ Replayable x := by
  subst hxdef
  set x : Event D := ⟨t, .signal c, et :: sortPredecessors N⟩ with hxdef
  have hhead : K.activeHead t = some et := hx.activeHead_causes hC hK hke hKx
  have hmem : ∀ y, y ∈ x.conditionVariablePredecessors ↔ y ∈ N := fun y => mem_sortPreds
  have hchecks : x.lostChecks = true := by
    have := signalChecks_of_checks hx.checks rfl
    rwa [signalChecks, if_pos hlost] at this
  have hop : operation x = some (.signalThread t c .empty) := by
    rw [operation]
    simp only [notifiedThread_of_lost hlost]
    rfl
  have hR : Replayable x ↔ (∀ w, ¬ Outstanding {y | y < x} x.cid w) ∧ Listed x (precedesLost x) := by
    rw [Replayable, show x.kind = .signal from rfl]
    simp [hlost]
  rw [hR, ← lostPredsCond_isSome_iff et hK hKx hd]
  constructor
  · rintro ⟨op, x', hop', hext, hcmp⟩
    cases hop.symm.trans hop'
    obtain ⟨h, -⟩ := extend_iff.mp hext
    cases h with
    | lostSignal hp hqs _ =>
      cases hhead.symm.trans hp
      refine ⟨by simp [hxdef, hqs], ?_⟩
      refine (lost_predecessors hC hK hx hKx hd hchecks hmem hN hout hqs).1.mpr fun y hy => ?_
      have hpreds := (preds_of_compareEvents hcmp).2
      simp only [hxdef, predecessors, cons.injEq, true_and] at hpreds
      exact (hmem y).mpr (mem_sortPreds.mp (hpreds ▸ mem_sortPreds.mpr hy))
    | signal hp hn => exact absurd rfl hn
  · rintro ⟨hsome, hlisted⟩
    obtain ⟨F, hF⟩ := Option.isSome_iff_exists.mp hsome
    have hsort := (lost_predecessors hC hK hx hKx hd hchecks hmem hN hout hF).2 hlisted
    refine replays_of_extends hop ?_ hx.checks
    rw [hxdef] at hlost ⊢
    rw [hsort] at hlost ⊢
    exact .lostSignal hhead hF hlost

lemma replays_lostBroadcast_iff (hxdef : x = broadcastAfter t c et N) (hlost : x.broadcastIsLost = true)
    (hlen : (groupByKind (sortPredecessors N)).length = N.length)
    (hkinds : ∀ m ∈ N, m.kind ∈ [Kind.wait1, .signal, .broadcast, .conditionVariableCreate])
    (hN : N.Nodup) (hout : ∀ y ∈ N, ¬ y ≤ et) : K.Replays x ↔ Replayable x := by
  subst hxdef
  set x : Event D := broadcastAfter t c et N with hxdef
  have hhead : K.activeHead t = some et := hx.activeHead_causes hC hK hke hKx
  have hmem : ∀ y, y ∈ x.conditionVariablePredecessors ↔ y ∈ N := fun y =>
    mem_groupByKind.trans ⟨fun h => mem_sortPreds.mp h.1, fun h => ⟨mem_sortPreds.mpr h, hkinds y h⟩⟩
  have hchecks : x.lostChecks = true := by
    have := broadcastChecks_of_checks hx.checks rfl
    rw [broadcastChecks, if_pos hlost, Bool.and_eq_true, Bool.and_eq_true] at this
    exact this.2.1
  have hop : operation x = some (.broadcastThreads t c []) := by
    rw [operation]
    simp only [broadcastIsLost_iff.mp hlost]
    rfl
  have hR : Replayable x ↔ (∀ w, ¬ Outstanding {y | y < x} x.cid w) ∧ Listed x (precedesLost x) := by
    rw [Replayable, show x.kind = .broadcast from rfl]
    simp [hlost]
  rw [hR, ← lostPredsCond_isSome_iff et hK hKx hd]
  constructor
  · rintro ⟨op, x', hop', hext, hcmp⟩
    cases hop.symm.trans hop'
    obtain ⟨h, -⟩ := extend_iff.mp hext
    cases h with
    | lostBroadcast hp hqs =>
      cases hhead.symm.trans hp
      refine ⟨Option.isSome_iff_exists.mpr ⟨_, hqs⟩, ?_⟩
      refine (lost_predecessors hC hK hx hKx hd hchecks hmem hN hout hqs).1.mpr fun y hy => ?_
      have hpreds : x.preds = _ := (preds_of_compareEvents hcmp).2
      have hyK := mem_of_lostPredsCond hqs hy
      have hyF := mem_groupByKind.mpr ⟨mem_sortPreds.mpr hy, ?_⟩
      · simp only [hxdef, broadcastAfter, predecessors, cons.injEq, true_and] at hpreds
        rw [← hpreds] at hyF
        exact hyF
      · have := (hK.wellFormed.mem_of_lastOfCid hyK).2.2
        grind
    | broadcast hp hn => exact absurd rfl hn
  · rintro ⟨hsome, hlisted⟩
    obtain ⟨F, hF⟩ := Option.isSome_iff_exists.mp hsome
    have hsort := (lost_predecessors hC hK hx hKx hd hchecks hmem hN hout hF).2 hlisted
    have hlenF : N.length = F.length := by
      have := congrArg length hsort
      simpa [sortPredecessors] using this
    refine replays_of_extends hop ?_ hx.checks
    rw [hxdef, broadcastAfter, hsort]
    exact .lostBroadcast hhead hF (by rw [← hsort, hlen, hlenF])

/-! ## Notifications that wake threads -/

omit hC hke hx hd in
lemma not_notified_of_replays {n : Event D} (h : K.Replays x)
    (hw : w ∈ x.waitPredecessors) (hn : n < x) : w ∉ n.waitPredecessors := by
  obtain ⟨op, x', -, hext, hcmp⟩ := h
  obtain ⟨hext, -⟩ := extend_iff.mp hext
  obtain ⟨hwait, -⟩ := waitPreds_eq_of_compareEvents hcmp
  exact hK.waiting.not_notified (hext.waitPreds_mem (hwait ▸ hw)).1 ((hKx n).mpr hn)

lemma replays_signal_iff (hxdef : x = ⟨t, .signal c, [et, w]⟩) (hw : w.kind = .wait1) : K.Replays x ↔ Replayable x := by
  subst hxdef
  set x : Event D := ⟨t, .signal c, [et, w]⟩ with hxdef
  have hhead : K.activeHead t = some et := hx.activeHead_causes hC hK hke hKx
  have hnl : x.signalIsLost = false := by simp [hxdef, signalIsLost, hw]
  have hwx : w ∈ x.waitPredecessors := by simp [hxdef, waitPredecessors, signalWaitPredecessor, hw]
  have hR : Replayable x ↔ ∀ w ∈ x.waitPredecessors, ∀ n < x, w ∉ n.waitPredecessors := by
    rw [Replayable, show x.kind = .signal from rfl]
    simp [hnl]
  rw [hR]
  refine ⟨fun h w hw n hn => not_notified_of_replays hK hKx h hw hn, fun h => ?_⟩
  obtain ⟨-, hcid, ht, -⟩ := waitPreds_of_checks hx.checks hwx
  have hwK : w < x := lt_of_waitPreds hwx
  have hout : Outstanding {y | y < x} x.cid w := ⟨hwK, hw, hcid, h w hwx⟩
  have hop : operation x = some (.signalThread t c w.tid) := by
    rw [operation]
    simp only [hxdef, notifiedThread, hw]
    rfl
  have hwe : w.tid ≠ .empty :=
    tid_ne_empty (hK.wellFormed.checks ((hKx w).mpr hwK)) (by simp [hw]) (by simp [hw])
  exact replays_of_extends hop (.signal hhead hwe (notifiedHead_of_outstanding hC hx hK hKx hd hout ht)) hx.checks

omit hC hK hke hx hKx hd in
lemma Extends.eq_of_broadcastThreads {ns : List ThreadId} {ws : List (Event D)}
    (h : K.Extends (.broadcastThreads t c ns) x) (hhead : K.activeHead t = some et) (hns : ns ≠ [])
    (hws : (ns.mapM fun n => K.notifiedHead t n (K.lastOfCid c)) = some ws) :
    x = broadcastAfter t c et (ws ++ broadcastPredecessorsCond t et ns (K.lastOfCid c)) := by
  cases h with
  | lostBroadcast => exact absurd rfl hns
  | broadcast hp _ hws' =>
    cases hhead.symm.trans hp
    cases hws.symm.trans hws'
    rfl

lemma replays_broadcast_iff (hxdef : x = broadcastAfter t c et N) (hnl : x.broadcastIsLost = false)
    (hlen : (groupByKind (sortPredecessors N)).length = N.length)
    (hkinds : ∀ m ∈ N, m.kind = .wait1 ∨ m.kind = .signal) (hN : N.Nodup) (hout : ∀ y ∈ N, ¬ y ≤ et)
    (hwait : ∀ w ∈ N, w.kind = .wait1 → Outstanding {y | y < x} c w) : K.Replays x ↔ Replayable x := by
  subst hxdef
  set x : Event D := broadcastAfter t c et N with hxdef
  have hhead : K.activeHead t = some et := hx.activeHead_causes hC hK hke hKx
  have hmem : ∀ y, y ∈ x.conditionVariablePredecessors ↔ y ∈ N := fun y =>
    mem_groupByKind.trans ⟨fun h => mem_sortPreds.mp h.1,
      fun h => ⟨mem_sortPreds.mpr h, by rcases hkinds y h with hk | hk <;> simp [hk]⟩⟩
  have hmemW : ∀ {w}, w ∈ x.broadcastWaitPredecessors ↔ w ∈ N ∧ w.kind = .wait1 := mem_waitPreds_broadcast
  have hop : operation x = some (.broadcastThreads t c (x.broadcastWaitPredecessors.map tid)) := by
    rfl
  have hne : x.broadcastWaitPredecessors.map tid ≠ [] := by
    rw [ne_eq, map_eq_nil_iff, ← broadcastIsLost_iff, hnl]
    simp
  have hws : ((x.broadcastWaitPredecessors.map tid).mapM fun n => K.notifiedHead t n (K.lastOfCid c)) =
      some x.broadcastWaitPredecessors := by
    rw [ListSearch.mapM_eq_some_iff, map_map]
    refine map_congr_left fun w hw => ?_
    obtain ⟨hwN, hk⟩ := hmemW.mp hw
    refine notifiedHead_of_outstanding hC hx hK hKx hd (hwait w hwN hk) ?_
    exact (waitPreds_of_checks hx.checks (mem_waitPreds.mpr (.inr ⟨rfl, hw⟩))).2.2.1
  set F := broadcastPredecessorsCond t et (x.broadcastWaitPredecessors.map tid) (K.lastOfCid c) with hFdef
  have hF : ∀ y, y ∈ F ↔ y < x ∧ y.cid = x.cid ∧ precedesBroadcast x y ∧ ¬ y ≤ et := fun y =>
    mem_broadcastPredsCond_iff hC hx hK hKx hd
  have hR : Replayable x ↔ Listed x (precedesBroadcast x) := by
    rw [Replayable, show x.kind = .broadcast from rfl]
    simp [hnl]
  rw [hR, listed_iff hx.threadPredecessor_eq hF]
  constructor
  · rintro ⟨op, x', hop', hext, hcmp⟩
    cases hop.symm.trans hop'
    obtain ⟨h, -⟩ := extend_iff.mp hext
    obtain rfl := h.eq_of_broadcastThreads hhead hne hws
    have hpreds := (preds_of_compareEvents hcmp).2
    simp only [hxdef, broadcastAfter, predecessors, cons.injEq, true_and] at hpreds
    intro y hy
    show y ∈ groupByKind (sortPredecessors N)
    rw [hpreds]
    refine mem_groupByKind.mpr ⟨mem_sortPreds.mpr (mem_append_right _ hy), ?_⟩
    simp [((hF y).mp hy).2.2.1.1]
  · intro hlisted
    have hsub : ∀ y ∈ N, y.kind = .signal → y ∈ F := by
      intro y hy hk
      have hyc := (hmem y).mpr hy
      have hchecks := broadcastChecks_of_checks hx.checks rfl
      rw [broadcastChecks, if_neg (by simp [hnl]), Bool.and_eq_true] at hchecks
      rw [← take_append_drop x.numNotified x.conditionVariablePredecessors, mem_append] at hyc
      rcases hyc with hyw | hys
      · exact absurd (hmemW.mp hyw).2 (by simp [hk])
      · have := all_eq_true.mp hchecks.2 y hys
        simp only [Bool.and_eq_true, decide_eq_true_eq, Bool.not_eq_true', all_eq_true] at this
        obtain ⟨⟨⟨⟨-, hcid⟩, hnlost⟩, hnt⟩, hother⟩ := this
        refine (hF y).mpr ⟨lt_of_mem_preds (condPreds_subset ((hmem y).mpr hy)), hcid,
          ⟨hk, hnlost, hnt, fun h => ?_⟩, hout y hy⟩
        obtain ⟨w, hw, hwt⟩ := mem_map.mp h
        exact hother w hw hwt.symm
    have hsort : sortPredecessors N = sortPredecessors (x.broadcastWaitPredecessors ++ F) := by
      refine hK.wellFormed.sortPreds_congr hN ?_ (fun y hy => ?_) fun y => ?_
      · refine List.Nodup.append ?_ (hK.waiting.nodup.filter _) ?_
        · rw [hxdef, broadcastAfter, waitPreds_groupByKind]
          exact ((perm_insertionSort _ N).nodup_iff.mpr hN).filter _
        · intro y hyw hyF
          have hk := (hmemW.mp hyw).2
          simp [((hF y).mp hyF).2.2.1.1] at hk
      · exact (hKx y).mpr (lt_of_mem_preds (condPreds_subset ((hmem y).mpr hy)))
      · rw [mem_append, hmemW]
        constructor
        · intro hy
          rcases hkinds y hy with hk | hk
          · exact .inl ⟨hy, hk⟩
          · exact .inr (hsub y hy hk)
        · rintro (⟨hy, -⟩ | hy)
          · exact hy
          · exact (hmem y).mp (hlisted y hy)
    have hlenF : N.length = (x.broadcastWaitPredecessors ++ F).length := by
      have := congrArg length hsort
      simpa only [sortPredecessors, length_insertionSort] using this
    refine replays_of_extends hop ?_ hx.checks
    have hext := Extends.broadcast hhead hne hws (by rw [← hsort, hlen, hlenF])
    rw [← hsort] at hext
    exact hext

end

end Configuration
end Por
