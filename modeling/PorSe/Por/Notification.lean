import PorSe.Por.LockOrder

/-! Waiting and notified threads. The heads of a condition variable hold the wait1
events that nothing has notified yet, and a wait1 is notified at most once. -/

namespace Por
open List Event
namespace Event
variable {D : Type}

lemma filter_wait1_groupByKind (qs : List (Event D)) :
    (groupByKind qs).filter (fun p => p.kind = .wait1) = qs.filter fun p => p.kind = .wait1 := by
  unfold groupByKind
  rw [filter_append, filter_append, filter_filter, filter_filter, filter_filter]
  have h2 : qs.filter (fun p => decide (p.kind = .wait1) && (decide (p.kind = .signal) || decide (p.kind = .broadcast)))
      = [] := by
    refine filter_eq_nil_iff.mpr fun p _ => ?_
    cases p.kind <;> simp
  have h3 : qs.filter (fun p => decide (p.kind = .wait1) && decide (p.kind = .conditionVariableCreate)) = [] := by
    refine filter_eq_nil_iff.mpr fun p _ => ?_
    cases p.kind <;> simp
  rw [h2, h3]
  simp

lemma waitPreds_groupByKind (t : ThreadId) (c : CondId) (p : Event D) (qs : List (Event D)) :
    (⟨t, .broadcast c, p :: groupByKind qs⟩ : Event D).broadcastWaitPredecessors =
      qs.filter fun q => q.kind = .wait1 := by
  simp only [broadcastWaitPredecessors, numNotified, drop_succ_cons, drop_zero, filter_wait1_groupByKind]
  unfold groupByKind
  rw [append_assoc, take_left]

lemma mem_waitPreds_broadcast {t : ThreadId} {c : CondId} {w p : Event D} {qs : List (Event D)} :
    w ∈ (⟨t, .broadcast c, p :: groupByKind (sortPredecessors qs)⟩ : Event D).waitPredecessors ↔
      w ∈ qs ∧ w.kind = .wait1 := by
  rw [waitPredecessors, waitPreds_groupByKind, mem_filter, mem_sortPreds, decide_eq_true_eq]

end Event

namespace Configuration
variable {D : Type} [DecidableEq D]

variable {C : Configuration D} {qs : List (Event D)} {w e x : Event D} {op : Op D} {c : CondId}
  {P : Configuration D → Op D → Prop}

lemma mem_of_notifiedHead {t n : ThreadId} (h : C.notifiedHead t n qs = some w) :
    w ∈ qs ∧ C.lastOfTid n = some w ∧ w.kind = .wait1 ∧ w.tid = n := by
  obtain ⟨hw, -, hk, hfind⟩ := notifiedHead_eq_some.mp h
  have hp := find?_some hfind
  simp only [Bool.and_eq_true, decide_eq_true_eq] at hp
  exact ⟨mem_of_find?_eq_some hfind, hw, hk, hp.1⟩

lemma kind_of_lostPredsCond {p : Event D} {hs : List (Event D)}
    (h : lostNotificationPredecessorsCond p hs = some qs) (hw : w ∈ hs) : w.kind ≠ .wait1 := by
  intro hk
  unfold lostNotificationPredecessorsCond at h
  split_ifs at h with hany
  exact hany (any_eq_true.mpr ⟨w, hw, decide_eq_true hk⟩)

lemma Extends.waitPreds_mem (h : C.Extends op e) (hw : w ∈ e.waitPredecessors) :
    w ∈ C.lastOfCid e.cid ∧ C.lastOfTid w.tid = some w ∧ w.kind = .wait1 := by
  cases h with
  | lostSignal hp hqs hlost =>
    obtain ⟨hk, p', hps⟩ := signalWait_iff.mp (Option.mem_toList.mp hw)
    rw [signalIsLost, hps] at hlost
    simp [hk] at hlost
  | signal hp hn hw' =>
    obtain ⟨hk, p', hps⟩ := signalWait_iff.mp (Option.mem_toList.mp hw)
    obtain ⟨hmem, hlast, hk', ht⟩ := mem_of_notifiedHead hw'
    obtain ⟨-, rfl⟩ := hps
    exact ⟨hmem, ht ▸ hlast, hk'⟩
  | lostBroadcast hp hqs =>
    obtain ⟨hw, hk⟩ := mem_waitPreds_broadcast.mp hw
    exact absurd hk (kind_of_lostPredsCond hqs (mem_of_lostPredsCond hqs hw))
  | broadcast hp _ hws =>
    obtain ⟨hw, hk⟩ := mem_waitPreds_broadcast.mp hw
    rcases mem_append.mp hw with hw | hw
    · obtain ⟨n, -, hn⟩ := (ListSearch.mem_of_mapM hws).mp hw
      obtain ⟨hmem, hlast, -, ht⟩ := mem_of_notifiedHead hn
      exact ⟨hmem, ht ▸ hlast, hk⟩
    · simp [broadcastPredecessorsCond, hk] at hw
  | _ => simp [waitPredecessors] at hw

lemma isLost_of_lostBroadcast {t : ThreadId} {p : Event D} (hp : C.activeHead t = some p)
    (hqs : lostNotificationPredecessorsCond p (C.lastOfCid c) = some qs)
    (hlen : (groupByKind (sortPredecessors qs)).length = qs.length) :
    (⟨t, .broadcast c, p :: groupByKind (sortPredecessors qs)⟩ : Event D).isLost = true := by
  refine isLost_iff.mpr ⟨.inr rfl, eq_nil_iff_forall_not_mem.mpr fun w hw => ?_⟩
  obtain ⟨hmem, -, hk⟩ := (Extends.lostBroadcast hp hqs hlen).waitPreds_mem hw
  exact kind_of_lostPredsCond hqs hmem hk

/-! ## The heads of a condition variable after a step -/

def condHeadKinds : List Kind := [.conditionVariableCreate, .wait1, .signal, .broadcast]

lemma lastOfCid_of_ne (hc : e.cid ≠ c) : (C.commit e).lastOfCid c = C.lastOfCid c := by
  rw [lastOfCid, condHeads_commit, if_neg hc]
  rfl

lemma lastOfCid_of_kind (c : CondId) (hk : e.kind ∉ .conditionVariableDestroy :: condHeadKinds) :
    (C.commit e).lastOfCid c = C.lastOfCid c := by
  rw [lastOfCid, condHeads_commit]
  split_ifs with hc
  · unfold condHeadsAfter
    cases hke : e.kind <;> simp [hke, condHeadKinds] at hk <;> rfl
  · rfl

lemma Extends.kind_ne_wait1_of_destroy (h : C.Extends op e) (hc : e.checks = true)
    (hk : e.kind = .conditionVariableDestroy) (hw : w ∈ C.lastOfCid e.cid) : w.kind ≠ .wait1 := by
  cases h with
  | destroyUnusedCond hp hnone => simp [lastOfCid, hnone] at hw
  | destroyCond hp hqs _ =>
    simp only [cid_mk, Label.cid, lastOfCid, hqs] at hw
    simp only [checks, conditionVariableDestroyChecks, conditionVariablePredecessors,
      Bool.and_eq_true, all_eq_true, drop_succ_cons, drop_zero, mem_sortPreds] at hc
    have := hc.1.2 w (mem_append_left _ hw)
    intro hkw
    simp [hkw] at this
  | _ => simp at hk

lemma Extends.mem_lastOfCid_commit (h : C.Extends op e) (hnodup : (C.lastOfCid e.cid).Nodup)
    (hk : e.kind ∈ condHeadKinds) :
    x ∈ (C.commit e).lastOfCid e.cid ↔ x ∈ C.lastOfCid e.cid ∧ x ∉ e.waitPredecessors ∨ x = e := by
  have hcid : ((C.commit e).condHeads.find? e.cid).getD [] = (condHeadsAfter e (C.condHeads.find? e.cid)).getD [] := by
    rw [condHeads_commit, if_pos rfl]
  rw [lastOfCid, hcid]
  simp only [condHeadKinds, mem_cons, not_mem_nil, or_false] at hk
  rcases hk with hk | hk | hk | hk <;> simp only [condHeadsAfter, hk]
  · have hc : C.condHeads.find? e.cid = none := by
      cases h with
      | createCond hp hc => exact hc
      | _ => simp at hk
    simp [hc, lastOfCid]
  · have hw : ∀ w, w ∉ e.waitPredecessors := fun w hw => by simp [mem_waitPreds, hk] at hw
    simp [hw, lastOfCid]
  · simp only [mem_waitPreds, hk, Option.getD_some, signalHeads]
    cases hs : e.signalWaitPredecessor with
    | none => simp [lastOfCid]
    | some w =>
      have hw : w ∈ C.lastOfCid e.cid := (h.waitPreds_mem (mem_waitPreds.mpr (.inl ⟨hk, hs⟩))).1
      rw [show (C.condHeads.find? e.cid).getD [] = C.lastOfCid e.cid from rfl, ListSearch.mem_replace_iff hnodup hw]
      simp [eq_comm, or_comm]
  · simp only [mem_waitPreds, hk, reduceCtorEq, false_and, true_and, false_or, Option.getD_some,
      mem_broadcastHeads]
    rfl

/-! ## Waiting threads -/

lemma Extends.of_waiting (h : C.Extends op e) (hw : C.lastOfTid e.tid = some w) (hk : w.kind = .wait1) :
    e.kind = .localEvent ∨ e.kind = .wait2 ∧ ∃ n ∈ C.lastOfCid e.cid, w ∈ n.waitPredecessors := by
  have hactive : ∀ {p}, C.activeHead e.tid = some p → False := by
    intro p hp
    obtain ⟨hp, -, hne⟩ := activeHead_eq_some.mp hp
    exact hne (Option.some.inj (hp.symm.trans hw) ▸ hk)
  cases h with
  | initThread hp hk' hne ht => simp [ht] at hw
  | wait2 hw' hk' hx hn =>
    cases hw'.symm.trans hw
    obtain ⟨hmem, hnw⟩ := mem_of_wait2PredCond hn
    exact .inr ⟨rfl, _, hmem, hnw⟩
  | localEvent => exact .inl rfl
  | createThread hp | joinThread hp | exitThread hp | createLock hp | destroyLock hp | acquireLock hp
    | releaseLock hp | createCond hp | destroyUnusedCond hp | destroyCond hp | wait1 hp | lostSignal hp | signal hp
    | lostBroadcast hp | broadcast hp => exact (hactive hp).elim

structure Waiting (C : Configuration D) : Prop where
  nodup : ∀ {c}, (C.lastOfCid c).Nodup
  not_notified : ∀ {c w n}, w ∈ C.lastOfCid c → n ∈ C → w ∉ n.waitPredecessors
  unique : ∀ {n n' w}, n ∈ C → n' ∈ C → w ∈ n.waitPredecessors → w ∈ n'.waitPredecessors → n = n'
  outstanding : ∀ {w}, w ∈ C → w.kind = .wait1 → (∀ n ∈ C, w ∉ n.waitPredecessors) → w ∈ C.lastOfCid w.cid
  resumed : ∀ {e w}, e ∈ C → e.threadPredecessor = some w → w.kind = .wait1 → e.kind = .localEvent ∨ e.kind = .wait2

lemma waiting_initial : (initial : Configuration D).Waiting where
  nodup := by simp [lastOfCid, initial]
  not_notified h := by simp [lastOfCid, initial] at h
  unique {n n' w} hn _ hw _ := by
    rcases kind_of_initial hn with hk | hk <;> simp [mem_waitPreds, hk] at hw
  outstanding {w} hw hk _ := by
    rcases kind_of_initial hw with hk' | hk' <;> simp [hk'] at hk
  resumed {e w} he hw hk := by
    rcases mem_initial he with rfl | rfl <;> simp [Event.threadPredecessor, Event.programInit] at hw

lemma Waiting.nodup_commit (hC : C.Waiting) (hW : C.WellFormed) (h : C.Extends op e) (c : CondId) :
    ((C.commit e).lastOfCid c).Nodup := by
  have hnew : e ∉ C.lastOfCid c := fun he => h.not_mem hW (hW.mem_of_lastOfCid he).1
  have hold : (C.lastOfCid c).Nodup := hC.nodup
  rw [lastOfCid, condHeads_commit]
  unfold lastOfCid at hnew hold
  split_ifs with hc
  · unfold condHeadsAfter
    cases e.kind with
    | conditionVariableCreate =>
      dsimp only
      split_ifs
      · exact nodup_singleton _
      · exact hold
    | wait1 => exact List.Nodup.append hold (nodup_singleton _) (by simpa using hnew)
    | signal =>
      simp only [signalHeads]
      split
      · exact ListSearch.nodup_replace hold hnew
      · exact List.Nodup.append hold (nodup_singleton _) (by simpa using hnew)
    | broadcast =>
      simp only [broadcastHeads]
      split_ifs
      · exact List.Nodup.append hold (nodup_singleton _) (by simpa using hnew)
      · refine List.Nodup.append (hold.filter _) (nodup_singleton _) ?_
        simpa using fun h => absurd h hnew
    | conditionVariableDestroy =>
      dsimp only
      split_ifs
      · exact hold
      · exact nodup_nil
    | _ => exact hold
  · exact hold

lemma Waiting.commit (hC : C.Waiting) (hW : C.WellFormed) (h : C.Extends op e) (hk : e.checks = true) :
    (C.commit e).Waiting := by
  have hmem {x} := h.mem_commit (x := x)
  have hnew : ∀ {w n}, n ∈ C → w ∈ n.waitPredecessors → w ∉ e.waitPredecessors := fun hn hw hwe =>
    hC.not_notified (h.waitPreds_mem hwe).1 hn hw
  constructor
  case nodup => exact fun {c} => hC.nodup_commit hW h c
  case not_notified =>
    intro c w n hw hn
    rcases mem_lastOfCid_commit hw with hw' | ⟨rfl, -⟩
    · rcases hmem.mp hn with rfl | hn
      · intro hwn
        have hc : n.cid = c :=
          (hW.mem_of_lastOfCid (h.waitPreds_mem hwn).1).2.1.symm.trans (hW.mem_of_lastOfCid hw').2.1
        subst hc
        have hk : n.kind ∈ condHeadKinds := by
          rcases mem_waitPreds.mp hwn with ⟨hk, -⟩ | ⟨hk, -⟩ <;> simp [condHeadKinds, hk]
        rcases (h.mem_lastOfCid_commit hC.nodup hk).mp hw with ⟨-, hw⟩ | rfl
        · exact hw hwn
        · exact lt_irrefl _ (lt_of_waitPreds hwn)
      · exact hC.not_notified hw' hn
    · intro hwn
      have hlt := lt_of_waitPreds hwn
      rcases hmem.mp hn with rfl | hn
      · exact lt_irrefl _ hlt
      · exact h.not_le hW hn hlt.le
  case unique =>
    intro n n' w hn hn' hw hw'
    rcases hmem.mp hn with rfl | hnC
    · rcases hmem.mp hn' with rfl | hnC'
      · rfl
      · exact absurd hw (hnew hnC' hw')
    · rcases hmem.mp hn' with rfl | hnC'
      · exact absurd hw' (hnew hnC hw)
      · exact hC.unique hnC hnC' hw hw'
  case outstanding =>
    intro w hw hkw hnone
    by_cases hhead : e.kind ∈ condHeadKinds ∧ e.cid = w.cid
    · rw [← hhead.2, h.mem_lastOfCid_commit hC.nodup hhead.1]
      rcases hmem.mp hw with rfl | hw
      · exact .inr rfl
      · refine .inl ⟨?_, hnone e (hmem.mpr (.inl rfl))⟩
        exact hhead.2 ▸ hC.outstanding hw hkw fun n hn => hnone n (hmem.mpr (.inr hn))
    · rcases hmem.mp hw with rfl | hwC
      · exact absurd ⟨by simp [condHeadKinds, hkw], rfl⟩ hhead
      · have hold := hC.outstanding hwC hkw fun n hn => hnone n (hmem.mpr (.inr hn))
        by_cases hc : e.cid = w.cid
        · have hd : e.kind ≠ .conditionVariableDestroy := fun hd => h.kind_ne_wait1_of_destroy hk hd (hc ▸ hold) hkw
          rwa [lastOfCid_of_kind _ (by simpa [hd] using fun hk => hhead ⟨hk, hc⟩)]
        · rwa [lastOfCid_of_ne hc]
  case resumed =>
    intro x w hx hw hkw
    rcases hmem.mp hx with rfl | hx
    · exact (h.of_waiting (h.threadPredecessor_eq ▸ hw) hkw).imp_right And.left
    · exact hC.resumed hx hw hkw

lemma Reachable.waiting (hC : Reachable P C) : C.Waiting := by
  induction hC with
  | initial => exact waiting_initial
  | commit hC _ he ih =>
    obtain ⟨h, hk⟩ := extend_iff.mp he
    exact ih.commit hC.wellFormed h hk

/-- Without a destruction, the heads are the creation, all notifications and the waits that nothing has notified. -/
lemma Reachable.mem_lastOfCid_iff (hC : Reachable P C)
    (hd : ∀ x ∈ C, x.kind = .conditionVariableDestroy → x.cid ≠ c) :
    x ∈ C.lastOfCid c ↔ x ∈ C ∧ x.cid = c ∧ x.kind ∈ condHeadKinds ∧ ∀ n ∈ C, x ∉ n.waitPredecessors := by
  constructor
  · intro hx
    obtain ⟨hxC, hc, hk⟩ := hC.wellFormed.mem_of_lastOfCid hx
    exact ⟨hxC, hc, hk, fun n hn => hC.waiting.not_notified hx hn⟩
  · rintro ⟨hx, hc, hk, hnone⟩
    induction hC with
    | initial =>
      rcases kind_of_initial hx with hk' | hk' <;> simp [condHeadKinds, hk'] at hk
    | @commit C op e hC _ he ih =>
      obtain ⟨h, -⟩ := extend_iff.mp he
      have hmem {x} := h.mem_commit (x := x)
      have hold : x ∈ C → x ∈ C.lastOfCid c := fun hxC =>
        ih (fun y hy => hd y (hmem.mpr (.inr hy))) hxC fun n hn => hnone n (hmem.mpr (.inr hn))
      by_cases hhead : e.kind ∈ condHeadKinds ∧ e.cid = c
      · obtain ⟨hke, rfl⟩ := hhead
        rw [h.mem_lastOfCid_commit hC.waiting.nodup hke]
        rcases hmem.mp hx with hxe | hxC
        · exact .inr hxe
        · exact .inl ⟨hold hxC, hnone e (hmem.mpr (.inl rfl))⟩
      · have hxC : x ∈ C := (hmem.mp hx).resolve_left fun hxe => hhead ⟨hxe ▸ hk, hxe ▸ hc⟩
        by_cases hce : e.cid = c
        · have hde : e.kind ≠ .conditionVariableDestroy := fun hde => hd e (hmem.mpr (.inl rfl)) hde hce
          rw [lastOfCid_of_kind _ (by simpa [hde] using fun hke => hhead ⟨hke, hce⟩)]
          exact hold hxC
        · rw [lastOfCid_of_ne hce]
          exact hold hxC

lemma Waiting.wait2PredCond_eq_some (hN : C.Waiting) (hW : C.WellFormed) {n : Event D}
    (hn : n ∈ C.lastOfCid c) (hw : w ∈ n.waitPredecessors) : wait2PredecessorCond w (C.lastOfCid c) = some n := by
  obtain ⟨n', hn'⟩ := Option.isSome_iff_exists.mp (find?_isSome.mpr ⟨n, hn, notifiesWait1_iff.mpr hw⟩ :
    (wait2PredecessorCond w (C.lastOfCid c)).isSome = true)
  obtain ⟨hn'c, hn'w⟩ := mem_of_wait2PredCond hn'
  obtain rfl := hN.unique (hW.mem_of_lastOfCid hn'c).1 (hW.mem_of_lastOfCid hn).1 hn'w hw
  exact hn'

/-! ## Used condition variables -/

lemma usedCondIds_commit (C : Configuration D) (e : Event D) : (C.commit e).usedCondIds =
    if e.kind = .conditionVariableCreate ∨ e.kind ∈ [Kind.wait1, .signal, .broadcast, .conditionVariableDestroy] ∧
        e.conditionVariablePredecessors = [] then
      insert e.cid C.usedCondIds
    else C.usedCondIds := by
  unfold commit
  cases e.kind <;> dsimp only [commitLock, useLockId, useCondId, useCondIdIfFirst, setCondHeads] <;>
    cases e.conditionVariablePredecessors <;> simp <;> split_ifs <;> rfl

structure CondUsed (C : Configuration D) : Prop where
  used : ∀ {e}, e ∈ C → e.cid ≠ 0 → e.cid ∈ C.usedCondIds
  create_first : ∀ {d x}, d ∈ C → x ∈ C → d.kind = .conditionVariableCreate → x.cid = d.cid → ¬ x < d

lemma condUsed_initial : (initial : Configuration D).CondUsed where
  used {e} he hc := by
    rcases kind_of_initial he with hk | hk <;> exact absurd (cid_eq_zero (by simp [hk, condKinds])) hc
  create_first {d x} hd _ hk := by
    rcases kind_of_initial hd with hk' | hk' <;> simp [hk'] at hk

lemma Extends.exists_cid_eq (hW : C.WellFormed) (h : C.Extends op e)
    (hc : e.checks = true) (hk : e.kind ∈ condKinds)
    (hfirst : ¬ (e.kind = .conditionVariableCreate ∨
      e.kind ∈ [Kind.wait1, .signal, .broadcast, .conditionVariableDestroy] ∧ e.conditionVariablePredecessors = [])) :
    ∃ p ∈ C, p.cid = e.cid := by
  by_cases h2 : e.kind = .wait2
  · cases h with
    | wait2 hw hk' hx hn =>
      obtain ⟨hmem, -⟩ := mem_of_wait2PredCond hn
      exact ⟨_, (hW.mem_of_lastOfCid hmem).1, (hW.mem_of_lastOfCid hmem).2.1⟩
    | _ => simp at h2
  · have hne : e.conditionVariablePredecessors ≠ [] := by
      intro _
      refine hfirst ?_
      cases hke : e.kind <;> simp_all [condKinds]
    obtain ⟨p, hp⟩ := exists_mem_of_ne_nil _ hne
    exact ⟨p, h.preds_mem hW p (condPreds_subset hp),
      cid_of_mem_condPreds hc h2 hp⟩

lemma CondUsed.commit (hC : C.CondUsed) (hW : C.WellFormed) (h : C.Extends op e) (hc : e.checks = true) :
    (C.commit e).CondUsed := by
  constructor
  case used =>
    intro x hx hcx
    rw [usedCondIds_commit]
    rcases h.mem_commit.mp hx with rfl | hx
    · split_ifs with hfirst
      · exact Finset.mem_insert_self _ _
      · have hk : x.kind ∈ condKinds := by
          by_contra hk
          exact hcx (cid_eq_zero hk)
        obtain ⟨p, hp, hpc⟩ := h.exists_cid_eq hW hc hk hfirst
        exact hpc ▸ hC.used hp (hpc ▸ hcx)
    · split_ifs
      · exact Finset.mem_insert_of_mem (hC.used hx hcx)
      · exact hC.used hx hcx
  case create_first =>
    intro d x hd hx hk hcx hlt
    rcases h.mem_commit.mp hd with rfl | hdC
    · rcases h.mem_commit.mp hx with rfl | hxC
      · exact lt_irrefl _ hlt
      · have hused : d.cid ∉ C.usedCondIds := by
          cases h with
          | createCond hp _ hused => exact hused
          | _ => simp at hk
        have hc0 : d.cid ≠ 0 := cid_ne_zero hc (by simp [hk, condKinds])
        exact hused (hcx ▸ hC.used hxC (hcx ▸ hc0))
    · rcases h.mem_commit.mp hx with rfl | hxC
      · exact h.not_le hW hdC hlt.le
      · exact hC.create_first hdC hxC hk hcx hlt

lemma Reachable.condUsed (hC : Reachable P C) : C.CondUsed := by
  induction hC with
  | initial => exact condUsed_initial
  | commit hC _ he ih =>
    obtain ⟨h, hk⟩ := extend_iff.mp he
    exact ih.commit hC.wellFormed h hk

lemma Reachable.create_unique (hC : Reachable P C) {d d' : Event D} (hd : d ∈ C) (hd' : d' ∈ C)
    (hk : d.kind = .conditionVariableCreate) (hk' : d'.kind = .conditionVariableCreate) (hc : d.cid = d'.cid) :
    d = d' := by
  induction hC with
  | initial => rcases kind_of_initial hd with h | h <;> simp [h] at hk
  | @commit C op e hC _ he ih =>
    obtain ⟨h, hchecks⟩ := extend_iff.mp he
    have hnew : ∀ {x}, x ∈ C → x.cid = e.cid → e.kind = .conditionVariableCreate → False := by
      intro x hx hxc hke
      have hused : e.cid ∉ C.usedCondIds := by
        cases h with
        | createCond hp _ hused => exact hused
        | _ => simp at hke
      have hc0 : e.cid ≠ 0 := cid_ne_zero hchecks (by simp [hke, condKinds])
      exact hused (hxc ▸ hC.condUsed.used hx (hxc ▸ hc0))
    rcases h.mem_commit.mp hd with rfl | hdC
    · rcases h.mem_commit.mp hd' with rfl | hdC'
      · rfl
      · exact (hnew hdC' hc.symm hk).elim
    · rcases h.mem_commit.mp hd' with rfl | hdC'
      · exact (hnew hdC hc hk').elim
      · exact ih hdC hdC'

/-! ## Notified threads go on -/

/-- `registerLocal` is only called for threads that are not waiting. -/
def localWhileRunning (C : Configuration D) : Op D → Prop
  | .localEvent t _ => ∀ p, C.lastOfTid t = some p → p.kind ≠ .wait1
  | _ => True

lemma reachable_after_of_noLocal {ops : List (Op D)}
    (h : ops.all (fun op => match op with | .localEvent _ _ => false | _ => true) = true) :
    Reachable localWhileRunning (after ops) := by
  refine reachable_after_of_forall (fun C op _ => ?_) h
  cases op <;> trivial

def LocalRuns (C : Configuration D) : Prop :=
  ∀ e ∈ C, e.kind = .localEvent → ∀ w, e.threadPredecessor = some w → w.kind ≠ .wait1

lemma Reachable.localRuns (hC : Reachable localWhileRunning C) : C.LocalRuns := by
  induction hC with
  | initial =>
    intro e he hk
    rcases kind_of_initial he with hk' | hk' <;> simp [hk'] at hk
  | commit hC hop he ih =>
    obtain ⟨h, -⟩ := extend_iff.mp he
    intro x hx hk w hw
    rcases (mem_commit h.threadPredecessor_eq).mp hx with rfl | hx
    · rw [h.threadPredecessor_eq] at hw
      cases h with
      | localEvent => exact hop w hw
      | _ => simp at hk
    · exact ih x hx hk w hw

lemma Waiting.notified_of_lt (hN : C.Waiting) (hW : C.WellFormed) (hL : C.LocalRuns) {y : Event D} (hw : w ∈ C)
    (hk : w.kind = .wait1) (hy : y ∈ C) (ht : w.tid = y.tid) (hwy : w < y) : ∃ n < y, w ∈ n.waitPredecessors := by
  obtain ⟨s, hsy, hs⟩ := hW.exists_threadSuccessor hw hy ht (by simp [hk]) hwy
  have hsC := hW.mem_of_le hsy hy
  have hs2 : s.kind = .wait2 :=
    (hN.resumed hsC hs hk).resolve_left fun hlocal => hL s hsC hlocal w hs hk
  obtain ⟨n, hn⟩ : ∃ n, s.notifyingPredecessor = some n := by
    have hlen := length_preds_of_wait2 (hW.checks hsC) hs2
    obtain ⟨t, l, ps⟩ := s
    cases l <;> simp at hs2
    exact ⟨_, getElem?_eq_getElem (show 1 < ps.length by simp [show ps.length = 3 from hlen])⟩
  obtain ⟨w', hw', -, hwn, -⟩ := notifying_of_checks (hW.checks hsC) hn
  obtain rfl : w = w' := Option.some.inj (hs.symm.trans hw')
  exact ⟨n, (lt_of_mem_preds (notifyingPred_mem hn)).trans_le hsy, hwn⟩

end Configuration
end Por
