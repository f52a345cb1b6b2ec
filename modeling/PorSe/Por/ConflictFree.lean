import PorSe.Por.Deduplicate
import PorSe.Por.Notification

/-! Whether the predecessors that the extension methods choose order all dependent events of a
run. They do as long as joins, creations and notifications of different threads are ordered by
other means and nothing is used after its destruction. -/

namespace Por
open List Event Option ListSearch
namespace Event
variable {D : Type}

def Notifies (n : Event D) (t : ThreadId) : Prop := ∃ w ∈ n.waitPredecessors, w.tid = t

variable {n a b : Event D} {t : ThreadId}

lemma notifies_of_notifiedThread (hk : n.kind = .signal) (hn : n.notifiedThread = t) (ht : t ≠ .empty) :
    n.Notifies t := by
  unfold notifiedThread at hn
  split at hn
  · rename_i p w hps
    split_ifs at hn with hw
    · exact ⟨w, Configuration.mem_waitPreds.mpr (.inl ⟨hk, signalWait_iff.mpr ⟨hw, p, hps⟩⟩), hn⟩
    · exact absurd hn.symm ht
  · exact absurd hn.symm ht

lemma notifies_of_isNotifyingThread (hk : n.kind = .broadcast) (hn : n.isNotifyingThread t = true) : n.Notifies t := by
  obtain ⟨w, hw, ht⟩ := any_eq_true.mp hn
  exact ⟨w, Configuration.mem_waitPreds.mpr (.inr ⟨hk, hw⟩), of_decide_eq_true ht⟩

lemma threadIsIndependent_eq_false : threadIsIndependent a b = false ↔
    a.kind = .threadCreate ∧ b.kind = .threadInit ∧ a.createdTid = b.tid ∨
      a.kind = .threadExit ∧ b.kind = .threadJoin ∧ a.tid = b.joinedThread ∨
        a.kind = .threadJoin ∧ b.kind = .threadJoin ∧ a.joinedThread = b.joinedThread ∨
          a.kind = .threadJoin ∧ b.kind = .threadExit ∧ a.joinedThread = b.tid ∨
            a.kind = .threadInit ∧ b.kind = .threadCreate ∧ a.tid = b.createdTid := by
  cases hka : a.kind <;> cases hkb : b.kind <;>
    simp [threadIsIndependent, isThreadEvent, threadIsIndependentOf, hka, hkb]

lemma dependent_of_condDependent [DecidableEq D] (ha : a.checks = true) (hb : b.checks = true)
    (hk : a.kind ∈ condKinds) (hcid : a.cid = b.cid) (h : a.condDependent b = true) : Dependent a b := by
  have hne : a.cid ≠ 0 := cid_ne_zero ha hk
  refine (dependent_iff ha hb).mpr (.inr ⟨?_, ?_, .inr (.inr (.inr (.inr ⟨hcid, hne, h⟩)))⟩)
  · exact fun hl => hne (cid_eq_zero (by simp [hl, condKinds]))
  · exact fun hl => hne (hcid.trans (cid_eq_zero (by simp [hl, condKinds])))

lemma lt_broadcast_of_mem {c : CondId} {p q : Event D} {ps : List (Event D)} (hq : q ∈ ps)
    (hk : q.kind ∈ Configuration.condHeadKinds) :
    q < (⟨t, .broadcast c, p :: groupByKind (sortPredecessors ps)⟩ : Event D) := by
  refine lt_of_mem_preds (mem_cons_of_mem _ (mem_groupByKind.mpr ⟨mem_sortPreds.mpr hq, ?_⟩))
  simp only [Configuration.condHeadKinds, mem_cons] at hk ⊢
  tauto

end Event

namespace Configuration
variable {D : Type} [DecidableEq D]

variable (C : Configuration D)

/-- The event is a cause of whatever the thread does next. -/
def KnownTo (t : ThreadId) (x : Event D) : Prop := ∃ p, C.lastOfTid t = some p ∧ x ≤ p

omit [DecidableEq D] in
lemma KnownTo.lt {C : Configuration D} {t : ThreadId} {x p e : Event D} (h : C.KnownTo t x)
    (hp : C.lastOfTid t = some p)
    (hpe : p < e) : x < e := by
  obtain ⟨q, hq, hxq⟩ := h
  rw [some.inj (hq.symm.trans hp)] at hxq
  exact lt_of_le_of_lt hxq hpe

def NotDestroyed (c : CondId) : Prop := ∀ x ∈ C, x.kind = .conditionVariableDestroy → x.cid ≠ c

/-- The order of dependent operations is not up to the scheduler alone: threads are joined and created once or in a
known order, notifications of different waiters are ordered by threads or waiters, nothing is used after its
destruction and waiting threads do nothing. -/
def WellBehaved : Op D → Prop
  | .joinThread t joined => ∀ x ∈ C, x.kind = .threadJoin → x.joinedThread = joined → C.KnownTo t x
  | .initThread t createdFrom => ∀ x ∈ C, x.kind = .threadCreate → x.createdTid = t → C.KnownTo createdFrom x
  | .localEvent t _ => ∀ p, C.lastOfTid t = some p → p.kind ≠ .wait1
  | .destroyLock _ l => ∀ x ∈ C, x.kind = .lockDestroy → x.lid ≠ l
  | .destroyCond _ c | .wait1 _ c _ | .wait2 _ c _ => C.NotDestroyed c
  | .signalThread t c n => C.NotDestroyed c ∧
      (n ≠ .empty → ∀ x ∈ C, x.cid = c → x.waitPredecessors ≠ [] → C.KnownTo t x ∨ C.KnownTo n x)
  | .broadcastThreads t c ns => C.NotDestroyed c ∧ (ns ≠ [] → ∀ x ∈ C, x.cid = c →
        (x.kind = .wait1 ∧ x ∈ C.lastOfCid c ∧ x.tid ∉ ns ∨ x.kind = .broadcast ∧ x.waitPredecessors ≠ []) →
          C.KnownTo t x ∨ ∃ n ∈ ns, C.KnownTo n x)
  | _ => True

instance (C : Configuration D) (t : ThreadId) (x : Event D) : Decidable (C.KnownTo t x) :=
  decidable_of_iff ((C.lastOfTid t).any (fun p => decide (x ≤ p)) = true) (by
    simp [KnownTo, Option.any_eq_true])

instance (C : Configuration D) (c : CondId) : Decidable (C.NotDestroyed c) := inferInstanceAs
    (Decidable (∀ x ∈ C.events, _))

instance (C : Configuration D) (op : Op D) : Decidable (C.WellBehaved op) := by
  rcases op <;> dsimp only [WellBehaved] <;> infer_instance

variable {C : Configuration D} {x : Event D}

lemma Reachable.localRuns_of_wellBehaved (hC : Reachable WellBehaved C) : C.LocalRuns := by
  refine (hC.mono fun C op _ => ?_ : Reachable localWhileRunning C).localRuns
  cases op <;> trivial

def Ordered (C : Configuration D) : Prop := ∀ x ∈ C, ∀ y ∈ C, Dependent x y → x ≤ y ∨ y ≤ x

/-- A lost notification comes after the notifications of all waits it knows of. -/
def LostAfterWaits (C : Configuration D) : Prop :=
  ∀ x ∈ C, x.isLost = true → ∀ w ∈ C, w.kind = .wait1 → w.cid = x.cid → w < x → ∃ n ∈ C, w ∈ n.waitPredecessors

/-! ## What an extension is ordered after -/

lemma WellFormed.lastOfTid_of_threadExit (hW : C.WellFormed) (hx : x ∈ C) (hk : x.kind = .threadExit) :
    C.lastOfTid x.tid = some x := by
  obtain ⟨p, hp, hxp⟩ := hW.le_lastOfTid hx (by simp [hk])
  rcases hxp.eq_or_lt' with rfl | hlt
  · exact hp
  · have hpC := mem_of_lastOfTid hp
    obtain ⟨s, hsp, hs⟩ := hW.exists_threadSuccessor hx hpC (hW.tid_of_lastOfTid hp).symm (by simp [hk]) hlt
    obtain ⟨-, -, -, hxk⟩ := of_threadPred (hW.checks (hW.mem_of_le hsp hpC)) hs
    exact absurd hk hxk

lemma WellFormed.exists_threadExit (hW : C.WellFormed) (hx : x ∈ C) (hk : x.kind = .threadJoin) :
    ∃ y ∈ C, y.kind = .threadExit ∧ y.tid = x.joinedThread := by
  have hj : x.threadJoinChecks = true := by
    have hc := hW.checks hx
    obtain ⟨t, l, ps⟩ := x
    cases l <;> simp [Event.checks] at hk hc
    exact hc.2
  obtain ⟨y, hy, hyk⟩ := (any_eq_true _ _).mp hj
  simp only [Bool.and_eq_true, decide_eq_true_eq] at hyk
  exact ⟨y, hW.closed hx (joinedThreadPred_mem hy), hyk.2, by simp [Event.joinedThread, hy]⟩

section
variable {op : Op D} {e : Event D} (hW : C.WellFormed) (h : C.Extends op e)
include hW h

omit hW in
lemma Extends.lt_of_knownTo (hx : C.KnownTo e.tid x) : x < e := by
  obtain ⟨p, hp, hxp⟩ := hx
  exact lt_of_le_of_lt hxp (threadPred_lt (h.threadPredecessor_eq.trans hp))

lemma Extends.lt_of_programInit (hc : e.checks = true) (hx : x ∈ C) (hk : x.kind = .programInit) : x < e := by
  have hvalid : e.Valid := valid_of_preds hc fun p hp => hW.valid (h.preds_mem hW p hp)
  rw [eq_programInit (hW.checks hx) hk]
  refine lt_of_le_of_ne (programInit_le hvalid) fun heq => ?_
  exact h.kind_ne_programInit (heq ▸ rfl)

lemma Extends.lt_of_tid_eq (hc : e.checks = true) (hx : x ∈ C) (ht : x.tid = e.tid) : x < e := by
  by_cases hk : x.kind = .programInit
  · exact h.lt_of_programInit hW hc hx hk
  · obtain ⟨p, hp, hxp⟩ := hW.le_lastOfTid hx hk
    exact h.lt_of_knownTo ⟨p, ht ▸ hp, hxp⟩

lemma Extends.lt_of_thread_dependent (hc : e.checks = true) (hop : C.WellBehaved op) (hx : x ∈ C)
    (hdep : threadIsIndependent x e = false) : x < e := by
  rcases threadIsIndependent_eq_false.mp hdep with
    ⟨hkx, hke, ht⟩ | ⟨hkx, hke, ht⟩ | ⟨hkx, hke, ht⟩ | ⟨hkx, hke, ht⟩ | ⟨hkx, hke, ht⟩
  · cases h with
    | initThread hp hk hne hnone =>
      exact (hop x hx hkx ht).lt hp (lt_of_mem_preds mem_cons_self)
    | _ => simp at hke
  · cases h with
    | joinThread hp hy hk =>
      have htid : x.tid = _ := ht.trans (hW.tid_of_lastOfTid hy)
      exact KnownTo.lt (hW.le_lastOfTid hx (by simp [hkx])) (htid ▸ hy) (lt_of_mem_preds (by simp))
    | _ => simp at hke
  · cases h with
    | joinThread hp hy hk =>
      have hj : x.joinedThread = _ := ht.trans (hW.tid_of_lastOfTid hy)
      exact (Extends.joinThread hp hy hk).lt_of_knownTo (hop x hx hkx hj)
    | _ => simp at hke
  · obtain ⟨y, hy, hyk, hyt⟩ := hW.exists_threadExit hx hkx
    have hlast := hW.lastOfTid_of_threadExit hy hyk
    rw [hyt, ht] at hlast
    cases h with
    | exitThread hp =>
      obtain ⟨hp, hne, -⟩ := activeHead_eq_some.mp hp
      exact absurd hyk (some.inj (hlast.symm.trans hp) ▸ hne)
    | _ => simp at hke
  · cases h with
    | createThread hp hne hnone =>
      obtain ⟨p, hp, -⟩ := hW.le_lastOfTid hx (by simp [hkx])
      rw [ht] at hp
      exact absurd (hp.symm.trans hnone) (by simp)
    | _ => simp at hke

omit hW in
lemma Extends.lt_of_sameLock (hL : C.LockOrdered) (hdestroyed : ∀ {y l}, y ∈ C → y.kind ∈ lockHeadKinds →
      y.lid = l → C.lastOfLid l = none → ∃ d ∈ C, d.kind = .lockDestroy ∧ d.lid = l)
    (hc : e.checks = true) (hop : C.WellBehaved op) (hx : x ∈ C) (hl : SameLock x e) : x < e := by
  obtain ⟨hl, hne⟩ := hl
  have hlt : ∀ {p}, e.lockPredecessor = some p → x ≤ p → x < e := fun hp hxp =>
    lt_of_le_of_lt hxp (lockPred_lt hp)
  by_cases hk : e.kind ∈ lockHeadKinds
  · obtain ⟨p, hp, -, hxp⟩ := hL.le_lockPred_of_extends h hc hk hx hl
    exact hlt hp hxp
  · have hd : e.kind = .lockDestroy := by
      by_contra hd
      exact hk (mem_lockHeadKinds (hl ▸ hne) hd)
    have hpred := h.lockPred_eq (hl ▸ hne)
    cases hlast : C.lastOfLid e.lid with
    | some p => exact hlt (hpred.trans hlast) (hL.le_head hlast hx hl)
    | none =>
      have hnone : ∀ d ∈ C, d.kind = .lockDestroy → d.lid ≠ e.lid := by
        cases h with
        | destroyLock => exact hop
        | _ => simp at hd
      by_cases hkx : x.kind = .lockDestroy
      · exact absurd hl (hnone x hx hkx)
      · obtain ⟨d, hdC, hdk, hdl⟩ := hdestroyed hx (mem_lockHeadKinds hne hkx) hl hlast
        exact absurd hdl (hnone d hdC hdk)

end

/-! ## Condition variables -/

lemma Waiting.eq_or_lt_of_notified (hN : C.Waiting) (hW : C.WellFormed) (hL : C.LocalRuns) {n w p : Event D}
    (hn : n ∈ C) (hw : w ∈ n.waitPredecessors) (hp : C.lastOfTid w.tid = some p) : w = p ∨ n < p := by
  have hwC := hW.mem_of_le (lt_of_waitPreds hw).le hn
  have hwk := (waitPreds_of_checks (hW.checks hn) hw).1
  obtain ⟨p', hp', hwp⟩ := hW.le_lastOfTid hwC (by simp [hwk])
  cases hp.symm.trans hp'
  rcases hwp.eq_or_lt' with heq | hlt
  · exact .inl heq.symm
  · have hpC := mem_of_lastOfTid hp
    obtain ⟨n', hn'p, hwn'⟩ := hN.notified_of_lt hW hL hwC hwk hpC (hW.tid_of_lastOfTid hp).symm hlt
    exact .inr (hN.unique hn (hW.mem_of_le hn'p.le hpC) hw hwn' ▸ hn'p)

section
variable {P : Configuration D → Op D → Prop} (hC : Reachable P C) (hL : C.LocalRuns) {c : CondId}
  (hd : C.NotDestroyed c)
include hC

include hd in
lemma Reachable.head_or_notified (hx : x ∈ C) (hxc : x.cid = c) (hk : x.kind ∈ condHeadKinds) :
    x ∈ C.lastOfCid c ∨ x.kind = .wait1 ∧ ∃ n ∈ C.lastOfCid c, x ∈ n.waitPredecessors := by
  rw [hC.mem_lastOfCid_iff hd]
  by_cases hn : ∀ n ∈ C, x ∉ n.waitPredecessors
  · exact .inl ⟨hx, hxc, hk, hn⟩
  · push Not at hn
    obtain ⟨n, hnC, hxn⟩ := hn
    obtain ⟨hxk, hcid, -, hnk⟩ := waitPreds_of_checks (hC.wellFormed.checks hnC) hxn
    refine .inr ⟨hxk, n, (hC.mem_lastOfCid_iff hd).mpr ⟨hnC, hcid ▸ hxc, ?_, fun m hm hnm => ?_⟩, hxn⟩
    · rcases hnk with ⟨hnk, -⟩ | ⟨hnk, -⟩ <;> simp [condHeadKinds, hnk]
    · have hnk' := (waitPreds_of_checks (hC.wellFormed.checks hm) hnm).1
      rcases hnk with ⟨hnk, -⟩ | ⟨hnk, -⟩ <;> simp [hnk] at hnk'

include hL in
lemma Reachable.lt_of_notifies {n p : Event D} {t : ThreadId} (hn : n ∈ C) (ht : n.Notifies t)
    (hp : C.activeHead t = some p) : n < p := by
  obtain ⟨w, hw, rfl⟩ := ht
  obtain ⟨hp, -, hk⟩ := activeHead_eq_some.mp hp
  refine (hC.waiting.eq_or_lt_of_notified hC.wellFormed hL hn hw hp).resolve_left fun hwp => hk ?_
  exact hwp ▸ (waitPreds_of_checks (hC.wellFormed.checks hn) hw).1

omit hC in
lemma WellFormed.lt_or_lt (hW : C.WellFormed) (hord : C.Ordered) {y : Event D} (hx : x ∈ C) (hy : y ∈ C)
    (hk : x.kind ∈ condKinds) (hcid : x.cid = y.cid) (hdep : x.condDependent y = true) (hne : x.kind ≠ y.kind) :
    x < y ∨ y < x := by
  have hne : x ≠ y := fun h => hne (congrArg kind h)
  refine (hord x hx y hy (dependent_of_condDependent (hW.checks hx) (hW.checks hy) hk hcid hdep)).imp ?_ ?_
  · exact fun hle => lt_of_le_of_ne hle hne
  · exact fun hle => lt_of_le_of_ne hle hne.symm

lemma Reachable.create_lt_wait1 (hord : C.Ordered) {w : Event D} (hx : x ∈ C)
    (hxk : x.kind = .conditionVariableCreate) (hw : w ∈ C) (hwk : w.kind = .wait1) (hxw : x.cid = w.cid) : x < w := by
  refine (hC.wellFormed.lt_or_lt hord hx hw (by simp [hxk, condKinds]) hxw (by simp [condDependent, hxk])
    (by simp [hxk, hwk])).resolve_right ?_
  exact hC.condUsed.create_first hx hw hxk hxw.symm

lemma Reachable.mem_w2Heads (hx : x ∈ C) (hk : x.kind = .wait2) (hd : C.NotDestroyed x.cid) :
    x ∈ (C.w2Heads.find? x.cid).getD [] := by
  induction hC with
  | initial => rcases kind_of_initial hx with hk' | hk' <;> simp [hk'] at hk
  | @commit C op e hC _ he ih =>
    obtain ⟨h, -⟩ := extend_iff.mp he
    have hold : x ∈ C → x ∈ (C.w2Heads.find? x.cid).getD [] := fun hxC =>
      ih hxC fun y hy => hd y (h.mem_commit.mpr (.inr hy))
    rw [w2Heads_commit]
    rcases h.mem_commit.mp hx with rfl | hxC
    · simp [w2HeadsAfter, hk]
    split_ifs with hc
    · have hne : e.kind ≠ .conditionVariableDestroy := fun hke => hd e (h.mem_commit.mpr (.inl rfl)) hke hc
      unfold w2HeadsAfter
      split
      · simpa using .inl (hold hxC)
      · contradiction
      · exact hold hxC
    · exact hold hxC

section
variable {t : ThreadId} {p : Event D} (hp : C.activeHead t = some p) (hx : x ∈ C)
include hL hp hx

lemma Reachable.of_not_le (ht : t ≠ .empty) (hxp : ¬ x ≤ p) : p.tid = t ∧ x.isLessThanEq p = false ∧
    (x.kind = .signal → x.notifiedThread ≠ t) ∧ (x.kind = .broadcast → x.isNotifyingThread t = false) := by
  have hpl := (activeHead_eq_some.mp hp).1
  have hnot : ¬ x.Notifies t := fun hn => hxp (hC.lt_of_notifies hL hx hn hp).le
  refine ⟨hC.wellFormed.tid_of_lastOfTid hpl, ?_, fun hk hn => hnot (notifies_of_notifiedThread hk hn ht), fun hk => ?_⟩
  · rwa [← Bool.not_eq_true, hC.wellFormed.isLessThanEq_iff hx (mem_of_lastOfTid hpl)]
  · exact Bool.eq_false_iff.mpr fun hn => hnot (notifies_of_isNotifyingThread hk hn)

lemma Reachable.le_or_mem_wait1PredsCond (hd : C.NotDestroyed x.cid) {w : Event D} (hw : w.kind = .wait1)
    (htw : w.tid = t) (ht : t ≠ .empty) (hxt : x.tid ≠ t) (hdep : x.condDependent w = true) :
    x ≤ p ∨ x ∈ wait1PredecessorsCond p (C.lastOfCid x.cid) := by
  refine or_iff_not_imp_left.mpr fun hxp => ?_
  obtain ⟨_, _, _, _⟩ := hC.of_not_le hL hp hx ht hxp
  have hdestroy := hd x hx
  have hhead : x.kind ∈ condHeadKinds → x.kind ≠ .wait1 → x ∈ C.lastOfCid x.cid := fun hk hne =>
    (hC.head_or_notified hd hx rfl hk).resolve_right fun h => hne h.1
  refine mem_filter.mpr ?_
  cases hk : x.kind <;> simp_all [condDependent, condHeadKinds]

lemma Reachable.le_or_mem_lostPredsCond {qs : List (Event D)}
    (hqs : lostNotificationPredecessorsCond p (C.lastOfCid c) = some qs) (hxh : x ∈ C.lastOfCid c) (ht : t ≠ .empty)
    (hxt : x.tid ≠ t) (hlost : x.isLost = false) : x ≤ p ∨ x ∈ qs := by
  refine or_iff_not_imp_left.mpr fun hxp => ?_
  obtain ⟨_, _, _, _⟩ := hC.of_not_le hL hp hx ht hxp
  unfold lostNotificationPredecessorsCond at hqs
  split_ifs at hqs
  cases hqs
  refine mem_filter.mpr ⟨hxh, ?_⟩
  cases hk : x.kind <;> simp_all [isLost]

end

section
variable {e : Event D} (hx : x ∈ C) (hxc : x.cid = e.cid) (hdep : x.condDependent e = true)
include hx hxc hdep

include hL in
lemma Reachable.lt_of_lost {p : Event D} {qs : List (Event D)} (hp : C.activeHead e.tid = some p)
    (hqs : lostNotificationPredecessorsCond p (C.lastOfCid e.cid) = some qs) (hd : C.NotDestroyed e.cid)
    (hc : e.checks = true) (hlost : e.isLost = true) (hpe : p < e) (hqe : ∀ q ∈ qs, q < e) : x < e := by
  have hW := hC.wellFormed
  have hke := (isLost_iff.mp hlost).1
  have hte : e.tid ≠ .empty := by
    refine tid_ne_empty hc ?_ ?_ <;> rcases hke with h | h <;> simp [h]
  have hhead : ∀ y ∈ C.lastOfCid e.cid, y.isLost = false → y < e := by
    intro y hy hyl
    have hyC := (hW.mem_of_lastOfCid hy).1
    by_cases hyt : y.tid = e.tid
    · by_cases hk : y.kind = .programInit
      · have := (hW.mem_of_lastOfCid hy).2.2
        simp [hk] at this
      exact KnownTo.lt (hW.le_lastOfTid hyC hk) (hyt ▸ (activeHead_eq_some.mp hp).1) hpe
    · rcases hC.le_or_mem_lostPredsCond hL hp hyC hqs hy hte hyt hyl with hyp | hyq
      · exact lt_of_le_of_lt hyp hpe
      · exact hqe y hyq
  have hxl : x.isLost = false := by
    rcases hke with hke | hke <;> cases hk : x.kind <;> simp_all [condDependent, isLost]
  have hx2 : x.kind ≠ .wait2 := by
    intro hk
    have htx := tid_ne_empty (hW.checks hx) (by simp [hk]) (by simp [hk])
    rcases hke with hke | hke
    · rw [isLost, hke] at hlost
      simp [condDependent, hk, hke, notifiedThread_of_lost hlost] at hdep
      exact htx hdep.symm
    · rw [isLost, hke] at hlost
      simp [condDependent, hk, hke, isNotifyingThread_of_lost hlost] at hdep
  have hxk : x.kind ∈ condHeadKinds := by
    have hxd := hd x hx
    rcases hke with hke | hke <;> cases hk : x.kind <;> simp_all [condDependent, condHeadKinds]
  rcases hC.head_or_notified hd hx hxc hxk with hxh | ⟨-, n, hn, hxn⟩
  · exact hhead x hxh hxl
  · refine (lt_of_waitPreds hxn).trans (hhead n hn ?_)
    rw [← Bool.not_eq_true, isLost_iff]
    exact fun h => ne_nil_of_mem hxn h.2

omit hdep in
lemma Reachable.lt_of_notifying (hord : C.Ordered) (hlost : C.LostAfterWaits) {w : Event D} (hwe : w < e)
    (hw : w ∈ C.lastOfCid e.cid) (hwk : w.kind = .wait1) (hk : x.kind = .conditionVariableCreate ∨ x.isLost = true) :
    x < e := by
  have hW := hC.wellFormed
  obtain ⟨hwC, hwc, -⟩ := hW.mem_of_lastOfCid hw
  refine lt_trans ?_ hwe
  rcases hk with hk | hk
  · exact hC.create_lt_wait1 hord hx hk hwC hwk (hxc.trans hwc.symm)
  · have hkx := (isLost_iff.mp hk).1
    have hxw : x.condDependent w = true := by
      rcases hkx with hkx | hkx
      · rw [isLost, hkx] at hk
        simp [condDependent, hkx, hwk, hk]
      · simp [condDependent, hkx, hwk]
    refine (hW.lt_or_lt hord hx hwC ?_ (hxc.trans hwc.symm) hxw ?_).resolve_right fun hwx => ?_
    · rcases hkx with h | h <;> simp [h, condKinds]
    · rcases hkx with h | h <;> simp [h, hwk]
    · obtain ⟨n, hn, hwn⟩ := hlost x hx hk w hwC hwk (hwc.trans hxc.symm) hwx
      exact hC.waiting.not_notified hw hn hwn

lemma Reachable.lt_of_signal (hord : C.Ordered) (hlost : C.LostAfterWaits) {w : Event D} (hk : e.kind = .signal)
    (hwe : w < e) (hw : w ∈ C.lastOfCid e.cid) (hwk : w.kind = .wait1) (hlast : C.lastOfTid w.tid = some w)
    (hn : e.notifiedThread = w.tid) (hd : C.NotDestroyed e.cid)
      (hnotify : x.waitPredecessors ≠ [] → x < e) : x < e := by
  have hW := hC.wellFormed
  have htid : x.kind ≠ .programInit → x.tid = w.tid → x < e := by
    intro hp ht
    exact KnownTo.lt (hW.le_lastOfTid hx hp) (ht ▸ hlast) hwe
  have hnone : w.tid ≠ .empty := tid_ne_empty (hW.checks (mem_of_lastOfTid hlast)) (by simp [hwk]) (by simp [hwk])
  have hsig : e.signalIsLost = false := Bool.eq_false_iff.mpr fun h =>
    hnone (hn.symm.trans (notifiedThread_of_lost h))
  by_cases hxl : x.isLost = true
  · exact hC.lt_of_notifying hx hxc hord hlost hwe hw hwk (.inr hxl)
  have hnil : x.kind = .signal ∨ x.kind = .broadcast → x < e := fun hkx =>
    hnotify fun hnil => hxl (isLost_iff.mpr ⟨hkx, hnil⟩)
  have hxd := hd x hx
  cases hkx : x.kind with
  | wait1 => exact htid (by simp [hkx]) (by simpa [condDependent, hkx, hk, hsig, hn, eq_comm] using hdep)
  | wait2 => exact htid (by simp [hkx]) (by simpa [condDependent, hkx, hk, hn, eq_comm] using hdep)
  | signal => exact hnil (.inl hkx)
  | broadcast => exact hnil (.inr hkx)
  | conditionVariableCreate => exact hC.lt_of_notifying hx hxc hord hlost hwe hw hwk (.inl hkx)
  | conditionVariableDestroy => exact absurd hxc (hxd hkx)
  | _ => simp [condDependent, hkx, hk] at hdep

include hL in
lemma Reachable.lt_of_wait2 (hord : C.Ordered) {w n : Event D} (hk : e.kind = .wait2)
    (hlast : C.lastOfTid e.tid = some w) (hwk : w.kind = .wait1) (hn : n ∈ C.lastOfCid e.cid)
    (hwn : w ∈ n.waitPredecessors) (hwe : w < e) (hne : n < e) (ht : e.tid ≠ .empty) (hd : C.NotDestroyed e.cid) :
    x < e := by
  have hW := hC.wellFormed
  obtain ⟨hnC, hnc, -⟩ := hW.mem_of_lastOfCid hn
  have hwc : w.cid = e.cid := (waitPreds_of_checks (hW.checks hnC) hwn).2.1.trans hnc
  have hnotifies : x.Notifies e.tid → x < e := by
    rintro ⟨w', hw', hwt⟩
    rcases hC.waiting.eq_or_lt_of_notified hW hL hx hw' (hwt ▸ hlast) with rfl | hxw
    · exact hC.waiting.unique hx hnC hw' hwn ▸ hne
    · exact hxw.trans hwe
  cases hkx : x.kind with
  | conditionVariableCreate =>
    exact (hC.create_lt_wait1 hord hx hkx (mem_of_lastOfTid hlast) hwk (hxc.trans hwc.symm)).trans hwe
  | conditionVariableDestroy => exact absurd hxc (hd x hx hkx)
  | signal =>
    exact hnotifies (notifies_of_notifiedThread hkx (by simpa [condDependent, hkx, hk] using hdep) ht)
  | broadcast =>
    exact hnotifies (notifies_of_isNotifyingThread hkx (by simpa [condDependent, hkx, hk] using hdep))
  | _ => simp [condDependent, hkx, hk] at hdep

section
variable {p : Event D} {ns : List ThreadId} {ws : List (Event D)} (hp : C.activeHead e.tid = some p) (hpe : p < e)
  (hws : (ns.mapM fun n => C.notifiedHead e.tid n (C.lastOfCid e.cid)) = some ws) (hwe : ∀ w ∈ ws, w < e)
include hp hpe hws hwe

omit hC hx hxc hdep in
lemma lt_of_knownTo_broadcast {y : Event D} (hy : C.KnownTo e.tid y ∨ ∃ n ∈ ns, C.KnownTo n y) : y < e := by
  rcases hy with hy | ⟨n, hn, hy⟩
  · exact hy.lt (activeHead_eq_some.mp hp).1 hpe
  · obtain ⟨w, hw, hnw⟩ := exists_of_mapM hws hn
    exact hy.lt (mem_of_notifiedHead hnw).2.1 (hwe w hw)

omit hx hxc hdep in
include hL in
lemma Reachable.signal_lt_broadcast (hqe : ∀ q ∈ broadcastPredecessorsCond e.tid p ns (C.lastOfCid e.cid), q < e)
    {y : Event D} (hy : y ∈ C.lastOfCid e.cid) (hyk : y.kind = .signal) (hyw : y.waitPredecessors ≠ [])
    (ht : e.tid ≠ .empty) : y < e := by
  have hW := hC.wellFormed
  have hyC := (hW.mem_of_lastOfCid hy).1
  have hknown : C.KnownTo e.tid y ∨ (∃ n ∈ ns, C.KnownTo n y) → y < e := lt_of_knownTo_broadcast hp hpe hws hwe
  by_cases hyp : y ≤ p
  · exact lt_of_le_of_lt hyp hpe
  by_cases hyt : y.tid = e.tid
  · obtain ⟨q, hq, hyq⟩ := hW.le_lastOfTid hyC (by simp [hyk])
    exact hknown (.inl ⟨q, hyt ▸ hq, hyq⟩)
  obtain ⟨-, hle, hyn, -⟩ := hC.of_not_le hL hp hyC ht hyp
  by_cases hyns : y.notifiedThread ∈ ns
  · obtain ⟨w, -, hnw⟩ := exists_of_mapM hws hyns
    obtain ⟨hwh, hwl, -, _⟩ := mem_of_notifiedHead hnw
    obtain ⟨w', hw', hwt'⟩ : y.Notifies y.notifiedThread := by
      obtain ⟨w', hw'⟩ := exists_mem_of_ne_nil _ hyw
      rcases (waitPreds_of_checks (hW.checks hyC) hw').2.2.2 with ⟨-, -, h⟩ | ⟨h, -⟩
      · exact ⟨w', hw', h.symm⟩
      · simp [hyk] at h
    rcases hC.waiting.eq_or_lt_of_notified hW hL hyC hw' (hwt' ▸ hwl) with rfl | hlt
    · exact absurd hw' (hC.waiting.not_notified hwh hyC)
    · exact hknown (.inr ⟨_, hyns, w, hwl, hlt.le⟩)
  · refine hqe y (mem_filter.mpr ⟨hy, ?_⟩)
    have hlost : y.signalIsLost = false := by
      have := mt isLost_iff.mp fun h => hyw h.2
      simpa [isLost, hyk] using this
    simp [hyk, hyt, hyn hyk, hyns, hle, hlost]

include hL in
lemma Reachable.lt_of_broadcast (hord : C.Ordered) (hlost : C.LostAfterWaits) (hk : e.kind = .broadcast) (hns : ns ≠ [])
    (hqe : ∀ q ∈ broadcastPredecessorsCond e.tid p ns (C.lastOfCid e.cid), q < e)
    (hnotified : ∀ t, e.isNotifyingThread t = true → t ∈ ns) (ht : e.tid ≠ .empty) (hd : C.NotDestroyed e.cid)
    (hop : ∀ y ∈ C, y.cid = e.cid → (y.kind = .wait1 ∧ y ∈ C.lastOfCid e.cid ∧ y.tid ∉ ns ∨
      y.kind = .broadcast ∧ y.waitPredecessors ≠ []) → C.KnownTo e.tid y ∨ ∃ n ∈ ns, C.KnownTo n y) : x < e := by
  have hW := hC.wellFormed
  have hknown : ∀ {y}, (C.KnownTo e.tid y ∨ ∃ n ∈ ns, C.KnownTo n y) → y < e := lt_of_knownTo_broadcast hp hpe hws hwe
  have htid : ∀ y ∈ C, y.kind ≠ .programInit → y.tid ∈ ns → y < e := fun y hy hyp hyt =>
    hknown (.inr ⟨y.tid, hyt, hW.le_lastOfTid hy hyp⟩)
  have hnotify : ∀ y ∈ C.lastOfCid e.cid, y.waitPredecessors ≠ [] → y < e := by
    intro y hy hyw
    obtain ⟨hyC, hyc, -⟩ := hW.mem_of_lastOfCid hy
    obtain ⟨w, hw⟩ := exists_mem_of_ne_nil _ hyw
    rcases (waitPreds_of_checks (hW.checks hyC) hw).2.2.2 with ⟨hyk, -⟩ | ⟨hyk, -⟩
    · exact hC.signal_lt_broadcast hL hp hpe hws hwe hqe hy hyk hyw ht
    · exact hknown (hop y hyC hyc (.inr ⟨hyk, hyw⟩))
  obtain ⟨w, hw, hwh, hwk⟩ : ∃ w ∈ ws, w ∈ C.lastOfCid e.cid ∧ w.kind = .wait1 := by
    obtain ⟨n, hn⟩ := exists_mem_of_ne_nil ns hns
    obtain ⟨w, hw, hnw⟩ := exists_of_mapM hws hn
    exact ⟨w, hw, (mem_of_notifiedHead hnw).1, (mem_of_notifiedHead hnw).2.2.1⟩
  by_cases hxl : x.kind = .conditionVariableCreate ∨ x.isLost = true
  · exact hC.lt_of_notifying hx hxc hord hlost (hwe w hw) hwh hwk hxl
  have hhead : x.kind ∈ condHeadKinds → x < e := by
    intro hkx
    rcases hC.head_or_notified hd hx hxc hkx with hxh | ⟨-, n, hn, hxn⟩
    · by_cases hk1 : x.kind = .wait1
      · by_cases hxn : x.tid ∈ ns
        · exact htid x hx (by simp [hk1]) hxn
        · exact hknown (hop x hx hxc (.inl ⟨hk1, hxh, hxn⟩))
      · refine hnotify x hxh fun hnil => hxl ?_
        simp only [condHeadKinds, mem_cons, not_mem_nil, or_false, hk1, false_or] at hkx
        exact hkx.imp_right fun hkx => isLost_iff.mpr ⟨hkx, hnil⟩
    · exact (lt_of_waitPreds hxn).trans (hnotify n hn (ne_nil_of_mem hxn))
  cases hkx : x.kind with
  | wait2 => exact htid x hx (by simp [hkx]) (hnotified _ (by simpa [condDependent, hkx, hk] using hdep))
  | conditionVariableDestroy => exact absurd hxc (hd x hx hkx)
  | wait1 | signal | broadcast | conditionVariableCreate => exact hhead (by simp [condHeadKinds, hkx])
  | _ => simp [condDependent, hkx, hk] at hdep

end

end

omit hC in
include hd in
lemma NotDestroyed.kind_of_cid_eq (hx : x ∈ C) (hxc : x.cid = c) (hc : c ≠ 0) :
    x.kind ∈ condHeadKinds ∨ x.kind = .wait2 := by
  have hcond : x.kind ∈ condKinds := by
    by_contra hcond
    exact hc (hxc.symm.trans (cid_eq_zero hcond))
  have hxd := hd x hx
  cases hkx : x.kind <;> simp_all [condKinds, condHeadKinds]

include hd in
lemma Reachable.lt_of_destroyCond {e : Event D} (hx : x ∈ C) (hxc : x.cid = c) (hc : c ≠ 0)
    (hqe : ∀ q ∈ C.lastOfCid c, q < e) (hw2 : ∀ q ∈ (C.w2Heads.find? c).getD [], q < e) : x < e := by
  rcases hd.kind_of_cid_eq hx hxc hc with hk | hk
  · rcases hC.head_or_notified hd hx hxc hk with hxh | ⟨-, n, hn, hxn⟩
    · exact hqe x hxh
    · exact (lt_of_waitPreds hxn).trans (hqe n hn)
  · subst hxc
    exact hw2 x (hC.mem_w2Heads hx hk hd)

include hd in
lemma Reachable.cid_ne_of_condHeads (hx : x ∈ C) (hc : c ≠ 0) (hnone : C.condHeads.find? c = none) : x.cid ≠ c := by
  have hnil : C.lastOfCid c = [] := by simp [lastOfCid, hnone]
  have hhead : ∀ {y}, y ∈ C → y.kind ∈ condHeadKinds → y.cid ≠ c := by
    intro y hy hk hyc
    rcases hC.head_or_notified hd hy hyc hk with hyh | ⟨-, n, hn, -⟩
    · simp [hnil] at hyh
    · simp [hnil] at hn
  intro hxc
  rcases hd.kind_of_cid_eq hx hxc hc with hk | hk
  · exact hhead hx hk hxc
  · have hcx := hC.wellFormed.checks hx
    obtain ⟨n, hn⟩ := exists_notifyingPred hcx hk
    obtain ⟨-, -, -, -, hnc, hnk, -⟩ := notifying_of_checks hcx hn
    have hnC := hC.wellFormed.closed hx (notifyingPred_mem hn)
    exact hhead hnC (by rcases hnk with h | h <;> simp [h, condHeadKinds]) (hnc.trans hxc)

end

/-! ## Dependent events of a run are ordered -/

section
variable (hC : Reachable WellBehaved C) {op : Op D} {e : Event D} (h : C.Extends op e) (hc : e.checks = true)
  (hop : C.WellBehaved op)
include hC h hc

include hop in
lemma Extends.lt_of_condDependent (hord : C.Ordered) (hlost : C.LostAfterWaits) (hx : x ∈ C)
    (hdep : CondDependent x e) (ht : x.tid ≠ e.tid) : x < e := by
  obtain ⟨hcid, hne, hdep⟩ := hdep
  have hL := hC.localRuns_of_wellBehaved
  have hne' : e.cid ≠ 0 := hcid ▸ hne
  have hold : e.cid ∈ C.usedCondIds := hcid ▸ hC.condUsed.used hx hne
  have hpred : ∀ {p}, p ∈ e.preds → p < e := lt_of_mem_preds
  have hte : e.kind ≠ .programInit → e.kind ≠ .threadInit → e.tid ≠ .empty := tid_ne_empty hc
  cases h with
  | createCond hp _ hused => exact absurd hold hused
  | destroyUnusedCond hp hnone => exact absurd hcid (hC.cid_ne_of_condHeads hop hx hne' hnone)
  | destroyCond hp hqs _ =>
    refine hC.lt_of_destroyCond hop hx hcid hne' (fun q hq => hpred ?_) fun q hq => hpred ?_
    · rw [lastOfCid, hqs] at hq
      exact mem_cons_of_mem _ (mem_sortPreds.mpr (mem_append_left _ hq))
    · exact mem_cons_of_mem _ (mem_sortPreds.mpr (mem_append_right _ hq))
  | wait1 hp hl =>
    have hd : C.NotDestroyed x.cid := hcid ▸ hop
    rcases hC.le_or_mem_wait1PredsCond hL hp hx hd rfl rfl (hte (by simp) (by simp)) ht hdep with hxp | hxq
    · exact lt_of_le_of_lt hxp (hpred (by simp))
    · refine hpred (mem_cons_of_mem _ (mem_cons_of_mem _ (mem_sortPreds.mpr ?_)))
      rwa [hcid] at hxq
  | wait2 hw hk hl hn =>
    obtain ⟨hnh, hwn⟩ := mem_of_wait2PredCond hn
    exact hC.lt_of_wait2 hL hx hcid hdep hord rfl hw hk hnh hwn (hpred (by simp)) (hpred (by simp))
      (hte (by simp) (by simp)) hop
  | lostSignal hp hqs hsig =>
    exact hC.lt_of_lost hL hx hcid hdep hp hqs hop.1 hc hsig (hpred (by simp)) fun q hq =>
      hpred (mem_cons_of_mem _ (mem_sortPreds.mpr hq))
  | signal hp hn hw =>
    obtain ⟨hwh, hwl, hwk, hwt⟩ := mem_of_notifiedHead hw
    subst hwt
    refine hC.lt_of_signal hx hcid hdep hord hlost rfl (hpred (by simp)) hwh hwk hwl (by simp [notifiedThread, hwk])
      hop.1 fun hxw => ?_
    rcases hop.2 hn x hx hcid hxw with hknown | hknown
    · exact hknown.lt (activeHead_eq_some.mp hp).1 (hpred (by simp))
    · exact hknown.lt hwl (hpred (by simp))
  | lostBroadcast hp hqs hlen =>
    exact hC.lt_of_lost hL hx hcid hdep hp hqs hop.1 hc (isLost_of_lostBroadcast hp hqs hlen) (hpred (by simp))
      fun q hq => lt_broadcast_of_mem hq
        (hC.wellFormed.mem_of_lastOfCid (mem_of_lostPredsCond hqs hq)).2.2
  | broadcast hp hns hws hlen =>
    refine hC.lt_of_broadcast hL hx hcid hdep hp (hpred (by simp)) hws
      (fun w hw => ?_) hord hlost rfl hns (fun q hq => ?_)
      (fun t' ht' => ?_) (hte (by simp) (by simp)) hop.1 (hop.2 hns)
    · obtain ⟨n, -, hn⟩ := (mem_of_mapM hws).mp hw
      exact lt_broadcast_of_mem (mem_append_left _ hw) (by simp [(mem_of_notifiedHead hn).2.2.1, condHeadKinds])
    · exact lt_broadcast_of_mem (mem_append_right _ hq)
        (hC.wellFormed.mem_of_lastOfCid (mem_of_mem_filter hq)).2.2
    · obtain ⟨w, hw, hwt⟩ := any_eq_true.mp ht'
      obtain ⟨hw, hk⟩ := mem_waitPreds_broadcast.mp hw
      rcases mem_append.mp hw with hw | hw
      · obtain ⟨n, hnn, hn⟩ := (mem_of_mapM hws).mp hw
        exact of_decide_eq_true hwt ▸ (mem_of_notifiedHead hn).2.2.2 ▸ hnn
      · simp [broadcastPredecessorsCond, hk] at hw
  | _ => exact absurd rfl hne'

omit hC hc in
lemma Extends.kind_ne_wait1_of_isLost (hlost : e.isLost = true) {w : Event D} (hw : w ∈ C.lastOfCid e.cid) :
    w.kind ≠ .wait1 := by
  have hnil := (isLost_iff.mp hlost).2
  cases h with
  | lostSignal hp hqs | lostBroadcast hp hqs => exact kind_of_lostPredsCond hqs hw
  | signal hp hn hw' => simp [waitPredecessors, signalWaitPredecessor, (mem_of_notifiedHead hw').2.2.1] at hnil
  | broadcast hp hns hws _ =>
    obtain ⟨n, hn⟩ := exists_mem_of_ne_nil _ hns
    obtain ⟨w', hw', hnw⟩ := exists_of_mapM hws hn
    refine absurd (mem_waitPreds_broadcast.mpr ⟨mem_append_left _ hw', ?_⟩)
      (eq_nil_iff_forall_not_mem.mp hnil w')
    exact (mem_of_notifiedHead hnw).2.2.1
  | _ => simp [isLost] at hlost

omit hc in
lemma LostAfterWaits.commit (hlost : C.LostAfterWaits) : (C.commit e).LostAfterWaits := by
  have hW := hC.wellFormed
  have hbelow : ∀ {w x}, w < x → x ∈ C.commit e → w ∈ C := by
    intro w x hwx hx
    rcases h.mem_commit.mp hx with rfl | hx
    · exact hW.mem_of_lt (h.preds_mem hW) hwx
    · exact hW.mem_of_le hwx.le hx
  intro x hx hxl w hw hwk hwc hwx
  have hwC := hbelow hwx hx
  suffices hn : ∃ n ∈ C, w ∈ n.waitPredecessors by
    obtain ⟨n, hn, hwn⟩ := hn
    exact ⟨n, h.mem_commit.mpr (.inr hn), hwn⟩
  rcases h.mem_commit.mp hx with rfl | hxC
  · by_contra hnone
    push Not at hnone
    have hwh := hC.waiting.outstanding hwC hwk hnone
    rw [hwc] at hwh
    exact h.kind_ne_wait1_of_isLost hxl hwh hwk
  · exact hlost x hxC hxl w hwC hwk hwc hwx

include hop in
lemma Extends.lt_of_dependent (hord : C.Ordered) (hlost : C.LostAfterWaits) (hx : x ∈ C)
    (hdep : Dependent x e) : x < e := by
  have hW := hC.wellFormed
  rcases (dependent_iff (hW.checks hx) hc).mp hdep with ht | ⟨-, -, hdep⟩
  · exact h.lt_of_tid_eq hW hc hx ht
  rcases hdep with hk | hk | hthread | hlock | hcond
  · exact h.lt_of_programInit hW hc hx hk
  · exact absurd hk h.kind_ne_programInit
  · exact h.lt_of_thread_dependent hW hc hop hx hthread
  · refine h.lt_of_sameLock hC.lockOrdered (fun hy hk hl hnone => ?_) hc hop hx hlock
    subst hl
    exact hC.exists_lockDestroy hy hk hnone
  · by_cases ht : x.tid = e.tid
    · exact h.lt_of_tid_eq hW hc hx ht
    · exact h.lt_of_condDependent hC hc hop hord hlost hx hcond ht

include hop in
lemma Ordered.commit (hord : C.Ordered) (hlost : C.LostAfterWaits) : (C.commit e).Ordered := by
  have hW := hC.wellFormed
  intro x hx y hy hdep
  rcases h.mem_commit.mp hx with rfl | hxC <;> rcases h.mem_commit.mp hy with rfl | hyC
  · exact .inl le_rfl
  · have hdep' := (dependent_comm hc (hW.checks hyC)).mp hdep
    exact .inr (h.lt_of_dependent hC hc hop hord hlost hyC hdep').le
  · exact .inl (h.lt_of_dependent hC hc hop hord hlost hxC hdep).le
  · exact hord x hxC y hyC hdep

end

lemma ordered_initial : (initial : Configuration D).Ordered := by
  intro x hx y hy _
  have hlt : (Event.programInit : Event D) ≤ Event.mk .main .threadInit [Event.programInit] :=
    (Event.lt_of_mem_preds (mem_singleton.mpr rfl)).le
  rcases mem_initial hx with rfl | rfl <;> rcases mem_initial hy with rfl | rfl
  · exact .inl le_rfl
  · exact .inr hlt
  · exact .inl hlt
  · exact .inl le_rfl

lemma Reachable.ordered (hC : Reachable WellBehaved C) : C.Ordered ∧ C.LostAfterWaits := by
  induction hC with
  | initial =>
    constructor
    · exact ordered_initial
    · intro x hx hl
      rcases kind_of_initial hx with hk | hk <;> simp [isLost, hk] at hl
  | commit hC hop he ih =>
    obtain ⟨h, hc⟩ := extend_iff.mp he
    exact ⟨ih.1.commit hC h hc hop ih.2, ih.2.commit hC h⟩

/-- The causes of the events are consistent, so that nothing is in conflict. -/
lemma Ordered.consistent (hord : C.Ordered) (hW : C.WellFormed) (hx : x ∈ C) : x.Consistent := by
  refine (EventStructure.conflictFree_iff (isLowerSet_Iio x)).mpr fun a ha b hb hab => ?_
  rcases hord a (hW.mem_of_le (le_of_lt ha) hx) b (hW.mem_of_le (le_of_lt hb) hx) hab.1 with hle | hle
  · exact hab.2.1 hle
  · exact hab.2.2 hle

theorem Reachable.conflictFree_of_wellBehaved {C : Configuration D} (hC : Reachable WellBehaved C) :
    (∀ x ∈ C, ∀ y ∈ C, ¬ x ≤ y → ¬ y ≤ x → x.isIndependentOf y = true) ∧
      ∀ {M : Type} [Inhabited M] [DecidableEq M] (U : Unfolding D M), U.Deduplicated → (∀ x ∈ C, x ∈ U.events) →
        ∀ x ∈ C, ∀ y ∈ C, y ∉ U.immediateConflicts x := by
  have hord := hC.ordered.1
  have hfree : ∀ x ∈ C, ∀ y ∈ C, ¬ x ≤ y → ¬ y ≤ x → x.isIndependentOf y = true := by
    intro x hx y hy hxy hyx
    by_contra hind
    rcases hord x hx y hy (Bool.eq_false_iff.mpr hind) with hle | hle
    · exact hxy hle
    · exact hyx hle
  refine ⟨hfree, fun {M} _ _ U hU hstored x hx y hy hmem => ?_⟩
  have hW := hC.wellFormed
  have h := (hU.wellFormed.exact (hstored x hx) (hstored y hy) (hord.consistent hW hx) (hord.consistent hW hy)).mp hmem
  exact absurd (hfree x hx y hy h.clash.2.1 h.clash.2.2) (Bool.eq_false_iff.mp h.clash.1)

def unfolded (C : Configuration D) : Unfolding D Unit :=
  Unfolding.ofEvents (C.events.insertionSort fun a b => a.depth ≤ b.depth)

def served : Configuration Unit := (initial.run (fun C op => C.WellBehaved op)
  [.createThread .main worker, .initThread worker .main, .acquireLock worker 1, .wait1 worker 1 1,
    .signalThread .main 1 worker, .wait2 worker 1 1]).getD initial

theorem Reachable.conflictFree_served : served.size = 8 ∧
    (∀ x ∈ served, ∀ y ∈ served, ¬ x ≤ y → ¬ y ≤ x → x.isIndependentOf y = true) ∧
      ∀ x ∈ served, ∀ y ∈ served, y ∉ served.unfolded.immediateConflicts x := by
  have hC : Reachable WellBehaved served := reachable_getD_run (fun C op h => of_decide_eq_true h) _
  have h := hC.conflictFree_of_wellBehaved
  exact ⟨by decide +kernel, h.1, h.2 served.unfolded (Unfolding.deduplicated_ofEvents _) (by decide +kernel)⟩

def woken : Configuration Unit := after
  [.createThread .main worker, .initThread worker .main, .createThread .main worker2, .initThread worker2 .main,
    .createThread .main worker3, .initThread worker3 .main, .acquireLock worker 1, .wait1 worker 1 1,
    .acquireLock worker2 2, .wait1 worker2 1 2, .signalThread .main 1 worker, .signalThread worker3 1 worker2]

/-- The two signals depend on each other but nothing orders them. -/
theorem signals_in_conflict : Reachable anyOp woken ∧ woken.unfolded.Deduplicated ∧
    (∀ x ∈ woken, x ∈ woken.unfolded.events) ∧
      ∃ x ∈ woken, ∃ y ∈ woken, x.kind = .signal ∧ y.kind = .signal ∧ ¬ x ≤ y ∧ ¬ y ≤ x ∧ x.isIndependentOf y = false ∧
        y ∈ woken.unfolded.immediateConflicts x ∧ x ∈ woken.unfolded.immediateConflicts y :=
  ⟨reachable_after _, Unfolding.deduplicated_ofEvents _, by decide +kernel, by decide +kernel⟩

end Configuration
end Por
