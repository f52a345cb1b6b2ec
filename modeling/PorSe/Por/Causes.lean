import PorSe.Por.Comb
import PorSe.Por.Hasse
import PorSe.Por.Reachable

/-! The causes of an event of a reachable configuration: the immediate predecessors are the
maximal ones, and the difference of two cones is the difference of the sets they stand for. -/

namespace Por
open List Event SortedMap ListSearch Cone
namespace Event
variable {D : Type} [DecidableEq D]

lemma joinedThreadPred_of_threadExit {q b : Event D} (h : q.checks = true) (hb : b ∈ q.preds)
    (hk : b.kind = .threadExit) : q.joinedThreadPredecessor = some b := by
  by_cases hp : q.kind = .programInit
  · simp [preds_nil_of_checks h hp] at hb
  by_cases hi : q.kind = .threadInit
  · obtain ⟨t, l, ps⟩ := q
    cases l <;> simp at hi
    obtain ⟨p, rfl⟩ := length_eq_one_iff.mp (length_preds_single h (by simp [singleKinds]))
    obtain rfl := mem_singleton.mp hb
    simp [checks, threadInitChecks, hk] at h
  obtain ⟨p, hpp, -, -, -, hx⟩ := threadPred_of_checks h hp hi
  obtain ⟨ps', hps⟩ := preds_eq_cons_of_threadPred hpp
  obtain ⟨t, l, ps⟩ := q
  obtain rfl : ps = p :: ps' := hps
  replace hb : b ∈ ps' := (mem_cons.mp hb).resolve_left fun h => hx (h ▸ hk)
  cases l <;> simp [checks] at h hp hi
  case localEvent | threadCreate | threadExit | lockCreate | conditionVariableCreate => simp [h] at hb
  case threadJoin =>
    obtain ⟨x, rfl⟩ := length_eq_one_iff.mp h.1.1
    obtain rfl := mem_singleton.mp hb
    rfl
  case lockAcquire | lockDestroy | lockRelease =>
    simp [lockPredecessorChecks, lockPredecessor, holdsLockChecks] at h
    rcases ps' with - | ⟨x, - | ⟨y, ps'⟩⟩ <;> simp_all
  case wait2 =>
    simp [wait2Checks, notifyingPredecessor, lockPredecessorChecks, lockPredecessor] at h
    rcases ps' with - | ⟨x, - | ⟨y, - | ⟨z, ps'⟩⟩⟩ <;> simp_all
    grind
  case wait1 =>
    simp [lockPredecessorChecks, lockPredecessor, holdsLockChecks, wait1Checks, conditionVariablePredecessors] at h
    rcases ps' with - | ⟨x, ps'⟩ <;> simp_all
    grind
  case conditionVariableDestroy =>
    simp [conditionVariableDestroyChecks, conditionVariablePredecessors] at h
    grind
  case signal =>
    simp [signalChecks, lostChecks, conditionVariablePredecessors, signalIsLost] at h
    grind
  case broadcast =>
    simp only [broadcastChecks, all_eq_true, Bool.and_eq_true, decide_eq_true_eq] at h
    obtain ⟨hws, hs⟩ := h.1.2
    split_ifs at hs with hlost
    · simp [lostChecks, conditionVariablePredecessors] at hs
      grind
    · rw [← take_append_drop (numNotified ⟨t, .broadcast _, p :: ps'⟩) ps', mem_append] at hb
      rcases hb with hb | hb
      · cases hk.symm.trans (hws b hb).1.1.1
      · simp only [all_eq_true, Bool.and_eq_true, decide_eq_true_eq] at hs
        cases hk.symm.trans (hs b hb).1.1.1.1

omit [DecidableEq D] in
lemma kind_of_joinedThreadPred {q b : Event D} (h : q.joinedThreadPredecessor = some b) :
    q.kind = .threadJoin := by
  obtain ⟨t, l, ps⟩ := q
  cases l <;> simp [joinedThreadPredecessor] at h ⊢

lemma preds_of_threadJoin {e : Event D} (h : e.checks = true) (hk : e.kind = .threadJoin) :
    ∃ a b, e.preds = [a, b] ∧ b.tid ≠ e.tid ∧ b.kind = .threadExit ∧ e.joinedThreadPredecessor = some b := by
  obtain ⟨t, l, ps⟩ := e
  cases l <;> simp at hk
  simp only [checks, Bool.and_eq_true, decide_eq_true_eq] at h
  obtain ⟨⟨hlen, -⟩, hj⟩ := h
  obtain ⟨a, b, rfl⟩ := length_eq_two.mp hlen
  simp [threadJoinChecks, joinedThreadPredecessor] at hj
  exact ⟨a, b, rfl, hj.1.2, hj.2, rfl⟩

/-- What a join waits for is not below its thread predecessor. -/
def JoinsNews (e : Event D) : Prop := e.kind = .threadJoin → ∀ a b, e.preds = [a, b] → ¬ b < a

section
variable {e : Event D} (hv : e.Valid) (he : e.ThreadOrdered)
include hv he

lemma ThreadOrdered.pairwise_immPreds :
    e.immediatePredecessors.Pairwise fun a b => a ≠ b ∧ (e.JoinsNews → ¬ a ≤ b ∧ ¬ b ≤ a) := by
  have hless : ∀ {a b}, a < e → b < e → a.isLessThan b = false → ¬ a < b := fun ha hb h hab =>
    Bool.eq_false_iff.mp h ((he.isLessThan_iff hv ha hb).mpr hab)
  have hpair : ∀ {a b : Event D}, a ≠ b → ¬ a < b → ¬ b < a → ¬ a ≤ b ∧ ¬ b ≤ a := fun hne hab hba =>
    ⟨fun h => hab (lt_of_le_of_ne h hne), fun h => hba (lt_of_le_of_ne h hne.symm)⟩
  have hmax : (max e.cone).Pairwise fun a b => a ≠ b ∧ (e.JoinsNews → ¬ a ≤ b ∧ ¬ b ≤ a) := by
    have hcone := cone_represents hv
    have hlt : ∀ {m}, m ∈ max e.cone → m < e := fun hm =>
      have ⟨_, ht⟩ := mem_values_iff.mp (mem_of_mem_maximals hm)
      (hcone.mem ht).1
    have hnodup : (max e.cone).Nodup := hcone.nodup_values.sublist (maximals_sublist _ _)
    refine ((pairwise_maximals _ _).and hnodup).imp_of_mem fun ha hb h => ⟨h.2, fun _ => ?_⟩
    exact hpair h.2 (hless (hlt ha) (hlt hb) h.1.1) (hless (hlt hb) (hlt ha) h.1.2)
  -- of two predecessors both are listed only if neither is below the other
  have hboth : ∀ {a b : Event D}, a ∈ e.preds → b ∈ e.preds → a ≠ b → ¬ a < b ∨ a.isLessThan b = false →
      (e.JoinsNews → ¬ b < a) ∨ b.isLessThan a = false →
        [a, b].Pairwise fun a b => a ≠ b ∧ (e.JoinsNews → ¬ a ≤ b ∧ ¬ b ≤ a) := by
    intro a b ha hb hne hab hba
    have hae := lt_of_mem_preds ha
    have hbe := lt_of_mem_preds hb
    refine pairwise_pair.mpr ⟨hne, fun hj => ?_⟩
    exact hpair hne (hab.elim id (hless hae hbe)) (hba.elim (fun h => h hj) (hless hbe hae))
  have hlessEq : ∀ {a b}, a ∈ e.preds → b ∈ e.preds → (a.isLessThanEq b = true ↔ a ≤ b) := fun ha hb =>
    he.isLessThanEq_iff hv (lt_of_mem_preds ha) (lt_of_mem_preds hb)
  have hc := hv.checks
  obtain ⟨t, l, ps⟩ := e
  cases l <;> simp only [immediatePredecessors]
  case programInit => exact List.Pairwise.nil
  case localEvent | threadCreate | threadInit | threadExit | lockCreate | conditionVariableCreate =>
    obtain ⟨p, rfl⟩ := length_eq_one_iff.mp (length_preds_single hc (by simp [singleKinds]))
    exact pairwise_singleton _ _
  case wait1 | broadcast | conditionVariableDestroy => exact hmax
  case lockAcquire | lockDestroy | lockRelease =>
    rcases ps with - | ⟨a, - | ⟨b, - | ⟨c, ps⟩⟩⟩
    · exact List.Pairwise.nil
    · exact pairwise_singleton _ _
    · dsimp only
      split_ifs with h h'
      · exact pairwise_singleton _ _
      · exact pairwise_singleton _ _
      · rw [hlessEq (by simp) (by simp)] at h
        exact hboth (by simp) (by simp) (fun h' => h h'.le) (.inl fun h' => h h'.le) (.inr (by simpa using h'))
    · simp [checks] at hc
  case threadJoin =>
    obtain ⟨a, b, rfl, ht, -⟩ := preds_of_threadJoin hc rfl
    have hne : a ≠ b := by
      rintro rfl
      exact ht (tid_of_threadPred hc rfl)
    dsimp only
    split_ifs with h
    · exact pairwise_singleton _ _
    · exact hboth (by simp) (by simp) hne (.inr (by simpa using h)) (.inl fun hj => hj rfl a b rfl)
  case signal =>
    split_ifs with hlost
    · exact hmax
    · obtain ⟨w, hw, hwt⟩ := (Option.any_eq_true _ _).mp
        ((if_neg hlost).symm.trans (signalChecks_of_checks hc rfl) : Option.any _ _ = true)
      obtain ⟨-, a, rfl⟩ := signalWait_iff.mp hw
      have hne : a ≠ w := by
        rintro rfl
        simp [tid_of_threadPred hc rfl] at hwt
      dsimp only
      split_ifs with h h'
      · exact pairwise_singleton _ _
      · exact pairwise_singleton _ _
      · exact hboth (by simp) (by simp) hne (.inr (by simpa using h')) (.inr (by simpa using h))
  case wait2 =>
    obtain ⟨w, n, l, rfl⟩ := length_eq_three.mp (length_preds_of_wait2 hc rfl)
    have hne : n ≠ l := by
      rintro rfl
      obtain ⟨-, -, -, -, -, hk, -⟩ := notifying_of_checks hc rfl
      simp [checks, lockPredecessorChecks, lockPredecessor] at hc
      grind
    dsimp only
    split_ifs with h h'
    · exact pairwise_singleton _ _
    · exact pairwise_singleton _ _
    · exact hboth (by simp) (by simp) hne (.inr (by simpa using h)) (.inr (by simpa using h'))

lemma ThreadOrdered.mem_immPreds_iff (hj : e.JoinsNews) {p : Event D} :
    p ∈ e.immediatePredecessors ↔ Maximal (· < e) p := by
  constructor
  · intro hp
    refine ⟨immediatePred_lt hv hp, fun y hy hpy => ?_⟩
    obtain ⟨q, hq, hyq⟩ := he.exists_immediatePred hv hy
    rcases rel_or_rel_of_mem (he.pairwise_immPreds hv) hp hq with rfl | h | h
    · exact hyq
    · exact absurd (hpy.trans hyq) (h.2 hj).1
    · exact absurd (hpy.trans hyq) (h.2 hj).2
  · intro hp
    obtain ⟨q, hq, hpq⟩ := he.exists_immediatePred hv hp.prop
    rwa [le_antisymm hpq (hp.2 (immediatePred_lt hv hq) hpq)]

lemma ThreadOrdered.nodup_immPreds : e.immediatePredecessors.Nodup :=
  (he.pairwise_immPreds hv).imp fun h => h.1

end

def isExtensionOf (e : Event D) (C : Configuration D) : Option Bool :=
  if e.cone.values.any fun p => (C.lastOfTid p.tid).all fun h => h.depth < p.depth then some false
  else e.immediatePredecessors.allM fun p => do
    let h ← C.lastOfTid p.tid
    if p.depth ≤ h.depth then some (decide (p ∈ h.threadChain)) else none

end Event

namespace Configuration
variable {D : Type} [DecidableEq D]

def JoinedOnce (C : Configuration D) : Prop :=
  ∀ e ∈ C, ∀ e' ∈ C, e.kind = .threadJoin → e'.kind = .threadJoin → e.joinedThread = e'.joinedThread → e = e'

variable {C : Configuration D}

lemma WellFormed.threadOrdered (hC : C.WellFormed) {e : Event D} (he : ∀ p ∈ e.preds, p ∈ C) : e.ThreadOrdered := by
  exact fun a ha b hb ht => hC.le_total (hC.mem_of_lt he ha) (hC.mem_of_lt he hb) ht

lemma WellFormed.joinsNews (hC : C.WellFormed) (hj : C.JoinedOnce) {e : Event D} (he : e ∈ C) : e.JoinsNews := by
  intro hk a b hp hba
  obtain ⟨q, hbq, hqa⟩ := Relation.TransGen.head'_iff.mp hba
  have ha : a < e := lt_of_mem_preds (by simp [hp])
  have hq : q ∈ C := hC.mem_of_le (le_trans hqa ha.le) he
  obtain ⟨a', b', hp', -, hbk, hb⟩ := preds_of_threadJoin (hC.checks he) hk
  obtain ⟨rfl, rfl⟩ : a = a' ∧ b = b' := by simpa [hp] using hp'
  have hqb := joinedThreadPred_of_threadExit (hC.checks hq) hbq hbk
  obtain rfl := hj e he q hq hk (kind_of_joinedThreadPred hqb) (by simp [joinedThread, hb, hqb])
  exact absurd hqa (not_le_of_gt ha)

/-- `immediate_predecessors` lists the maximal causes, each once. -/
theorem Reachable.immediatePredecessors_exact {C : Configuration D} (hC : Reachable anyOp C) (hj : C.JoinedOnce)
    {e : Event D} (he : e ∈ C) :
    (∀ p, p ∈ e.immediatePredecessors ↔ Maximal (· < e) p) ∧ e.immediatePredecessors.Nodup := by
  have hW := hC.wellFormed
  have ho := hW.threadOrdered fun p hp => hW.closed he hp
  exact ⟨fun p => ho.mem_immPreds_iff (hW.valid he) (hW.joinsNews hj he),
    ho.nodup_immPreds (hW.valid he)⟩

def joined : Configuration Unit :=
  after [.createThread .main worker, .initThread worker .main, .exitThread worker false, .joinThread .main worker]

def joinEvent : Event Unit := (joined.lastOfTid .main).getD .programInit

theorem Reachable.immediatePredecessors_exact_joined : joined.JoinedOnce ∧ joinEvent.kind = .threadJoin ∧
    (∀ p, p ∈ joinEvent.immediatePredecessors ↔ Maximal (· < joinEvent) p) ∧ joinEvent.immediatePredecessors.Nodup := by
  have hj : ∀ e ∈ joined.events, ∀ e' ∈ joined.events, e.kind = .threadJoin → e'.kind = .threadJoin →
      e.joinedThread = e'.joinedThread → e = e' := by decide
  exact ⟨hj, by decide, Reachable.immediatePredecessors_exact (reachable_after _) hj (by decide)⟩

/-- No assertion fails, and the answer is whether all causes are there. -/
theorem Reachable.isExtensionOf_exact {C : Configuration D} (hC : Reachable anyOp C) {e : Event D} (he : e.Valid)
    (ho : e.ThreadOrdered) (hk : ∀ p ∈ e.immediatePredecessors, p.kind ≠ .programInit) :
    ∃ b, e.isExtensionOf C = some b ∧ (b = true ↔ ∀ y < e, y ∈ C) := by
  have hW := hC.wellFormed
  have hcone := cone_represents he
  unfold isExtensionOf
  split_ifs with hgap
  · refine ⟨false, rfl, iff_of_false (by simp) fun hall => ?_⟩
    obtain ⟨p, hp, hdeep⟩ := any_eq_true.mp hgap
    obtain ⟨t, ht⟩ := mem_values_iff.mp hp
    obtain ⟨hpe, -, hpk⟩ := hcone.mem ht
    obtain ⟨h, hh, hle⟩ := hW.le_lastOfTid (hall p hpe) hpk
    have hdepth := depth_le_depth hle
    simp [hh] at hdeep
    omega
  · have hiff : (∀ p ∈ e.immediatePredecessors, p ∈ C) ↔ ∀ y < e, y ∈ C := by
      refine ⟨fun hall y hy => ?_, fun hall p hp => hall p (immediatePred_lt he hp)⟩
      obtain ⟨p, hp, hle⟩ := ho.exists_immediatePred he hy
      exact hW.mem_of_le hle (hall p hp)
    rw [← hiff]
    refine exists_allM_eq fun p hp => ?_
    obtain ⟨c, hc, hpc⟩ := hcone.deepest (immediatePred_lt he hp) (hk p hp)
    have hch : ¬ (C.lastOfTid p.tid).all fun h => decide (h.depth < c.depth) := fun hlt =>
      hgap (any_eq_true.mpr ⟨c, mem_values_iff.mpr ⟨_, hc⟩, by rwa [(hcone.mem hc).2.1]⟩)
    cases hh : C.lastOfTid p.tid with
    | none => simp [hh] at hch
    | some h =>
      simp only [hh, Option.all_some, decide_eq_true_eq, not_lt] at hch
      refine ⟨_, if_pos (hpc.trans hch), ?_⟩
      rw [decide_eq_true_iff]
      refine ⟨fun hmem => mem_iff.mpr (.inl ⟨_, h, hh, hmem⟩), fun hpC => ?_⟩
      obtain ⟨h', hh', hle⟩ := hW.le_lastOfTid hpC (hk p hp)
      cases hh.symm.trans hh'
      exact hW.mem_chain_of_le hpC (mem_of_lastOfTid hh) (hW.tid_of_lastOfTid hh).symm (hk p hp) hle

theorem Reachable.isExtensionOf_exact_joined : joinEvent.isExtensionOf forked = some false ∧
    ∃ y < joinEvent, y ∉ forked := by
  have hW := (reachable_after _ : Reachable anyOp joined).wellFormed
  have he : joinEvent ∈ joined := by decide
  have ho := hW.threadOrdered fun p hp => hW.closed he hp
  have hf : Reachable anyOp forked := reachable_after _
  obtain ⟨b, hb, hiff⟩ := Reachable.isExtensionOf_exact hf (hW.valid he) ho (by decide)
  have hfalse : joinEvent.isExtensionOf forked = some false := by decide
  cases hb.symm.trans hfalse
  exact ⟨hb, by simpa using hiff⟩

/-! ## Differences of cones -/

lemma WellFormed.kind_of_mem_threadChain (hC : C.WellFormed) {h x : Event D} (hh : h ∈ C)
    (hk : h.kind ≠ .programInit) (hx : x ∈ h.threadChain) : x.kind ≠ .programInit := by
  refine (of_mem_chain (P := fun x => x ∈ C ∧ x.kind ≠ .programInit) threadPred_mem ?_ ⟨hh, hk⟩ hx).2
  rintro x p ⟨hx, -⟩ hp
  exact ⟨hC.closed hx (threadPred_mem hp), (of_threadPred (hC.checks hx) hp).2.2.1⟩

section
variable (hC : C.WellFormed) {m rhs : Cone D} {S T : Set (Event D)} (hSC : ∀ x ∈ S, x ∈ C)
include hC hSC

section
variable (hmem : ∀ {t h}, m.find? t = some h → h ∈ S ∧ h.tid = t)
include hmem

lemma WellFormed.tid_of_chain {t : ThreadId}
    {h x : Event D} (hh : m.find? t = some h) (hx : x ∈ h.threadChain) : x.tid = t :=
  (Event.tid_of_chain (hC.valid (hSC h (hmem hh).1)) hx).trans (hmem hh).2

lemma WellFormed.mem_setminus_iff
    (hlast : ∀ x ∈ S, x.kind ≠ .programInit → ∃ h, m.find? x.tid = some h ∧ x ∈ h.threadChain) (hS : IsLowerSet S)
    (hT : rhs.Represents T) (hTC : ∀ x ∈ T, x ∈ C) (hTlow : IsLowerSet T) {x : Event D} (hk : x.kind ≠ .programInit) :
    x ∈ (m.setminus rhs).events ↔ x ∈ S ∧ x ∉ T := by
  rw [mem_setminus]
  constructor
  · rintro ⟨t, h, hh, hx, hdepth⟩
    refine ⟨hS (le_of_mem_chain threadPred_mem hx) (hmem hh).1, fun hxT => ?_⟩
    obtain ⟨c, hc, hd⟩ := hT.deepest hxT hk
    rw [hC.tid_of_chain hSC hmem hh hx] at hc
    exact absurd (hdepth c hc) (not_lt.mpr hd)
  · rintro ⟨hxS, hxT⟩
    obtain ⟨h, hh, hx⟩ := hlast x hxS hk
    refine ⟨x.tid, h, hh, hx, fun r hr => ?_⟩
    obtain ⟨hrT, hrt, -⟩ := hT.mem hr
    rcases hC.le_total (hSC x hxS) (hTC r hrT) hrt.symm with h | h
    · exact absurd (hTlow h hrT) hxT
    · refine depth_lt_depth (lt_of_le_of_ne h ?_)
      rintro rfl
      exact hxT hrT

lemma WellFormed.nodup_setminus : (m.setminus rhs).events.Nodup := by
  rw [setminus_eq_ofEvents]
  have hnodup : (m.entries.flatMap fun p => keptBy rhs p.1 p.2).Nodup := by
    refine nodup_flatMap.mpr ⟨fun p _ => ?_, m.sorted.imp_of_mem fun {a b} ha hb hab x hxa hxb => ?_⟩
    · have hchain : p.2.threadChain.Nodup :=
        (pairwise_chain threadPred_mem p.2).imp fun h => h.ne'
      unfold keptBy
      split
      · exact hchain
      · split_ifs
        · exact nodup_nil
        · exact hchain.sublist (takeWhile_sublist _)
    · refine hab.ne ?_
      rw [← hC.tid_of_chain hSC hmem (mem_entries_iff.mp ha) (mem_keptBy.mp hxa).1,
        hC.tid_of_chain hSC hmem (mem_entries_iff.mp hb) (mem_keptBy.mp hxb).1]
  exact (Comb.ofEvents_perm hnodup).nodup_iff.mpr hnodup

end

end

lemma WellFormed.setminus_exact (hC : C.WellFormed) {m rhs : Cone D} {S T : Set (Event D)} (hm : m.Represents S)
    (hS : IsLowerSet S) (hSC : ∀ x ∈ S, x ∈ C) (hr : rhs.Represents T) (hT : IsLowerSet T)
      (hTC : ∀ x ∈ T, x ∈ C) : (m.setminus rhs).events.Nodup ∧
      ∀ x, x ∈ (m.setminus rhs).events ↔ x ∈ S ∧ x ∉ T ∧ x.kind ≠ .programInit := by
  have hmem : ∀ {t h}, m.find? t = some h → h ∈ S ∧ h.tid = t := fun hh => ⟨(hm.mem hh).1, (hm.mem hh).2.1⟩
  refine ⟨hC.nodup_setminus hSC hmem, fun x => ?_⟩
  have hiff := @WellFormed.mem_setminus_iff D _ C hC m rhs S T hSC hmem ?_ hS hr hTC hT x
  · constructor
    · intro hx
      obtain ⟨t, h, hh, hxh, -⟩ := mem_setminus.mp hx
      obtain ⟨hhS, -, hhk⟩ := hm.mem hh
      have hk := hC.kind_of_mem_threadChain (hSC h hhS) hhk hxh
      exact ⟨((hiff hk).mp hx).1, ((hiff hk).mp hx).2, hk⟩
    · rintro ⟨hxS, hxT, hk⟩
      exact (hiff hk).mpr ⟨hxS, hxT⟩
  · exact fun x hx hk => hC.exists_mem_threadChain hm hSC hx hk

end Configuration

/-! ## `synchronized_events` -/

namespace Event
variable {D : Type} [DecidableEq D]

/-- The causes that the thread predecessor does not have; none may be on the thread itself. -/
def synchronizedEvents (e : Event D) : Option (Comb D) := do
  let p ← e.threadPredecessor
  let res ← (e.cone.setminus p.cone).remove p
  if res.find? e.tid = none then some res else none

end Event

namespace Configuration
variable {D : Type} [DecidableEq D]

lemma WellFormed.remove_setminus {C : Configuration D} (hC : C.WellFormed) {e p : Event D} (he : e ∈ C)
    (hp : e.threadPredecessor = some p) (hnodup : (e.cone.setminus p.cone).events.Nodup)
    (hmem : ∀ x, x ∈ (e.cone.setminus p.cone).events ↔ x < e ∧ ¬ x < p ∧ x.kind ≠ .programInit) :
    ∃ res, (e.cone.setminus p.cone).remove p = some res ∧ res.find? e.tid = none ∧
      (e.cone.setminus p.cone).events.Perm (p :: res.events) := by
  have hpe := threadPred_lt hp
  obtain ⟨ht, -, hk, -⟩ := of_threadPred (hC.checks he) hp
  obtain ⟨t, tooth, htooth, hpt⟩ := Comb.mem_events.mp ((hmem p).mpr ⟨hpe, lt_irrefl p, hk⟩)
  have hkeyed : (e.cone.setminus p.cone).Keyed := by
    rw [setminus_eq_ofEvents]
    exact Comb.keyed_ofEvents _
  obtain rfl := hkeyed t tooth htooth p hpt
  have hperm := Comb.events_perm_of_find? htooth
  -- an event of the thread before `e` is `p` or before `p`
  have hone : ∀ x ∈ tooth.events, x = p := by
    intro x hx
    obtain ⟨hxe, hxp, hxk⟩ := (hmem x).mp (Comb.mem_events.mpr ⟨p.tid, tooth, htooth, hx⟩)
    obtain ⟨q, hq, hxq⟩ := hC.le_threadPredecessor (hC.mem_of_le (le_of_lt hxe) he) he
      ((hkeyed _ tooth htooth x hx).trans ht) hxk hxe
    cases hp.symm.trans hq
    exact (hxq.eq_or_lt'.resolve_right hxp).symm
  have hsingle : tooth.events = [p] := by
    have htoothNodup := (nodup_append.mp (hperm.nodup_iff.mp hnodup)).1
    exact perm_singleton.mp ((perm_ext_iff_of_nodup htoothNodup (nodup_singleton p)).mpr fun x =>
      ⟨fun hx => mem_singleton.mpr (hone x hx), fun hx => mem_singleton.mp hx ▸ hpt⟩)
  have hremove : tooth.remove p = some ⟨[], true⟩ := by
    rw [Tooth.remove, if_pos hpt]
    simp [hsingle]
  refine ⟨(e.cone.setminus p.cone).erase p.tid, ?_, ?_, ?_⟩
  · rw [Comb.remove, htooth]
    simp [hremove]
  · rw [find?_erase, if_pos ht]
  · rwa [hsingle] at hperm

/-- `synchronized_events` returns each cause not below the thread predecessor once, `setminus` the
difference of sets. -/
theorem Reachable.synchronizedEvents_exact {C : Configuration D} (hC : Reachable anyOp C) :
    (∀ {e p : Event D}, e ∈ C → e.threadPredecessor = some p → ∃ res, e.synchronizedEvents = some res ∧
        res.events.Nodup ∧ ∀ x, x ∈ res.events ↔ x < e ∧ x ≠ p ∧ ¬ x < p) ∧
      ∀ {m rhs : Cone D} {S T : Set (Event D)}, m.Represents S → IsLowerSet S → (∀ x ∈ S, x ∈ C) → rhs.Represents T →
        IsLowerSet T → (∀ x ∈ T, x ∈ C) → (m.setminus rhs).events.Nodup ∧
          ∀ x, x ∈ (m.setminus rhs).events ↔ x ∈ S ∧ x ∉ T ∧ x.kind ≠ .programInit := by
  have hW := hC.wellFormed
  refine ⟨fun {e p} he hp => ?_, fun hm hS hSC hr hT hTC => hW.setminus_exact hm hS hSC hr hT hTC⟩
  have hpC : p ∈ C := hW.closed he (threadPred_mem hp)
  obtain ⟨hnodup, hmem⟩ := hW.setminus_exact (cone_represents (hW.valid he)) (isLowerSet_Iio e)
    (fun x hx => hW.mem_of_le (le_of_lt hx) he) (cone_represents (hW.valid hpC)) (isLowerSet_Iio p)
    (fun x hx => hW.mem_of_le (le_of_lt hx) hpC)
  obtain ⟨res, hremove, hnone, hperm⟩ := hW.remove_setminus he hp hnodup hmem
  obtain ⟨hpres, hres⟩ := nodup_cons.mp (hperm.nodup_iff.mp hnodup)
  refine ⟨res, by simp [synchronizedEvents, hp, hremove, hnone], hres, fun x => ?_⟩
  have hx : x ∈ res.events ↔ x ∈ (e.cone.setminus p.cone).events ∧ x ≠ p := by
    rw [hperm.mem_iff, mem_cons]
    constructor
    · exact fun hx => ⟨.inr hx, fun h => hpres (h ▸ hx)⟩
    · exact fun h => h.1.resolve_left h.2
  rw [hx, hmem]
  constructor
  · rintro ⟨⟨hxe, hxp, -⟩, hne⟩
    exact ⟨hxe, hne, hxp⟩
  · rintro ⟨hxe, hne, hxp⟩
    refine ⟨⟨hxe, hxp, fun hk => hxp ?_⟩, hne⟩
    -- program_init is a cause of every event
    rw [eq_programInit (hW.valid he x hxe.le) hk] at hne ⊢
    exact lt_of_le_of_ne (programInit_le (hW.valid hpC)) hne

def createEvent : Event Unit := joinEvent.threadPredecessor.getD .programInit

theorem Reachable.synchronizedEvents_exact_joined : (∃ res, joinEvent.synchronizedEvents = some res ∧ res.events.Nodup ∧
      ∀ x, x ∈ res.events ↔ x < joinEvent ∧ x ≠ createEvent ∧ ¬ x < createEvent) ∧
    (joinEvent.cone.setminus createEvent.cone).events.Nodup ∧
      ∀ x, x ∈ (joinEvent.cone.setminus createEvent.cone).events ↔
        x < joinEvent ∧ ¬ x < createEvent ∧ x.kind ≠ .programInit := by
  have hC : Reachable anyOp joined := reachable_after _
  have hW := hC.wellFormed
  have hj : joinEvent ∈ joined := by decide
  have hc : createEvent ∈ joined := by decide
  have hexact := Reachable.synchronizedEvents_exact hC
  exact ⟨hexact.1 hj (by decide), hexact.2 (cone_represents (hW.valid hj)) (isLowerSet_Iio _)
    (fun x hx => hW.mem_of_le (le_of_lt hx) hj) (cone_represents (hW.valid hc)) (isLowerSet_Iio _)
    fun x hx => hW.mem_of_le (le_of_lt hx) hc⟩

end Configuration
end Por
