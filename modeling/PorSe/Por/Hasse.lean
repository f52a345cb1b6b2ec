import PorSe.Lib.EventStructure
import PorSe.Por.Unfolding

/-! The events as an event structure, and the immediate predecessors as its Hasse diagram.
Causes that are free of conflicts are ordered on each thread, which is all the diagram needs. -/

namespace Por
namespace Event
variable {D : Type}

instance : WellFoundedLT (Event D) := ⟨Subrelation.wf depth_lt_depth (measure depth).wf⟩

def Dependent (a b : Event D) : Prop := a.isIndependentOf b = false

def Consistent (e : Event D) : Prop := EventStructure.ConflictFree Dependent (Set.Iio e)

lemma Consistent.mono {a e : Event D} (h : e.Consistent) (hae : a ≤ e) : a.Consistent :=
  EventStructure.ConflictFree.mono h fun _ hx => lt_of_lt_of_le hx hae

instance (a b : Event D) : Decidable (Dependent a b) := inferInstanceAs (Decidable (_ = _))

variable [DecidableEq D]

instance (a b : Event D) : Decidable (EventStructure.Clash Dependent a b) := inferInstanceAs (Decidable (_ ∧ _))

omit [DecidableEq D] in
lemma conflictFree_iff_history (es : List (Event D)) : EventStructure.ConflictFree Dependent {a | ∃ e ∈ es, a ≤ e} ↔
    ∀ a ∈ es.flatMap history, ∀ b ∈ es.flatMap history, ¬ EventStructure.Clash Dependent a b := by
  have hlower : IsLowerSet {a : Event D | ∃ e ∈ es, a ≤ e} := by
    rintro a b hba ⟨e, he, hae⟩
    exact ⟨e, he, hba.trans hae⟩
  rw [EventStructure.conflictFree_iff hlower]
  simp [mem_history]

instance (es : List (Event D)) : Decidable (EventStructure.ConflictFree Dependent {a | ∃ e ∈ es, a ≤ e}) :=
  decidable_of_iff _ (conflictFree_iff_history es).symm

instance (e : Event D) : Decidable e.Consistent :=
  decidable_of_iff (EventStructure.ConflictFree Dependent {a | ∃ p ∈ e.preds, a ≤ p}) (by rw [Consistent, Iio_eq])

lemma dependent_comm {a b : Event D} (ha : a.checks = true) (hb : b.checks = true) : Dependent a b ↔ Dependent b a := by
  rw [Dependent, Dependent, isIndependentOf_comm ha hb]

def ThreadOrdered (e : Event D) : Prop := ∀ a < e, ∀ b < e, a.tid = b.tid → a ≤ b ∨ b ≤ a

lemma Consistent.threadOrdered {e : Event D} (hv : e.Valid) (he : e.Consistent) : e.ThreadOrdered := by
  intro a ha b hb ht
  have hdep : Dependent a b := (dependent_iff (hv a ha.le) (hv b hb.le)).mpr (.inl ht)
  by_contra h
  rw [not_or] at h
  exact EventStructure.ConflictFree.not_clash he ha hb ⟨hdep, h⟩

section
variable {e a b : Event D} (hv : e.Valid) (he : e.ThreadOrdered)
include hv he

lemma ThreadOrdered.isLessThan_iff (ha : a < e) (hb : b < e) : a.isLessThan b = true ↔ a < b :=
  isLessThan_iff_lt (hv a ha.le) (hv.mono hb.le) fun c hc ht => he a ha c (lt_of_le_of_lt hc hb) ht.symm

lemma ThreadOrdered.isLessThanEq_iff (ha : a < e) (hb : b < e) : a.isLessThanEq b = true ↔ a ≤ b := by
  rw [isLessThanEq, Bool.or_eq_true, decide_eq_true_eq, he.isLessThan_iff hv ha hb, le_iff_eq_or_lt']

lemma ThreadOrdered.exists_mem_max (ha : a < e) (hk : a.kind ≠ .programInit) : ∃ m ∈ Cone.max e.cone, a ≤ m := by
  have hcone := cone_represents hv
  have hmem : ∀ {c}, c ∈ e.cone.values → c < e := by
    intro c hc
    obtain ⟨t, ht⟩ := SortedMap.mem_values_iff.mp hc
    exact (hcone.mem ht).1
  obtain ⟨c, hc, hd⟩ := hcone.deepest ha hk
  obtain ⟨hce, hct, -⟩ := hcone.mem hc
  have hac : a ≤ c := le_of_depth_le (he a ha c hce hct.symm) hd
  have htrans : ∀ {a b c}, a ∈ e.cone.values → b ∈ e.cone.values → c ∈ e.cone.values →
      a.isLessThan b = true → b.isLessThan c = true → a.isLessThan c = true := by
    intro a b c ha hb hc hab hbc
    rw [he.isLessThan_iff hv (hmem ha) (hmem hb)] at hab
    rw [he.isLessThan_iff hv (hmem hb) (hmem hc)] at hbc
    rw [he.isLessThan_iff hv (hmem ha) (hmem hc)]
    exact hab.trans hbc
  obtain ⟨m, hm, hcm⟩ := ListSearch.exists_mem_maximals htrans (SortedMap.mem_values_iff.mpr ⟨_, hc⟩)
  refine ⟨m, hm, hac.trans ?_⟩
  rcases hcm with rfl | hcm
  · exact le_rfl
  · exact ((he.isLessThan_iff hv hce (hmem (ListSearch.mem_of_mem_maximals hm))).mp hcm).le

lemma ThreadOrdered.exists_mem_max_of_kind {y : Event D} (hy : y < e)
    (hk : e.kind ≠ .programInit ∧ e.kind ≠ .threadInit) :
    ∃ m ∈ Cone.max e.cone, y ≤ m := by
  by_cases hky : y.kind = .programInit
  · obtain ⟨p, hp, -, -, hkp, -⟩ := threadPred_of_checks hv.checks hk.1 hk.2
    have hpe := threadPred_lt hp
    obtain ⟨m, hm, hpm⟩ := he.exists_mem_max hv hpe hkp
    rw [eq_programInit (hv y hy.le) hky]
    exact ⟨m, hm, (programInit_le (hv.mono hpe.le)).trans hpm⟩
  · exact he.exists_mem_max hv hy hky

lemma ThreadOrdered.exists_immediatePred_of_mem {q : Event D} (hq : q ∈ e.preds) :
    ∃ p ∈ e.immediatePredecessors, q ≤ p := by
  have hmax := he.exists_mem_max_of_kind hv (lt_of_mem_preds hq)
  have hless : ∀ {a b}, a ∈ e.preds → b ∈ e.preds → a.isLessThan b = true → a ≤ b := fun ha hb h =>
    ((he.isLessThan_iff hv (lt_of_mem_preds ha) (lt_of_mem_preds hb)).mp h).le
  have hlessEq : ∀ {a b}, a ∈ e.preds → b ∈ e.preds → a.isLessThanEq b = true → a ≤ b := fun ha hb h =>
    (he.isLessThanEq_iff hv (lt_of_mem_preds ha) (lt_of_mem_preds hb)).mp h
  have hc := hv.checks
  obtain ⟨t, l, ps⟩ := e
  cases l
  case programInit =>
    simp [Event.checks] at hc
    simp [hc.1] at hq
  case localEvent | threadCreate | threadInit | threadExit | lockCreate | conditionVariableCreate =>
    exact ⟨q, hq, le_rfl⟩
  case wait1 | broadcast | conditionVariableDestroy => exact hmax (by simp)
  case lockAcquire | lockDestroy | lockRelease =>
    simp only [immediatePredecessors]
    split
    · split_ifs with h h' <;> grind
    · exact ⟨q, hq, le_rfl⟩
  case threadJoin =>
    simp only [immediatePredecessors]
    split
    · split_ifs with h <;> grind
    · exact ⟨q, hq, le_rfl⟩
  case signal =>
    simp only [immediatePredecessors]
    split_ifs with hlost
    · exact hmax (by simp)
    · split
      · split_ifs with h h' <;> grind
      · exact ⟨q, hq, le_rfl⟩
  case wait2 =>
    have hw : ∀ {w n l}, ps = [w, n, l] → w ≤ n := by
      rintro w n l rfl
      obtain ⟨w', hw', -, hwn, -⟩ := notifying_of_checks hc rfl
      obtain rfl : w = w' := by simpa [threadPredecessor] using hw'
      exact (lt_of_waitPreds hwn).le
    simp only [immediatePredecessors]
    split
    · split_ifs with h h' <;> grind
    · exact ⟨q, hq, le_rfl⟩

lemma ThreadOrdered.exists_immediatePred {y : Event D} (hy : y < e) : ∃ p ∈ e.immediatePredecessors, y ≤ p := by
  obtain ⟨q, hq, hyq⟩ := lt_iff_pred.mp hy
  obtain ⟨p, hp, hqp⟩ := he.exists_immediatePred_of_mem hv hq
  exact ⟨p, hp, hyq.trans hqp⟩

end

lemma immediatePred_lt {e p : Event D} (hv : e.Valid) (hp : p ∈ e.immediatePredecessors) : p < e := by
  have hmax : p ∈ Cone.max e.cone → p < e := by
    intro hp
    obtain ⟨t, ht⟩ := SortedMap.mem_values_iff.mp (ListSearch.mem_of_mem_maximals hp)
    exact ((cone_represents hv).mem ht).1
  have hpreds : p ∈ e.preds → p < e := lt_of_mem_preds
  obtain ⟨t, l, ps⟩ := e
  cases l <;> simp only [immediatePredecessors] at hp
  case programInit => simp at hp
  case localEvent | threadCreate | threadInit | threadExit | lockCreate | conditionVariableCreate => exact hpreds hp
  case wait1 | broadcast | conditionVariableDestroy => exact hmax hp
  case lockAcquire | lockDestroy | lockRelease =>
    refine hpreds ?_
    split at hp
    · split_ifs at hp <;> grind
    · exact hp
  case threadJoin | wait2 =>
    refine hpreds ?_
    split at hp
    · split_ifs at hp <;> grind
    · exact hp
  case signal =>
    split_ifs at hp
    · exact hmax hp
    · refine hpreds ?_
      split at hp
      · split_ifs at hp <;> grind
      · exact hp

end Event
end Por
