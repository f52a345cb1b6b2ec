import PorSe.Por.Causes
import PorSe.Por.Deduplicate

/-! Cutoff events. A new event takes the flag over from its causes, and `mark_as_cutoff` reaches
everything above an event. The successors of an event are listed in the order in which they were
stored, so nothing is put on the stack twice. -/

namespace Por
open List Function Event Option
namespace Unfolding
variable {D M : Type} [DecidableEq D]

variable (U : Unfolding D M)

/-- What the constructors of `event` set: the flag of the only predecessor, or of any event in the cone. -/
def inheritsCutoff (e : Event D) : Bool :=
  if e.kind ∈ Event.singleKinds then e.preds.any U.isCutoff else e.cone.values.any U.isCutoff

def countingStep (w : Event D) (W : List (Event D)) (s : (Event D → Bool) × ℕ) :
    List (Event D) × (Event D → Bool) × ℕ :=
  ((U.cutoffStep w W s.1).1, (U.cutoffStep w W s.1).2, s.2 + 1)

def markAsCutoffCount (e : Event D) : Option (Unfolding D M × ℕ) :=
  if U.isCutoff e then some (U, 0)
  else
    (Worklist.run U.countingStep ((U.width + 1) ^ U.maxDepth) [e] (U.isCutoff, 0)).map fun s =>
      ({ U with isCutoff := s.1 }, s.2)

lemma map_fst_markAsCutoffCount (e : Event D) : (U.markAsCutoffCount e).map Prod.fst = U.markAsCutoff e := by
  unfold markAsCutoffCount markAsCutoff
  split_ifs
  · rfl
  · have hrun := @Worklist.map_run _ _ U.countingStep _ U.cutoffStep Prod.fst fun _ _ _ => rfl
    rw [← hrun _ _ (U.isCutoff, 0), Option.map_map, Option.map_map]
    rfl

/-! ## What is stored -/

structure StoredInOrder (U : Unfolding D M) : Prop where
  wellFormed : U.WellFormed
  threadOrdered : ∀ {e}, e ∈ U.events → e.ThreadOrdered
  pairwise : U.events.Pairwise fun a b => ¬ b ≤ a
  sublist : ∀ w, (U.successors w).Sublist U.events

def UpwardClosed (isCutoff : Event D → Bool) : Prop :=
  ∀ x ∈ U.events, ∀ y ∈ U.events, x ≤ y → isCutoff x = true → isCutoff y = true

variable {U U' : Unfolding D M} {f : Event D → Bool} {e x v : Event D}

lemma StoredInOrder.nodup (hU : U.StoredInOrder) : U.events.Nodup :=
  hU.pairwise.imp fun h hab => h hab.ge

lemma StoredInOrder.congr (hU : U.StoredInOrder) (he : U'.events = U.events) (hs : U'.successors = U.successors)
    (hi : U'.immediateConflicts = U.immediateConflicts) : U'.StoredInOrder where
  wellFormed := hU.wellFormed.congr he hs hi
  threadOrdered h := hU.threadOrdered (he ▸ h)
  pairwise := he ▸ hU.pairwise
  sublist w := by rw [he, hs]; exact hU.sublist w

lemma foldl_pushBack_of_nodup {f : Event D → List (Event D)} {ps : List (Event D)} (h : ps.Nodup) :
    ps.foldl (fun f p => pushBack f e p) f x = if x ∈ ps then f x ++ [e] else f x := by
  induction ps generalizing f with
  | nil => rfl
  | cons p ps ih =>
    obtain ⟨hp, hps⟩ := nodup_cons.mp h
    rw [foldl_cons, ih hps, pushBack]
    by_cases hx : x = p
    · subst hx
      simp [hp]
    · simp [hx]

lemma StoredInOrder.stored (hU : U.StoredInOrder) {c : Candidate D M} (hc : U.Admissible c.event)
    (ho : c.event.ThreadOrdered) (hnew : c.event ∉ U.events) {r : List (Event D)}
    (hr : (U.stored c).computeImmediateConflicts c.event = some r) :
    ((U.stored c).setImmediateConflicts c.event r).StoredInOrder where
  wellFormed := hU.wellFormed.setImmediateConflicts hc hnew hr
  threadOrdered he := by
    rcases mem_stored.mp he with he | rfl
    · exact hU.threadOrdered he
    · exact ho
  pairwise := by
    refine pairwise_append.mpr ⟨hU.pairwise, pairwise_singleton _ _, fun a ha b hb hba => ?_⟩
    obtain rfl := mem_singleton.mp hb
    exact hnew (hU.wellFormed.mem_of_le hba ha)
  sublist w := by
    have hvalid := hU.wellFormed.valid_stored hc (mem_stored.mpr (.inr rfl))
    have heq : ((U.stored c).setImmediateConflicts c.event r).successors w =
        if w ∈ c.event.immediatePredecessors then U.successors w ++ [c.event] else U.successors w :=
      foldl_pushBack_of_nodup (ho.nodup_immPreds hvalid)
    rw [heq]
    split_ifs
    · exact (hU.sublist w).append_right _
    · exact (hU.sublist w).trans (sublist_append_left _ _)

/-! ## The flag of a new event -/

lemma StoredInOrder.inheritsCutoff (hU : U.StoredInOrder) (hup : U.UpwardClosed U.isCutoff)
    (he : U.Admissible e) (ho : e.ThreadOrdered) (hxe : x < e) (hx : U.isCutoff x = true) :
    U.inheritsCutoff e = true := by
  obtain ⟨p, hp, hxp⟩ := lt_iff_pred.mp hxe
  have hxU : x ∈ U.events := hU.wellFormed.mem_of_le hxp (he.preds p hp)
  have hv : e.Valid := valid_of_preds he.checks fun p hp => hU.wellFormed.valid (he.preds p hp)
  unfold Unfolding.inheritsCutoff
  split_ifs with hk
  · exact any_eq_true.mpr ⟨p, hp, hup x hxU p (he.preds p hp) hxp hx⟩
  · have hkind : e.kind ≠ .programInit ∧ e.kind ≠ .threadInit := by
      refine ⟨fun h => ?_, fun h => hk (by simp [h, singleKinds])⟩
      simp [preds_nil_of_checks he.checks h] at hp
    obtain ⟨m, hm, hxm⟩ := ho.exists_mem_max_of_kind hv hxe hkind
    have hmv := ListSearch.mem_of_mem_maximals hm
    obtain ⟨t, ht⟩ := SortedMap.mem_values_iff.mp hmv
    obtain ⟨q, hq, hmq⟩ := lt_iff_pred.mp ((cone_represents hv).mem ht).1
    exact any_eq_true.mpr ⟨m, hmv, hup x hxU m (hU.wellFormed.mem_of_le hmq (he.preds q hq)) hxm hx⟩

/-! ## `mark_as_cutoff` -/

/-- The events on the stack are not marked yet, and none is below one pushed before it. -/
structure Marking (U : Unfolding D M) (W : List (Event D)) (isCutoff : Event D → Bool) (n : ℕ) : Prop where
  pending : ∀ x ∈ W, x ∈ U.events ∧ isCutoff x = false
  order : W.Pairwise fun x y => ¬ x ≤ y
  mono : ∀ x, U.isCutoff x = true → isCutoff x = true
  closed : ∀ x ∈ U.events, isCutoff x = true → ∀ y ∈ U.successors x, isCutoff y = true ∨ y ∈ W
  count : n = U.events.countP fun x => !U.isCutoff x && isCutoff x

lemma StoredInOrder.marking_step (hU : U.StoredInOrder) {w : Event D} {W : List (Event D)} {n : ℕ}
    (h : U.Marking (w :: W) f n) : U.Marking (U.cutoffStep w W f).1 (U.cutoffStep w W f).2 (n + 1) := by
  obtain ⟨hwU, hw⟩ := h.pending w mem_cons_self
  obtain ⟨hwW, hW⟩ := pairwise_cons.mp h.order
  have hgrow : ∀ x, f x = true → update f w true x = true := by
    intro x hx
    rw [update_apply, hx, ite_self]
  have hpushed : ∀ z ∈ (U.successors w).filter fun s => !update f w true s,
      (z ∈ U.events ∧ update f w true z = false) ∧ w < z := by
    intro z hz
    obtain ⟨hz, hzf⟩ := mem_filter.mp hz
    obtain ⟨hzU, hwz⟩ := hU.wellFormed.successors.mp hz
    exact ⟨⟨hzU, by simpa using hzf⟩, immediatePred_lt (hU.wellFormed.valid hzU) hwz⟩
  constructor
  case pending =>
    intro x hx
    rcases mem_append.mp hx with hx | hx
    · exact (hpushed x (mem_reverse.mp hx)).1
    · obtain ⟨hxU, hxf⟩ := h.pending x (mem_cons_of_mem w hx)
      have hne : x ≠ w := fun hxw => hwW x hx hxw.ge
      exact ⟨hxU, by simp only [cutoffStep, update_of_ne hne, hxf]⟩
  case order =>
    refine pairwise_append.mpr ⟨?_, hW, fun z hz y hy hzy => ?_⟩
    · exact pairwise_reverse.mpr ((hU.pairwise.sublist (hU.sublist w)).filter _)
    · exact hwW y hy ((hpushed z (mem_reverse.mp hz)).2.le.trans hzy)
  case mono => exact fun x hx => hgrow x (h.mono x hx)
  case closed =>
    intro x hxU hx y hy
    change update f w true x = true at hx
    by_cases hyf : update f w true y = true
    · exact .inl hyf
    · refine .inr ?_
      by_cases hxw : x = w
      · subst hxw
        exact mem_append_left W (mem_reverse.mpr (mem_filter.mpr ⟨hy, by simpa using hyf⟩))
      · refine mem_append_right _ ?_
        rw [update_of_ne hxw] at hx
        rcases h.closed x hxU hx y hy with hyf' | hyW
        · exact absurd (hgrow y hyf') hyf
        · refine (mem_cons.mp hyW).resolve_left fun hyw => hyf ?_
          rw [hyw, update_self]
  case count =>
    have hUw : U.isCutoff w = false := Bool.eq_false_iff.mpr fun hc => Bool.eq_false_iff.mp hw (h.mono w hc)
    have heq : (fun x => !U.isCutoff x && (U.cutoffStep w W f).2 x) =
        update (fun x => !U.isCutoff x && f x) w true := by
      funext x
      simp only [cutoffStep, update_apply]
      split_ifs with hx
      · rw [hx, hUw]
        rfl
      · rfl
    rw [heq, ListSearch.countP_update hU.nodup hwU (by simp [hw]), h.count]

lemma StoredInOrder.upwardClosed_of_marking (hU : U.StoredInOrder) {n : ℕ} (h : U.Marking [] f n) :
    U.UpwardClosed f := by
  intro x hx y hy hxy hfx
  induction hd : y.depth using Nat.strong_induction_on generalizing y with
  | _ d ih =>
    rcases hxy.eq_or_lt' with rfl | hlt
    · exact hfx
    · obtain ⟨p, hp, hxp⟩ := (hU.threadOrdered hy).exists_immediatePred (hU.wellFormed.valid hy) hlt
      have hpy := immediatePred_lt (hU.wellFormed.valid hy) hp
      have hpU := hU.wellFormed.mem_of_le hpy.le hy
      have hfp := ih p.depth (hd ▸ depth_lt_depth hpy) p hpU hxp rfl
      exact (h.closed p hpU hfp y (hU.wellFormed.successors.mpr ⟨hy, hp⟩)).resolve_right not_mem_nil

lemma StoredInOrder.markAsCutoffCount (hU : U.StoredInOrder) (hup : U.UpwardClosed U.isCutoff)
    (hv : v ∈ U.events) : ∃ isCutoff n,
      U.markAsCutoffCount v = some ({ U with isCutoff }, n) ∧ U.markAsCutoff v = some { U with isCutoff } ∧
        U.UpwardClosed isCutoff ∧ isCutoff v = true ∧ n = U.events.countP fun x => !U.isCutoff x && isCutoff x := by
  have hmap := map_fst_markAsCutoffCount U v
  obtain ⟨⟨U', n⟩, hcount⟩ : ∃ r, U.markAsCutoffCount v = some r := by
    rw [← isSome_iff_exists, ← isSome_map, hmap]
    exact hU.wellFormed.markAsCutoff_isSome hv
  rw [hcount] at hmap
  refine (?_ : ∃ isCutoff, U' = { U with isCutoff } ∧ U.UpwardClosed isCutoff ∧ isCutoff v = true ∧
    n = U.events.countP fun x => !U.isCutoff x && isCutoff x).elim
    fun f ⟨hf, h⟩ => ⟨f, n, by rw [hcount, hf], by rw [← hmap, hf]; rfl, h⟩
  unfold Unfolding.markAsCutoffCount at hcount
  split_ifs at hcount with hcut
  · cases hcount
    exact ⟨U.isCutoff, rfl, hup, hcut, by simp⟩
  · obtain ⟨⟨f, m⟩, hrun, h⟩ := map_eq_some_iff.mp hcount
    obtain ⟨rfl, rfl⟩ := Prod.mk.inj h
    have hinit : U.Marking [v] U.isCutoff 0 := by
      refine ⟨?_, pairwise_singleton _ _, fun _ h => h, ?_, by simp⟩
      · simpa using And.intro hv (Bool.eq_false_iff.mpr hcut)
      · intro x hx hxc y hy
        obtain ⟨hyU, hxy⟩ := hU.wellFormed.successors.mp hy
        exact .inl (hup x hx y hyU (immediatePred_lt (hU.wellFormed.valid hyU) hxy).le hxc)
    -- `v` is on the stack until it is marked
    have hend : U.Marking [] f m ∧ (f v = true ∨ v ∈ ([] : List (Event D))) := by
      refine Worklist.run_invariant (I := fun W s => U.Marking W s.1 s.2 ∧ (s.1 v = true ∨ v ∈ W)) ?_
        ⟨hinit, .inr mem_cons_self⟩ hrun
      rintro w W ⟨f, m⟩ ⟨hm, hvW⟩
      refine ⟨hU.marking_step hm, ?_⟩
      rcases hvW with hvf | hvW
      · refine .inl ?_
        simp only at hvf
        simp [countingStep, cutoffStep, update_apply, hvf]
      · rcases mem_cons.mp hvW with rfl | hvW
        · exact .inl (update_self _ _ _)
        · exact .inr (mem_append_right _ hvW)
    exact ⟨f, rfl, hU.upwardClosed_of_marking hend.1, hend.2.resolve_right not_mem_nil, hend.1.count⟩

lemma StoredInOrder.markAsCutoff (hU : U.StoredInOrder) (hup : U.UpwardClosed U.isCutoff) (hv : v ∈ U.events)
    (h : U.markAsCutoff v = some U') : U'.StoredInOrder ∧ U'.UpwardClosed U'.isCutoff := by
  obtain ⟨f, n, -, hmark, hclosed, -⟩ := hU.markAsCutoffCount hup hv
  cases h.symm.trans hmark
  exact ⟨hU.congr rfl rfl rfl, hclosed⟩

/-! ## Runs -/

variable [Inhabited M] [DecidableEq M]

/-- Unfoldings reached by constructing events and marking them. -/
inductive CutoffRun : Unfolding D M → Prop
  | initial (size : BitVec 64) : CutoffRun (initial size)
  | deduplicate {U U' : Unfolding D M} {e v : Event D} {md : Metadata M} {new : Bool} (hU : CutoffRun U)
      (he : U.Admissible e)
      (h : U.deduplicate ⟨e, U.inheritsCutoff e, md⟩ = some (U', new, v)) : CutoffRun U'
  | markAsCutoff {U U' : Unfolding D M} {v : Event D} (hU : CutoffRun U) (hv : v ∈ U.events)
      (h : U.markAsCutoff v = some U') : CutoffRun U'

lemma CutoffRun.wellFormed (h : U.CutoffRun) : U.WellFormed := by
  induction h with
  | initial size => exact wellFormed_initial size
  | deduplicate _ he h ih => exact ih.deduplicate he h
  | markAsCutoff _ _ h ih =>
    obtain ⟨f, rfl⟩ := markAsCutoff_eq_some h
    exact ih.congr rfl rfl rfl

lemma CutoffRun.invariant (h : U.CutoffRun) (ho : ∀ e ∈ U.events, e.ThreadOrdered) :
    U.StoredInOrder ∧ U.UpwardClosed U.isCutoff := by
  induction h with
  | initial size =>
    refine ⟨⟨wellFormed_initial size, ho _, pairwise_singleton _ _, fun w => nil_sublist _⟩, ?_⟩
    exact fun x _ y _ _ hx => by simp [Unfolding.initial, storeEvent, empty] at hx
  | @deduplicate U U' e v md _ _ he h ih =>
    obtain ⟨hU, hup⟩ := ih fun x hx => ho x (events_subset_of_deduplicate h hx)
    rcases deduplicate_cases h with ⟨f, hf, hfind, -, rfl⟩ | ⟨hnone, -, -, r, hr, rfl⟩
    · have hf : ({ U with isCutoff := f } : Unfolding D M).StoredInOrder ∧ U.UpwardClosed f := by
        rcases hf with rfl | hf
        · exact ⟨hU, hup⟩
        · exact hU.markAsCutoff hup (mem_of_find?_eq_some hfind) hf
      unfold replaceDefaultMetadata
      split_ifs
      · exact ⟨hf.1.congr rfl rfl rfl, hf.2⟩
      · exact hf
    · have hnew := not_mem_of_find?_eq_none hnone
      have ho := ho e (mem_stored.mpr (.inr rfl))
      refine ⟨hU.stored he ho hnew hr, fun x hx y hy hxy hcut => ?_⟩
      have hflag : ∀ z, ((U.stored ⟨e, U.inheritsCutoff e, md⟩).setImmediateConflicts e r).isCutoff z =
          if z = e then U.inheritsCutoff e else U.isCutoff z := fun z => update_apply _ _ _ _
      rw [hflag] at hcut ⊢
      rcases mem_stored.mp hy with hyU | rfl
      · have hxU := hU.wellFormed.mem_of_le hxy hyU
        rw [if_neg (ne_of_mem_of_not_mem hxU hnew)] at hcut
        rw [if_neg (ne_of_mem_of_not_mem hyU hnew)]
        exact hup x hxU y hyU hxy hcut
      · rw [if_pos rfl]
        split_ifs at hcut with hxe
        · exact hcut
        · exact hU.inheritsCutoff hup he ho (lt_of_le_of_ne hxy hxe) hcut
  | markAsCutoff _ hv h ih =>
    obtain ⟨f, rfl⟩ := markAsCutoff_eq_some h
    exact (ih ho).1.markAsCutoff (ih ho).2 hv h

def constructAll (U : Unfolding D M) : List (Event D) → Option (Unfolding D M)
  | [] => some U
  | e :: es =>
    if U.Admissible e then
      (U.deduplicate ⟨e, U.inheritsCutoff e, default⟩).bind fun r => r.1.constructAll es
    else none

lemma CutoffRun.constructAll (hU : U.CutoffRun) {es : List (Event D)}
    (h : U.constructAll es = some U') : U'.CutoffRun := by
  induction es generalizing U with
  | nil => exact some.inj h ▸ hU
  | cons e es ih =>
    rw [Unfolding.constructAll, ite_none_right_eq_some, bind_eq_some_iff] at h
    obtain ⟨he, ⟨U₁, _, v⟩, hd, h⟩ := h
    exact ih (hU.deduplicate he hd) h

def acquireAfterWorker : Event Unit := ⟨.main, .lockAcquire 1, [createWorker, releaseByWorker]⟩
end Unfolding
end Por
