import PorSe.Por.Deduplicate
import PorSe.Por.Reachable

/-! `compute_alternative`: an event that can be added to a configuration in place of an event
that is to be avoided. Conflicts with the configuration are found by a search backwards from
the candidate, which stops at the events of the configuration. -/

namespace Por
open List Event Option
namespace Unfolding
variable {D M : Type} [DecidableEq D]
open EventStructure (ConflictFree)

def inImmediateConflictWithColor (U : Unfolding D M) (color : Event D → Color) (e : Event D) (c : Color) : Bool :=
  (U.immediateConflicts e).any fun cfl => color cfl = c

def conflictStep (U : Unfolding D M) (color : Event D → Color) (w : Event D) (W : List (Event D)) (inConflict : Bool) :
    List (Event D) × Bool :=
  if color w = .red then (W, inConflict)
  else if color w = .blue || U.inImmediateConflictWithColor color w .red then ([], true)
  else (w.immediatePredecessors.reverse ++ W, inConflict)

def breadth (U : Unfolding D M) : ℕ := (U.events.map fun e => e.immediatePredecessors.length).foldr max 0

/-- Whether `f` is in conflict with some red event or has a blue cause. -/
def inConflict (U : Unfolding D M) (color : Event D → Color) (f : Event D) : Option Bool :=
  Worklist.run (U.conflictStep color) ((U.breadth + 1) ^ f.depth) [f] false

def chooseEvent (U : Unfolding D M) (color : Event D → Color) : List (Event D) → Option (Event D)
  | [] => none
  | d :: ds =>
    if d.endsAtomicOperation then none
    else if U.inImmediateConflictWithColor color d .red then U.chooseEvent color ds
    else some d

def findAlternative (U : Unfolding D M) (color : Event D → Color) : List (Event D) → Option (Option (Event D))
  | [] => some none
  | f :: fs =>
    if color f = .red then none
    else if U.isCutoff f then U.findAlternative color fs
    else (U.inConflict color f).bind fun b => if b then U.findAlternative color fs else some (some f)

def alternativeColor (C : Configuration D) (ds : List (Event D)) : Event D → Color :=
  colorize .blue ds (colorize .red C.events fun _ => .uncolored)

/-- `none` when an assertion fails, `some none` for the null pointer. -/
def computeAlternative (U : Unfolding D M) (C : Configuration D) (ds : List (Event D)) : Option (Option (Event D)) :=
  (U.chooseEvent (alternativeColor C ds) ds).bind fun e =>
    U.findAlternative (alternativeColor C ds) (U.immediateConflicts e)

variable {C : Configuration D} {ds fs : List (Event D)} {z e : Event D} {U : Unfolding D M} {color : Event D → Color}

lemma alternativeColor_eq_blue : alternativeColor C ds z = .blue ↔ z ∈ ds := by
  rw [alternativeColor, colorize_apply, colorize_apply]
  split_ifs <;> simp_all

lemma color_eq_red : alternativeColor C ds z = .red ↔ z ∈ C ∧ z ∉ ds := by
  rw [alternativeColor, colorize_apply, colorize_apply]
  have hmem : z ∈ C ↔ z ∈ C.events := Iff.rfl
  split_ifs <;> simp_all

omit [DecidableEq D] in
lemma inImmConflict_iff {c : Color} :
    U.inImmediateConflictWithColor color e c = true ↔ ∃ z ∈ U.immediateConflicts e, color z = c := by
  simp [inImmediateConflictWithColor]

/-! ## The search -/

def Blocked (U : Unfolding D M) (color : Event D → Color) (w : Event D) : Prop :=
  color w ≠ .red ∧ (color w = .blue ∨ ∃ z ∈ U.immediateConflicts w, color z = .red)

lemma conflictStep_cases (U : Unfolding D M) (color : Event D → Color) (w : Event D) (W : List (Event D)) (s : Bool) :
    color w = .red ∧ U.conflictStep color w W s = (W, s) ∨ U.Blocked color w ∧ U.conflictStep color w W s = ([], true) ∨
        ¬ U.Blocked color w ∧ U.conflictStep color w W s = (w.immediatePredecessors.reverse ++ W, s) := by
  unfold conflictStep
  split_ifs with hred hblocked
  · exact .inl ⟨hred, rfl⟩
  · refine .inr (.inl ⟨⟨hred, ?_⟩, rfl⟩)
    simpa [inImmConflict_iff] using hblocked
  · refine .inr (.inr ⟨fun h => hblocked ?_, rfl⟩)
    simpa [inImmConflict_iff] using h.2

section
variable (hU : U.WellFormed) {f : Event D} (hf : f ∈ U.events)
include hU hf

lemma WellFormed.inConflict_isSome (color : Event D → Color) : (U.inConflict color f).isSome = true := by
  refine Worklist.run_isSome_of_rank (f := immediatePredecessors)
    ?_ ?_ ?_ hf le_rfl
  · intro w W s
    rcases U.conflictStep_cases color w W s with ⟨-, h⟩ | ⟨-, h⟩ | ⟨-, h⟩ <;> rw [h]
    · exact sublist_append_right _ _
    · exact nil_sublist _
  · exact fun w hw => le_foldr_max (mem_map.mpr ⟨w, hw, rfl⟩)
  · intro w hw z hz
    have hlt := immediatePred_lt (hU.valid hw) hz
    exact ⟨hU.mem_of_le hlt.le hw, depth_lt_depth hlt⟩

lemma WellFormed.exists_blocked (h : U.inConflict color f = some true) : ∃ w ≤ f, U.Blocked color w := by
  refine (Worklist.run_invariant (I := fun W s => (∀ w ∈ W, w ≤ f) ∧ (s = true → ∃ w ≤ f, U.Blocked color w)) ?_
    ⟨by simp, by simp⟩ h).2 rfl
  rintro w W s ⟨hW, hs⟩
  have hwf := hW w mem_cons_self
  have hrest : ∀ z ∈ W, z ≤ f := fun z hz => hW z (mem_cons_of_mem w hz)
  rcases U.conflictStep_cases color w W s with ⟨-, hstep⟩ | ⟨hw, hstep⟩ | ⟨-, hstep⟩ <;> rw [hstep]
  · exact ⟨hrest, hs⟩
  · exact ⟨by simp, fun _ => ⟨w, hwf, hw⟩⟩
  · refine ⟨fun z hz => ?_, hs⟩
    rcases mem_append.mp hz with hz | hz
    · exact (immediatePred_lt (hU.valid (hU.mem_of_le hwf hf)) (mem_reverse.mp hz)).le.trans hwf
    · exact hrest z hz

lemma WellFormed.not_blocked (hfc : f.Consistent) (h : U.inConflict color f = some false) {b : Event D} (hb : b ≤ f)
    (hblocked : U.Blocked color b) : ∃ r, color r = .red ∧ b ≤ r := by
  have hrun := Worklist.run_invariant
    (I := fun W s => s = true ∨ (∀ w ∈ W, w ≤ f) ∧ ((∃ r, color r = .red ∧ b ≤ r) ∨ ∃ w ∈ W, b ≤ w)) ?_
    (.inr ⟨by simp, .inr ⟨f, by simp, hb⟩⟩) h
  · simpa using hrun
  rintro w W s (rfl | ⟨hW, hb⟩)
  · left
    rcases U.conflictStep_cases color w W true with ⟨-, hstep⟩ | ⟨-, hstep⟩ | ⟨-, hstep⟩ <;> rw [hstep]
  have hwf := hW w mem_cons_self
  have hrest : ∀ z ∈ W, z ≤ f := fun z hz => hW z (mem_cons_of_mem w hz)
  rcases U.conflictStep_cases color w W s with ⟨hw, hstep⟩ | ⟨-, hstep⟩ | ⟨hw, hstep⟩ <;> rw [hstep]
  · refine .inr ⟨hrest, ?_⟩
    rcases hb with hb | ⟨v, hv, hbv⟩
    · exact .inl hb
    · rcases mem_cons.mp hv with rfl | hv
      · exact .inl ⟨v, hw, hbv⟩
      · exact .inr ⟨v, hv, hbv⟩
  · exact .inl rfl
  · have hvalid := hU.valid (hU.mem_of_le hwf hf)
    refine .inr ⟨fun z hz => ?_, ?_⟩
    · rcases mem_append.mp hz with hz | hz
      · exact (immediatePred_lt hvalid (mem_reverse.mp hz)).le.trans hwf
      · exact hrest z hz
    · rcases hb with hb | ⟨v, hv, hbv⟩
      · exact .inl hb
      · rcases mem_cons.mp hv with rfl | hv
        · have hlt : b < v := lt_of_le_of_ne hbv fun h => hw (h ▸ hblocked)
          obtain ⟨p, hp, hbp⟩ := ((hfc.mono hwf).threadOrdered hvalid).exists_immediatePred hvalid hlt
          exact .inr ⟨p, mem_append_left W (mem_reverse.mpr hp), hbp⟩
        · exact .inr ⟨v, mem_append_right _ hv, hbv⟩

end

/-! ## The result -/

omit [DecidableEq D] in
lemma chooseEvent_eq_some (h : U.chooseEvent color ds = some e) : (∀ z ∈ U.immediateConflicts e, color z ≠ .red) ∧
      ∃ ds1 ds2, ds = ds1 ++ e :: ds2 ∧ ∀ d ∈ ds1, ∃ z ∈ U.immediateConflicts d, color z = .red := by
  induction ds with
  | nil => simp [chooseEvent] at h
  | cons d ds ih =>
    unfold chooseEvent at h
    split_ifs at h with hatomic hconflict <;> rw [inImmConflict_iff] at hconflict
    · obtain ⟨hfree, ds1, ds2, rfl, hds1⟩ := ih h
      exact ⟨hfree, d :: ds1, ds2, rfl, forall_mem_cons.mpr ⟨hconflict, hds1⟩⟩
    · cases h
      exact ⟨fun z hz hred => hconflict ⟨z, hz, hred⟩, [], ds, rfl, by simp⟩

omit [DecidableEq D] in
lemma chooseEvent_isSome (hatomic : ∀ d ∈ ds, d.endsAtomicOperation = false) {d : Event D} (hd : d ∈ ds)
    (hfree : ∀ z ∈ U.immediateConflicts d, color z ≠ .red) : (U.chooseEvent color ds).isSome = true := by
  induction ds with
  | nil => simp at hd
  | cons d' ds ih =>
    rw [chooseEvent, if_neg (by simp [hatomic d' mem_cons_self])]
    split_ifs with hconflict
    · refine ih (fun d hd => hatomic d (mem_cons_of_mem d' hd)) ((mem_cons.mp hd).resolve_left ?_)
      rintro rfl
      obtain ⟨z, hz, hred⟩ := inImmConflict_iff.mp hconflict
      exact hfree z hz hred
    · rfl

lemma findAlternative_cases {r : Option (Event D)} (h : U.findAlternative color fs = some r) :
    (∃ f ∈ fs, r = some f ∧ U.isCutoff f = false ∧ U.inConflict color f = some false) ∨
      r = none ∧ ∀ f ∈ fs, U.isCutoff f = false → U.inConflict color f = some true := by
  induction fs with
  | nil =>
    cases h
    exact .inr ⟨rfl, by simp⟩
  | cons f fs ih =>
    have hlater : U.findAlternative color fs = some r → (U.isCutoff f = false → U.inConflict color f = some true) →
        (∃ g ∈ f :: fs, r = some g ∧ U.isCutoff g = false ∧ U.inConflict color g = some false) ∨
          r = none ∧ ∀ g ∈ f :: fs, U.isCutoff g = false → U.inConflict color g = some true := by
      intro h hf
      rcases ih h with ⟨g, hg, hr⟩ | ⟨hr, hall⟩
      · exact .inl ⟨g, mem_cons_of_mem f hg, hr⟩
      · exact .inr ⟨hr, forall_mem_cons.mpr ⟨hf, hall⟩⟩
    unfold findAlternative at h
    split_ifs at h with hred hcut
    · exact hlater h fun hf => absurd hcut (by simp [hf])
    · obtain ⟨b, hb, h⟩ := bind_eq_some_iff.mp h
      cases b with
      | true => exact hlater h fun _ => hb
      | false =>
        cases h
        exact .inl ⟨f, mem_cons_self, rfl, by simpa using hcut, hb⟩

lemma WellFormed.findAlternative_isSome (hU : U.WellFormed) (hfs : ∀ f ∈ fs, f ∈ U.events ∧ color f ≠ .red) :
    (U.findAlternative color fs).isSome = true := by
  induction fs with
  | nil => rfl
  | cons f fs ih =>
    obtain ⟨⟨hf, hred⟩, hfs⟩ := forall_mem_cons.mp hfs
    obtain ⟨b, hb⟩ := isSome_iff_exists.mp (hU.inConflict_isSome hf color)
    rw [findAlternative, if_neg hred, hb]
    split_ifs
    · exact ih hfs
    · cases b with
      | true => exact ih hfs
      | false => rfl

/-- It can be added to `C` with its causes, and none of `ds` has to be executed. -/
structure IsAlternative (C : Configuration D) (ds : List (Event D)) (f : Event D) : Prop where
  free : ConflictFree Dependent ({c | c ∈ C} ∪ Set.Iic f)
  avoids : ∀ d ∈ ds, ¬ d ≤ f

section
variable (hU : U.WellFormed) (hclosed : IsLowerSet {c | c ∈ C}) {f : Event D} (hf : f ∈ U.events)
include hU hclosed hf

lemma WellFormed.isAlternative (hC : ∀ c ∈ C, c ∈ U.events) (hfree : ConflictFree Dependent {c | c ∈ C})
    (hds : ∀ d ∈ ds, d ∉ C) (hfc : f.Consistent) (h : U.inConflict (alternativeColor C ds) f = some false) :
    IsAlternative C ds f := by
  have hblocked : ∀ b ≤ f, U.Blocked (alternativeColor C ds) b → b ∈ C := by
    intro b hb hbl
    obtain ⟨r, hr, hbr⟩ := hU.not_blocked hf hfc h hb hbl
    exact hclosed hbr (color_eq_red.mp hr).1
  constructor
  · by_contra hnot
    -- a conflict with C has an immediate one below it, and the search meets its upper end
    obtain ⟨a, ha, b, hb, hab⟩ := EventStructure.exists_immConflict hclosed (isLowerSet_Iic f) hfree hfc.Iic
      (fun a ha b hb => (dependent_comm (hU.checks (hU.mem_of_le hb hf)) (hU.checks (hC a ha))).mp) hnot
    have hbU := hU.mem_of_le hb hf
    have hac : a.Consistent := hfree.mono fun x hx => hclosed (le_of_lt hx) ha
    have hmem := hU.conflicts_symm ((hU.exact (hC a ha) hbU hac (hfc.mono hb)).mpr hab)
    have hbC : b ∉ C := fun hbC => hfree.not_clash ha hbC hab.clash
    refine hbC (hblocked b hb ⟨fun h => hbC (color_eq_red.mp h).1, .inr ⟨a, hmem, ?_⟩⟩)
    exact color_eq_red.mpr ⟨ha, fun had => hds a had ha⟩
  · intro d hd hdf
    have hblue : alternativeColor C ds d = .blue := alternativeColor_eq_blue.mpr hd
    exact hds d hd (hblocked d hdf ⟨by simp [hblue], .inl hblue⟩)

lemma WellFormed.not_isAlternative (h : U.inConflict (alternativeColor C ds) f = some true) :
    ¬ IsAlternative C ds f := by
  intro halt
  obtain ⟨w, hwf, -, hblue | ⟨c, hc, hred⟩⟩ := hU.exists_blocked hf h
  · exact halt.avoids w (alternativeColor_eq_blue.mp hblue) hwf
  · have hcC := (color_eq_red.mp hred).1
    obtain ⟨hwU, hcU⟩ := hU.conflicts_mem hc
    have hwc : w.Consistent := halt.free.mono fun x hx => .inr ((le_of_lt hx).trans hwf)
    have hcc : c.Consistent := halt.free.mono fun x hx => .inl (hclosed (le_of_lt hx) hcC)
    exact halt.free.not_clash (.inr hwf) (.inl hcC) ((hU.exact hwU hcU hwc hcc).mp hc).clash

end

variable [Inhabited M] [DecidableEq M]

/-- Right for the first event of `ds` without immediate conflict in `C`, if the alternative's causes are consistent. -/
theorem Deduplicated.computeAlternative_spec {U : Unfolding D M} (hU : U.Deduplicated) {C : Configuration D}
    (hclosed : IsLowerSet {c | c ∈ C}) (hfree : ConflictFree Dependent {c | c ∈ C})
    (hC : ∀ c ∈ C, c ∈ U.events) {ds : List (Event D)} (hds : ∀ d ∈ ds, d ∉ C) :
    ((∀ d ∈ ds, d.endsAtomicOperation = false) → (∃ d ∈ ds, ∀ c ∈ C, c ∉ U.immediateConflicts d) →
        (U.computeAlternative C ds).isSome = true) ∧
      ∀ r, U.computeAlternative C ds = some r → ∃ e ds₁ ds₂, ds = ds₁ ++ e :: ds₂ ∧
        (∀ d ∈ ds₁, ∃ c ∈ C, c ∈ U.immediateConflicts d) ∧ (∀ c ∈ C, c ∉ U.immediateConflicts e) ∧
          ((∃ f, r = some f ∧ f ∈ U.immediateConflicts e ∧ U.isCutoff f = false ∧
              (f.Consistent → IsAlternative C ds f)) ∨
            r = none ∧ ∀ f ∈ U.immediateConflicts e, U.isCutoff f = false → ¬ IsAlternative C ds f) := by
  have hwf := hU.wellFormed
  have hred : ∀ {z}, alternativeColor C ds z = .red ↔ z ∈ C := fun {z} =>
    color_eq_red.trans (and_iff_left_of_imp fun hz hzd => hds z hzd hz)
  constructor
  · rintro hatomic ⟨d, hd, hnone⟩
    have hchoose : (U.chooseEvent (alternativeColor C ds) ds).isSome = true :=
      chooseEvent_isSome hatomic hd fun z hz h => hnone z (hred.mp h) hz
    obtain ⟨e, he⟩ := isSome_iff_exists.mp hchoose
    rw [computeAlternative, he]
    exact hwf.findAlternative_isSome fun f hf => ⟨(hwf.conflicts_mem hf).2, (chooseEvent_eq_some he).1 f hf⟩
  · intro r h
    obtain ⟨e, he, h⟩ := bind_eq_some_iff.mp h
    obtain ⟨hefree, ds₁, ds₂, hsplit, hds1⟩ := chooseEvent_eq_some he
    refine ⟨e, ds₁, ds₂, hsplit, fun d hd => ?_, fun c hc hce => hefree c hce (hred.mpr hc), ?_⟩
    · obtain ⟨z, hz, hzred⟩ := hds1 d hd
      exact ⟨z, hred.mp hzred, hz⟩
    rcases findAlternative_cases h with ⟨f, hf, rfl, hcut, hfalse⟩ | ⟨rfl, hall⟩
    · have hfU := (hwf.conflicts_mem hf).2
      exact .inl ⟨f, rfl, hf, hcut, fun hfc => hwf.isAlternative hclosed hfU hC hfree hds hfc hfalse⟩
    · refine .inr ⟨rfl, fun f hf hcut => ?_⟩
      exact hwf.not_isAlternative hclosed (hwf.conflicts_mem hf).2 (hall f hf hcut)

/-! Both workers have started and the lock is free. -/

def bothStarted : Configuration Unit :=
  .after [.createThread .main worker, .initThread worker .main, .createThread .main worker2, .initThread worker2 .main]

lemma isLowerSet_bothStarted : IsLowerSet {c | c ∈ bothStarted} := fun _ _ hba ha =>
  (Configuration.reachable_after _).wellFormed.mem_of_le hba ha

lemma conflictFree_bothStarted : ConflictFree Dependent {c | c ∈ bothStarted} :=
  (EventStructure.conflictFree_iff isLowerSet_bothStarted).mpr
    (by decide +kernel : ∀ a ∈ bothStarted.events, ∀ b ∈ bothStarted.events, ¬ EventStructure.Clash Dependent a b)

lemma bothStarted_subset : ∀ c ∈ bothStarted, c ∈ competition.events :=
  (by decide +kernel : ∀ c ∈ bothStarted.events, c ∈ competition.events)

theorem Deduplicated.computeAlternative_spec_bothStarted :
    competition.computeAlternative bothStarted [acquireByMain] = some (some acquireByWorker) ∧
      acquireByWorker ∈ competition.immediateConflicts acquireByMain ∧
        IsAlternative bothStarted [acquireByMain] acquireByWorker := by
  have hrun : competition.computeAlternative bothStarted [acquireByMain] = some (some acquireByWorker) := by
    decide +kernel
  have hds : ∀ d ∈ [acquireByMain], d ∉ bothStarted := by decide +kernel
  have hspec := Deduplicated.computeAlternative_spec (deduplicated_ofEvents _ : competition.Deduplicated)
    isLowerSet_bothStarted conflictFree_bothStarted bothStarted_subset hds
  obtain ⟨e, _, _, -, -, -, ⟨f, hf, -, -, halt⟩ | ⟨hnone, -⟩⟩ := hspec.2 _ hrun
  · cases hf
    exact ⟨hrun, by decide +kernel, halt (by decide +kernel)⟩
  · simp at hnone

/-- It misses an event to be avoided in the configuration, and conflicts among the causes of a candidate. -/
theorem computeAlternative_unsound : competition.Deduplicated ∧ IsLowerSet {c | c ∈ bothStarted} ∧
    ConflictFree Dependent {c | c ∈ bothStarted} ∧ (∀ c ∈ bothStarted, c ∈ competition.events) ∧
      (∀ c ∈ bothStarted, c ∉ competition.immediateConflicts acquireByMain) ∧
      competition.computeAlternative bothStarted [acquireByMain, createWorker] = some (some acquireByWorker) ∧
      createWorker ≤ acquireByWorker ∧
      (∀ c ∈ bothStarted, c ∉ competition.immediateConflicts joinByWorker2) ∧ joinByWorker2 ∉ bothStarted ∧
      competition.computeAlternative bothStarted [joinByWorker2] = some (some joinByMain) ∧
      ¬ ConflictFree Dependent ({c | c ∈ bothStarted} ∪ Set.Iic joinByMain) := by
  refine ⟨deduplicated_ofEvents _, isLowerSet_bothStarted, conflictFree_bothStarted, bothStarted_subset,
    (by decide +kernel : ∀ c ∈ bothStarted.events, c ∉ competition.immediateConflicts acquireByMain), by decide +kernel,
    by decide +kernel,
    (by decide +kernel : ∀ c ∈ bothStarted.events, c ∉ competition.immediateConflicts joinByWorker2),
    by decide +kernel, by decide +kernel, fun hfree => ?_⟩
  have hcons : joinByMain.Consistent := hfree.mono (Set.Iio_subset_Iic_self.trans Set.subset_union_right)
  exact absurd hcons (by decide +kernel)

end Unfolding
end Por
