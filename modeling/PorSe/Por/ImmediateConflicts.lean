import PorSe.Por.Hasse

/-! `compute_immediate_conflicts` finds the events that are in immediate conflict with a new
event. The first loop colours the causes red, the second one colours what is concurrent to
the event red and stops at conflicts. -/

namespace Por
open List Function Event
namespace Unfolding
variable {D M : Type} [DecidableEq D]

variable {x z : Event D}

lemma mem_foldl_pushBack {f : Event D → List (Event D)} {e y : Event D} {ps : List (Event D)} :
    y ∈ ps.foldl (fun f p => pushBack f e p) f x ↔ y ∈ f x ∨ y = e ∧ x ∈ ps := by
  induction ps generalizing f with
  | nil => simp
  | cons p ps ih =>
    rw [foldl_cons, ih, pushBack, update_apply]
    split_ifs with h
    · subst h
      simp only [mem_append, mem_cons]
      tauto
    · simp [h]

/-! ## The first loop -/

/-- The events of `V` are red and their immediate conflicts are blue. -/
structure Colors (imm : Event D → List (Event D)) (V : List (Event D)) (color : Event D → Color) : Prop where
  red : ∀ {z}, color z = .red ↔ z ∈ V
  blue : ∀ {z}, color z = .blue ↔ ∃ p ∈ V, z ∈ imm p

section
variable {imm : Event D → List (Event D)} (himm : ∀ p < x, ∀ c ∈ imm p, ¬ c < x)
include himm

variable {V : List (Event D)} {color : Event D → Color} {s : (Event D → Color) × List (Event D)}

lemma Colors.redden (h : Colors imm V color) (hV : ∀ z ∈ V, z < x) {p : Event D} (hp : p < x) :
    Colors imm (V ++ [p]) (redden imm color p) := by
  have hc : ∀ z, z ∈ V ++ [p] → z ∉ imm p := by
    intro z hz hzp
    rcases mem_append.mp hz with hz | hz
    · exact himm p hp z hzp (hV z hz)
    · exact himm p hp z hzp (mem_singleton.mp hz ▸ hp)
  constructor
  · intro z
    rw [Unfolding.redden, colorize_apply, update_apply]
    split_ifs with hz hzp
    · simpa using fun hz' => hc z hz' hz
    · simp [hzp]
    · rw [h.red]
      simp [hzp]
  · intro z
    rw [Unfolding.redden, colorize_apply, update_apply]
    split_ifs with hz hzp
    · simpa using .inr hz
    · subst hzp
      simp only [mem_append, mem_singleton, false_iff, not_exists, not_and]
      rintro q (hq | rfl) hzq
      · exact himm q (hV q hq) z hzq hp
      · exact hz hzq
    · rw [h.blue]
      simp [or_and_right, exists_or, hz]

lemma Colors.reddenAll {ps : List (Event D)} (hps : ∀ p ∈ ps, p < x) (h : Colors imm V color)
    (hV : ∀ z ∈ V, z < x) :
    Colors imm (V ++ (reddenAll imm ps color).2) (reddenAll imm ps color).1 ∧
      (∀ q ∈ (Unfolding.reddenAll imm ps color).2, q < x) ∧ ∀ q ∈ ps, q ∈ V ++
        (Unfolding.reddenAll imm ps color).2 := by
  induction ps generalizing V color with
  | nil => simpa [Unfolding.reddenAll] using h
  | cons p ps ih =>
    obtain ⟨hp, hps⟩ := forall_mem_cons.mp hps
    rw [Unfolding.reddenAll]
    split_ifs with hred
    · obtain ⟨h1, h2, h3⟩ := ih hps h hV
      exact ⟨h1, h2, forall_mem_cons.mpr ⟨mem_append_left _ (h.red.mp hred), h3⟩⟩
    · have hV' : ∀ z ∈ V ++ [p], z < x := by simpa [or_imp, forall_and, hp] using hV
      obtain ⟨h1, h2, h3⟩ := ih hps (h.redden himm hV hp) hV'
      rw [append_assoc, singleton_append] at h1 h3
      exact ⟨h1, forall_mem_cons.mpr ⟨hp, h2⟩, forall_mem_cons.mpr ⟨by simp, h3⟩⟩

structure ReddenInvariant (imm : Event D → List (Event D)) (x : Event D) (W : List (Event D))
    (s : (Event D → Color) × List (Event D)) : Prop where
  colors : Colors imm s.2 s.1
  lt : ∀ z ∈ s.2, z < x
  subset : ∀ w ∈ W, w ∈ s.2
  preds : ∀ p ∈ x.preds, p ∈ s.2
  closed : ∀ p ∈ s.2, p ∉ W → ∀ q ∈ p.preds, q ∈ s.2

lemma ReddenInvariant.step {U : Unfolding D M} (hU : U.immediateConflicts = imm) {w : Event D}
    {W : List (Event D)} (h : ReddenInvariant imm x (w :: W) s) :
    ReddenInvariant imm x (U.causesStep w W s).1 (U.causesStep w W s).2 := by
  have hw : w ∈ s.2 := h.subset w mem_cons_self
  have hps : ∀ p ∈ w.predecessors, p < x := fun p hp =>
    (lt_of_mem_preds (mem_predecessors.mp hp)).trans (h.lt w hw)
  obtain ⟨hcolors, hnew, hmem⟩ := h.colors.reddenAll himm hps h.lt
  simp only [causesStep, hU]
  constructor
  case colors => exact hcolors
  case lt => exact fun z hz => (mem_append.mp hz).elim (h.lt z) (hnew z)
  case subset =>
    intro z hz
    rcases mem_append.mp hz with hz | hz
    · exact mem_append_left _ (h.subset z (mem_cons_of_mem w hz))
    · exact mem_append_right _ hz
  case preds => exact fun p hp => mem_append_left _ (h.preds p hp)
  case closed =>
    intro p hp hpW q hq
    rw [mem_append, not_or] at hpW
    by_cases hpw : p = w
    · exact hmem q (mem_predecessors.mpr (hpw ▸ hq))
    · have hps : p ∈ s.2 := (mem_append.mp hp).resolve_right hpW.2
      exact mem_append_left _ (h.closed p hps (by simp [hpw, hpW.1]) q hq)

lemma ReddenInvariant.init : ReddenInvariant imm x (reddenAll imm x.predecessors fun _ => .uncolored).2
      (reddenAll imm x.predecessors fun _ => .uncolored) := by
  have h0 : Colors imm [] fun _ : Event D => Color.uncolored := ⟨by simp, by simp⟩
  obtain ⟨hcolors, hnew, hmem⟩ := h0.reddenAll himm
    (fun p hp => lt_of_mem_preds (mem_predecessors.mp hp)) (by simp)
  exact ⟨hcolors, hnew, fun w hw => hw, fun p hp => hmem p (mem_predecessors.mpr hp), fun p hp hnp => absurd hp hnp⟩

omit himm in
omit [DecidableEq D] in
lemma ReddenInvariant.mem_iff (h : ReddenInvariant imm x [] s) : z ∈ s.2 ↔ z < x := by
  refine ⟨h.lt z, fun hz => ?_⟩
  obtain ⟨p, hp, hzp⟩ := lt_iff_pred.mp hz
  exact of_le_of_closed (fun q hq => h.closed q hq not_mem_nil) hzp (h.preds p hp)

end

/-! ### It ends -/

variable (imm : Event D → List (Event D))

lemma reddenAll_sublist (ps : List (Event D)) (color : Event D → Color) : (reddenAll imm ps color).2.Sublist ps := by
  induction ps generalizing color with
  | nil => exact List.Sublist.refl _
  | cons p ps ih =>
    rw [reddenAll]
    split_ifs
    · exact (ih color).cons p
    · exact (ih _).cons_cons p

lemma predecessors_sublist (e : Event D) : e.predecessors.Sublist e.preds := by
  unfold predecessors
  split
  any_goals exact List.Sublist.refl _
  all_goals
    split
    · rename_i a b h
      rw [h]
      split_ifs with hab
      · exact List.Sublist.cons_cons a (nil_sublist _)
      · exact List.Sublist.refl _
    · exact List.Sublist.refl _

lemma sum_paths_reddenAll (e : Event D) (color : Event D → Color) :
    ((reddenAll imm e.predecessors color).2.map paths).sum < e.paths := by
  have hsub := ((reddenAll_sublist imm e.predecessors color).trans (predecessors_sublist e)).map paths
  have := hsub.sum_le_sum (fun _ _ => Nat.zero_le _)
  rw [paths_eq]
  omega

variable (U : Unfolding D M)

lemma causes_isSome (e : Event D) :
    (Worklist.run U.causesStep e.paths (reddenAll U.immediateConflicts e.predecessors fun _ => .uncolored).2
      (reddenAll U.immediateConflicts e.predecessors fun _ => .uncolored)).isSome = true := by
  refine Worklist.run_isSome (I := fun _ _ => True) (m := fun W _ => (W.map paths).sum) (fun _ _ _ _ => trivial) ?_
    trivial (sum_paths_reddenAll _ _ _).le
  intro w W s _
  have := sum_paths_reddenAll U.immediateConflicts w s.1
  simp only [causesStep, map_append, sum_append, map_cons, sum_cons]
  omega

/-! ## The second loop -/

/-- `W` is the worklist, `L` are the successors still to look at and `B` were blue from the start. -/
structure SearchInvariant (U : Unfolding D M) (x : Event D) (B : Event D → Prop) (W L : List (Event D))
    (s : (Event D → Color) × List (Event D)) : Prop where
  causes : ∀ z < x, s.1 z = .red
  red : ∀ {z}, s.1 z = .red → z < x ∨ z ∈ U.events ∧ z ≠ x ∧ ¬ B z ∧ x.isIndependentOf z = true
  closed : ∀ {z q}, s.1 z = .red → q ∈ z.preds → s.1 q = .red
  blue : ∀ {z}, s.1 z = .blue ↔ B z ∨ z ∈ s.2
  result : ∀ {z}, z ∈ s.2 → z ∈ U.events ∧ z ≠ x ∧ ¬ z < x ∧ ¬ B z ∧ x.isIndependentOf z = false ∧
    ∀ q ∈ z.preds, s.1 q = .red
  pending : ∀ {z}, z ∈ U.events → z.Consistent → z ≠ x → s.1 z = .uncolored → (∀ q ∈ z.preds, s.1 q = .red) →
    (∃ w ∈ W, w ∈ z.immediatePredecessors) ∨ z ∈ L

section
variable {U : Unfolding D M} {B : Event D → Prop} {W L : List (Event D)} {s : (Event D → Color) × List (Event D)}
  (hvalid : ∀ z ∈ U.events, z.Valid)

lemma SearchInvariant.red_of_le (h : SearchInvariant U x B W L s) {a b : Event D} (hab : a ≤ b) (hb : s.1 b = .red) :
    s.1 a = .red := of_le_of_closed (fun _ hc _ hp => h.closed hc hp) hab hb

include hvalid

section
variable (h : SearchInvariant U x B W (z :: L) s) (hz : z ∈ U.events) (hzx : z ≠ x)
    (hcol : s.1 z ≠ .red ∧ s.1 z ≠ .blue) (hpreds : ∀ q ∈ z.preds, s.1 q = .red)
include h hz hzx hcol hpreds

lemma SearchInvariant.colorRed
    (hind : x.isIndependentOf z = true) : SearchInvariant U x B (z :: W) L (update s.1 z .red, s.2) := by
  have hupd : ∀ {v}, update s.1 z Color.red v = .red ↔ v = z ∨ s.1 v = .red := by
    intro v
    rw [update_apply]
    split_ifs with hv <;> simp [hv]
  constructor
  case causes => exact fun v hv => hupd.mpr (.inr (h.causes v hv))
  case red =>
    intro v hv
    rcases hupd.mp hv with rfl | hv
    · exact .inr ⟨hz, hzx, fun hB => hcol.2 (h.blue.mpr (.inl hB)), hind⟩
    · exact h.red hv
  case closed =>
    intro v q hv hq
    rcases hupd.mp hv with rfl | hv
    · exact hupd.mpr (.inr (hpreds q hq))
    · exact hupd.mpr (.inr (h.closed hv hq))
  case blue =>
    intro v
    dsimp only
    rw [update_apply]
    split_ifs with hv
    · subst hv
      simpa [h.blue] using hcol.2
    · exact h.blue
  case result =>
    intro v hv
    obtain ⟨h1, h2, h3, h4, h5, h6⟩ := h.result hv
    exact ⟨h1, h2, h3, h4, h5, fun q hq => hupd.mpr (.inr (h6 q hq))⟩
  case pending =>
    intro v hv hc hvx hvcol hp
    dsimp only at hvcol
    have hvz : v ≠ z := by
      rintro rfl
      simp at hvcol
    rw [update_of_ne hvz] at hvcol
    by_cases hall : ∀ q ∈ v.preds, s.1 q = .red
    · rcases h.pending hv hc hvx hvcol hall with ⟨w, hw, hwv⟩ | hL
      · exact .inl ⟨w, mem_cons_of_mem z hw, hwv⟩
      · exact .inr ((mem_cons.mp hL).resolve_left hvz)
    · -- `z` was the last predecessor to become red, so it is an immediate one
      push Not at hall
      obtain ⟨q, hq, hqr⟩ := hall
      obtain rfl : q = z := (hupd.mp (hp q hq)).resolve_right hqr
      obtain ⟨p, hpv, hqp⟩ := (hc.threadOrdered (hvalid v hv)).exists_immediatePred_of_mem (hvalid v hv) hq
      rcases hqp.eq_or_lt' with rfl | hqp'
      · exact .inl ⟨p, mem_cons_self, hpv⟩
      · obtain ⟨r, hr, hpr⟩ := lt_iff_pred.mp (immediatePred_lt (hvalid v hv) hpv)
        have hrq : r ≠ q := fun hrq => (hpr.trans (le_of_eq hrq)).not_gt hqp'
        exact absurd (h.red_of_le (hqp.trans hpr) ((hupd.mp (hp r hr)).resolve_left hrq)) hqr

omit hvalid in
lemma SearchInvariant.colorBlue
    (hind : x.isIndependentOf z = false) : SearchInvariant U x B W L (update s.1 z .blue, s.2 ++ [z]) := by
  have hred : ∀ {v}, update s.1 z Color.blue v = .red ↔ s.1 v = .red := by
    intro v
    rw [update_apply]
    split_ifs with hv
    · simpa [hv] using hcol.1
    · rfl
  constructor
  case causes => exact fun v hv => hred.mpr (h.causes v hv)
  case red => exact fun hv => h.red (hred.mp hv)
  case closed => exact fun hv hq => hred.mpr (h.closed (hred.mp hv) hq)
  case blue =>
    intro v
    dsimp only
    rw [update_apply]
    split_ifs with hv
    · simp [hv]
    · rw [h.blue]
      simp [hv]
  case result =>
    intro v hv
    rcases mem_append.mp hv with hv | hv
    · obtain ⟨h1, h2, h3, h4, h5, h6⟩ := h.result hv
      exact ⟨h1, h2, h3, h4, h5, fun q hq => hred.mpr (h6 q hq)⟩
    · obtain rfl := mem_singleton.mp hv
      exact ⟨hz, hzx, fun hlt => hcol.1 (h.causes v hlt), fun hB => hcol.2 (h.blue.mpr (.inl hB)), hind,
        fun q hq => hred.mpr (hpreds q hq)⟩
  case pending =>
    intro v hv hc hvx hvcol hp
    dsimp only at hvcol
    have hvz : v ≠ z := by
      rintro rfl
      simp at hvcol
    rw [update_of_ne hvz] at hvcol
    rcases h.pending hv hc hvx hvcol fun q hq => hred.mp (hp q hq) with hw | hL
    · exact .inl hw
    · exact .inr ((mem_cons.mp hL).resolve_left hvz)

end

omit hvalid in
lemma SearchInvariant.skip (h : SearchInvariant U x B W (z :: L) s)
    (hz : z ≠ x → s.1 z = .uncolored → ¬ ∀ q ∈ z.preds, s.1 q = .red) : SearchInvariant U x B W L s where
  __ := h
  pending hv hc hvx hcol hp := by
    refine (h.pending hv hc hvx hcol hp).imp_right fun hL => (mem_cons.mp hL).resolve_left ?_
    rintro rfl
    exact hz hvx hcol hp

lemma SearchInvariant.examine (hz : z ∈ U.events) (h : SearchInvariant U x B W (z :: L) s) :
    SearchInvariant U x B (examine x (W, s) z).1 L (Unfolding.examine x (W, s) z).2 := by
  have hred : ¬ (z.predecessors.any fun p => s.1 p ≠ .red) = true → ∀ q ∈ z.preds, s.1 q = .red := by
    intro hany q hq
    by_contra hqr
    exact hany (any_eq_true.mpr ⟨q, mem_predecessors.mpr hq, decide_eq_true hqr⟩)
  unfold Unfolding.examine
  dsimp only
  split_ifs with hskip hpreds hind
  · refine h.skip fun hzx hcol _ => ?_
    rcases hskip with hx | hr | hb
    · exact hzx hx
    · exact absurd (hcol.symm.trans hr) (by decide)
    · exact absurd (hcol.symm.trans hb) (by decide)
  · obtain ⟨q, hq, hqr⟩ := any_eq_true.mp hpreds
    exact h.skip fun _ _ hp => of_decide_eq_true hqr (hp q (mem_predecessors.mp hq))
  · simp only [not_or] at hskip
    exact h.colorRed hvalid hz hskip.1 hskip.2 (hred hpreds) hind
  · simp only [not_or] at hskip
    exact h.colorBlue hz hskip.1 hskip.2 (hred hpreds) (by simpa using hind)

lemma SearchInvariant.foldl (hL : ∀ z ∈ L, z ∈ U.events) (h : SearchInvariant U x B W L s) :
    SearchInvariant U x B (L.foldl (Unfolding.examine x) (W, s)).1 [] (L.foldl (Unfolding.examine x) (W, s)).2 := by
  induction L generalizing W s with
  | nil => exact h
  | cons z L ih =>
    exact ih (fun v hv => hL v (mem_cons_of_mem z hv)) (h.examine hvalid (hL z mem_cons_self))

variable (hsucc : ∀ {w z}, z ∈ U.successors w ↔ z ∈ U.events ∧ w ∈ z.immediatePredecessors)
include hsucc

lemma SearchInvariant.step {w : Event D} (h : SearchInvariant U x B (w :: W) [] s) :
    SearchInvariant U x B (U.successorsStep x w W s).1 [] (U.successorsStep x w W s).2 := by
  refine SearchInvariant.foldl hvalid (fun z hz => (hsucc.mp hz).1) ?_
  refine { h with pending := fun hv hc hvx hcol hp => ?_ }
  obtain ⟨w', hw', hwv⟩ := (h.pending hv hc hvx hcol hp).resolve_right (by simp)
  rcases mem_cons.mp hw' with rfl | hw'
  · exact .inr (hsucc.mpr ⟨hv, hwv⟩)
  · exact .inl ⟨w', hw', hwv⟩

omit hsucc in
lemma SearchInvariant.init (hx : programInit < x) (h : ReddenInvariant U.immediateConflicts x [] s) :
    SearchInvariant U x (fun z => ∃ p < x, z ∈ U.immediateConflicts p) s.2.reverse [] (s.1, []) := by
  have hred : ∀ {z}, s.1 z = .red ↔ z < x := h.colors.red.trans h.mem_iff
  constructor
  case causes => exact fun z hz => hred.mpr hz
  case red => exact fun hz => .inl (hred.mp hz)
  case closed => exact fun hz hq => hred.mpr ((lt_of_mem_preds hq).trans (hred.mp hz))
  case blue => simp [h.colors.blue, h.mem_iff]
  case result => simp
  case pending =>
    intro z hz hc _ hcol hp
    have hne : z.preds ≠ [] := by
      intro hnil
      rw [eq_programInit_of_preds_eq_nil (hvalid z hz).checks hnil] at hcol
      exact absurd (hcol.symm.trans (hred.mpr hx)) (by decide)
    obtain ⟨q, hq⟩ := exists_mem_of_ne_nil _ hne
    obtain ⟨p, hpz, -⟩ := (hc.threadOrdered (hvalid z hz)).exists_immediatePred_of_mem (hvalid z hz) hq
    obtain ⟨r, hr, hpr⟩ := lt_iff_pred.mp (immediatePred_lt (hvalid z hz) hpz)
    exact .inl ⟨p, by simpa [h.mem_iff] using hpr.trans_lt (hred.mp (hp r hr)), hpz⟩

end

/-! ### It ends -/

def searchMeasure (W : List (Event D)) (s : (Event D → Color) × List (Event D)) : ℕ :=
  W.length + (U.events.filter fun z => s.1 z = .uncolored).length

lemma length_filter_update_lt {color : Event D → Color} {es : List (Event D)} {c : Color} (hc : c ≠ .uncolored)
    (hz : z ∈ es) (hcol : color z = .uncolored) :
    (es.filter fun v => update color z c v = .uncolored).length < (es.filter fun v => color v = .uncolored).length := by
  have heq : (es.filter fun v => update color z c v = .uncolored) =
      (es.filter fun v => color v = .uncolored).filter fun v => v ≠ z := by
    rw [filter_filter]
    refine filter_congr fun v _ => ?_
    rw [update_apply]
    split_ifs with hv <;> simp [hv, hc]
  rw [heq, length_filter_lt_length_iff_exists]
  exact ⟨z, mem_filter.mpr ⟨hz, decide_eq_true hcol⟩, by simp⟩

lemma searchMeasure_examine (x : Event D) (hz : z ∈ U.events) (W : List (Event D))
    (s : (Event D → Color) × List (Event D)) :
    U.searchMeasure (examine x (W, s) z).1 (examine x (W, s) z).2 ≤ U.searchMeasure W s := by
  unfold examine
  split_ifs with hskip hpreds hind
  · exact le_rfl
  · exact le_rfl
  all_goals
    have hcol : s.1 z = .uncolored := by
      cases hcol : s.1 z <;> simp [hcol] at hskip
      rfl
    unfold searchMeasure
  · have := length_filter_update_lt (c := .red) (by decide) hz hcol
    simp only [length_cons]
    omega
  · have := length_filter_update_lt (c := .blue) (by decide) hz hcol
    dsimp only
    omega

lemma successors_isSome (hsucc : ∀ {w z}, z ∈ U.successors w → z ∈ U.events) (x : Event D)
    (W : List (Event D)) (color : Event D → Color) :
    (Worklist.run (U.successorsStep x) (W.length + U.events.length) W.reverse (color, [])).isSome = true := by
  refine Worklist.run_isSome (I := fun _ _ => True) (m := U.searchMeasure) (fun _ _ _ _ => trivial) ?_ trivial ?_
  · intro w W s _
    have hfold : U.searchMeasure (U.successorsStep x w W s).1 (U.successorsStep x w W s).2 ≤ U.searchMeasure W s :=
      foldlRecOn (motive := fun r => uncurry U.searchMeasure r ≤ _) _ _ le_rfl fun r hr z hz =>
        (searchMeasure_examine U x (hsucc hz) r.1 r.2).trans hr
    refine hfold.trans_lt ?_
    simp [searchMeasure]
  · have := length_filter_le (fun z => color z = .uncolored) U.events
    simp only [searchMeasure, length_reverse]
    omega

lemma computeImmConflicts_isSome (hsucc : ∀ {w z}, z ∈ U.successors w → z ∈ U.events)
    (x : Event D) : (U.computeImmediateConflicts x).isSome = true := by
  obtain ⟨s, hs⟩ := Option.isSome_iff_exists.mp (U.causes_isSome x)
  obtain ⟨r, hr⟩ := Option.isSome_iff_exists.mp (U.successors_isSome hsucc x s.2 s.1)
  simp [computeImmediateConflicts, hs, hr]

/-! ## What is found -/

section
variable {U : Unfolding D M} {B : Event D → Prop} {s : (Event D → Color) × List (Event D)}
  (hclosed : ∀ z ∈ U.events, ∀ p ∈ z.preds, p ∈ U.events) (hnew : ∀ z ∈ U.events, x ≤ z → z = x)
include hclosed hnew

/-- At the end the red events are the causes of `x` and what is concurrent to it. -/
lemma SearchInvariant.red_iff (h : SearchInvariant U x B [] [] s) (hz : z ∈ U.events)
    (hc : z.Consistent) (hzx : z ≠ x) :
    s.1 z = .red ↔ ∀ w ≤ z, w < x ∨ ¬ B w ∧ x.isIndependentOf w = true := by
  constructor
  · intro hred w hw
    exact (h.red (h.red_of_le hw hred)).imp_right fun h => ⟨h.2.2.1, h.2.2.2⟩
  · intro hfree
    induction z using induction with
    | h z ih =>
      have hpreds : ∀ q ∈ z.preds, s.1 q = .red := by
        intro q hq
        have hlt := lt_of_mem_preds hq
        refine ih q hq (hclosed z hz q hq) (hc.mono hlt.le) ?_ fun w hw => hfree w (hw.trans hlt.le)
        rintro rfl
        exact hzx (hnew z hz hlt.le)
      cases hcol : s.1 z with
      | red => rfl
      | uncolored => simpa using h.pending hz hc hzx hcol hpreds
      | blue =>
        rcases hfree z le_rfl with hlt | ⟨hB, hind⟩
        · exact hcol.symm.trans (h.causes z hlt)
        · rcases h.blue.mp hcol with hB' | hr
          · exact absurd hB' hB
          · simp [(h.result hr).2.2.2.2.1] at hind

lemma SearchInvariant.mem_result_iff (h : SearchInvariant U x B [] [] s) (hz : z ∈ U.events)
    (hc : z.Consistent) (hzx : z ≠ x) :
    z ∈ s.2 ↔ ¬ z < x ∧ ¬ B z ∧ x.isIndependentOf z = false ∧ ∀ w < z, w < x ∨ ¬ B w ∧ x.isIndependentOf w = true := by
  have hpred : ∀ {q}, q ∈ z.preds → q ∈ U.events ∧ q.Consistent ∧ q ≠ x := by
    intro q hq
    have hlt := lt_of_mem_preds hq
    refine ⟨hclosed z hz q hq, hc.mono hlt.le, ?_⟩
    rintro rfl
    exact hzx (hnew z hz hlt.le)
  constructor
  · intro hr
    obtain ⟨-, -, hlt, hB, hind, hpreds⟩ := h.result hr
    refine ⟨hlt, hB, hind, fun w hw => ?_⟩
    obtain ⟨q, hq, hwq⟩ := lt_iff_pred.mp hw
    obtain ⟨hqU, hqc, hqx⟩ := hpred hq
    exact (h.red_iff hclosed hnew hqU hqc hqx).mp (hpreds q hq) w hwq
  · rintro ⟨hlt, hB, hind, hfree⟩
    have hpreds : ∀ q ∈ z.preds, s.1 q = .red := by
      intro q hq
      obtain ⟨hqU, hqc, hqx⟩ := hpred hq
      exact (h.red_iff hclosed hnew hqU hqc hqx).mpr fun w hw => hfree w (hw.trans_lt (lt_of_mem_preds hq))
    cases hcol : s.1 z with
    | red =>
      rcases h.red hcol with hlt' | hr
      · exact absurd hlt' hlt
      · simp [hr.2.2.2] at hind
    | uncolored => simpa using h.pending hz hc hzx hcol hpreds
    | blue => exact (h.blue.mp hcol).resolve_left hB

end

lemma mem_computeImmConflicts {U : Unfolding D M} (hvalid : ∀ z ∈ U.events, z.Valid)
    (hclosed : ∀ z ∈ U.events, ∀ p ∈ z.preds, p ∈ U.events)
    (hsucc : ∀ {w z}, z ∈ U.successors w ↔ z ∈ U.events ∧ w ∈ z.immediatePredecessors)
    (hnew : ∀ z ∈ U.events, x ≤ z → z = x) (hx : programInit < x)
    (himm : ∀ p < x, ∀ c ∈ U.immediateConflicts p, ¬ c < x) {r : List (Event D)}
    (hr : U.computeImmediateConflicts x = some r) (hz : z ∈ U.events) (hc : z.Consistent) (hzx : z ≠ x) :
    z ∈ r ↔ ¬ z < x ∧ (∀ p < x, z ∉ U.immediateConflicts p) ∧ x.isIndependentOf z = false ∧
      ∀ w < z, w < x ∨ (∀ p < x, w ∉ U.immediateConflicts p) ∧ x.isIndependentOf w = true := by
  simp only [computeImmediateConflicts, Option.bind_eq_bind, Option.bind_eq_some_iff] at hr
  obtain ⟨s, hs, s', hs', hr⟩ := hr
  cases hr
  have h1 := Worklist.run_invariant (fun w W s => ReddenInvariant.step himm rfl) (ReddenInvariant.init himm) hs
  have h2 := Worklist.run_invariant (I := fun W s => SearchInvariant U x _ W [] s)
    (fun w W s => SearchInvariant.step hvalid hsucc) (SearchInvariant.init hvalid hx h1) hs'
  rw [h2.mem_result_iff hclosed hnew hz hc hzx]
  simp

end Unfolding
end Por
