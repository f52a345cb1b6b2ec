import PorSe.Por.ImmediateConflicts

/-! What the unfolding keeps true while events are stored: the successor lists are the Hasse
diagram, and the immediate conflicts are those of the event structure. -/

namespace Por
open List Option Event
namespace Unfolding
variable {D M : Type} [DecidableEq D]
open EventStructure (ImmediateConflict)

structure WellFormed (U : Unfolding D M) : Prop where
  root : programInit ∈ U.events
  checks : ∀ {e}, e ∈ U.events → e.checks = true
  closed : ∀ {e p}, e ∈ U.events → p ∈ e.preds → p ∈ U.events
  successors : ∀ {w z}, z ∈ U.successors w ↔ z ∈ U.events ∧ w ∈ z.immediatePredecessors
  conflicts_mem : ∀ {x y}, y ∈ U.immediateConflicts x → x ∈ U.events ∧ y ∈ U.events
  conflicts_symm : ∀ {x y}, y ∈ U.immediateConflicts x → x ∈ U.immediateConflicts y
  exact : ∀ {x y}, x ∈ U.events → y ∈ U.events → x.Consistent → y.Consistent →
    (y ∈ U.immediateConflicts x ↔ ImmediateConflict Dependent x y)

variable {U U' : Unfolding D M} {e z v : Event D} {c : Candidate D M}

lemma WellFormed.congr (h : U.WellFormed) (he : U'.events = U.events) (hs : U'.successors = U.successors)
    (hi : U'.immediateConflicts = U.immediateConflicts) : U'.WellFormed := by
  obtain ⟨events, successors, conflicts, _, _, _⟩ := U'
  obtain rfl : events = U.events := he
  obtain rfl : successors = U.successors := hs
  obtain rfl : conflicts = U.immediateConflicts := hi
  exact ⟨h.root, h.checks, h.closed, h.successors, h.conflicts_mem, h.conflicts_symm, h.exact⟩

lemma WellFormed.mem_of_le (h : U.WellFormed) {a : Event D} (hae : a ≤ e) (he : e ∈ U.events) : a ∈ U.events :=
  of_le_of_closed (fun _ he _ hp => h.closed he hp) hae he

lemma WellFormed.valid (h : U.WellFormed) (he : e ∈ U.events) : e.Valid :=
  fun _ hx => h.checks (h.mem_of_le hx he)

/-! ## Storing a new event -/

lemma mem_result_of_run (hsucc : ∀ {w z}, z ∈ U.successors w → z ∈ U.events) {x : Event D} {r : List (Event D)}
    (hr : U.computeImmediateConflicts x = some r) (hz : z ∈ r) : z ∈ U.events ∧ z ≠ x := by
  simp only [computeImmediateConflicts, bind_eq_bind, bind_eq_some_iff] at hr
  obtain ⟨s, -, s', hs', hr⟩ := hr
  cases hr
  refine Worklist.run_invariant (I := fun _ s => ∀ z ∈ s.2, z ∈ U.events ∧ z ≠ x) ?_ (by simp) hs' z hz
  intro w W s hs
  refine foldlRecOn (motive := fun r : _ × _ × _ => ∀ z ∈ r.2.2, z ∈ U.events ∧ z ≠ x) _ _ hs fun r hr v hv z hz => ?_
  unfold examine at hz
  split_ifs at hz with hskip
  · exact hr z hz
  · exact hr z hz
  · exact hr z hz
  · rcases mem_append.mp hz with hz | hz
    · exact hr z hz
    · obtain rfl := mem_singleton.mp hz
      exact ⟨hsucc hv, fun h => hskip (.inl h)⟩

lemma mem_stored : z ∈ (U.stored c).events ↔ z ∈ U.events ∨ z = c.event := by
  simp [stored, addToSuccessors, storeEvent]

/-- The constructor accepted it and its predecessors are stored. -/
structure Admissible (U : Unfolding D M) (x : Event D) : Prop where
  checks : x.checks = true
  preds : ∀ p ∈ x.preds, p ∈ U.events

section
variable (hU : U.WellFormed) (hc : U.Admissible c.event)
include hU hc

variable {r : List (Event D)}

omit hc in
lemma WellFormed.successors_stored {w : Event D} :
    z ∈ (U.stored c).successors w ↔ z ∈ (U.stored c).events ∧ w ∈ z.immediatePredecessors := by
  rw [mem_stored]
  have : z ∈ (U.stored c).successors w ↔ z ∈ U.successors w ∨ z = c.event ∧ w ∈ c.event.immediatePredecessors :=
    mem_foldl_pushBack
  rw [this, hU.successors, or_and_right]
  refine or_congr_right ?_
  constructor <;> rintro ⟨rfl, hw⟩ <;> exact ⟨rfl, hw⟩

lemma WellFormed.closed_stored {p : Event D} (he : e ∈ (U.stored c).events) (hp : p ∈ e.preds) : p ∈ U.events := by
  rcases mem_stored.mp he with he | rfl
  · exact hU.closed he hp
  · exact hc.preds p hp

lemma WellFormed.valid_stored (he : e ∈ (U.stored c).events) : e.Valid := by
  rcases mem_stored.mp he with he | rfl
  · exact hU.valid he
  · exact valid_of_preds hc.checks fun p hp => hU.valid (hc.preds p hp)

variable (hnew : c.event ∉ U.events)
include hnew

omit hc in
lemma WellFormed.eq_of_event_le (hz : z ∈ (U.stored c).events) (hle : c.event ≤ z) : z = c.event :=
  (mem_stored.mp hz).resolve_left fun hz => hnew (hU.mem_of_le hle hz)

lemma WellFormed.programInit_lt : programInit < c.event := by
  refine lt_of_le_of_ne (programInit_le (hU.valid_stored hc (mem_stored.mpr (.inr rfl)))) ?_
  intro h
  exact hnew (h ▸ hU.root)

lemma WellFormed.mem_conflicts_iff (hcons : c.event.Consistent)
    (hr : (U.stored c).computeImmediateConflicts c.event = some r) (hz : z ∈ U.events) (hzc : z.Consistent) :
    z ∈ r ↔ ImmediateConflict Dependent c.event z := by
  have hlt : ∀ {p}, p < c.event → p ∈ U.events := by
    intro p hp
    obtain ⟨q, hq, hpq⟩ := lt_iff_pred.mp hp
    exact hU.mem_of_le hpq (hc.preds q hq)
  have hexact : ∀ {p w}, p < c.event → w ≤ z →
      (w ∈ U.immediateConflicts p ↔ ImmediateConflict Dependent p w) := fun hp hw =>
    hU.exact (hlt hp) (hU.mem_of_le hw hz) (hcons.mono hp.le) (hzc.mono hw)
  have hzne : z ≠ c.event := fun h => hnew (h ▸ hz)
  have himm : ∀ p < c.event, ∀ d ∈ (U.stored c).immediateConflicts p, ¬ d < c.event := fun p hp d hd hdx =>
    hcons.not_clash hp hdx ((hU.exact (hlt hp) (hlt hdx) (hcons.mono hp.le) (hcons.mono hdx.le)).mp hd).clash
  rw [mem_computeImmConflicts (fun z => hU.valid_stored hc)
    (fun z hz p hp => mem_stored.mpr (.inl (hU.closed_stored hc hz hp))) (hU.successors_stored)
    (fun z => hU.eq_of_event_le hnew) (hU.programInit_lt hc hnew) himm hr (mem_stored.mpr (.inl hz)) hzc hzne]
  have hxz : ¬ c.event ≤ z := fun h => hzne (hU.eq_of_event_le hnew (mem_stored.mpr (.inl hz)) h)
  have hvalid := hU.valid_stored hc (mem_stored.mpr (.inr rfl))
  rw [EventStructure.immConflict_iff hcons hzc hxz fun a ha b hb =>
    (dependent_comm (hU.valid hz b hb) (hvalid a ha)).mp]
  refine and_congr (not_congr (lt_iff_le_and_ne.trans (and_iff_left hzne))) (and_congr ?_ (and_congr Iff.rfl ?_))
  · exact forall₂_congr fun p hp => not_congr (hexact hp le_rfl)
  · refine forall₂_congr fun w hw => or_congr_right (and_congr ?_ ?_)
    · exact forall₂_congr fun p hp => not_congr (hexact hp hw.le)
    · rw [Dependent, Bool.not_eq_false]

lemma WellFormed.setImmediateConflicts (hr : (U.stored c).computeImmediateConflicts c.event = some r) :
    ((U.stored c).setImmediateConflicts c.event r).WellFormed := by
  have hmemr : ∀ {z}, z ∈ r → z ∈ U.events := by
    intro z hz
    obtain ⟨hz, hne⟩ := mem_result_of_run (fun h => ((hU.successors_stored).mp h).1) hr hz
    exact (mem_stored.mp hz).resolve_right hne
  have hold : ∀ {z y}, y ∈ U.immediateConflicts z → y ∈ U.events ∧ z ∈ U.events := fun h => (hU.conflicts_mem h).symm
  have hself : c.event ∉ r := fun h => hnew (hmemr h)
  have himm : ∀ {z y}, y ∈ ((U.stored c).setImmediateConflicts c.event r).immediateConflicts z ↔
      y ∈ U.immediateConflicts z ∨ z = c.event ∧ y ∈ r ∨ y = c.event ∧ z ∈ r := by
    intro z y
    refine mem_foldl_pushBack.trans ?_
    rw [Function.update_apply]
    split_ifs with hz
    · have : y ∉ U.immediateConflicts c.event := fun h => hnew (hold h).2
      simp [hz, this]
    · have : y ∈ (U.stored c).immediateConflicts z ↔ y ∈ U.immediateConflicts z := Iff.rfl
      simp [hz, this]
  constructor
  case root => exact mem_stored.mpr (.inl hU.root)
  case checks => exact fun he => (hU.valid_stored hc he).checks
  case closed => exact fun he hp => mem_stored.mpr (.inl (hU.closed_stored hc he hp))
  case successors => exact hU.successors_stored
  case conflicts_mem =>
    intro x y h
    rcases himm.mp h with hyx | ⟨rfl, hy⟩ | ⟨rfl, hx⟩
    · exact ⟨mem_stored.mpr (.inl (hold hyx).2), mem_stored.mpr (.inl (hold hyx).1)⟩
    · exact ⟨mem_stored.mpr (.inr rfl), mem_stored.mpr (.inl (hmemr hy))⟩
    · exact ⟨mem_stored.mpr (.inl (hmemr hx)), mem_stored.mpr (.inr rfl)⟩
  case conflicts_symm =>
    intro x y h
    rcases himm.mp h with h | h | h
    · exact himm.mpr (.inl (hU.conflicts_symm h))
    · exact himm.mpr (.inr (.inr h))
    · exact himm.mpr (.inr (.inl h))
  case exact =>
    intro x y hx hy hxc hyc
    have hne : ∀ {z}, z ∈ U.events → z ≠ c.event := fun hz h => hnew (h ▸ hz)
    have hnot : ∀ {z}, c.event ∉ U.immediateConflicts z ∧ z ∉ U.immediateConflicts c.event :=
      ⟨fun h => hnew (hold h).1, fun h => hnew (hold h).2⟩
    rw [himm]
    rcases mem_stored.mp hx with hxU | rfl <;> rcases mem_stored.mp hy with hyU | rfl
    · simp [hne hxU, hne hyU, hU.exact hxU hyU hxc hyc]
    · have hcomm := dependent_comm (hU.checks hxU) hc.checks
      rw [show ImmediateConflict Dependent x c.event ↔ ImmediateConflict Dependent c.event x from
        ⟨fun h => h.symm (hcomm.mp h.clash.1), fun h => h.symm (hcomm.mpr h.clash.1)⟩,
        ← hU.mem_conflicts_iff hc hnew hyc hr hxU hxc]
      simp [hne hxU, hnot]
    · rw [← hU.mem_conflicts_iff hc hnew hxc hr hyU hyc]
      simp [hne hyU, hnot]
    · simp only [hnot.1, hself, and_false, or_false, false_iff]
      exact fun h => h.clash.2.1 le_rfl

end

/-! ## `mark_as_cutoff` ends -/

omit [DecidableEq D] in
lemma le_maxDepth (he : e ∈ U.events) : e.depth ≤ U.maxDepth :=
  le_foldr_max (mem_map_of_mem he)

omit [DecidableEq D] in
lemma length_successors_le (he : e ∈ U.events) : (U.successors e).length ≤ U.width :=
  le_foldr_max (mem_map.mpr ⟨e, he, rfl⟩)

lemma WellFormed.markAsCutoff_isSome (hU : U.WellFormed) (hv : v ∈ U.events) : (U.markAsCutoff v).isSome = true := by
  unfold markAsCutoff
  split_ifs
  · rfl
  rw [isSome_map]
  refine Worklist.run_isSome_of_rank (r := fun e => U.maxDepth - e.depth)
    ?_ (fun w => length_successors_le) ?_ hv ?_
  · exact fun w W s => (filter_sublist.reverse).append_right W
  · intro w hw z hz
    obtain ⟨hzU, hwz⟩ := hU.successors.mp hz
    have hlt := depth_lt_depth (immediatePred_lt (hU.valid hzU) hwz)
    have hle := le_maxDepth hzU
    exact ⟨hzU, by omega⟩
  · exact Nat.pow_le_pow_right (Nat.succ_pos _) (Nat.sub_le _ _)

lemma markAsCutoff_eq_some (h : U.markAsCutoff v = some U') : ∃ isCutoff, U' = { U with isCutoff } := by
  unfold markAsCutoff at h
  split_ifs at h
  · exact ⟨U.isCutoff, (some.inj h).symm⟩
  · obtain ⟨b, -, rfl⟩ := map_eq_some_iff.mp h
    exact ⟨b, rfl⟩

/-! ## `deduplicate` -/

variable [Inhabited M] [DecidableEq M]

lemma deduplicate_cases {new : Bool} (h : U.deduplicate c = some (U', new, e)) :
    (∃ isCutoff, (isCutoff = U.isCutoff ∨ U.markAsCutoff e = some { U with isCutoff }) ∧
        U.events.find? c.event.compareEvents = some e ∧ new = false ∧
          U' = ({ U with isCutoff } : Unfolding D M).replaceDefaultMetadata e c.metadata) ∨
      U.events.find? c.event.compareEvents = none ∧ e = c.event ∧ new = true ∧
        ∃ r, (U.stored c).computeImmediateConflicts c.event = some r ∧
          U' = (U.stored c).setImmediateConflicts c.event r := by
  unfold deduplicate at h
  split at h
  · rename_i v hv
    obtain ⟨U1, hU1, h⟩ := map_eq_some_iff.mp h
    obtain ⟨rfl, rfl, rfl⟩ := h
    split_ifs at hU1
    · obtain ⟨b, rfl⟩ := markAsCutoff_eq_some hU1
      exact .inl ⟨b, .inr hU1, hv, rfl, rfl⟩
    · cases hU1
      exact .inl ⟨U.isCutoff, .inl rfl, hv, rfl, rfl⟩
  · rename_i hnone
    obtain ⟨r, hr, h⟩ := map_eq_some_iff.mp h
    obtain ⟨rfl, rfl, rfl⟩ := h
    exact .inr ⟨hnone, rfl, rfl, r, hr, rfl⟩

omit [Inhabited M] [DecidableEq M] in
lemma not_mem_of_find?_eq_none (h : U.events.find? c.event.compareEvents = none) :
    c.event ∉ U.events := fun hmem => find?_eq_none.mp h c.event hmem (compareEvents_self _)

lemma events_subset_of_deduplicate {new : Bool} (h : U.deduplicate c = some (U', new, e)) :
    U.events ⊆ U'.events := by
  rcases deduplicate_cases h with ⟨b, -, -, -, rfl⟩ | ⟨-, -, rfl, r, -, rfl⟩
  · unfold replaceDefaultMetadata
    split_ifs <;> exact Subset.refl _
  · exact subset_append_left _ _

lemma WellFormed.deduplicate (hU : U.WellFormed) (hc : U.Admissible c.event) {new : Bool}
    (h : U.deduplicate c = some (U', new, e)) : U'.WellFormed := by
  rcases deduplicate_cases h with ⟨b, -, -, -, rfl⟩ | ⟨hnone, -, -, r, hr, rfl⟩
  · unfold replaceDefaultMetadata
    split_ifs <;> exact hU.congr rfl rfl rfl
  · exact hU.setImmediateConflicts hc (not_mem_of_find?_eq_none hnone) hr

lemma WellFormed.deduplicate_isSome (hU : U.WellFormed) : (U.deduplicate c).isSome = true := by
  unfold Unfolding.deduplicate
  split
  · rename_i v hv
    rw [isSome_map]
    split_ifs
    · exact hU.markAsCutoff_isSome (mem_of_find?_eq_some hv)
    · rfl
  · rw [isSome_map]
    exact computeImmConflicts_isSome _ (fun h => ((hU.successors_stored).mp h).1) _

/-! ## Runs -/

/-- Reached by calls of `deduplicate`, in any order that stores predecessors first. -/
inductive Deduplicated : Unfolding D M → Prop
  | initial (size : BitVec 64) : Deduplicated (initial size)
  | deduplicate {U U' : Unfolding D M} {c : Candidate D M} {new : Bool} {e : Event D} (hU : Deduplicated U)
      (hc : U.Admissible c.event) (h : U.deduplicate c = some (U', new, e)) : Deduplicated U'

omit [DecidableEq M] in
lemma wellFormed_initial (size : BitVec 64) : (initial size : Unfolding D M).WellFormed := by
  have hmem : ∀ {e : Event D}, e ∈ (initial size : Unfolding D M).events ↔ e = programInit := by
    simp [initial, storeEvent, empty]
  constructor
  case root => exact hmem.mpr rfl
  case checks =>
    intro e he
    rw [hmem.mp he]
    rfl
  case closed =>
    intro e p he hp
    rw [hmem.mp he] at hp
    exact absurd hp not_mem_nil
  case successors =>
    intro w z
    refine ⟨fun h => absurd h not_mem_nil, ?_⟩
    rintro ⟨hz, hw⟩
    rw [hmem.mp hz] at hw
    exact absurd hw not_mem_nil
  case conflicts_mem => exact fun h => absurd h not_mem_nil
  case conflicts_symm => exact fun h => absurd h not_mem_nil
  case exact =>
    intro x y hx hy _ _
    rw [hmem.mp hx, hmem.mp hy]
    exact ⟨fun h => absurd h not_mem_nil, fun h => absurd le_rfl h.clash.2.1⟩

lemma Deduplicated.wellFormed (h : U.Deduplicated) : U.WellFormed := by
  induction h with
  | initial size => exact wellFormed_initial size
  | deduplicate _ hc h ih => exact ih.deduplicate hc h

instance (U : Unfolding D M) (x : Event D) : Decidable (U.Admissible x) :=
  decidable_of_iff (x.checks = true ∧ ∀ p ∈ x.preds, p ∈ U.events) ⟨fun h => ⟨h.1, h.2⟩, fun h => ⟨h.1, h.2⟩⟩

def storeAll (U : Unfolding D M) : List (Event D) → Option (Unfolding D M)
  | [] => some U
  | e :: es =>
    if U.Admissible e then (U.deduplicate ⟨e, false, default⟩).bind fun r => r.1.storeAll es else none

lemma Deduplicated.of_storeAll (hU : U.Deduplicated) {es : List (Event D)} (h : U.storeAll es = some U') :
    U'.Deduplicated := by
  induction es generalizing U with
  | nil =>
    cases h
    exact hU
  | cons e es ih =>
    rw [storeAll, ite_none_right_eq_some, bind_eq_some_iff] at h
    obtain ⟨he, ⟨U1, _, v⟩, hd, h⟩ := h
    exact ih (hU.deduplicate he hd) h

def ofEvents (es : List (Event D)) : Unfolding D M := ((initial 0).storeAll es).getD (initial 0)

lemma deduplicated_ofEvents (es : List (Event D)) : (ofEvents es : Unfolding D M).Deduplicated := by
  unfold ofEvents
  cases h : (initial 0 : Unfolding D M).storeAll es with
  | none => exact .initial 0
  | some U => exact (Deduplicated.initial 0).of_storeAll h

/-! ## The immediate conflicts -/

/-- The lists are symmetric and hold every immediate conflict, and nothing else between events with consistent causes.
-/
theorem Deduplicated.mem_immediateConflicts_iff {U : Unfolding D M} (hU : U.Deduplicated) :
    (∀ c : Candidate D M, U.Admissible c.event → (U.deduplicate c).isSome = true) ∧ ∀ x ∈ U.events, ∀ y ∈ U.events,
        (y ∈ U.immediateConflicts x ↔ x ∈ U.immediateConflicts y) ∧
          (ImmediateConflict Dependent x y → y ∈ U.immediateConflicts x) ∧
            (x.Consistent → y.Consistent → (y ∈ U.immediateConflicts x ↔
              ¬ x ≤ y ∧ ¬ y ≤ x ∧ x.isIndependentOf y = false ∧
                EventStructure.ConflictFree Dependent (Set.Iic x ∪ Set.Iio y) ∧
                  EventStructure.ConflictFree Dependent (Set.Iio x ∪ Set.Iic y))) := by
  have hwf := hU.wellFormed
  refine ⟨fun c _ => hwf.deduplicate_isSome, fun x hx y hy => ⟨⟨hwf.conflicts_symm, hwf.conflicts_symm⟩, ?_, ?_⟩⟩
  · intro h
    have hxc : x.Consistent := h.right.mono Set.subset_union_left
    have hyc : y.Consistent := h.left.mono Set.subset_union_right
    exact (hwf.exact hx hy hxc hyc).mpr h
  · intro hxc hyc
    rw [hwf.exact hx hy hxc hyc]
    constructor
    · exact fun h => ⟨h.clash.2.1, h.clash.2.2, h.clash.1, h.left, h.right⟩
    · rintro ⟨hxy, hyx, hdep, hleft, hright⟩
      exact ⟨⟨hdep, hxy, hyx⟩, hleft, hright⟩

/-! Two threads compete for a lock that has not been used before. The worker either releases
it or ends while it holds it; the main thread and a second worker wait for that end. -/

def mainInit : Event Unit := ⟨.main, .threadInit, [programInit]⟩
def createWorker : Event Unit := ⟨.main, .threadCreate worker, [mainInit]⟩
def createWorker2 : Event Unit := ⟨.main, .threadCreate worker2, [createWorker]⟩
def workerInit : Event Unit := ⟨worker, .threadInit, [createWorker]⟩
def worker2Init : Event Unit := ⟨worker2, .threadInit, [createWorker2]⟩
def acquireByMain : Event Unit := ⟨.main, .lockAcquire 1, [createWorker2]⟩
def acquireByWorker : Event Unit := ⟨worker, .lockAcquire 1, [workerInit]⟩
def releaseByWorker : Event Unit := ⟨worker, .lockRelease 1 false, [acquireByWorker, acquireByWorker]⟩
def workerExit : Event Unit := ⟨worker, .threadExit false, [acquireByWorker]⟩
def joinByMain : Event Unit := ⟨.main, .threadJoin, [acquireByMain, workerExit]⟩
def joinByWorker2 : Event Unit := ⟨worker2, .threadJoin, [worker2Init, workerExit]⟩

def competition : Unfolding Unit Unit :=
  ofEvents [mainInit, createWorker, createWorker2, workerInit, worker2Init, acquireByMain, acquireByWorker,
    releaseByWorker, workerExit, joinByWorker2, joinByMain]

theorem Deduplicated.mem_immediateConflicts_iff_competition : acquireByMain.Consistent ∧ acquireByWorker.Consistent ∧
      (acquireByWorker ∈ competition.immediateConflicts acquireByMain ↔ ¬ acquireByMain ≤ acquireByWorker ∧
        ¬ acquireByWorker ≤ acquireByMain ∧ acquireByMain.isIndependentOf acquireByWorker = false ∧
          EventStructure.ConflictFree Dependent (Set.Iic acquireByMain ∪ Set.Iio acquireByWorker) ∧
            EventStructure.ConflictFree Dependent (Set.Iio acquireByMain ∪ Set.Iic acquireByWorker)) := by
  have hx : acquireByMain.Consistent := by decide +kernel
  have hy : acquireByWorker.Consistent := by decide +kernel
  have h := Deduplicated.mem_immediateConflicts_iff (deduplicated_ofEvents _ : competition.Deduplicated)
  exact ⟨hx, hy, (h.2 acquireByMain (by decide +kernel) acquireByWorker (by decide +kernel)).2.2 hx hy⟩

/-- A release and a concurrent acquisition depend on each other, but the conflict is inherited. The joins are listed
though one has causes in conflict. -/
theorem immediateConflicts_ne_dependent_with_free_causes : competition.Deduplicated ∧
    (acquireByMain ∈ competition.events ∧ releaseByWorker ∈ competition.events ∧
      ¬ acquireByMain ≤ releaseByWorker ∧ ¬ releaseByWorker ≤ acquireByMain ∧
        acquireByMain.isIndependentOf releaseByWorker = false ∧
          EventStructure.ConflictFree Dependent (Set.Iio acquireByMain ∪ Set.Iio releaseByWorker) ∧
            releaseByWorker ∉ competition.immediateConflicts acquireByMain) ∧
      joinByMain ∈ competition.events ∧ joinByWorker2 ∈ competition.events ∧
        joinByWorker2 ∈ competition.immediateConflicts joinByMain ∧
          ¬ EventStructure.ConflictFree Dependent (Set.Iio joinByMain ∪ Set.Iio joinByWorker2) := by
  have hunion : ∀ x y : Event Unit, Set.Iio x ∪ Set.Iio y = {a | ∃ p ∈ x.preds ++ y.preds, a ≤ p} := by
    intro x y
    ext a
    simp only [Iio_eq, Set.mem_union, Set.mem_ofPred_eq, mem_append, or_and_right, exists_or]
  rw [hunion, hunion]
  exact ⟨deduplicated_ofEvents _, by decide +kernel, by decide +kernel⟩

end Unfolding
end Por
