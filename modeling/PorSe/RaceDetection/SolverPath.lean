import PorSe.RaceDetection.FastPath

/-! Together the two paths are exact: what the fast path leaves undecided the solver path
decides by one query, which holds for exactly the assignments without an overlap. -/

namespace RaceDetection
open List
open Por

variable {I E D A : Type}

/-! ## Queries -/

instance Condition.decidableHolds (value : E → ℕ) : (q : Condition E) → Decidable (q.Holds value)
  | .true => inferInstanceAs (Decidable True)
  | .ult a b => inferInstanceAs (Decidable (a.eval value < b.eval value))
  | .or a b => @instDecidableOr _ _ (decidableHolds value a) (decidableHolds value b)
  | .and a b => @instDecidableAnd _ _ (decidableHolds value a) (decidableHolds value b)

/-- Every query is answered correctly for the assignments that satisfy the path constraints. -/
structure SolverInterface.Correct (interface : SolverInterface E) (Sat : A → Prop) (value : A → E → ℕ) : Prop where
  mustBeTrue : ∀ q, ∃ answer, interface.mustBeTrue q = some answer ∧ (answer = true ↔ ∀ a, Sat a → q.Holds (value a))
  mayBeTrue : ∀ q, ∃ answer, interface.mayBeTrue q = some answer ∧ (answer = true ↔ ∃ a, Sat a ∧ q.Holds (value a))
  mayBeFalse : ∀ q, ∃ answer, interface.mayBeFalse q = some answer ∧ (answer = true ↔ ∃ a, Sat a ∧ ¬ q.Holds (value a))

namespace DataRaceDetection

lemma endOf_eval {value : E → ℕ} {offset : PointerExpr E} {numBytes : ℕ} (hpos : 0 < numBytes)
    (hlt : offset.eval value + numBytes < 2 ^ 64) :
    (endOf offset numBytes).eval value = offset.eval value + numBytes - 1 := by
  have hlast : (numBytes + (2 ^ 64 - 1)) % 2 ^ 64 = numBytes - 1 := by omega
  rw [endOf, PointerExpr.eval, PointerExpr.eval, add64]
  omega

lemma notOverlapping_holds_iff {value : E → ℕ} {op : MemoryOperation I E} {access : AccessToCheck I E}
    (hpos : 0 < op.numBytes) (hlt : value op.offset + op.numBytes < 2 ^ 64) (hpos' : 0 < access.numBytes)
    (hlt' : access.offset.eval value + access.numBytes < 2 ^ 64) :
    (notOverlapping op access).Holds value ↔ ¬ (access.offset.eval value < value op.offset + op.numBytes ∧
      value op.offset < access.offset.eval value + access.numBytes) := by
  have hzext : (PointerExpr.zext op.offset).eval value = value op.offset := rfl
  rw [notOverlapping, Condition.Holds, Condition.Holds, Condition.Holds, endOf_eval hpos (hzext ▸ hlt),
    endOf_eval hpos' hlt']
  omega

lemma isSafeForAll_iff {value : E → ℕ} {op : MemoryOperation I E} (accesses : List (AccessToCheck I E)) :
    (queryIsSafeForAll op accesses).Holds value ↔ ∀ access ∈ accesses, (notOverlapping op access).Holds value := by
  have key : ∀ query : Condition E, (accesses.foldl (fun query access => .and query (notOverlapping op access))
      query).Holds value ↔ query.Holds value ∧ ∀ access ∈ accesses, (notOverlapping op access).Holds value := by
    induction accesses with
    | nil => simp
    | cons access accesses ih =>
      intro query
      rw [foldl_cons, ih, Condition.Holds, forall_mem_cons, and_assoc]
  rw [queryIsSafeForAll, key, Condition.Holds, true_and]

end DataRaceDetection

/-! ## The accesses of one record -/

section
variable [Offset E] {op m : MemoryOperation I E} {ops : List (MemoryOperation I E)} {r : AccessRecord I E}
  {tid : ThreadId} {value : E → ℕ} {L : OperationList I E}

def Overlaps (value : E → ℕ) (op m : MemoryOperation I E) : Prop :=
  ∃ x, (value op.offset ≤ x ∧ x < value op.offset + op.numBytes) ∧ value m.offset ≤ x ∧ x < value m.offset + m.numBytes

def Conflicts (op m : MemoryOperation I E) : Prop :=
  (isRead m.type || isWrite m.type) = true ∧ (isWrite op.type || isWrite m.type) = true

structure Fits (value : E → ℕ) (op : MemoryOperation I E) (ops : List (MemoryOperation I E)) : Prop where
  constant : ∀ offset b, Offset.constantValue offset = some b → value offset = b
  pos : 0 < op.numBytes
  lt : value op.offset + op.numBytes < 2 ^ 64
  all : ∀ m ∈ ops, (isRead m.type || isWrite m.type) = true → 0 < m.numBytes ∧ value m.offset + m.numBytes < 2 ^ 64

omit [Offset E] in
lemma overlaps_iff (hpos : 0 < op.numBytes) (hpos' : 0 < m.numBytes) : Overlaps value op m ↔
    value m.offset < value op.offset + op.numBytes ∧ value op.offset < value m.offset + m.numBytes := by
  constructor
  · rintro ⟨x, hx, _⟩
    omega
  · intro h
    exact ⟨max (value op.offset) (value m.offset), by omega, by omega⟩

lemma mem_symbolicAccesses {offset : E} {acc : Access I} : (offset, acc) ∈ DataRaceDetection.symbolicAccesses r ↔
    acc ∈ (r.accesses.getD .empty).symbolicAt offset := by
  simp only [DataRaceDetection.symbolicAccesses, mem_flatMap, mem_map, Prod.exists, Prod.mk.injEq]
  rw [OperationList.symbolicAt]
  constructor
  · rintro ⟨o, accs, hentry, _, hacc, rfl, rfl⟩
    rw [show (r.accesses.getD .empty).symbolic.find? o = some accs from SortedMap.mem_entries_iff.mp hentry]
    exact hacc
  · intro hacc
    cases hfind : (r.accesses.getD .empty).symbolic.find? offset with
    | none => simp [hfind] at hacc
    | some accs =>
      rw [hfind] at hacc
      exact ⟨offset, accs, SortedMap.mem_entries_iff.mpr hfind, acc, hacc, rfl, rfl⟩

lemma SymbolicExact.overlaps_iff (h : SymbolicExact L ops) (hfits : Fits value op ops) :
    (∃ offset, ∃ acc ∈ L.symbolicAt offset, (isWrite op.type || isWrite acc.type) = true ∧
      value offset < value op.offset + op.numBytes ∧ value op.offset < value offset + acc.numBytes) ↔
    ∃ m ∈ ops, Offset.constantValue m.offset = none ∧ Conflicts op m ∧ Overlaps value op m := by
  constructor
  · rintro ⟨offset, acc, hacc, hconf, hover⟩
    obtain ⟨hnone, m, hm, hrw, rfl, rfl⟩ := h.sound offset acc hacc
    exact ⟨m, hm, hnone, ⟨hrw, hconf⟩, (RaceDetection.overlaps_iff hfits.pos (hfits.all m hm hrw).1).mpr hover⟩
  · rintro ⟨m, hm, hnone, ⟨hrw, hconf⟩, hover⟩
    obtain ⟨acc, hacc, hle, htype⟩ := h.complete m hm hrw hnone
    obtain ⟨hlt, hgt⟩ := (RaceDetection.overlaps_iff hfits.pos (hfits.all m hm hrw).1).mp hover
    refine ⟨m.offset, acc, hacc, ?_, hlt, hgt.trans_le (Nat.add_le_add_left hle _)⟩
    rcases htype with hw | hread
    · simp [hw]
    · have hmw : isWrite m.type = false := by
        have hread : isRead m.type = true := hread
        cases ht : m.type <;> simp_all [isRead, isWrite]
      simp_all

lemma ListExact.overlaps_iff (h : ListExact L ops) (hfits : Fits value op ops) :
    (∃ p ∈ L.concrete.entries, (isWrite op.type || isWrite p.2.type) = true ∧
      p.1 < value op.offset + op.numBytes ∧ value op.offset < p.1 + p.2.numBytes) ↔
    ∃ m ∈ ops, (Offset.constantValue m.offset).isSome = true ∧ Conflicts op m ∧ Overlaps value op m := by
  constructor
  · rintro ⟨p, hp, hconf, _, _⟩
    have hpos := hfits.pos
    have hpos' := (h.spaced.entry_of_mem hp).1
    obtain ⟨m, hm, hrw, hconf', b, hb, hx⟩ := (h.conflict_iff op.type).mp
      ⟨p, hp, hconf, le_max_right (value op.offset) p.1, by omega⟩
    refine ⟨m, hm, by simp [hb], ⟨hrw, hconf'⟩, max (value op.offset) p.1, by omega, ?_⟩
    rwa [hfits.constant m.offset b hb]
  · rintro ⟨m, hm, hsome, ⟨hrw, hconf⟩, x, hx, hx'⟩
    obtain ⟨b, hb⟩ := Option.isSome_iff_exists.mp hsome
    rw [hfits.constant m.offset b hb] at hx'
    obtain ⟨p, hp, hconf', _, _⟩ := (h.conflict_iff op.type).mpr ⟨m, hm, hrw, hconf, b, hb, hx'⟩
    exact ⟨p, hp, hconf', by omega, by omega⟩

lemma symbolic_safe_iff (h : SymbolicExact (r.accesses.getD .empty) ops) (hfits : Fits value op ops) :
    (∀ p ∈ (DataRaceDetection.symbolicAccesses r).filter fun p => isWrite op.type || isWrite p.2.type,
      (DataRaceDetection.notOverlapping op ⟨tid, .zext p.1, p.2.numBytes, p.2.instruction⟩).Holds value) ↔
    ¬ ∃ m ∈ ops, Offset.constantValue m.offset = none ∧ Conflicts op m ∧ Overlaps value op m := by
  rw [← h.overlaps_iff hfits]
  have hone : ∀ p ∈ DataRaceDetection.symbolicAccesses r, (DataRaceDetection.notOverlapping op
      ⟨tid, .zext p.1, p.2.numBytes, p.2.instruction⟩).Holds value ↔ ¬ (value p.1 < value op.offset + op.numBytes ∧
        value op.offset < value p.1 + p.2.numBytes) := by
    rintro ⟨offset, acc⟩ hp
    obtain ⟨-, m, hm, hrw, rfl, rfl⟩ := h.sound offset acc (mem_symbolicAccesses.mp hp)
    obtain ⟨hpos, hlt⟩ := hfits.all m hm hrw
    exact DataRaceDetection.notOverlapping_holds_iff hfits.pos hfits.lt hpos hlt
  constructor
  · rintro hall ⟨offset, acc, hacc, hconf, hover⟩
    have hp := mem_symbolicAccesses.mpr hacc
    exact (hone _ hp).mp (hall _ (mem_filter.mpr ⟨hp, hconf⟩)) hover
  · intro hnone p hp
    obtain ⟨hp, hconf⟩ := mem_filter.mp hp
    exact (hone p hp).mpr fun hover => hnone ⟨p.1, p.2, mem_symbolicAccesses.mp hp, hconf, hover⟩

lemma concrete_safe_iff (h : ListExact (r.accesses.getD .empty) ops) (hfits : Fits value op ops) :
    (∀ p ∈ r.getConcreteAccesses.entries.filter fun p => isWrite op.type || isWrite p.2.type,
      (DataRaceDetection.notOverlapping op ⟨tid, .pointer p.1, p.2.numBytes, p.2.instruction⟩).Holds value) ↔
    ¬ ∃ m ∈ ops, (Offset.constantValue m.offset).isSome = true ∧ Conflicts op m ∧ Overlaps value op m := by
  rw [← h.overlaps_iff hfits]
  have hone : ∀ p ∈ (r.accesses.getD .empty).concrete.entries, (DataRaceDetection.notOverlapping op
      ⟨tid, .pointer p.1, p.2.numBytes, p.2.instruction⟩).Holds value ↔ ¬ (p.1 < value op.offset + op.numBytes ∧
        value op.offset < p.1 + p.2.numBytes) := by
    intro p hp
    obtain ⟨hpos, _, -⟩ := h.spaced.entry_of_mem hp
    have heval : (PointerExpr.pointer p.1 : PointerExpr E).eval value = p.1 := Nat.mod_eq_of_lt (by omega)
    rw [DataRaceDetection.notOverlapping_holds_iff hfits.pos hfits.lt hpos (by rwa [heval]), heval]
  constructor
  · rintro hall ⟨p, hp, hconf, hover⟩
    exact (hone p hp).mp (hall p (mem_filter.mpr ⟨hp, hconf⟩)) hover
  · intro hnone p hp
    obtain ⟨hp, hconf⟩ := mem_filter.mp hp
    exact (hone p hp).mpr fun hover => hnone ⟨p, hp, hconf, hover⟩

/-- If the fast path was undecided there is an access to check, and the bounds tell whether an operation overlaps. -/
lemma accessesToCheck_spec (hr : r.Exact ops) (hrace : DataRaceDetection.racesAt op r = false)
    (hop : (isRead op.type || isWrite op.type) = true) (tid : ThreadId) :
    ∃ accesses, DataRaceDetection.accessesToCheck op tid r = .ok accesses ∧
      (DataRaceDetection.undecidedAt op r = true → accesses ≠ []) ∧
      ∀ value, Fits value op ops → ((∀ access ∈ accesses, (DataRaceDetection.notOverlapping op access).Holds value) ↔
          ¬ ∃ m ∈ ops, Conflicts op m ∧ Overlaps value op m) := by
  have halloc : r.isAllocOrFree = false := (Bool.or_eq_false_iff.mp hrace).1
  have hL := hr.list halloc
  rw [DataRaceDetection.accessesToCheck, DataRaceDetection.undecidedAt, halloc]
  simp only [Bool.false_eq_true, if_false]
  cases hb : Offset.constantValue op.offset with
  | some b =>
    refine ⟨_, if_pos rfl, ?_, fun value hfits => ?_⟩
    · intro hund
      obtain ⟨p, hp, hconf⟩ := any_eq_true.mp hund
      exact ne_nil_of_mem (mem_map_of_mem (mem_filter.mpr ⟨hp, hconf⟩))
    · rw [forall_mem_map, symbolic_safe_iff hL.symbolic hfits, not_iff_not]
      constructor
      · rintro ⟨m, hm, -, h⟩
        exact ⟨m, hm, h⟩
      · rintro ⟨m, hm, hconf, hover⟩
        refine ⟨m, hm, ?_, hconf, hover⟩
        by_contra hsome
        obtain ⟨b', hb'⟩ := Option.ne_none_iff_exists'.mp hsome
        obtain ⟨x, hx, hx'⟩ := hover
        have hlt := hfits.lt
        rw [hfits.constant _ b hb] at hx hlt
        rw [hfits.constant _ b' hb'] at hx'
        have hraces := (DataRaceDetection.racesAt_iff_of_constant hr ⟨hop, hb, hfits.pos, hlt⟩).mpr
          ⟨m, hm, .inr ⟨hconf.1, hconf.2, x, ⟨b, hb, hx⟩, b', hb', hx'⟩⟩
        simp [hrace] at hraces
  | none =>
    -- Reads and writes at the offset of the operation do not conflict with it: that is a race already.
    have hne : ((DataRaceDetection.symbolicAccesses r).filter fun p => isWrite op.type || isWrite p.2.type).any
        (fun p => decide (p.1 = op.offset)) = false := by
      rw [DataRaceDetection.racesAt, halloc, hb, Bool.false_or, any_eq_false] at hrace
      rw [any_eq_false]
      intro p hp heq
      obtain ⟨hp, hconf⟩ := mem_filter.mp hp
      refine hrace p (mem_filter.mpr ⟨hp, heq⟩) ?_
      cases hop' : op.type <;> cases hp' : p.2.type <;> simp_all [isRead, isWrite]
    refine ⟨_, by rw [hne]; rfl, ?_, fun value hfits => ?_⟩
    · intro hund hnil
      obtain ⟨hconcrete, hsymbolic⟩ := append_eq_nil_iff.mp hnil
      rw [map_eq_nil_iff, filter_eq_nil_iff] at hconcrete hsymbolic
      rcases Bool.or_eq_true_iff.mp hund with h | h
      · obtain ⟨p, hp, hconf⟩ := any_eq_true.mp h
        exact hsymbolic p (mem_filter.mp hp).1 hconf
      · obtain ⟨_, hacc, hconf⟩ := any_eq_true.mp h
        obtain ⟨p, hp, rfl⟩ := mem_map.mp hacc
        exact hconcrete p hp hconf
    · rw [forall_mem_append, forall_mem_map, forall_mem_map, symbolic_safe_iff hL.symbolic hfits,
        concrete_safe_iff hL hfits, ← not_or, not_iff_not]
      constructor
      · rintro (⟨m, hm, -, h⟩ | ⟨m, hm, -, h⟩) <;> exact ⟨m, hm, h⟩
      · rintro ⟨m, hm, h⟩
        cases hc : Offset.constantValue m.offset with
        | none => exact .inr ⟨m, hm, hc, h⟩
        | some b => exact .inl ⟨m, hm, by rw [hc]; rfl, h⟩

end

section
variable [Offset E] [DecidableEq D] {C : Configuration D} {det : DataRaceDetection I E D}
  {log : List (Event D × MemoryOperation I E)} {op : MemoryOperation I E} {cur : Event D}
  {interface : SolverInterface E} {Sat : A → Prop} {value : A → E → ℕ}

/-- It overlaps a concurrent access under the assignment, one of the two being a write. -/
def RacesUnder (C : Configuration D) (log : List (Event D × MemoryOperation I E)) (op : MemoryOperation I E)
    (cur : Event D) (value : E → ℕ) : Prop :=
  ∃ m, Concurrent C log op cur m ∧ Conflicts op m ∧ Overlaps value op m

def NoWrap (Sat : A → Prop) (value : A → E → ℕ) (log : List (Event D × MemoryOperation I E))
    (op : MemoryOperation I E) : Prop :=
  ∀ a, Sat a → value a op.offset + op.numBytes < 2 ^ 64 ∧
    ∀ p ∈ log, (isRead p.2.type || isWrite p.2.type) = true → value a p.2.offset + p.2.numBytes < 2 ^ 64

lemma Fits.of_concurrent {v : E → ℕ} (h : Fits v op (log.map Prod.snd)) {ops : List (MemoryOperation I E)}
    (hall : ∀ m ∈ ops, Concurrent C log op cur m) : Fits v op ops where
  constant := h.constant
  pos := h.pos
  lt := h.lt
  all m hm := by
    obtain ⟨a, ha, -⟩ := hall m hm
    exact h.all m (mem_map_of_mem ha)

def collected (op : MemoryOperation I E) (p : ThreadId × AccessRecord I E) : List
    (DataRaceDetection.AccessToCheck I E) :=
  (DataRaceDetection.accessesToCheck op p.1 p.2).toOption.getD []

lemma Tracks.solver_accesses (hT : Tracks C det log) (hW : C.WellFormed) (hcur : C.lastOfTid op.tid = some cur)
    (hlive : Live log op.object) (hop : (isRead op.type || isWrite op.type) = true)
    (hfast : det.fastPath C op = .ok none) :
    ∃ accesses, ((det.recordsToCheck C cur op).mapM fun (tid, accessed) =>
        DataRaceDetection.accessesToCheck op tid accessed) = .ok accesses ∧ accesses.flatten ≠ [] ∧
      ∀ v, Fits v op (log.map Prod.snd) →
        ((DataRaceDetection.queryIsSafeForAll op accesses.flatten).Holds v ↔ ¬ RacesUnder C log op cur v) := by
  have hcurC := Configuration.mem_of_lastOfTid hcur
  have hfree : isAllocOrFree op.type = false := by
    cases ht : op.type <;> simp_all [isAllocOrFree, isRead, isWrite]
  rw [DataRaceDetection.fastPath_eq hcur] at hfast
  have hrace : ∀ p ∈ det.recordsToCheck C cur op, DataRaceDetection.racesAt op p.2 = false := by
    by_contra hsome
    obtain ⟨_, heq, -⟩ := DataRaceDetection.fastLoop_of_racesAt (by simpa using hsome) hfree (some .noRace)
    rw [heq] at hfast
    cases hfast
  have hund : ∃ p ∈ det.recordsToCheck C cur op, DataRaceDetection.undecidedAt op p.2 = true := by
    rw [DataRaceDetection.fastLoop_of_not_racesAt hrace hfree] at hfast
    split_ifs at hfast with hany
    · exact any_eq_true.mp hany
    · cases hfast
  have hspec : ∀ p ∈ det.recordsToCheck C cur op, ∀ {ops : List (MemoryOperation I E)}, p.2.Exact ops →
      DataRaceDetection.accessesToCheck op p.1 p.2 = .ok (collected op p) ∧
        (DataRaceDetection.undecidedAt op p.2 = true → collected op p ≠ []) ∧
        ∀ v, Fits v op ops → ((∀ access ∈ collected op p, (DataRaceDetection.notOverlapping op access).Holds v) ↔
          ¬ ∃ m ∈ ops, Conflicts op m ∧ Overlaps v op m) := by
    intro p hp ops hr
    obtain ⟨accesses, heq, h⟩ := accessesToCheck_spec hr (hrace p hp) hop p.1
    have hcollected : collected op p = accesses := by rw [collected, heq]; rfl
    rw [hcollected]
    exact ⟨heq, h⟩
  refine ⟨(det.recordsToCheck C cur op).map (collected op), ListSearch.mapM_eq_ok_map fun p hp =>
    ?_, ?_, fun v hv => ?_⟩
  · obtain ⟨ops, hexact, -⟩ := hT.exact_of_mem hW hlive hcurC hp
    exact (hspec p hp hexact).1
  · obtain ⟨p, hp, hpund⟩ := hund
    obtain ⟨ops, hexact, -⟩ := hT.exact_of_mem hW hlive hcurC hp
    obtain ⟨access, haccess⟩ := exists_mem_of_ne_nil _ ((hspec p hp hexact).2.1 hpund)
    exact ne_nil_of_mem (mem_flatten.mpr ⟨_, mem_map_of_mem hp, haccess⟩)
  · rw [DataRaceDetection.isSafeForAll_iff]
    constructor
    · rintro hsafe ⟨m, hm, hconf, hover⟩
      obtain ⟨r, ops, hr, hexact, hmops, hall⟩ := hT.exists_record hW hlive hcurC hm
      refine ((hspec _ hr hexact).2.2 v (hv.of_concurrent hall)).mp (fun access haccess => ?_) ⟨m, hmops, hconf, hover⟩
      exact hsafe access (mem_flatten.mpr ⟨_, mem_map_of_mem hr, haccess⟩)
    · intro hsafe access haccess
      obtain ⟨l, hl, haccess⟩ := mem_flatten.mp haccess
      obtain ⟨p, hp, rfl⟩ := mem_map.mp hl
      obtain ⟨ops, hexact, hall⟩ := hT.exact_of_mem hW hlive hcurC hp
      refine ((hspec p hp hexact).2.2 v (hv.of_concurrent hall)).mpr ?_ access haccess
      rintro ⟨m, hm, hrace⟩
      exact hsafe ⟨m, hall m hm, hrace⟩

omit [Offset E] in
lemma exists_racingAccess (hsolver : interface.Correct Sat value) {a : A} (ha : Sat a)
    {accesses : List (DataRaceDetection.AccessToCheck I E)}
    (hnot : ¬ (DataRaceDetection.queryIsSafeForAll op accesses).Holds (value a)) :
    ∃ access, DataRaceDetection.racingAccess interface op accesses = some access := by
  rw [DataRaceDetection.isSafeForAll_iff] at hnot
  push Not at hnot
  obtain ⟨access, haccess, hover⟩ := hnot
  obtain ⟨_, heq, hanswer⟩ := hsolver.mayBeFalse (DataRaceDetection.notOverlapping op access)
  refine Option.isSome_iff_exists.mp (find?_isSome.mpr ⟨access, haccess, ?_⟩)
  rw [heq, hanswer.mpr ⟨a, ha, hover⟩]
  rfl

/-- If the fast path does not decide, the solver path reports a race exactly if some satisfying assignment races;
`canBeSafe` tells whether one does not, and `conditionToBeSafe` holds for those. -/
theorem History.solverPath_exact (h : History DataRaceDetection.KeepsKeys C det log)
    (hcur : C.lastOfTid op.tid = some cur) (hlive : Live log op.object)
    (hop : (isRead op.type || isWrite op.type) = true) (hpos : 0 < op.numBytes)
    (hconst : ∀ a offset b, Offset.constantValue offset = some b → value a offset = b)
    (hwrap : NoWrap Sat value log op) (hsolver : interface.Correct Sat value)
    (hfast : det.fastPath C op = .ok none) :
    ∃ result, det.solverPath C interface op = .ok (some result) ∧
      (result.isRace = false ↔ ∀ a, Sat a → ¬ RacesUnder C log op cur (value a)) ∧
      (result.isRace = true → (result.canBeSafe = true ↔ ∃ a, Sat a ∧ ¬ RacesUnder C log op cur (value a)) ∧
        (result.canBeSafe = true → ∃ q, result.conditionToBeSafe = some q ∧
          ∀ a, Sat a → (q.Holds (value a) ↔ ¬ RacesUnder C log op cur (value a)))) := by
  have hT := h.tracks
  obtain ⟨accesses, hmap, hne, hquery⟩ := hT.solver_accesses h.reachable.wellFormed hcur hlive hop hfast
  have hq : ∀ a, Sat a → ((DataRaceDetection.queryIsSafeForAll op accesses.flatten).Holds (value a) ↔
      ¬ RacesUnder C log op cur (value a)) := by
    intro a ha
    obtain ⟨hlt, hall⟩ := hwrap a ha
    refine hquery (value a) ⟨hconst a, hpos, hlt, fun m hm hrw => ?_⟩
    obtain ⟨p, hp, rfl⟩ := mem_map.mp hm
    refine ⟨Nat.pos_of_ne_zero ((hT.loggable p hp).bytes.resolve_left fun halloc => ?_), hall p hp hrw⟩
    cases ht : p.2.type <;> simp [ht, isAllocOrFree, isRead, isWrite] at halloc hrw
  obtain ⟨must, hmust, hmust'⟩ := hsolver.mustBeTrue (DataRaceDetection.queryIsSafeForAll op accesses.flatten)
  obtain ⟨_, hmay, hmay'⟩ := hsolver.mayBeTrue (DataRaceDetection.queryIsSafeForAll op accesses.flatten)
  have hempty : accesses.flatten.isEmpty = false := by simpa using hne
  rw [DataRaceDetection.solverPath, show C.threadHeads.find? op.tid = some cur from hcur]
  dsimp only
  rw [hmap, Heap.ok_bind, hempty]
  simp only [hmust]
  cases must with
  | true =>
    refine ⟨_, rfl, ⟨fun _ a ha => (hq a ha).mp (hmust'.mp rfl a ha), fun _ => rfl⟩, fun hrace => ?_⟩
    exact absurd hrace Bool.false_ne_true
  | false =>
    have hunsafe : ∃ a, Sat a ∧ ¬ (DataRaceDetection.queryIsSafeForAll op accesses.flatten).Holds (value a) := by
      by_contra hall
      push Not at hall
      exact absurd (hmust'.mpr hall) (by decide)
    obtain ⟨a, ha, hnot⟩ := hunsafe
    obtain ⟨_, hracing⟩ := exists_racingAccess hsolver ha hnot
    simp only [hmay, hracing]
    refine ⟨_, rfl, ⟨fun hrace => absurd hrace.symm Bool.false_ne_true, fun hall => absurd
      ((hq a ha).mpr (hall a ha)) hnot⟩,
      fun _ => ⟨?_, fun hmay => ?_⟩⟩
    · rw [hmay']
      exact exists_congr fun a => and_congr_right (hq a)
    · exact ⟨_, if_pos hmay, hq⟩

end

/-! ## A moved entry -/

section
open Configuration DataRaceDetection

def valueEight : SimpleOffset → ℕ := fun offset => (Offset.constantValue offset).getD 8

def solverEight : SolverInterface SimpleOffset where
  mustBeTrue q := some (decide (q.Holds valueEight))
  mayBeTrue q := some (decide (q.Holds valueEight))
  mayBeFalse q := some (decide (¬ q.Holds valueEight))

lemma correct_solverEight : solverEight.Correct (fun _ : Unit => True) fun _ => valueEight where
  mustBeTrue q := ⟨_, rfl, by simp⟩
  mayBeTrue q := ⟨_, rfl, by simp⟩
  mayBeFalse q := ⟨_, rfl, by simp⟩

def symbolicWrite : MemoryOperation ℕ SimpleOffset := ⟨0, .write, .main, ⟨0, 0⟩, toLex (.inr 0), 1⟩

lemma noWrap_workerLog (n : ℕ) :
    NoWrap (fun _ : Unit => True) (fun _ => valueEight) (workerLog.take n) symbolicWrite := by
  have hop : valueEight symbolicWrite.offset + symbolicWrite.numBytes < 2 ^ 64 := by decide
  have hlog : ∀ p ∈ workerLog, valueEight p.2.offset + p.2.numBytes < 2 ^ 64 := by decide
  exact fun _ _ => ⟨hop, fun p hp _ => hlog p (mem_of_mem_take hp)⟩

theorem solverPath_exact_forked : ∃ result, workerRead.solverPath forked solverEight symbolicWrite = .ok (some result) ∧
      (result.isRace = false ↔ ∀ _ : Unit, True →
        ¬ RacesUnder forked (workerLog.take 1) symbolicWrite forkedCreate valueEight) ∧
      (result.isRace = true → (result.canBeSafe = true ↔ ∃ _ : Unit, True ∧
          ¬ RacesUnder forked (workerLog.take 1) symbolicWrite forkedCreate valueEight) ∧
        (result.canBeSafe = true → ∃ q, result.conditionToBeSafe = some q ∧ ∀ _ : Unit, True →
          (q.Holds valueEight ↔ ¬ RacesUnder forked (workerLog.take 1) symbolicWrite forkedCreate valueEight))) :=
  (history_workerRead keepsKeys_read).solverPath_exact rfl (live_workerLog 1) rfl (by decide)
    (fun _ _ _ h => by rw [valueEight, h, Option.getD_some]) (noWrap_workerLog 1) correct_solverEight rfl

/-- With the offset 8, which was not accessed, the moved entry makes the solver path report a race. -/
theorem solverPath_race_without_overlap : History (fun _ _ _ => True) forked workerReadWrite workerLog ∧
      (∀ r ∈ workerReadWrite.allRecords, r.getConcreteAccesses.entries.Pairwise fun p q =>
        p.1 + p.2.numBytes ≤ q.1) ∧
      NoWrap (fun _ : Unit => True) (fun _ => valueEight) workerLog symbolicWrite ∧
      solverEight.Correct (fun _ : Unit => True) (fun _ => valueEight) ∧
      workerReadWrite.fastPath forked symbolicWrite = .ok none ∧
      (∃ result, workerReadWrite.solverPath forked solverEight symbolicWrite = .ok (some result) ∧
        result.isRace = true) ∧
      ¬ RacesUnder forked workerLog symbolicWrite forkedCreate valueEight := by
  refine ⟨(history_workerRead trivial).track rfl trivial rfl, ?_, noWrap_workerLog 2, correct_solverEight, rfl,
    ⟨_, rfl, rfl⟩, ?_⟩
  · intro r hr
    obtain rfl := mem_singleton.mp hr
    decide
  · rintro ⟨m, ⟨a, hm, -⟩, -, x, ⟨hle, -⟩, -, hlt⟩
    have hend : valueEight m.offset + m.numBytes ≤ valueEight symbolicWrite.offset := by
      rcases mem_pair.mp hm with heq | heq
      · obtain ⟨-, rfl⟩ := Prod.mk.inj heq
        decide
      · obtain ⟨-, rfl⟩ := Prod.mk.inj heq
        decide
    exact absurd (hle.trans_lt hlt) (not_lt.mpr hend)

end

end RaceDetection
