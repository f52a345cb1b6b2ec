import PorSe.RaceDetection.Unsynchronised

/-! On concrete accesses the fast path is exact: the left neighbour and the scan to the
right find every entry that the operation overlaps. -/

namespace RaceDetection
open List Option
open Por

variable {I E D : Type} [Offset E]

section
variable {op : MemoryOperation I E} {ops : List (MemoryOperation I E)} {b x : ℕ} {m : SortedMap ℕ (Access I)}
  {L : OperationList I E}

lemma Spaced.entry_of_mem {ps : List (ℕ × Access I)} {p : ℕ × Access I} (h : Spaced b ps) (hp : p ∈ ps) :
    0 < p.2.numBytes ∧ p.1 + p.2.numBytes < 2 ^ 64 ∧ (isRead p.2.type || isWrite p.2.type) = true := by
  obtain ⟨ps, qs, rfl⟩ := append_of_mem hp
  obtain ⟨-, hpos, hlt, hrw, -⟩ := h.suffix
  exact ⟨hpos, hlt, hrw⟩

omit [Offset E] in
lemma concreteRace_isSome_iff (hs : Spaced 0 m.entries) (hpos : 0 < op.numBytes) (hlt : b + op.numBytes < 2 ^ 64) :
    (DataRaceDetection.concreteRace op b m).isSome = true ↔ ∃ p ∈ m.entries,
      (isWrite op.type || isWrite p.2.type) = true ∧ p.1 < b + op.numBytes ∧ b < p.1 + p.2.numBytes := by
  obtain ⟨pre, rest, hat, hpre, hrest⟩ := m.at_lowerBound b
  have hadd : add64 b op.numBytes = b + op.numBytes := Nat.mod_eq_of_lt hlt
  have hend : ∀ p ∈ m.entries, add64 p.1 p.2.numBytes = p.1 + p.2.numBytes := fun p hp =>
    Nat.mod_eq_of_lt (hs.entry_of_mem hp).2.1
  have hright : ∀ {p}, p ∈ rest.takeWhile (fun p => decide (p.1 < add64 b op.numBytes)) ↔
      p ∈ rest ∧ p.1 < b + op.numBytes := by
    intro p
    rw [ListSearch.mem_takeWhile_iff (pairwise_append.mp hat.sorted).2.1, decide_eq_true_eq, hadd]
    intro p q _ _ hpq hq
    rw [decide_eq_true_eq] at hq ⊢
    exact hpq.trans hq
  rw [DataRaceDetection.concreteRace, hat.filter_eq hpre hrest]
  constructor
  · split
    next prev hprev =>
      intro _
      obtain ⟨hleft, htest⟩ := Option.filter_eq_some_iff.mp hprev
      obtain ⟨ps, hps, -⟩ := Heap.exists_of_leftEntry hat hleft
      have hmem : prev ∈ pre := by simp [hps]
      have hentry : prev ∈ m.entries := hat.entries ▸ mem_append_left rest hmem
      have hb := hpre prev hmem
      simp only [Bool.and_eq_true, decide_eq_true_eq, hend prev hentry] at htest
      exact ⟨prev, hentry, htest.1, by omega, htest.2⟩
    next =>
      rw [Option.isSome_map, find?_isSome]
      rintro ⟨p, hp, hconf⟩
      obtain ⟨hp, hlt'⟩ := hright.mp hp
      have hentry : p ∈ m.entries := hat.entries ▸ mem_append_right pre hp
      have hb := hrest p hp
      have hpos' := (hs.entry_of_mem hentry).1
      exact ⟨p, hentry, hconf, hlt', by omega⟩
  · rintro ⟨p, hp, hconf, hlt', hgt⟩
    rcases mem_append.mp (hat.entries ▸ hp) with hmem | hmem
    · -- An entry that begins to the left and overlaps is the left neighbour.
      obtain ⟨ps, qs, rfl⟩ := append_of_mem hmem
      have hs' : Spaced 0 (ps ++ (p.1, p.2) :: (qs ++ rest)) := by simpa [hat.entries] using hs
      have hnext : ∀ q ∈ qs ++ rest, b < q.1 := fun q hq => hgt.trans_le (hs'.suffix.2.2.2.2.le_of_mem hq)
      obtain rfl : qs = [] := eq_nil_iff_forall_not_mem.mpr fun q hq =>
        absurd (hpre q (by simp [hq])) (not_lt_of_gt (hnext q (mem_append_left rest hq)))
      have hleft : Heap.leftEntry m b = some p := by
        rw [Heap.leftEntry, if_neg, hat.prev, getLast?_concat]
        rw [hat.position]
        intro hhead
        obtain ⟨q, hq, hqb⟩ := Option.map_eq_some_iff.mp hhead
        exact absurd hqb (hnext q (mem_append_right [] (mem_of_head? hq))).ne'
      have htest : decide (b < add64 p.1 p.2.numBytes) = true := by simpa [hend p hp] using hgt
      simp [hleft, Option.filter, hconf, htest]
    · split
      · rfl
      · rw [Option.isSome_map, find?_isSome]
        exact ⟨p, hright.mpr ⟨hmem, hlt'⟩, hconf⟩

lemma ListExact.conflict_iff (hL : ListExact L ops) (t : AccessType) :
    (∃ p ∈ L.concrete.entries, (isWrite t || isWrite p.2.type) = true ∧ p.1 ≤ x ∧ x < p.1 + p.2.numBytes) ↔
      ∃ m ∈ ops, (isRead m.type || isWrite m.type) = true ∧ (isWrite t || isWrite m.type) = true ∧ m.Touches x := by
  constructor
  · rintro ⟨p, hp, hconf, hle, hlt⟩
    cases hw : isWrite p.2.type with
    | true =>
      obtain ⟨m, hm, hmw, htouch⟩ := (hL.bytes.write x).mp ⟨p, hp, hw, hle, hlt⟩
      exact ⟨m, hm, by simp [hmw], by simp [hmw], htouch⟩
    | false =>
      have hr : isRead p.2.type = true := by simpa [hw] using (hL.spaced.entry_of_mem hp).2.2
      obtain ⟨⟨m, hm, hmr, htouch⟩, -⟩ := (hL.bytes.read x).mp ⟨p, hp, hr, hle, hlt⟩
      have ht : isWrite t = true := by simpa [hw] using hconf
      exact ⟨m, hm, by simp [hmr], by simp [ht], htouch⟩
  · rintro ⟨m, hm, hmrw, hconf, htouch⟩
    by_cases hwritten : Tracked isWrite ops x
    · obtain ⟨p, hp, hw, hle, hlt⟩ := (hL.bytes.write x).mpr hwritten
      exact ⟨p, hp, by simp [hw], hle, hlt⟩
    · have hmw : isWrite m.type = false := Bool.eq_false_iff.mpr fun hw => hwritten ⟨m, hm, hw, htouch⟩
      have hmr : isRead m.type = true := by simpa [hmw] using hmrw
      have ht : isWrite t = true := by simpa [hmw] using hconf
      obtain ⟨p, hp, -, hle, hlt⟩ := (hL.bytes.read x).mpr ⟨⟨m, hm, hmr, htouch⟩, hwritten⟩
      exact ⟨p, hp, by simp [ht], hle, hlt⟩

end

/-! ## The loops -/

namespace DataRaceDetection
variable {op : MemoryOperation I E} {ops : List (MemoryOperation I E)} {r : AccessRecord I E} {tid : ThreadId}
  {records : List (ThreadId × AccessRecord I E)} {result : Option (RaceDetectionResult I E)} {b : ℕ}

def racesAt (op : MemoryOperation I E) (r : AccessRecord I E) : Bool :=
  r.isAllocOrFree ||
    match Offset.constantValue op.offset with
    | some b => (concreteRace op b r.getConcreteAccesses).isSome
    | none => ((symbolicAccesses r).filter fun p => decide (p.1 = op.offset)).any fun p =>
        !(isRead op.type && isRead p.2.type)

def undecidedAt (op : MemoryOperation I E) (r : AccessRecord I E) : Bool :=
  match Offset.constantValue op.offset with
  | some _ => (symbolicAccesses r).any fun p => isWrite op.type || isWrite p.2.type
  | none => ((symbolicAccesses r).filter fun p => decide (p.1 ≠ op.offset)).any (fun p =>
      isWrite op.type || isWrite p.2.type) ||
        r.getConcreteAccesses.values.any fun acc => isWrite op.type || isWrite acc.type

lemma fastCheck_of_racesAt (h : racesAt op r = true) (hop : isAllocOrFree op.type = false) (tid : ThreadId)
    (result : Option (RaceDetectionResult I E)) :
    ∃ res, fastCheck op tid r result = .inl res ∧ res.isRace = true := by
  rw [fastCheck, hop]
  rw [racesAt] at h
  cases hr : r.isAllocOrFree with
  | true => exact ⟨_, rfl, rfl⟩
  | false =>
    rw [hr] at h
    cases hb : Offset.constantValue op.offset with
    | some b =>
      rw [hb] at h
      obtain ⟨_, hacc⟩ := isSome_iff_exists.mp h
      simp only [hacc]
      exact ⟨_, rfl, rfl⟩
    | none =>
      rw [hb] at h
      obtain ⟨p, hp⟩ := isSome_iff_exists.mp (find?_isSome.mpr (any_eq_true.mp h))
      simp only [hp]
      exact ⟨_, rfl, rfl⟩

lemma fastCheck_of_not_racesAt (h : racesAt op r = false) (hop : isAllocOrFree op.type = false) :
    fastCheck op tid r result = .inr (if undecidedAt op r then none else result) := by
  rw [racesAt, Bool.or_eq_false_iff] at h
  rw [fastCheck, hop, h.1, undecidedAt]
  simp only [Bool.or_self, Bool.false_eq_true, if_false]
  cases hb : Offset.constantValue op.offset with
  | some b =>
    have hnone : concreteRace op b r.getConcreteAccesses = none := by simpa [hb] using h.2
    simp [hnone]
  | none =>
    have hany := h.2
    simp only [hb] at hany
    have hnone := find?_eq_none.mpr (any_eq_false.mp hany)
    simp only [hnone]

lemma fastLoop_of_racesAt (h : ∃ p ∈ records, racesAt op p.2 = true) (hop : isAllocOrFree op.type = false)
    (result : Option (RaceDetectionResult I E)) :
    ∃ res, fastLoop op records result = some res ∧ res.isRace = true := by
  induction records generalizing result with
  | nil => simp at h
  | cons p records ih =>
    rw [fastLoop]
    cases hp : racesAt op p.2 with
    | true =>
      obtain ⟨res, heq, hrace⟩ := fastCheck_of_racesAt hp hop p.1 result
      rw [heq]
      exact ⟨res, rfl, hrace⟩
    | false =>
      rw [fastCheck_of_not_racesAt hp hop]
      exact ih (by simpa [hp] using h) _

lemma fastLoop_of_not_racesAt (h : ∀ p ∈ records, racesAt op p.2 = false) (hop : isAllocOrFree op.type = false) :
    fastLoop op records result = if records.any (fun p => undecidedAt op p.2) then none else result := by
  induction records generalizing result with
  | nil => rfl
  | cons p records ih =>
    rw [fastLoop, fastCheck_of_not_racesAt (h p mem_cons_self) hop, any_cons]
    dsimp only
    rw [ih fun q hq => h q (mem_cons_of_mem p hq)]
    cases undecidedAt op p.2 with
    | true => simp
    | false => rfl

lemma racesAt_iff_of_constant (hr : r.Exact ops) (hop : op.Plain b) : racesAt op r = true ↔
    ∃ m ∈ ops, isAllocOrFree m.type = true ∨ (isRead m.type || isWrite m.type) = true ∧
      (isWrite op.type || isWrite m.type) = true ∧ ∃ x, op.Touches x ∧ m.Touches x := by
  rw [racesAt, hop.constant, Bool.or_eq_true, hr.alloc]
  cases halloc : r.isAllocOrFree with
  | true =>
    obtain ⟨m, hm, hfree⟩ := hr.alloc.mp halloc
    exact ⟨fun _ => ⟨m, hm, .inl hfree⟩, fun _ => .inl ⟨m, hm, hfree⟩⟩
  | false =>
    have hL := hr.list halloc
    rw [AccessRecord.getConcreteAccesses, concreteRace_isSome_iff hL.spaced hop.pos hop.lt]
    constructor
    · rintro (⟨m, hm, hfree⟩ | ⟨p, hp, hconf, hlt, hgt⟩)
      · exact ⟨m, hm, .inl hfree⟩
      · -- The first shared byte.
        have hx : (b ≤ max b p.1 ∧ max b p.1 < b + op.numBytes) ∧ p.1 ≤ max b p.1 ∧ max b p.1 < p.1 + p.2.numBytes := by
          have hpos := (hL.spaced.entry_of_mem hp).1
          have hpos' := hop.pos
          omega
        obtain ⟨m, hm, hrw, hconf', htouch⟩ := (hL.conflict_iff op.type).mp ⟨p, hp, hconf, hx.2⟩
        exact ⟨m, hm, .inr ⟨hrw, hconf', _, (op.touches_iff hop.constant _).mpr hx.1, htouch⟩⟩
    · rintro ⟨m, hm, hfree | ⟨hrw, hconf, x, hx, htouch⟩⟩
      · exact .inl ⟨m, hm, hfree⟩
      · obtain ⟨p, hp, hconf', _, hlt⟩ := (hL.conflict_iff op.type).mpr ⟨m, hm, hrw, hconf, htouch⟩
        rw [op.touches_iff hop.constant] at hx
        exact .inr ⟨p, hp, hconf', by omega, by omega⟩

def allRecords (det : DataRaceDetection I E D) : List (AccessRecord I E) :=
  det.accesses.values.flatMap fun epochs => epochs.flatMap fun p => p.2.values

lemma mem_allRecords {det : DataRaceDetection I E D} {p : Event D × EpochMemoryAccesses I E} {address : ℕ}
    (hp : p ∈ det.getAccessListOfThread tid) (hr : p.2.find? address = some r) : r ∈ det.allRecords := by
  rw [getAccessListOfThread] at hp
  cases hL : det.accesses.find? tid with
  | none => simp [hL] at hp
  | some epochs =>
    rw [hL] at hp
    exact mem_flatMap.mpr ⟨epochs, SortedMap.mem_values_iff.mpr ⟨tid, hL⟩,
      mem_flatMap.mpr ⟨p, hp, SortedMap.mem_values_iff.mpr ⟨address, hr⟩⟩⟩

end DataRaceDetection

section
variable [DecidableEq D] {C : Configuration D} {det : DataRaceDetection I E D}
  {log : List (Event D × MemoryOperation I E)} {op : MemoryOperation I E} {cur : Event D} {b : ℕ}

lemma DataRaceDetection.fastPath_eq (hcur : C.lastOfTid op.tid = some cur) :
    det.fastPath C op = .ok (DataRaceDetection.fastLoop op (det.recordsToCheck C cur op) (some .noRace)) := by
  rw [fastPath, show C.threadHeads.find? op.tid = some cur from hcur]

lemma Tracks.type_cases (hT : Tracks C det log) (hlive : Live log op.object) {m : MemoryOperation I E}
    (hm : Concurrent C log op cur m) : isAllocOrFree m.type = isAlloc m.type ∧
      (isAlloc m.type = true ∨ (isRead m.type || isWrite m.type) = true) := by
  obtain ⟨a, ha, -, hobj, -⟩ := hm
  have hfree := (hlive _ ha (by rw [hobj])).2
  have htype := (hT.loggable _ ha).type
  cases ht : m.type <;> simp_all [isAllocOrFree, isAlloc, isFree, isRead, isWrite]

/-- The fast path decides on concrete accesses, and finds a race exactly if an unsynchronised access of another thread
is an allocation or shares a byte, one being a write. -/
theorem History.fastPath_isRace_iff (h : History DataRaceDetection.KeepsKeys C det log)
    (hsym : ∀ r ∈ det.allRecords, DataRaceDetection.symbolicAccesses r = [])
    (hcur : C.lastOfTid op.tid = some cur) (hop : op.Plain b) (hlive : Live log op.object) :
    ∃ result, det.fastPath C op = .ok (some result) ∧ (result.isRace = true ↔ ∃ m, Concurrent C log op cur m ∧
        ((∃ x, op.Touches x ∧ m.Touches x) ∧ (isWrite op.type = true ∨ isWrite m.type = true) ∨
          isAlloc m.type = true)) := by
  have hT := h.tracks
  have hW := h.reachable.wellFormed
  have hcurC := Configuration.mem_of_lastOfTid hcur
  have hfree : isAllocOrFree op.type = false := by
    have := hop.type
    cases ht : op.type <;> simp_all [isAllocOrFree, isRead, isWrite]
  have hund : ∀ p ∈ det.recordsToCheck C cur op, DataRaceDetection.undecidedAt op p.2 = false := by
    rintro ⟨_, r⟩ hp
    obtain ⟨-, a, _, hepoch, -, hfind⟩ := (DataRaceDetection.mem_recordsToCheck hW hT hcurC).mp hp
    rw [DataRaceDetection.undecidedAt, hop.constant, hsym r (DataRaceDetection.mem_allRecords hepoch hfind)]
    rfl
  have hraces : (∃ p ∈ det.recordsToCheck C cur op, DataRaceDetection.racesAt op p.2 = true) ↔
      ∃ m, Concurrent C log op cur m ∧
        ((∃ x, op.Touches x ∧ m.Touches x) ∧ (isWrite op.type = true ∨ isWrite m.type = true) ∨
          isAlloc m.type = true) := by
    constructor
    · rintro ⟨⟨_, r⟩, hp, hrace⟩
      obtain ⟨_, hexact, hall⟩ := hT.exact_of_mem hW hlive hcurC hp
      obtain ⟨m, hm, halloc | ⟨-, hconf, hx⟩⟩ := (DataRaceDetection.racesAt_iff_of_constant hexact hop).mp hrace
      · exact ⟨m, hall m hm, .inr ((hT.type_cases hlive (hall m hm)).1 ▸ halloc)⟩
      · exact ⟨m, hall m hm, .inl ⟨hx, Bool.or_eq_true_iff.mp hconf⟩⟩
    · rintro ⟨m, hm, hcase⟩
      obtain ⟨r, _, hr, hexact, hmops, -⟩ := hT.exists_record hW hlive hcurC hm
      refine ⟨_, hr, (DataRaceDetection.racesAt_iff_of_constant hexact hop).mpr ⟨m, hmops, ?_⟩⟩
      obtain ⟨heq, htype⟩ := hT.type_cases hlive hm
      rw [heq]
      by_cases halloc : isAlloc m.type = true
      · exact .inl halloc
      · obtain ⟨hx, hconf⟩ := hcase.resolve_right halloc
        exact .inr ⟨htype.resolve_left halloc, Bool.or_eq_true_iff.mpr hconf, hx⟩
  by_cases hrace : ∃ p ∈ det.recordsToCheck C cur op, DataRaceDetection.racesAt op p.2 = true
  · obtain ⟨res, hres, hisRace⟩ := DataRaceDetection.fastLoop_of_racesAt hrace hfree (some .noRace)
    exact ⟨res, by rw [DataRaceDetection.fastPath_eq hcur, hres], by simpa [hisRace] using hraces.mp hrace⟩
  · have hnone : ∀ p ∈ det.recordsToCheck C cur op, DataRaceDetection.racesAt op p.2 = false := by simpa using hrace
    refine ⟨.noRace, ?_, ?_⟩
    · rw [DataRaceDetection.fastPath_eq hcur, DataRaceDetection.fastLoop_of_not_racesAt hnone hfree]
      simpa using hund
    · simpa [RaceDetectionResult.noRace] using mt hraces.mpr hrace

end

/-! ## A moved entry -/

section
open Configuration DataRaceDetection

def operationBy (tid : ThreadId) (type : AccessType) (offset numBytes : ℕ) : MemoryOperation ℕ SimpleOffset :=
  ⟨0, type, tid, ⟨0, 0⟩, toLex (.inl offset), numBytes⟩

def workerRead : DataRaceDetection ℕ SimpleOffset Unit :=
  ((empty.trackAccess forked (operationBy worker .read 0 8)).toOption).getD empty

def workerReadWrite : DataRaceDetection ℕ SimpleOffset Unit :=
  ((workerRead.trackAccess forked (operationBy worker .write 0 4)).toOption).getD empty

def workerLog : List (Event Unit × MemoryOperation ℕ SimpleOffset) :=
  [(forkedInit, operationBy worker .read 0 8), (forkedInit, operationBy worker .write 0 4)]

lemma history_workerRead {P : DataRaceDetection ℕ SimpleOffset Unit → Event Unit → MemoryOperation ℕ SimpleOffset →
    Prop} (hP : P empty forkedInit (operationBy worker .read 0 8)) :
    History P forked workerRead (workerLog.take 1) :=
  (History.of_reachable (reachable_after _)).track rfl hP rfl

lemma keepsKeys_read :
    (empty : DataRaceDetection ℕ SimpleOffset Unit).KeepsKeys forkedInit (operationBy worker .read 0 8) := by
  intro b hb _
  obtain rfl : 0 = b := some.inj hb
  refine ⟨by decide, ?_⟩
  rintro ⟨p, hp, -⟩
  cases hp

lemma live_workerLog (n : ℕ) : Live (workerLog.take n) ⟨0, 0⟩ := by
  intro p hp _
  rcases mem_pair.mp (mem_of_mem_take hp) with rfl | rfl <;> exact ⟨rfl, rfl⟩

theorem fastPath_isRace_forked :
    ∃ result, workerRead.fastPath forked (operationBy .main .write 4 1) = .ok (some result) ∧
      (result.isRace = true ↔ ∃ m, Concurrent forked (workerLog.take 1) (operationBy .main .write 4 1) forkedCreate m ∧
        ((∃ x, (operationBy .main .write 4 1).Touches x ∧ m.Touches x) ∧
          (isWrite (operationBy .main .write 4 1).type = true ∨ isWrite m.type = true) ∨ isAlloc m.type = true)) := by
  refine (history_workerRead keepsKeys_read).fastPath_isRace_iff ?_ rfl
    ⟨rfl, rfl, by decide, by decide⟩ (live_workerLog 1)
  intro r hr
  obtain rfl := mem_singleton.mp hr
  rfl

/-- Byte 8 was not accessed, but the entry that the worker's write moved covers it. -/
theorem fastPath_race_without_shared_byte : History (fun _ _ _ => True) forked workerReadWrite workerLog ∧
      (∀ r ∈ workerReadWrite.allRecords, symbolicAccesses r = [] ∧
        r.getConcreteAccesses.entries.Pairwise fun p q => p.1 + p.2.numBytes ≤ q.1) ∧
      (∃ result, workerReadWrite.fastPath forked (operationBy .main .write 8 1) = .ok (some result) ∧
        result.isRace = true) ∧
      ∀ p ∈ workerLog, isAlloc p.2.type = false ∧ ¬ ∃ x, (operationBy .main .write 8 1).Touches x ∧ p.2.Touches x := by
  refine ⟨(history_workerRead trivial).track rfl trivial rfl, ?_, ⟨_, rfl, rfl⟩, ?_⟩
  · intro r hr
    obtain rfl := mem_singleton.mp hr
    exact ⟨rfl, by decide⟩
  · intro p hp
    have hlt : ∀ x, p.2.Touches x → x < 8 := by
      rcases mem_pair.mp hp with rfl | rfl
      · rintro x ⟨b, hb, -, hlt⟩
        obtain rfl : 0 = b := some.inj hb
        exact hlt
      · rintro x ⟨b, hb, -, hlt⟩
        obtain rfl : 0 = b := some.inj hb
        exact hlt.trans (by decide)
    refine ⟨?_, ?_⟩
    · rcases mem_pair.mp hp with rfl | rfl <;> rfl
    · rintro ⟨x, ⟨b, hb, hle, -⟩, hx⟩
      obtain rfl : 8 = b := some.inj hb
      exact absurd (hlt x hx) (not_lt.mpr hle)

end

end RaceDetection
