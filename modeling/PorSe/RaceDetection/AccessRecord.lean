import PorSe.RaceDetection.ByteExact
import PorSe.RaceDetection.Detector

/-! What the record of an object tells of the operations tracked in it: the bytes that
those at concrete offsets touched, an access that dominates each one at a symbolic
offset, and whether there was an allocation. -/

namespace RaceDetection
open List
variable {I E : Type}

/-! ## What a record tells of the operations tracked in it -/

section
variable [Offset E] {r r' : AccessRecord I E} {op : MemoryOperation I E} {ops : List (MemoryOperation I E)} {b : ℕ}

/-- Symbolic accesses are operations, and each symbolic operation is dominated by an access at its offset. -/
structure SymbolicExact (L : OperationList I E) (ops : List (MemoryOperation I E)) : Prop where
  sound : ∀ offset, ∀ acc ∈ L.symbolicAt offset, Offset.constantValue offset = none ∧
    ∃ op ∈ ops, (isRead op.type || isWrite op.type) = true ∧ op.offset = offset ∧ acc = op.access op.numBytes
  complete : ∀ op ∈ ops, (isRead op.type || isWrite op.type) = true → Offset.constantValue op.offset = none →
    ∃ acc ∈ L.symbolicAt op.offset, acc.Dominates (op.access op.numBytes)

/-- Tells which bytes were touched at concrete offsets, and dominates the operations at symbolic ones. -/
structure ListExact (L : OperationList I E) (ops : List (MemoryOperation I E)) : Prop where
  spaced : Spaced 0 L.concrete.entries
  bytes : ByteExact L.concrete.entries ops
  symbolic : SymbolicExact L ops

lemma SymbolicExact.congr {L L' : OperationList I E} (h : SymbolicExact L ops) (hL : L'.symbolic = L.symbolic)
    (hb : Offset.constantValue op.offset = some b) : SymbolicExact L' (ops ++ [op]) := by
  have hat : ∀ o, L'.symbolicAt o = L.symbolicAt o := fun o => by
    rw [OperationList.symbolicAt, OperationList.symbolicAt, hL]
  constructor
  · intro o acc hacc
    obtain ⟨hnone, op', hop', h'⟩ := h.sound o acc (hat o ▸ hacc)
    exact ⟨hnone, op', mem_append_left _ hop', h'⟩
  · intro op' hop' hrw hnone
    rw [hat]
    rcases mem_append.mp hop' with hop' | hop'
    · exact h.complete op' hop' hrw hnone
    · obtain rfl := mem_singleton.mp hop'
      simp [hb] at hnone

lemma ByteExact.congr {entries : List (ℕ × Access I)} (h : ByteExact entries ops)
    (hnone : Offset.constantValue op.offset = none) : ByteExact entries (ops ++ [op]) := by
  have htouch : ∀ x, ¬ op.Touches x := by
    rintro x ⟨_, hoffset, -⟩
    simp [hnone] at hoffset
  refine ⟨h.disjoint, fun x => ?_, fun x => ?_⟩
  · rw [h.write, tracked_concat]
    simp [htouch]
  · rw [h.read, tracked_concat, tracked_concat]
    simp [htouch]

namespace Heap
variable {H : Heap I E} {i : ℕ}

lemma Sole.track_concrete (h : H.Sole i) (hL : ListExact (H.recordedList i) ops) (hop : op.Plain b)
    (hmoves : ¬ MovesKey (H.recordedList i).concrete.entries b (b + op.numBytes) op) :
    ∃ H', H.trackMemoryOperation i op = .ok H' ∧ Owned H i H' ∧ ListExact (H'.recordedList i) (ops ++ [op]) := by
  obtain ⟨H', _, _, heq, howned, hsym, hentries, hpre, hrest, hrec⟩ := h.trackMemoryOperation hL.spaced hop
  obtain ⟨hs, hbytes, hsymbolic⟩ := hL
  rw [← concreteEntries, hentries] at hs hbytes hmoves
  rw [← movesIn_sweepBegin_iff hs hpre hrest hop.type, Bool.not_eq_true] at hmoves
  have hr := record_spec hs hpre hrest (Nat.lt_add_of_pos_right hop.pos) hop.lt rfl hop.type hmoves
  rw [← hrec] at hr
  exact ⟨H', heq, howned, hr.spaced, hbytes.concat hop.constant hop.type hr, hsymbolic.congr hsym hop.constant⟩

lemma Sole.track_symbolic (h : H.Sole i) (hL : ListExact (H.recordedList i) ops)
    (hrw : (isRead op.type || isWrite op.type) = true) (hnone : Offset.constantValue op.offset = none) :
    ∃ H', H.trackMemoryOperation i op = .ok H' ∧ Owned H i H' ∧ ListExact (H'.recordedList i) (ops ++ [op]) := by
  obtain ⟨H1, howned, hlist, heq⟩ := h.exists_owned hrw
  obtain ⟨H', heq', -, hrec, howned'⟩ := registerSymbolic_eq op howned.toFramed
  replace howned' := howned' howned
  rw [← hlist] at hL
  refine ⟨H', ?_, howned', ?_, ?_, ?_⟩
  · rw [heq, registerMemoryOperation, if_pos hrw, hnone]
    exact heq'
  · rw [recordedList_eq howned'.pointer, hrec.concrete]
    exact hL.spaced
  · rw [recordedList_eq howned'.pointer, hrec.concrete]
    exact hL.bytes.congr hnone
  · rw [recordedList_eq howned'.pointer]
    constructor
    · intro o acc hacc
      by_cases ho : o = op.offset
      · subst ho
        rw [hrec.at_offset] at hacc
        rcases mem_recordSymbolic hacc with hacc | rfl
        · obtain ⟨hnone', op', hop', h'⟩ := hL.symbolic.sound _ acc hacc
          exact ⟨hnone', op', mem_append_left _ hop', h'⟩
        · exact ⟨hnone, op, by simp, hrw, rfl, rfl⟩
      · obtain ⟨hnone', op', hop', h'⟩ := hL.symbolic.sound o acc (hrec.other o ho ▸ hacc)
        exact ⟨hnone', op', mem_append_left _ hop', h'⟩
    · intro op' hop' hrw' hnone'
      rcases mem_append.mp hop' with hop' | hop'
      · obtain ⟨acc, hacc, hdom'⟩ := hL.symbolic.complete op' hop' hrw' hnone'
        by_cases ho : op'.offset = op.offset
        · obtain ⟨-, _, -, hrw'', -, rfl⟩ := hL.symbolic.sound _ acc hacc
          rw [ho] at hacc ⊢
          obtain ⟨acc', hacc', hdom''⟩ := exists_dominates_of_mem hacc hrw''
          exact ⟨acc', hrec.at_offset ▸ hacc', hdom''.trans hdom'⟩
        · exact ⟨acc, hrec.other _ ho ▸ hacc, hdom'⟩
      · obtain rfl := mem_singleton.mp hop'
        rw [hrec.at_offset]
        exact exists_dominates_self hrw

end Heap

namespace AccessRecord

/-- What is known of a record; after an allocation or free nothing else is recorded. -/
structure Exact (r : AccessRecord I E) (ops : List (MemoryOperation I E)) : Prop where
  alloc : r.isAllocOrFree = true ↔ ∃ op ∈ ops, RaceDetection.isAllocOrFree op.type = true
  null : r.isAllocOrFree = true → r.accesses = none
  list : r.isAllocOrFree = false → ListExact (r.accesses.getD .empty) ops

lemma exact_empty : (empty : AccessRecord I E).Exact [] := by
  refine ⟨by simp [empty, isAllocOrFree], by simp [empty], fun _ => ⟨trivial, ⟨.nil, ?_, ?_⟩, ⟨?_, ?_⟩⟩⟩
  all_goals simp [empty, OperationList.empty, SortedMap.empty, Tracked, OperationList.symbolicAt, SortedMap.find?,
    SortedMap.findIn]

lemma sole_load (h : r.isAllocOrFree = false) : r.load.Sole 0 := by
  have hfree : r.allocFreeInstruction = none := by simpa [isAllocOrFree] using h
  refine ⟨⟨?_, ?_⟩, ⟨_, rfl, hfree⟩, ?_⟩
  · intro i p hp
    obtain ⟨o, ho, hop⟩ := Heap.exists_object hp
    obtain rfl : o = ⟨r.allocFreeInstruction, r.accesses.map fun _ => 0⟩ := by
      simpa [load] using mem_of_getElem? ho
    obtain ⟨-, -, rfl⟩ := Option.map_eq_some_iff.mp hop
    exact Nat.one_pos
  · intro o ho hsome
    obtain rfl : o = ⟨r.allocFreeInstruction, r.accesses.map fun _ => 0⟩ := by simpa [load] using ho
    simp [hfree] at hsome
  · intro p hp
    have hp' : (r.accesses.map fun _ => 0) = some p := hp
    simp [Heap.useCount, load, hp']

lemma recordedList_load : r.load.recordedList 0 = r.accesses.getD .empty := by
  simp only [load]
  cases r.accesses <;> rfl

lemma store_load : store r.load = r := by
  obtain ⟨_, accesses⟩ := r
  cases accesses <;> rfl

lemma store_owned {H H0 : Heap I E} (h : Heap.Owned H0 0 H) : store H = ⟨none, some (H.recordedList 0)⟩ := by
  obtain ⟨o, ho, hnone⟩ := h.sole.object
  have hptr : o.accesses = some (H.self 0) := (Heap.pointer_of_object ho).symm.trans h.pointer
  have hrec : H.recorded 0 = some (none, some (H.operations 0)) := by
    rw [Heap.recorded, ho, Option.map_some, hnone, hptr]
    rfl
  rw [store, hrec, Heap.recordedList_eq h.pointer]

lemma Exact.trackMemoryOperation (h : r.Exact ops) (htype : op.type ≠ .unknown)
    (hplain : ∀ b, Offset.constantValue op.offset = some b → (isRead op.type || isWrite op.type) = true →
      op.Plain b ∧ ¬ MovesKey r.getConcreteAccesses.entries b (b + op.numBytes) op) :
    ∃ r', r.trackMemoryOperation op = .ok r' ∧ r'.Exact (ops ++ [op]) := by
  have hexists : ∀ p : MemoryOperation I E → Prop, (∃ op' ∈ ops ++ [op], p op') ↔ (∃ op' ∈ ops, p op') ∨ p op := by
    intro p
    simp
  cases halloc : r.isAllocOrFree with
  | true =>
    have htrack : r.trackMemoryOperation op = .ok r := by
      have hsome : r.allocFreeInstruction.isSome = true := halloc
      rw [AccessRecord.trackMemoryOperation, Heap.trackMemoryOperation, if_neg htype]
      simp only [load, getElem?_cons_zero, hsome]
      exact congrArg Except.ok store_load
    refine ⟨r, htrack, ⟨?_, h.null, by simp [halloc]⟩⟩
    rw [hexists, ← h.alloc]
    simp [halloc]
  | false =>
    by_cases hrw : (isRead op.type || isWrite op.type) = true
    · have hnew : ∃ H', r.load.trackMemoryOperation 0 op = .ok H' ∧ Heap.Owned r.load 0 H' ∧
          ListExact (H'.recordedList 0) (ops ++ [op]) := by
        have hL := h.list halloc
        rw [← recordedList_load] at hL
        cases hb : Offset.constantValue op.offset with
        | none => exact (sole_load halloc).track_symbolic hL hrw hb
        | some b =>
          obtain ⟨hop, hmoves⟩ := hplain b hb hrw
          rw [getConcreteAccesses, ← recordedList_load] at hmoves
          exact (sole_load halloc).track_concrete hL hop hmoves
      obtain ⟨H', heq, howned, hL'⟩ := hnew
      refine ⟨⟨none, some (H'.recordedList 0)⟩, ?_, ⟨?_, by simp [isAllocOrFree], fun _ => hL'⟩⟩
      · rw [AccessRecord.trackMemoryOperation, heq, Heap.ok_bind, store_owned howned]
        rfl
      · rw [hexists, ← h.alloc]
        cases ht : op.type <;> simp_all [isAllocOrFree, RaceDetection.isAllocOrFree, isRead, isWrite]
    · have hfree : RaceDetection.isAllocOrFree op.type = true := by
        cases ht : op.type <;> simp_all [RaceDetection.isAllocOrFree, isRead, isWrite]
      have hsome : r.allocFreeInstruction.isSome = false := halloc
      refine ⟨⟨some op.instruction, none⟩, ?_, ⟨?_, fun _ => rfl, by simp [isAllocOrFree]⟩⟩
      · rw [AccessRecord.trackMemoryOperation, Heap.trackMemoryOperation, if_neg htype]
        simp only [load, getElem?_cons_zero, hsome, hfree]
        rfl
      · rw [hexists]
        simp [isAllocOrFree, hfree]

end AccessRecord

end

end RaceDetection
