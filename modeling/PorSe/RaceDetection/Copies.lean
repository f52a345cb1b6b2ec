import PorSe.RaceDetection.ConcreteAccesses
import PorSe.RaceDetection.SymbolicAccesses

/-! Calls on a tree of copies: which of them leave the other copies alone. -/

namespace RaceDetection.Heap
open List
variable {I E : Type}

section
variable [Offset E] {H H' : Heap I E} {i : ℕ}

/-- The heaps reached from one fresh object by copying objects and tracking operations. -/
inductive Reached : Heap I E → Prop
  | fresh : Reached fresh
  | copy {H : Heap I E} (i : ℕ) : Reached H → Reached (H.copy i)
  | track {H H' : Heap I E} {i : ℕ} {mop : MemoryOperation I E} :
    Reached H → H.trackMemoryOperation i mop = .ok H' → Reached H'

lemma valid_fresh : (fresh : Heap I E).Valid := by
  refine ⟨?_, by simp [fresh]⟩
  intro i p hp
  cases i <;> simp [fresh, pointer] at hp

lemma Valid.mono (hv : H.Valid) (hnext : H'.next = H.next)
    (hobj : ∀ o ∈ H'.objects, o ∈ H.objects ∨ o.accesses = none) : H'.Valid := by
  constructor
  · intro i p hp
    obtain ⟨o, ho, hop⟩ := exists_object hp
    obtain hmem | hnone := hobj o (mem_of_getElem? ho)
    · obtain ⟨j, hj⟩ := mem_iff_getElem?.mp hmem
      rw [hnext]
      exact hv.lt_next ((pointer_of_object hj).trans hop)
    · simp [hnone] at hop
  · intro o ho hsome
    exact (hobj o ho).elim (fun hmem => hv.allocFree o hmem hsome) id

lemma Valid.copy (hv : H.Valid) (i : ℕ) : (H.copy i).Valid := by
  refine hv.mono rfl fun o ho => .inl ?_
  rcases mem_append.mp ho with ho | ho
  · exact ho
  · exact mem_of_getElem? (by simpa using ho)

lemma Valid.setObject (hv : H.Valid) (i : ℕ) (instruction : I) : (H.setObject i ⟨some instruction, none⟩).Valid := by
  refine hv.mono rfl fun o ho => ?_
  rcases mem_or_eq_of_mem_set ho with ho | rfl
  · exact .inl ho
  · exact .inr rfl

/-- The list is shared, and the operation takes one of the two paths that miss to acquire it. -/
def Misses (H : Heap I E) (i : ℕ) (mop : MemoryOperation I E) : Prop :=
  ∃ p offset, H.pointer i = some p ∧ 1 < H.useCount p ∧ Offset.constantValue mop.offset = some offset ∧
    missesAcquire (H.lists p).concrete offset mop = true

variable {H0 : Heap I E} {mop : MemoryOperation I E}

lemma registerOperation_isolated (h : Framed H0 i H) (hrw : (isRead mop.type || isWrite mop.type) = true)
    (hmiss : ¬ H.Misses i mop) : Isolated H0 i (H.registerMemoryOperation i mop) := by
  rw [registerMemoryOperation, if_pos hrw]
  cases hoffset : Offset.constantValue mop.offset with
  | none => exact registerSymbolic_isolated h
  | some offset =>
    refine registerConcrete_isolated h hrw fun hshared => ?_
    exact Bool.eq_false_iff.mpr fun hm => hmiss ⟨H.self i, offset, h.pointer, hshared, hoffset, hm⟩

lemma registerOperation_misses (hrw : (isRead mop.type || isWrite mop.type) = true)
    (hmiss : H.Misses i mop) :
    H.registerMemoryOperation i mop = .error .endDereferenced ∨ H.registerMemoryOperation i mop = .error .notOwned := by
  obtain ⟨p, _, hp, hshared, hoffset, hm⟩ := hmiss
  obtain rfl := self_eq hp
  rw [registerMemoryOperation, if_pos hrw, hoffset]
  exact registerConcrete_missed hshared hm

lemma trackOperation_cases (hv : H.Valid) (i : ℕ) (hrw : (isRead mop.type || isWrite mop.type) = true) :
    H.pointer i = none ∧ (∀ o, H.objects[i]? = some o → o.allocFreeInstruction.isSome) ∧
      H.trackMemoryOperation i mop = .ok H ∨
    H.pointer i = none ∧ (∃ H', Owned H i H' ∧ H'.operations i = .empty ∧
      H.trackMemoryOperation i mop = H'.registerMemoryOperation i mop) ∨
    (∃ p, H.pointer i = some p) ∧ H.trackMemoryOperation i mop = H.registerMemoryOperation i mop := by
  have hunknown : mop.type ≠ .unknown := by rintro h; simp [h, isRead, isWrite] at hrw
  have hrw' : isAllocOrFree mop.type = false := by
    cases htype : mop.type <;> simp_all [isRead, isWrite, isAllocOrFree]
  rw [trackMemoryOperation, if_neg hunknown]
  cases ho : H.objects[i]? with
  | none => exact .inl ⟨by rw [pointer, ho]; rfl, by simp, rfl⟩
  | some o =>
    have hptr := pointer_of_object ho
    dsimp only
    by_cases hfree : o.allocFreeInstruction.isSome = true
    · rw [if_pos hfree]
      refine .inl ⟨hptr.trans (hv.allocFree o (mem_of_getElem? ho) hfree), fun o' ho' => ?_, rfl⟩
      exact (Option.some.inj ho') ▸ hfree
    rw [if_neg hfree, hrw']
    by_cases hacc : o.accesses = none
    · rw [if_pos hacc]
      exact .inr (.inl ⟨hptr.trans hacc, _, owned_makeShared hv ho (by simpa using hfree) _,
        operations_makeShared ho _, rfl⟩)
    · rw [if_neg hacc]
      exact .inr (.inr ⟨by rw [hptr]; exact Option.ne_none_iff_exists'.mp hacc, rfl⟩)

lemma not_misses_of_owned (h : Owned H0 i H) : ¬ H.Misses i mop := by
  rintro ⟨p, -, hp, hshared, -⟩
  obtain rfl := self_eq hp
  exact absurd h.useCount hshared.ne'

/-- The other objects keep their records, or the call stopped at an assertion other than that in `mut()`. -/
def Isolates (H : Heap I E) (i : ℕ) : Except Fault (Heap I E) → Prop
  | .ok H' => ∀ j, j ≠ i → H'.recorded j = H.recorded j
  | .error f => f = .assertion

lemma Isolated.isolates {r : Except Fault (Heap I E)} (h : Isolated H i r) : Isolates H i r := by
  cases r with
  | ok H' => exact h.recorded
  | error f => exact h

lemma trackOperation_isolated (hv : H.Valid) (i : ℕ) (hrw : (isRead mop.type || isWrite mop.type) = true)
    (hmiss : ¬ H.Misses i mop) :
    H.trackMemoryOperation i mop = .ok H ∨ Isolated H i (H.trackMemoryOperation i mop) := by
  obtain ⟨-, -, heq⟩ | ⟨-, H', howned, -, heq⟩ | ⟨⟨p, hp⟩, heq⟩ := trackOperation_cases hv i hrw
  · exact .inl heq
  · rw [heq]
    exact .inr (registerOperation_isolated howned.toFramed hrw (not_misses_of_owned howned))
  · rw [heq]
    exact .inr (registerOperation_isolated (.of_valid hv hp) hrw hmiss)

lemma trackOperation_misses (hv : H.Valid) (hrw : (isRead mop.type || isWrite mop.type) = true)
    (hmiss : H.Misses i mop) :
    H.trackMemoryOperation i mop = .error .endDereferenced ∨ H.trackMemoryOperation i mop = .error .notOwned := by
  have hmiss' := hmiss
  obtain ⟨p, -, hp, -⟩ := hmiss
  obtain ⟨hnone, -⟩ | ⟨hnone, -⟩ | ⟨-, heq⟩ := trackOperation_cases hv i hrw
  · simp [hnone] at hp
  · simp [hnone] at hp
  · rw [heq]
    exact registerOperation_misses hrw hmiss'

lemma valid_trackOperation (hv : H.Valid) (heq : H.trackMemoryOperation i mop = .ok H') : H'.Valid := by
  by_cases hrw : (isRead mop.type || isWrite mop.type) = true
  · by_cases hmiss : H.Misses i mop
    · obtain h | h := trackOperation_misses hv hrw hmiss <;> simp [h] at heq
    · obtain h | h := trackOperation_isolated hv i hrw hmiss
      · exact (Except.ok.inj (h.symm.trans heq)) ▸ hv
      · rw [heq] at h
        exact h.valid
  · rw [trackMemoryOperation] at heq
    by_cases hunknown : mop.type = .unknown
    · simp [hunknown] at heq
    have halloc : isAllocOrFree mop.type = true := by
      cases htype : mop.type <;> simp_all [isRead, isWrite, isAllocOrFree]
    rw [if_neg hunknown] at heq
    cases ho : H.objects[i]? with
    | none =>
      rw [ho] at heq
      exact (Except.ok.inj heq) ▸ hv
    | some o =>
      simp only [ho] at heq
      split_ifs at heq
      · exact (Except.ok.inj heq) ▸ hv
      · exact (Except.ok.inj heq) ▸ hv.setObject i mop.instruction

lemma Reached.valid (h : Reached H) : H.Valid := by
  induction h with
  | fresh => exact valid_fresh
  | copy i _ ih => exact ih.copy i
  | track _ heq ih => exact valid_trackOperation ih heq

/-- A call leaves other copies alone and follows no foreign iterator exactly when it misses no acquisition. -/
theorem Reached.isolates_iff (h : Reached H) (i : ℕ) (mop : MemoryOperation I E)
    (hrw : (isRead mop.type || isWrite mop.type) = true) :
    Isolates H i (H.trackMemoryOperation i mop) ↔ ¬ H.Misses i mop := by
  constructor
  · intro hiso hmiss
    obtain heq | heq := trackOperation_misses h.valid hrw hmiss <;> simp [heq, Isolates] at hiso
  · intro hmiss
    obtain heq | hiso := trackOperation_isolated h.valid i hrw hmiss
    · rw [heq]
      exact fun _ _ => rfl
    · exact hiso.isolates

end

/-! ## Registrations with symbolic offsets -/

section
variable [LinearOrder E] {H : Heap I E} {i : ℕ} {ops : List (MemoryOperation I E)}

/-- Registrations on the list of object `i`, while others may share it and concrete operations be registered. -/
inductive Registered (i : ℕ) : Heap I E → List (MemoryOperation I E) → Prop
  | start {H : Heap I E} {p : ℕ} (hv : H.Valid) (hp : H.pointer i = some p)
      (hempty : ∀ offset, (H.operations i).symbolicAt offset = []) : Registered i H []
  | share {H H' : Heap I E} {p : ℕ} {ops : List (MemoryOperation I E)} (h : Registered i H ops) (hv : H'.Valid)
      (hp : H'.pointer i = some p)
      (hlist : ∀ offset, (H'.operations i).symbolicAt offset = (H.operations i).symbolicAt offset) : Registered i H' ops
  | register {H H' : Heap I E} {ops : List (MemoryOperation I E)} {op : MemoryOperation I E} (h : Registered i H ops)
      (hrw : (isRead op.type || isWrite op.type) = true) (heq : H.registerSymbolicMemoryOperation i op = .ok H') :
      Registered i H' (ops ++ [op])

structure SymbolicallyExact (i : ℕ) (H : Heap I E) (ops : List (MemoryOperation I E)) : Prop where
  framed : Framed H i H
  readWrite : ∀ offset, ∀ acc ∈ (H.operations i).symbolicAt offset, (isRead acc.type || isWrite acc.type) = true
  dominated : ∀ op ∈ ops, ∃ acc ∈ (H.operations i).symbolicAt op.offset, acc.Dominates (op.access op.numBytes)
  antichain : ∀ offset, Antichain ((H.operations i).symbolicAt offset)

lemma SymbolicallyExact.register (h : SymbolicallyExact i H ops) {H' : Heap I E} {op : MemoryOperation I E}
    (hrw : (isRead op.type || isWrite op.type) = true) (heq : H.registerSymbolicMemoryOperation i op = .ok H') :
    SymbolicallyExact i H' (ops ++ [op]) := by
  obtain ⟨H1, heq1, hframed, hrec, -⟩ := registerSymbolic_eq op h.framed
  obtain rfl := Except.ok.inj (heq1.symm.trans heq)
  refine ⟨.of_valid hframed.valid hframed.pointer, fun offset acc hacc => ?_, fun op' hop' => ?_, fun offset => ?_⟩
  · by_cases ho : offset = op.offset
    · rw [ho, hrec.at_offset] at hacc
      rcases mem_recordSymbolic hacc with hacc | rfl
      · exact h.readWrite _ acc hacc
      · exact hrw
    · exact h.readWrite offset acc (hrec.other offset ho ▸ hacc)
  · rcases mem_append.mp hop' with hop' | hop'
    · obtain ⟨acc, hacc, hdom⟩ := h.dominated op' hop'
      by_cases ho : op'.offset = op.offset
      · rw [ho] at hacc ⊢
        rw [hrec.at_offset]
        obtain ⟨acc', hacc', hdom'⟩ := exists_dominates_of_mem hacc (h.readWrite _ acc hacc)
        exact ⟨acc', hacc', hdom'.trans hdom⟩
      · rw [hrec.other _ ho]
        exact ⟨acc, hacc, hdom⟩
    · rw [mem_singleton.mp hop', hrec.at_offset]
      exact exists_dominates_self hrw
  · by_cases ho : offset = op.offset
    · rw [ho, hrec.at_offset]
      exact (h.antichain _).recordSymbolic _
    · rw [hrec.other offset ho]
      exact h.antichain offset

lemma Registered.symbolicallyExact (h : Registered i H ops) : SymbolicallyExact i H ops := by
  induction h with
  | start hv hp hempty =>
    refine ⟨.of_valid hv hp, fun o _ hacc => ?_, by simp, fun o => ?_⟩
    · simp [hempty] at hacc
    · rw [hempty]
      exact .nil
  | share _ hv hp hlist ih =>
    exact ⟨.of_valid hv hp, fun o => by rw [hlist]; exact ih.readWrite o, fun op =>
      by rw [hlist]; exact ih.dominated op,
      fun o => by rw [hlist]; exact ih.antichain o⟩
  | register _ hrw heq ih => exact ih.register hrw heq

/-- Every registered operation is dominated by a recorded access at its offset, and no access by another one. -/
theorem Registered.symbolicAt_exact (h : Registered i H ops) :
    (∀ op : MemoryOperation I E, ∃ H', H.registerSymbolicMemoryOperation i op = .ok H') ∧
      (∀ op ∈ ops, ∃ acc ∈ (H.operations i).symbolicAt op.offset, acc.Dominates (op.access op.numBytes)) ∧
        ∀ offset, ((H.operations i).symbolicAt offset).Pairwise fun a b => ¬ a.Dominates b ∧ ¬ b.Dominates a := by
  have hexact := h.symbolicallyExact
  refine ⟨fun op => ?_, hexact.dominated, hexact.antichain⟩
  obtain ⟨H', heq, -⟩ := registerSymbolic_eq op hexact.framed
  exact ⟨H', heq⟩

def symbolicOperation (type : AccessType) (numBytes : ℕ) : MemoryOperation ℕ SimpleOffset :=
  ⟨0, type, .empty, ⟨0, 0⟩, toLex (.inr 0), numBytes⟩

/-- A read and a longer write at one symbolic offset, after the accesses were shared. -/
theorem Registered.symbolicAt_exact_readAndWrite : ∃ H : Heap ℕ SimpleOffset,
    Registered 0 H [symbolicOperation .read 4, symbolicOperation .write 8] ∧
      (∀ op ∈ [symbolicOperation .read 4, symbolicOperation .write 8],
        ∃ acc ∈ (H.operations 0).symbolicAt op.offset, acc.Dominates (op.access op.numBytes)) ∧
      ∀ offset, ((H.operations 0).symbolicAt offset).Pairwise fun a b =>
        ¬ a.Dominates b ∧ ¬ b.Dominates a := by
  have hv : (fresh.makeShared 0 .empty : Heap ℕ SimpleOffset).Valid :=
    (owned_makeShared valid_fresh rfl rfl _).valid
  have hstart : Registered 0 ((fresh.makeShared 0 .empty : Heap ℕ SimpleOffset).copy 0) [] :=
    .start (hv.copy 0) rfl fun _ => rfl
  obtain ⟨H, heq⟩ := hstart.symbolicAt_exact.1 (symbolicOperation .read 4)
  have hread := hstart.register rfl heq
  obtain ⟨H', heq'⟩ := hread.symbolicAt_exact.1 (symbolicOperation .write 8)
  have hwrite := hread.register rfl heq'
  exact ⟨H', hwrite, hwrite.symbolicAt_exact.2⟩

end

section

def operationAt (type : AccessType) (offset numBytes : ℕ) : MemoryOperation ℕ SimpleOffset :=
  ⟨0, type, .empty, ⟨0, 0⟩, toLex (.inl offset), numBytes⟩

def trackedAndCopied (mop : MemoryOperation ℕ SimpleOffset) : Heap ℕ SimpleOffset :=
  ((fresh.trackMemoryOperation 0 mop).toOption.getD fresh).copy 0

lemma reached_trackedAndCopied {mop : MemoryOperation ℕ SimpleOffset} {H : Heap ℕ SimpleOffset}
    (h : fresh.trackMemoryOperation 0 mop = .ok H) : Reached (trackedAndCopied mop) := by
  rw [trackedAndCopied, h]
  exact (Reached.fresh.track h).copy 0

theorem Reached.isolates_read_behind : Reached (trackedAndCopied (operationAt .write 4 8)) ∧
      (Isolates (trackedAndCopied (operationAt .write 4 8)) 0
        ((trackedAndCopied (operationAt .write 4 8)).trackMemoryOperation 0 (operationAt .read 12 4)) ↔
      ¬ (trackedAndCopied (operationAt .write 4 8)).Misses 0 (operationAt .read 12 4)) :=
  have h : Reached (trackedAndCopied (operationAt .write 4 8)) := reached_trackedAndCopied rfl
  ⟨h, h.isolates_iff 0 (operationAt .read 12 4) rfl⟩

/-- After a write of bytes 4 to 12 and a copy, a read of 2 to 6 changes the shared list; after a read of these, a write
of 6 to 10 dereferences `end()`. -/
theorem shared_list_not_acquired : (Reached (trackedAndCopied (operationAt .write 4 8)) ∧
      (trackedAndCopied (operationAt .write 4 8)).trackMemoryOperation 0 (operationAt .read 2 4) = .error .notOwned) ∧
    Reached (trackedAndCopied (operationAt .read 4 8)) ∧
      (trackedAndCopied (operationAt .read 4 8)).trackMemoryOperation 0 (operationAt .write 6 4) =
        .error .endDereferenced :=
  ⟨⟨reached_trackedAndCopied rfl, rfl⟩, reached_trackedAndCopied rfl, rfl⟩

end

end RaceDetection.Heap
