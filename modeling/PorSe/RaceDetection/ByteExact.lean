import PorSe.RaceDetection.Copies

/-! The concrete accesses tell exactly which bytes were read and written, as long as no
call moves a key: the calls on a list of one's own compute `record`. -/

namespace RaceDetection
open List
variable {I E : Type}

/-- A read or write of at least one byte at a constant offset, without wrapping around. -/
structure MemoryOperation.Plain [Offset E] (op : MemoryOperation I E) (offset : ℕ) : Prop where
  type : (isRead op.type || isWrite op.type) = true
  constant : Offset.constantValue op.offset = some offset
  pos : 0 < op.numBytes
  lt : offset + op.numBytes < 2 ^ 64

namespace Heap
variable [Offset E] {H H' H0 : Heap I E} {i b : ℕ} {op : MemoryOperation I E} {ops : List (MemoryOperation I E)}

def recordedList (H : Heap I E) (i : ℕ) : OperationList I E := ((H.pointer i).map H.lists).getD .empty

def concreteEntries (H : Heap I E) (i : ℕ) : List (ℕ × Access I) := (H.recordedList i).concrete.entries

/-- Object `i` tracks reads and writes, in a list of its own. -/
structure Sole (H : Heap I E) (i : ℕ) : Prop where
  valid : H.Valid
  object : ∃ o, H.objects[i]? = some o ∧ o.allocFreeInstruction = none
  useCount : ∀ p, H.pointer i = some p → H.useCount p = 1

lemma recordedList_eq (h : H.pointer i = some (H.self i)) : H.recordedList i = H.operations i := by
  rw [recordedList, h]
  rfl

lemma Owned.sole (h : Owned H0 i H) : H.Sole i := by
  refine ⟨h.valid, ?_, fun p hp => ?_⟩
  · obtain ⟨o, ho, hop⟩ := exists_object h.pointer
    refine ⟨o, ho, ?_⟩
    by_contra hsome
    have := h.valid.allocFree o (mem_of_getElem? ho) (Option.isSome_iff_ne_none.mpr hsome)
    simp [this] at hop
  · rw [← self_eq hp]
    exact h.useCount

lemma sole_fresh : (fresh : Heap I E).Sole 0 :=
  ⟨valid_fresh, ⟨_, rfl, rfl⟩, fun p hp => by simp [fresh, pointer] at hp⟩

lemma registerOperation_record (h : Owned H0 i H) (hs : Spaced 0 (H.operations i).concrete.entries)
    (hop : op.Plain b) : ∃ H' pre rest, H.registerMemoryOperation i op = .ok H' ∧ Owned H0 i H' ∧
      (H'.recordedList i).symbolic = (H.operations i).symbolic ∧
      (H.operations i).concrete.entries = pre ++ rest ∧ (∀ p ∈ pre, p.1 < b) ∧ (∀ p ∈ rest, b ≤ p.1) ∧
      H'.concreteEntries i = record b (b + op.numBytes) op pre rest := by
  obtain ⟨pre, rest, hat, hpre, hrest⟩ := (H.operations i).concrete.at_lowerBound b
  rw [hat.entries] at hs
  have hends := ends_registerConcrete h.toFramed hat hpre hrest hop.type fun hshared =>
    absurd h.useCount hshared.ne'
  rw [registerMemoryOperation, if_pos hop.type, hop.constant]
  dsimp only
  cases heq : H.registerConcreteMemoryOperation i b op with
  | error f => exact absurd ⟨hs, hop.pos, hop.lt⟩ (heq ▸ hends).2
  | ok H' =>
    obtain ⟨hH, hlist⟩ : (H' = H ∨ Owned H0 i H') ∧ _ := heq ▸ hends
    obtain ⟨hsym, hentries⟩ := hlist ⟨hs, hop.pos, hop.lt⟩
    have howned : Owned H0 i H' := hH.elim (fun heq => heq ▸ h) id
    rw [← recordedList_eq howned.pointer] at hsym hentries
    exact ⟨H', pre, rest, rfl, howned, hsym, hat.entries, hpre, hrest, hentries⟩

lemma Sole.exists_owned (h : H.Sole i) (hrw : (isRead op.type || isWrite op.type) = true) :
    ∃ H1, Owned H i H1 ∧ H1.operations i = H.recordedList i ∧
      H.trackMemoryOperation i op = H1.registerMemoryOperation i op := by
  obtain ⟨-, hfree, -⟩ | ⟨hnone, H1, howned, hempty, heq⟩ | ⟨⟨p, hp⟩, heq⟩ := trackOperation_cases h.valid i hrw
  · obtain ⟨o, ho, hnone⟩ := h.object
    simpa [hnone] using hfree o ho
  · exact ⟨H1, howned, by rw [hempty, recordedList, hnone]; rfl, heq⟩
  · have howned : Owned H i H := ⟨.of_valid h.valid hp, self_eq hp ▸ h.useCount p hp⟩
    exact ⟨H, howned, (recordedList_eq howned.pointer).symm, heq⟩

lemma Sole.trackMemoryOperation (h : H.Sole i) (hs : Spaced 0 (H.concreteEntries i)) (hop : op.Plain b) :
    ∃ H' pre rest, H.trackMemoryOperation i op = .ok H' ∧ Owned H i H' ∧
      (H'.recordedList i).symbolic = (H.recordedList i).symbolic ∧ H.concreteEntries i = pre ++ rest ∧
      (∀ p ∈ pre, p.1 < b) ∧ (∀ p ∈ rest, b ≤ p.1) ∧
      H'.concreteEntries i = record b (b + op.numBytes) op pre rest := by
  obtain ⟨H1, howned, hlist, heq⟩ := h.exists_owned hop.type
  rw [concreteEntries, ← hlist] at hs ⊢
  rw [heq]
  exact registerOperation_record howned hs hop

def trackAll (H : Heap I E) (i : ℕ) (ops : List (MemoryOperation I E)) : Except Fault (Heap I E) :=
  ops.foldlM (fun H op => H.trackMemoryOperation i op) H

/-- The state of a run in which every entry is still where it was accessed. -/
structure Exact (H : Heap I E) (ops : List (MemoryOperation I E)) : Prop where
  sole : H.Sole 0
  spaced : Spaced 0 (H.concreteEntries 0)
  bytes : ByteExact (H.concreteEntries 0) ops

lemma Exact.trackMemoryOperation (h : Exact H ops) (hop : op.Plain b) : ∃ H', H.trackMemoryOperation 0 op = .ok H' ∧
      (¬ MovesKey (H.concreteEntries 0) b (b + op.numBytes) op → Exact H' (ops ++ [op])) ∧
      (MovesKey (H.concreteEntries 0) b (b + op.numBytes) op → ¬ ByteExact (H'.concreteEntries 0) (ops ++ [op])) := by
  obtain ⟨H', pre, _, heq, howned, -, hentries, hpre, hrest, hrec⟩ := h.sole.trackMemoryOperation h.spaced hop
  have hs := h.spaced
  have hbytes := h.bytes
  rw [hentries] at hs hbytes
  refine ⟨H', heq, fun hmoves => ?_, fun hmoves => ?_⟩
  · rw [hentries, ← movesIn_sweepBegin_iff hs hpre hrest hop.type, Bool.not_eq_true] at hmoves
    have hr := record_spec hs hpre hrest (Nat.lt_add_of_pos_right hop.pos) hop.lt rfl hop.type hmoves
    rw [← hrec] at hr
    exact ⟨howned.sole, hr.spaced, hbytes.concat hop.constant hop.type hr⟩
  · rw [hentries, ← movesIn_sweepBegin_iff hs hpre hrest hop.type] at hmoves
    obtain ⟨ps, k, acc, qs, _, rfl, hrec', hk, hend⟩ := exists_moved_record hs hmoves
    rw [hrec]
    have hsplit : pre ++ (ps ++ (k, acc) :: qs) = (pre ++ ps) ++ (k, acc) :: qs := (append_assoc ..).symm
    exact hbytes.not_concat_of_moved hs hop.constant hsplit hrec' hk hend

lemma exact_fresh : Exact (fresh : Heap I E) [] := by
  have hnil : (fresh : Heap I E).concreteEntries 0 = [] := rfl
  refine ⟨sole_fresh, ?_, ?_, ?_, ?_⟩
  all_goals simp [hnil, Spaced, Tracked]

lemma trackAll_concat (hH : H0.trackAll i ops = .ok H) : H0.trackAll i (ops ++ [op]) = H.trackMemoryOperation i op := by
  rw [trackAll, foldlM_append]
  rw [trackAll] at hH
  rw [hH]
  exact bind_pure (H.trackMemoryOperation i op)

/-- The entries stay exact along a run from a fresh object if and only if no operation moves a key. -/
theorem trackAll_byteExact_iff (ops : List (MemoryOperation I E)) (hops : ∀ op ∈ ops, ∃ b, op.Plain b) :
    (∀ ops', ops' <+: ops → ∃ H, (fresh : Heap I E).trackAll 0 ops' = .ok H ∧ ByteExact (H.concreteEntries 0) ops') ↔
    ∀ ops' op b, ops' ++ [op] <+: ops → Offset.constantValue op.offset = some b →
      ∀ H, (fresh : Heap I E).trackAll 0 ops' = .ok H → ¬ MovesKey (H.concreteEntries 0) b (b + op.numBytes) op := by
  -- either side keeps the state exact from one operation to the next
  have key : ∀ ops', ops' <+: ops →
      (∀ ops1 op b H, ops1 ++ [op] <+: ops' → op.Plain b → (fresh : Heap I E).trackAll 0 ops1 = .ok H →
        Exact H ops1 → ¬ MovesKey (H.concreteEntries 0) b (b + op.numBytes) op) →
      ∃ H, (fresh : Heap I E).trackAll 0 ops' = .ok H ∧ Exact H ops' := by
    intro ops' hpre hmoves
    induction ops' using reverseRecOn with
    | nil => exact ⟨fresh, rfl, exact_fresh⟩
    | append_singleton ops' op ih =>
      have hle : ops' <+: ops' ++ [op] := prefix_append ops' [op]
      obtain ⟨H, hH, hexact⟩ := ih (hle.trans hpre) fun ops1 op b H h => hmoves ops1 op b H (h.trans hle)
      obtain ⟨b, hop⟩ := hops op (hpre.subset (by simp))
      obtain ⟨H', hH', hstep, -⟩ := hexact.trackMemoryOperation hop
      refine ⟨H', by rw [trackAll_concat hH, hH'], hstep (hmoves ops' op b H prefix_rfl hop hH hexact)⟩
  constructor
  · intro hexact
    have hno : ∀ ops1 op b H, ops1 ++ [op] <+: ops → op.Plain b → (fresh : Heap I E).trackAll 0 ops1 = .ok H →
        Exact H ops1 → ¬ MovesKey (H.concreteEntries 0) b (b + op.numBytes) op := by
      intro ops1 op b H hpre hop hH hex hmoves
      obtain ⟨H', hH', -, hinexact⟩ := hex.trackMemoryOperation hop
      obtain ⟨H'', hH'', hbytes⟩ := hexact (ops1 ++ [op]) hpre
      rw [trackAll_concat hH, hH'] at hH''
      exact hinexact hmoves ((Except.ok.inj hH'') ▸ hbytes)
    intro ops' op b hpre hb H hH
    have hle : ops' <+: ops := (prefix_append ops' [op]).trans hpre
    obtain ⟨H', hH', hex⟩ := key ops' hle fun ops1 op b H h => hno ops1 op b H (h.trans hle)
    obtain rfl := Except.ok.inj (hH.symm.trans hH')
    obtain ⟨b', hop⟩ := hops op (hpre.subset (by simp))
    obtain rfl : b' = b := Option.some.inj (hop.constant.symm.trans hb)
    exact hno ops' op b' H hpre hop hH hex
  · intro hmoves ops' hpre
    obtain ⟨H, hH, hexact⟩ := key ops' hpre fun ops1 op b H h hop hH _ =>
      hmoves ops1 op b (h.trans hpre) hop.constant H hH
    exact ⟨H, hH, hexact.bytes⟩

lemma plain_operationAt {type : AccessType} {offset numBytes : ℕ} (htype : (isRead type || isWrite type) = true)
    (hpos : 0 < numBytes) (hlt : offset + numBytes < 2 ^ 64) : (operationAt type offset numBytes).Plain offset :=
  ⟨htype, rfl, hpos, hlt⟩

theorem trackAll_byteExact_overwritten :
    (∃ H, (fresh : Heap ℕ SimpleOffset).trackAll 0 [operationAt .read 0 8, operationAt .write 0 8] = .ok H) ∧
    ((∀ ops', ops' <+: [operationAt .read 0 8, operationAt .write 0 8] →
      ∃ H, (fresh : Heap ℕ SimpleOffset).trackAll 0 ops' = .ok H ∧ ByteExact (H.concreteEntries 0) ops') ↔
    ∀ ops' op b, ops' ++ [op] <+: [operationAt .read 0 8, operationAt .write 0 8] →
      Offset.constantValue op.offset = some b → ∀ H, (fresh : Heap ℕ SimpleOffset).trackAll 0 ops' = .ok H →
        ¬ MovesKey (H.concreteEntries 0) b (b + op.numBytes) op) := by
  refine ⟨⟨_, rfl⟩, trackAll_byteExact_iff _ fun op hop => ?_⟩
  rcases mem_pair.mp hop with rfl | rfl
  · exact ⟨0, plain_operationAt rfl (by decide) (by decide)⟩
  · exact ⟨0, plain_operationAt rfl (by decide) (by decide)⟩

/-- After a read of the bytes 0 to 8 and a write of 0 to 4, byte 8 lies in a read entry. -/
theorem trackAll_moved_key :
    ∃ H, (fresh : Heap ℕ SimpleOffset).trackAll 0 [operationAt .read 0 8, operationAt .write 0 4] = .ok H ∧
      Covered isRead (H.concreteEntries 0) 8 ∧
      ¬ Tracked isRead [operationAt .read 0 8, operationAt .write 0 4] 8 := by
  refine ⟨_, rfl, ⟨(4, ⟨8, .read, 0⟩), ?_, rfl, by decide, by decide⟩, ?_⟩
  · exact mem_cons_of_mem _ mem_cons_self
  · rintro ⟨op, hop, htype, offset, hoffset, -, hlt⟩
    rcases mem_pair.mp hop with rfl | rfl
    · obtain rfl : 0 = offset := Option.some.inj hoffset
      exact absurd hlt (by decide)
    · exact absurd htype (by decide)

end Heap

end RaceDetection
