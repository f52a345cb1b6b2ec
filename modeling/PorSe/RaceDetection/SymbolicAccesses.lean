import PorSe.RaceDetection.Ownership

/-! Accesses with a symbolic offset. Of those with one offset only the ones are kept that no
other one dominates; whether the list is shared makes no difference to what is recorded. -/

namespace RaceDetection
open List
variable {I E : Type}

/-- At least as long at the same offset, and a write if the other is. -/
def Access.Dominates (acc acc' : Access I) : Prop :=
  acc'.numBytes ≤ acc.numBytes ∧ (isWrite acc.type = true ∨ isRead acc'.type = true)

instance (acc acc' : Access I) : Decidable (acc.Dominates acc') := inferInstanceAs (Decidable (_ ∧ _))

lemma Access.Dominates.trans {a b c : Access I} (hab : a.Dominates b) (hbc : b.Dominates c) : a.Dominates c := by
  refine ⟨hbc.1.trans hab.1, ?_⟩
  rcases hab.2 with h | h
  · exact .inl h
  · refine hbc.2.imp_left fun hw => ?_
    exact absurd hw (by revert h; cases b.type <;> decide)

lemma Access.Dominates.refl {a : Access I} (h : (isRead a.type || isWrite a.type) = true) : a.Dominates a :=
  ⟨le_rfl, (Bool.or_eq_true_iff.mp h).symm⟩

/-! ## What is recorded at one offset -/

/-- What the loop leaves, and whether it ends at an access that dominates `incoming`. -/
def thin (incoming : Access I) : List (Access I) → List (Access I) × Bool
  | [] => ([], false)
  | acc :: accs =>
    if acc.Dominates incoming then (acc :: accs, true)
    else if incoming.Dominates acc then thin incoming accs
    else (acc :: (thin incoming accs).1, (thin incoming accs).2)

def recordSymbolic (incoming : Access I) (accs : List (Access I)) : List (Access I) :=
  if (thin incoming accs).2 then (thin incoming accs).1 else (thin incoming accs).1 ++ [incoming]

section
variable {incoming acc : Access I} {accs pre rest : List (Access I)}

lemma thin_append (h : ∀ x ∈ pre, ¬ x.Dominates incoming ∧ ¬ incoming.Dominates x) :
    thin incoming (pre ++ rest) = (pre ++ (thin incoming rest).1, (thin incoming rest).2) := by
  induction pre with
  | nil => rfl
  | cons x pre ih =>
    obtain ⟨hcov, hdrop⟩ := h x mem_cons_self
    rw [cons_append, thin, if_neg hcov, if_neg hdrop, ih fun y hy => h y (mem_cons_of_mem x hy)]
    rfl

lemma thin_sublist : (thin incoming accs).1.Sublist accs := by
  induction accs with
  | nil => exact Sublist.refl _
  | cons x accs ih =>
    rw [thin]
    split_ifs
    · exact Sublist.refl _
    · exact ih.cons x
    · exact ih.cons_cons x

lemma mem_thin_or_dominates (h : acc ∈ accs) : acc ∈ (thin incoming accs).1 ∨ incoming.Dominates acc := by
  induction accs with
  | nil => exact absurd h not_mem_nil
  | cons x accs ih =>
    rw [thin]
    rcases mem_cons.mp h with rfl | h
    · split_ifs with hcov hdrop
      · exact .inl mem_cons_self
      · exact .inr hdrop
      · exact .inl mem_cons_self
    · split_ifs
      · exact .inl (mem_cons_of_mem x h)
      · exact ih h
      · exact (ih h).imp_left (mem_cons_of_mem x)

lemma exists_dominates_of_thin (h : (thin incoming accs).2 = true) :
    ∃ acc ∈ (thin incoming accs).1, acc.Dominates incoming := by
  induction accs with
  | nil => simp [thin] at h
  | cons x accs ih =>
    rw [thin] at h ⊢
    split_ifs at h ⊢ with hcov
    · exact ⟨x, mem_cons_self, hcov⟩
    · exact ih h
    · obtain ⟨acc, hacc, hdom⟩ := ih h
      exact ⟨acc, mem_cons_of_mem x hacc, hdom⟩

lemma not_dominates_of_thin (h : (thin incoming accs).2 = false) (hacc : acc ∈ (thin incoming accs).1) :
    ¬ acc.Dominates incoming ∧ ¬ incoming.Dominates acc := by
  induction accs with
  | nil => simp [thin] at hacc
  | cons x accs ih =>
    rw [thin] at h hacc
    split_ifs at h hacc with hcov hdrop
    · exact ih h hacc
    · rcases mem_cons.mp hacc with rfl | hacc
      · exact ⟨hcov, hdrop⟩
      · exact ih h hacc

lemma mem_recordSymbolic (h : acc ∈ recordSymbolic incoming accs) : acc ∈ accs ∨ acc = incoming := by
  unfold recordSymbolic at h
  split_ifs at h
  · exact .inl (thin_sublist.subset h)
  · rcases mem_append.mp h with h | h
    · exact .inl (thin_sublist.subset h)
    · exact .inr (mem_singleton.mp h)

lemma exists_dominates_self (hrw : (isRead incoming.type || isWrite incoming.type) = true) :
    ∃ acc ∈ recordSymbolic incoming accs, acc.Dominates incoming := by
  unfold recordSymbolic
  split_ifs with h
  · exact exists_dominates_of_thin h
  · exact ⟨incoming, mem_append_right _ mem_cons_self, .refl hrw⟩

lemma exists_dominates_of_mem (hacc : acc ∈ accs) (hrw : (isRead acc.type || isWrite acc.type) = true) :
    ∃ acc' ∈ recordSymbolic incoming accs, acc'.Dominates acc := by
  unfold recordSymbolic
  rcases mem_thin_or_dominates hacc with h | hdom
  · refine ⟨acc, ?_, .refl hrw⟩
    split_ifs
    · exact h
    · exact mem_append_left _ h
  · split_ifs with h
    · obtain ⟨acc', hacc', h'⟩ := exists_dominates_of_thin h
      exact ⟨acc', hacc', h'.trans hdom⟩
    · exact ⟨incoming, mem_append_right _ mem_cons_self, hdom⟩

def Antichain (accs : List (Access I)) : Prop := accs.Pairwise fun a b => ¬ a.Dominates b ∧ ¬ b.Dominates a

lemma Antichain.recordSymbolic (h : Antichain accs) (incoming : Access I) :
    Antichain (RaceDetection.recordSymbolic incoming accs) := by
  have hthin : Antichain (thin incoming accs).1 := List.Pairwise.sublist thin_sublist h
  unfold RaceDetection.recordSymbolic
  split_ifs with hcov
  · exact hthin
  · refine pairwise_append.mpr ⟨hthin, pairwise_singleton _ _, fun a ha b hb => ?_⟩
    rw [mem_singleton.mp hb]
    exact not_dominates_of_thin (by simpa using hcov) ha

end

/-! ## The loop -/

/-- `L'` differs from `L` in what is recorded at the offset. -/
structure OperationList.RecordsAt [LinearOrder E] (offset : E) (accs : List (Access I)) (L L' : OperationList I E) :
    Prop where
  concrete : L'.concrete = L.concrete
  at_offset : L'.symbolicAt offset = accs
  other : ∀ o ≠ offset, L'.symbolicAt o = L.symbolicAt o

namespace Heap
variable [LinearOrder E] {H H0 : Heap I E} {i : ℕ} {incoming : MemoryOperation I E}
open OperationList (RecordsAt)

lemma recordsAt_setSymbolic (H : Heap I E) (i : ℕ) (offset : E) (accs : List (Access I)) : RecordsAt offset accs
    (H.operations i) ((H.setSymbolic (H.self i) ((H.operations i).symbolic.insert offset accs)).operations i) := by
  have hops : (H.setSymbolic (H.self i) ((H.operations i).symbolic.insert offset accs)).operations i =
      ⟨(H.operations i).concrete, (H.operations i).symbolic.insert offset accs⟩ :=
    Function.update_self (H.self i) _ H.lists
  rw [hops]
  refine ⟨rfl, by simp [OperationList.symbolicAt], fun o ho => ?_⟩
  exact congrArg (Option.getD · []) (SortedMap.find?_insert_ne _ _ ho.symm)

variable {fuel : ℕ} {pre rest : List (Access I)}

lemma symbolicConflicts_step {node : Bool} {acc : Access I}
    (hat : (H.operations i).symbolicAt incoming.offset = pre ++ acc :: rest) :
    symbolicConflicts i incoming (fuel + 1) H (H.self i) pre.length node =
      if acc.Dominates (incoming.access incoming.numBytes) then .ok (H, none)
      else if (incoming.access incoming.numBytes).Dominates acc then
        match H.acquire i with
        | (H, true) => symbolicConflicts i incoming fuel H (H.self i) 0 node
        | (H', false) => do
          let p ← H'.mutable i
          let H' := H'.setSymbolic p ((H'.lists p).symbolic.insert incoming.offset
            (((H'.lists p).symbolicAt incoming.offset).eraseIdx pre.length))
          symbolicConflicts i incoming fuel H' (H.self i) pre.length true
      else symbolicConflicts i incoming fuel H (H.self i) (pre.length + 1) node := by
  have hcov : (incoming.numBytes ≤ acc.numBytes && (isWrite acc.type || isRead incoming.type)) = true ↔
      acc.Dominates (incoming.access incoming.numBytes) := by
    simp [Access.Dominates, MemoryOperation.access]
  have hdrop : (acc.numBytes ≤ incoming.numBytes && (isRead acc.type || isWrite incoming.type)) = true ↔
      (incoming.access incoming.numBytes).Dominates acc := by
    simp [Access.Dominates, MemoryOperation.access, or_comm]
  rw [symbolicConflicts, if_pos rfl, hat, getElem?_append_right le_rfl, Nat.sub_self]
  exact if_congr hcov rfl (if_congr hdrop rfl rfl)

lemma symbolicConflicts_owned (incoming : MemoryOperation I E) (h : Owned H0 i H) (node : Bool)
    (hat : (H.operations i).symbolicAt incoming.offset = pre ++ rest) (hfuel : rest.length < fuel) :
    ∃ H' r, symbolicConflicts i incoming fuel H (H.self i) pre.length node = .ok (H', r) ∧ Owned H0 i H' ∧
      r.isNone = (thin (incoming.access incoming.numBytes) rest).2 ∧
      RecordsAt incoming.offset (pre ++ (thin (incoming.access incoming.numBytes) rest).1) (H.operations i)
        (H'.operations i) := by
  induction rest generalizing fuel H pre node with
  | nil =>
    obtain ⟨fuel, rfl⟩ := Nat.exists_eq_succ_of_ne_zero (Nat.ne_zero_of_lt hfuel)
    rw [symbolicConflicts, if_pos rfl, hat, append_nil, getElem?_eq_none le_rfl]
    exact ⟨H, some node, rfl, h, rfl, rfl, hat, fun _ _ => rfl⟩
  | cons acc rest ih =>
    obtain ⟨fuel, rfl⟩ := Nat.exists_eq_succ_of_ne_zero (Nat.ne_zero_of_lt hfuel)
    have hfuel' : rest.length < fuel := Nat.lt_of_succ_lt_succ hfuel
    rw [symbolicConflicts_step hat, thin]
    split_ifs
    · exact ⟨H, none, rfl, h, rfl, rfl, hat, fun _ _ => rfl⟩
    · have herase : ((H.operations i).symbolicAt incoming.offset).eraseIdx pre.length = pre ++ rest := by
        rw [hat, eraseIdx_append_of_length_le le_rfl, Nat.sub_self, eraseIdx_cons_zero]
      have hrec := recordsAt_setSymbolic H i incoming.offset (pre ++ rest)
      obtain ⟨H', r, heq, howned, hr, hrec'⟩ := ih (h.setSymbolic _) true hrec.at_offset hfuel'
      rw [acquire_of_useCount h.useCount]
      simp only [mutable_of_useCount h.useCount, ok_bind]
      rw [← operations, herase]
      exact ⟨H', r, heq, howned, hr, hrec'.concrete.trans hrec.concrete, hrec'.at_offset,
        fun o ho => (hrec'.other o ho).trans (hrec.other o ho)⟩
    · have hat' : (H.operations i).symbolicAt incoming.offset = (pre ++ [acc]) ++ rest := by simpa using hat
      obtain ⟨H', r, heq, howned, hr, hrec⟩ := ih h node hat' hfuel'
      rw [length_append] at heq
      exact ⟨H', r, heq, howned, hr, by simpa using hrec⟩

/-- On a shared list the loop changes nothing, or starts again on the copy. -/
lemma symbolicConflicts_shared (incoming : MemoryOperation I E) (h : Framed H0 i H)
    (hshared : 1 < H.useCount (H.self i))
    (hat : (H.operations i).symbolicAt incoming.offset = pre ++ rest)
    (hpre : ∀ x ∈ pre, ¬ x.Dominates (incoming.access incoming.numBytes) ∧
      ¬ (incoming.access incoming.numBytes).Dominates x) (hfuel : (pre ++ rest).length + rest.length + 1 < fuel) :
    ∃ H' r, symbolicConflicts i incoming fuel H (H.self i) pre.length false = .ok (H', r) ∧ Framed H0 i H' ∧
      (r = some true → Owned H0 i H') ∧ r.isNone = (thin (incoming.access incoming.numBytes) (pre ++ rest)).2 ∧
      RecordsAt incoming.offset (thin (incoming.access incoming.numBytes) (pre ++ rest)).1 (H.operations i)
        (H'.operations i) := by
  induction rest generalizing fuel pre with
  | nil =>
    obtain ⟨fuel, rfl⟩ := Nat.exists_eq_succ_of_ne_zero (Nat.ne_zero_of_lt hfuel)
    rw [thin_append hpre, symbolicConflicts, if_pos rfl, hat, append_nil, getElem?_eq_none le_rfl]
    exact ⟨H, some false, rfl, h, by simp, rfl, rfl, hat, fun _ _ => rfl⟩
  | cons acc rest ih =>
    obtain ⟨fuel, rfl⟩ := Nat.exists_eq_succ_of_ne_zero (Nat.ne_zero_of_lt hfuel)
    rw [symbolicConflicts_step hat]
    split_ifs with hcov hdrop
    · rw [thin_append hpre, thin, if_pos hcov]
      exact ⟨H, none, rfl, h, by simp, rfl, rfl, hat, fun _ _ => rfl⟩
    · obtain ⟨howned, -⟩ | ⟨-, H1, hacq, howned1, hops1⟩ := acquire_cases h
      · exact absurd howned.useCount hshared.ne'
      · rw [← hops1] at hat ⊢
        obtain ⟨H', r, heq, howned, hr, hrec⟩ := symbolicConflicts_owned incoming howned1 false
          (hat.trans (nil_append _).symm) (Nat.lt_of_add_right_lt (Nat.lt_of_succ_lt_succ hfuel))
        rw [hacq]
        exact ⟨H', r, heq, howned.toFramed, fun _ => howned, hr, hrec⟩
    · have hat' : (H.operations i).symbolicAt incoming.offset = (pre ++ [acc]) ++ rest := by simpa using hat
      have hfuel' : ((pre ++ [acc]) ++ rest).length + rest.length + 1 < fuel := by
        simp only [length_append, length_cons, length_nil] at hfuel ⊢
        omega
      obtain ⟨H', r, heq, hrest⟩ := ih hat' (forall_mem_append.mpr ⟨hpre, by simpa using And.intro hcov hdrop⟩) hfuel'
      rw [length_append] at heq
      exact ⟨H', r, heq, by simpa using hrest⟩

lemma registerSymbolic_eq (incoming : MemoryOperation I E) (h : Framed H0 i H) :
    ∃ H', H.registerSymbolicMemoryOperation i incoming = .ok H' ∧ Framed H0 i H' ∧
      RecordsAt incoming.offset (recordSymbolic (incoming.access incoming.numBytes)
        ((H.operations i).symbolicAt incoming.offset)) (H.operations i) (H'.operations i) ∧
      (Owned H0 i H → Owned H0 i H') := by
  generalize hxs : (H.operations i).symbolicAt incoming.offset = xs
  have hconflicts : ∃ H1 r, symbolicConflicts i incoming (2 * xs.length + 2) H (H.self i) 0 false = .ok (H1, r) ∧
      Framed H0 i H1 ∧ (r = some true → Owned H0 i H1) ∧ r.isNone = (thin (incoming.access incoming.numBytes) xs).2 ∧
      RecordsAt incoming.offset (thin (incoming.access incoming.numBytes) xs).1 (H.operations i) (H1.operations i) ∧
      (Owned H0 i H → Owned H0 i H1) := by
    have hlt : xs.length < 2 * xs.length + 2 := by omega
    have hlt' : xs.length + xs.length + 1 < 2 * xs.length + 2 := by omega
    obtain ⟨howned, -⟩ | ⟨hshared, -⟩ := acquire_cases h
    · obtain ⟨H1, r, heq, howned1, hr, hrec⟩ := symbolicConflicts_owned incoming howned false
        (hxs.trans (nil_append xs).symm) hlt
      exact ⟨H1, r, heq, howned1.toFramed, fun _ => howned1, hr, hrec, fun _ => howned1⟩
    · obtain ⟨H1, r, heq, hframed, hnode, hr, hrec⟩ := symbolicConflicts_shared incoming h hshared
        (hxs.trans (nil_append xs).symm) (by simp) hlt'
      exact ⟨H1, r, heq, hframed, hnode, hr, hrec, fun howned => absurd howned.useCount hshared.ne'⟩
  obtain ⟨H1, r, heq, hframed, hnode, hr, hrec, hkeep⟩ := hconflicts
  have hemplace : ∀ {H2 : Heap I E}, Owned H0 i H2 → H2.operations i = H1.operations i → r.isNone = false →
      ∃ H', H2.emplaceSymbolic i incoming = .ok H' ∧ Owned H0 i H' ∧ RecordsAt incoming.offset
        (recordSymbolic (incoming.access incoming.numBytes) xs) (H.operations i) (H'.operations i) := by
    intro H2 howned hops hsome
    rw [emplaceSymbolic, mutable_of_useCount howned.useCount]
    have hrec' := recordsAt_setSymbolic H2 i incoming.offset
      ((H2.operations i).symbolicAt incoming.offset ++ [incoming.access incoming.numBytes])
    refine ⟨_, rfl, howned.setSymbolic _, hrec'.concrete.trans ?_, hrec'.at_offset.trans ?_,
      fun o ho => (hrec'.other o ho).trans ?_⟩
    · rw [hops, hrec.concrete]
    · rw [hops, hrec.at_offset, recordSymbolic, ← hr, hsome]
      rfl
    · rw [hops, hrec.other o ho]
  rw [registerSymbolicMemoryOperation, hxs]
  simp only [heq, ok_bind]
  cases r with
  | none =>
    refine ⟨H1, rfl, hframed, ?_, hkeep⟩
    rw [recordSymbolic, ← hr]
    exact hrec
  | some node =>
    obtain ⟨howned, hacq⟩ | ⟨hshared, H2, hacq, howned, hops⟩ := acquire_cases hframed
    · obtain ⟨H', heq', howned', hrec'⟩ := hemplace howned rfl rfl
      simp only [hacq]
      exact ⟨H', heq', howned'.toFramed, hrec', fun _ => howned'⟩
    · have hfalse : node = false := by
        by_contra htrue
        exact absurd (hnode (by simp [htrue])).useCount hshared.ne'
      obtain ⟨H', heq', howned', hrec'⟩ := hemplace howned hops rfl
      simp only [hacq, hfalse]
      exact ⟨H', heq', howned'.toFramed, hrec', fun _ => howned'⟩

lemma registerSymbolic_isolated (h : Framed H0 i H) :
    Isolated H0 i (H.registerSymbolicMemoryOperation i incoming) := by
  obtain ⟨H', heq, hframed, -⟩ := registerSymbolic_eq incoming h
  rw [heq]
  exact hframed

end Heap
end RaceDetection
