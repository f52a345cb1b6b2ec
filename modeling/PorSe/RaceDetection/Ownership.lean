import PorSe.RaceDetection.ObjectAccesses
import PorSe.Lib.ListSearch

/-! Copy on write: what a call on one object keeps, and the access lists that an object has to itself. -/

namespace RaceDetection.Heap
open List Function
variable {I E : Type}

section
variable [LinearOrder E] {H H0 : Heap I E} {i j p : ℕ}

structure Valid (H : Heap I E) : Prop where
  lt_next : ∀ {i p}, H.pointer i = some p → p < H.next
  allocFree : ∀ o ∈ H.objects, o.allocFreeInstruction.isSome → o.accesses = none

structure Framed (H0 : Heap I E) (i : ℕ) (H : Heap I E) : Prop where
  valid : H.Valid
  pointer : H.pointer i = some (H.self i)
  recorded : ∀ j, j ≠ i → H.recorded j = H0.recorded j

structure Owned (H0 : Heap I E) (i : ℕ) (H : Heap I E) : Prop extends Framed H0 i H where
  useCount : H.useCount (H.self i) = 1

lemma self_eq (h : H.pointer i = some p) : H.self i = p := by rw [self, h]; rfl

lemma exists_object (h : H.pointer i = some p) : ∃ o, H.objects[i]? = some o ∧ o.accesses = some p := by
  simpa [pointer, Option.bind_eq_some_iff] using h

lemma pointer_of_object {o : ObjectAccesses I} (h : H.objects[i]? = some o) : H.pointer i = o.accesses := by
  rw [pointer, h]; rfl

lemma useCount_pos (h : H.pointer i = some p) : 0 < H.useCount p := by
  obtain ⟨o, ho, hp⟩ := exists_object h
  exact countP_pos_iff.mpr ⟨o, mem_of_getElem? ho, by simpa using hp⟩

lemma pointer_ne (hcount : H.useCount p = 1) (hi : H.pointer i = some p) (hj : j ≠ i) : H.pointer j ≠ some p := by
  intro hp
  obtain ⟨o, ho, hop⟩ := exists_object hi
  obtain ⟨o', ho', hop'⟩ := exists_object hp
  exact hj (ListSearch.eq_of_countP_eq_one hcount ho' (by simpa using hop') ho (by simpa using hop))

lemma recorded_congr (hobj : H.objects[j]? = H0.objects[j]?)
    (hlist : ∀ p, H.pointer j = some p → H.lists p = H0.lists p) : H.recorded j = H0.recorded j := by
  simp only [recorded, hobj]
  cases ho : H0.objects[j]? with
  | none => rfl
  | some o =>
    cases hp : o.accesses with
    | none => simp [hp]
    | some p =>
      have hptr : H.pointer j = some p := by rw [pointer_of_object (hobj.trans ho), hp]
      simp [hp, hlist p hptr]

/-! ## Updating the own list -/

variable (m : SortedMap ℕ (Access I))

@[simp] lemma self_setConcrete : (H.setConcrete p m).self i = H.self i := rfl

@[simp] lemma self_setSymbolic (m : SortedMap E (List (Access I))) : (H.setSymbolic p m).self i = H.self i := rfl

@[simp] lemma ops_setConcrete :
    (H.setConcrete (H.self i) m).operations i = { H.operations i with concrete := m } :=
  update_self (H.self i) _ H.lists

lemma Owned.setList (h : Owned H0 i H) (L : OperationList I E) :
    Owned H0 i { H with lists := update H.lists (H.self i) L } := by
  refine ⟨⟨⟨h.valid.lt_next, h.valid.allocFree⟩, h.pointer, fun j hj => ?_⟩, h.useCount⟩
  rw [← h.recorded j hj]
  refine recorded_congr rfl fun p hp => ?_
  have hp' : H.pointer j = some p := hp
  have hne : p ≠ H.self i := fun heq => pointer_ne h.useCount h.pointer hj (heq ▸ hp')
  exact update_of_ne hne L H.lists

lemma Owned.setConcrete (h : Owned H0 i H) (m : SortedMap ℕ (Access I)) : Owned H0 i (H.setConcrete (H.self i) m) :=
  h.setList _

lemma Owned.setSymbolic (h : Owned H0 i H) (m : SortedMap E (List (Access I))) :
    Owned H0 i (H.setSymbolic (H.self i) m) :=
  h.setList _

/-! ## Acquiring the list -/

lemma objects_makeShared (L : OperationList I E) (j : ℕ) : (H.makeShared i L).objects[j]? =
    if i = j then (H.objects[j]?).map fun o => { o with accesses := some H.next } else H.objects[j]? := by
  simp only [makeShared, getElem?_modify]
  split_ifs
  · rfl
  · simp

lemma owned_makeShared (hv : H.Valid) {o : ObjectAccesses I} (ho : H.objects[i]? = some o)
    (hfree : o.allocFreeInstruction = none) (L : OperationList I E) : Owned H i (H.makeShared i L) := by
  have hobj : (H.makeShared i L).objects[i]? = some { o with accesses := some H.next } := by
    rw [objects_makeShared, if_pos rfl, ho]; rfl
  have hptr : (H.makeShared i L).pointer i = some H.next := pointer_of_object hobj
  have hself : (H.makeShared i L).self i = H.next := self_eq hptr
  have hlt : ∀ {j p}, j ≠ i → (H.makeShared i L).pointer j = some p → p < H.next := by
    intro j p hj hp
    rw [pointer, objects_makeShared, if_neg hj.symm] at hp
    exact hv.lt_next hp
  refine ⟨⟨⟨?_, ?_⟩, by rw [hself, hptr], ?_⟩, ?_⟩
  · intro j p hp
    by_cases hj : j = i
    · rw [hj, hptr, Option.some.injEq] at hp
      exact hp ▸ Nat.lt_succ_self H.next
    · exact (hlt hj hp).trans (Nat.lt_succ_self H.next)
  · intro o' ho' hsome
    obtain ⟨j, hj⟩ := mem_iff_getElem?.mp ho'
    rw [objects_makeShared] at hj
    split_ifs at hj with hij
    · rw [← hij, ho] at hj
      cases hj
      simp [hfree] at hsome
    · exact hv.allocFree o' (mem_of_getElem? hj) hsome
  · intro j hj
    refine recorded_congr (by rw [objects_makeShared, if_neg hj.symm]) fun p hp => ?_
    exact update_of_ne (hlt hj hp).ne L H.lists
  · rw [hself]
    refine ListSearch.countP_eq_one_of_unique hobj (by simp) fun j b hb hbp => ?_
    by_contra hj
    have hp : (H.makeShared i L).pointer j = some H.next := by
      rw [pointer_of_object hb]; simpa using hbp
    exact lt_irrefl _ (hlt hj hp)

lemma operations_makeShared {o : ObjectAccesses I} (ho : H.objects[i]? = some o) (L : OperationList I E) :
    (H.makeShared i L).operations i = L := by
  have hptr : (H.makeShared i L).pointer i = some H.next := by
    rw [pointer, objects_makeShared, if_pos rfl, ho]; rfl
  rw [operations, self_eq hptr]
  exact update_self H.next L H.lists

lemma Framed.of_valid (hv : H.Valid) (hp : H.pointer i = some p) : Framed H i H :=
  ⟨hv, by rw [self_eq hp, hp], fun _ _ => rfl⟩

lemma Framed.trans (h : Framed H0 i H) {H' : Heap I E} (h' : Owned H i H') : Owned H0 i H' :=
  ⟨⟨h'.valid, h'.pointer, fun j hj => (h'.recorded j hj).trans (h.recorded j hj)⟩, h'.useCount⟩

lemma acquire_of_useCount (h : H.useCount (H.self i) = 1) : H.acquire i = (H, false) := by
  rw [acquire, h, if_neg (lt_irrefl 1)]

lemma acquire_cases (h : Framed H0 i H) : Owned H0 i H ∧ H.acquire i = (H, false) ∨ 1 < H.useCount (H.self i) ∧
      ∃ H', H.acquire i = (H', true) ∧ Owned H0 i H' ∧ H'.operations i = H.operations i := by
  by_cases hcount : 1 < H.useCount (H.self i)
  · obtain ⟨o, ho, hop⟩ := exists_object h.pointer
    have hfree : o.allocFreeInstruction = none := by
      by_contra hsome
      have := h.valid.allocFree o (mem_of_getElem? ho) (Option.isSome_iff_ne_none.mpr hsome)
      simp [this] at hop
    exact .inr ⟨hcount, H.makeShared i (H.operations i), by rw [acquire, if_pos hcount],
      h.trans (owned_makeShared h.valid ho hfree _), operations_makeShared ho _⟩
  · have hone : H.useCount (H.self i) = 1 := by
      have := useCount_pos h.pointer
      omega
    exact .inl ⟨⟨h, hone⟩, acquire_of_useCount hone⟩

/-! ## Iterators into the own list -/

lemma ok_bind {α β : Type} (a : α) (f : α → Except Fault β) : (Except.ok a >>= f) = f a := rfl

section
variable {it : Iterator} {key : Option ℕ} {k : ℕ} {acc : Access I} {pre rest : List (ℕ × Access I)}

lemma current_end : H.current i ⟨H.self i, none⟩ = .ok none := by rw [current, if_pos rfl]

lemma current_entry (hfind : (H.operations i).concrete.find? k = some acc) :
    H.current i ⟨H.self i, some k⟩ = .ok (some (k, acc)) := by
  rw [current, if_pos rfl]
  simp [hfind]

lemma deref_entry (hfind : (H.operations i).concrete.find? k = some acc) :
    H.deref i ⟨H.self i, some k⟩ = .ok (k, acc) := by
  rw [deref, current_entry hfind]
  rfl

lemma nextOf_key : H.nextOf ⟨H.self i, some k⟩ = ⟨H.self i, (H.operations i).concrete.upperBound k⟩ := rfl

lemma acquireAt_entry (h : Framed H0 i H) (hfind : (H.operations i).concrete.find? k = some acc) :
    ∃ H', H.acquireAt i ⟨H.self i, some k⟩ = .ok (H', ⟨H'.self i, some k⟩) ∧ Owned H0 i H' ∧
      H'.operations i = H.operations i := by
  obtain ⟨howned, hacq⟩ | ⟨-, H', hacq, howned, hops⟩ := acquire_cases h
  · exact ⟨H, by rw [acquireAt, hacq], howned, rfl⟩
  · refine ⟨H', ?_, howned, hops⟩
    rw [acquireAt, hacq]
    simp only [relocate, hops, hfind]
    rfl

lemma assign_entry (hfind : (H.operations i).concrete.find? k = some acc) (f : Access I → Access I) :
    H.assign i ⟨H.self i, some k⟩ f = .ok (H.setConcrete (H.self i) ((H.operations i).concrete.insert k (f acc))) := by
  rw [assign, deref_entry hfind]
  rfl

lemma emplaceHint_shared (h : 1 < H.useCount (H.self i)) : H.emplaceHint i it k acc = .error .notOwned := by
  rw [emplaceHint, mutable, if_neg (by omega)]
  rfl

lemma mutable_of_useCount (h : H.useCount (H.self i) = 1) : H.mutable i = .ok (H.self i) := by
  rw [mutable, if_pos h]

lemma emplaceHint_owned (it : Iterator) (k : ℕ) (acc : Access I) (h : Owned H0 i H) (hit : it.list = H.self i) :
    ∃ H', H.emplaceHint i it k acc = .ok H' ∧ Owned H0 i H' ∧ H'.self i = H.self i ∧
      H'.operations i = ⟨(H.operations i).concrete.emplace k acc, (H.operations i).symbolic⟩ := by
  refine ⟨_, ?_, h.setConcrete _, rfl, ops_setConcrete _⟩
  rw [emplaceHint, mutable_of_useCount h.useCount]
  exact if_pos hit

lemma emplaceHint_at (it : Iterator) (acc : Access I) (h : Owned H0 i H) (hit : it.list = H.self i)
    (hat : (H.operations i).concrete.At key pre rest) (hrest : ∀ p ∈ rest, k < p.1) :
    ∃ H' pre', H.emplaceHint i it k acc = .ok H' ∧ Owned H0 i H' ∧ H'.self i = H.self i ∧
      (H'.operations i).symbolic = (H.operations i).symbolic ∧ (H'.operations i).concrete.At key pre' rest ∧
      ((∀ p ∈ pre, p.1 < k) → pre' = pre ++ [(k, acc)]) := by
  obtain ⟨H', heq, howned, hself, hops⟩ := emplaceHint_owned it k acc h hit
  obtain ⟨pre', hat', hpre'⟩ := hat.exists_emplace acc hrest
  exact ⟨H', pre', heq, howned, hself, by rw [hops], by rw [hops]; exact hat', hpre'⟩

lemma extract_at (h : Owned H0 i H) (hat : (H.operations i).concrete.At (some k) pre ((k, acc) :: rest)) :
    ∃ H', H.extract i ⟨H.self i, some k⟩ = .ok (H', acc) ∧ Owned H0 i H' ∧ H'.self i = H.self i ∧
      (H'.operations i).symbolic = (H.operations i).symbolic ∧
      (H'.operations i).concrete.At ((H.operations i).concrete.upperBound k) pre rest := by
  refine ⟨_, ?_, h.setConcrete ((H.operations i).concrete.erase k), rfl, by rw [ops_setConcrete],
    by rw [ops_setConcrete]; exact hat.erase⟩
  rw [extract, mutable_of_useCount h.useCount, deref_entry hat.find?]
  rfl

end

/-- What a call on object `i` may end in: a framed heap, or an assertion other than that in `mut()`. -/
def Isolated (H0 : Heap I E) (i : ℕ) : Except Fault (Heap I E) → Prop
  | .ok H => Framed H0 i H
  | .error f => f = .assertion

end

end RaceDetection.Heap
