import PorSe.Fingerprint.MemoryFingerprint
import PorSe.Lib.ListSearch

/-! A string-set fingerprint is determined by the signed multiset of the fragments that were
added to it, whatever the operations and deltas that brought them there. -/

namespace Fingerprint
open Option SortedMap Function

lemma of_map_map {α β γ : Type} {x : Option α} {f : α → β} {g : β → γ} {c : γ} (h : (x.map f).map g = some c) :
    ∃ a, x = some a ∧ g (f a) = c := by
  rwa [Option.map_map, map_eq_some_iff] at h

/-! ## Adding and removing string sets -/

namespace StringSet
variable {dst src : StringSet}

lemma forall_ne_empty_iff : (∀ p ∈ src.entries, ¬ p.1 = "") ↔ src.find? "" = none := by
  constructor
  · exact fun h => findIn_eq_none h
  · intro h p hp hempty
    rw [show p = ("", p.2) by rw [← hempty], mem_entries_iff, h] at hp
    cases hp

lemma executeAdd_eq (hsrc : src.NoZero) :
    executeAdd dst src = if src.find? "" = none then some (dst.adjustAll src.entries) else none := by
  refine (ListSearch.foldlM_guard (p := fun p : String × Count => p.1 = "")
    (fun (dst : StringSet) p => dst.bump p.1 p.2)
    _ _).trans ?_
  rw [foldl_bump fun p hp => hsrc.ne_zero hp]
  simp only [forall_ne_empty_iff]

lemma executeRemove_eq (hsrc : src.NoZero) : executeRemove dst src =
      if src.find? "" = none then some (dst.adjustAll (negated src.entries)) else none := by
  have hne : ∀ p ∈ negated src.entries, p.2 ≠ 0 := by
    intro p hp
    obtain ⟨q, hq, rfl⟩ := List.mem_map.mp hp
    exact neg_ne_zero.mpr (hsrc.ne_zero hq)
  refine (ListSearch.foldlM_guard (p := fun p : String × Count => p.1 = "")
    (fun (dst : StringSet) p => dst.bump p.1 (-p.2))
    _ _).trans ?_
  rw [← foldl_bump hne, negated, List.foldl_map]
  simp only [forall_ne_empty_iff]

lemma find?_adjustAll_of_notMem {k : String} {ps : List (String × Count)} (h : ∀ p ∈ ps, ¬ p.1 = k) :
    (dst.adjustAll ps).find? k = dst.find? k := by
  induction ps generalizing dst with
  | nil => rfl
  | cons p ps ih =>
    have hp := h p List.mem_cons_self
    refine (@ih (dst.adjust p.1 p.2) fun q hq => h q (List.mem_cons_of_mem p hq)).trans ?_
    rw [adjust]
    split_ifs
    · rw [find?_erase, if_neg hp]
    · rw [find?_insert, if_neg hp]

end StringSet

lemma generateHash_find?_empty {current : String} :
    (stringSet.generateHash current).find? "" = none ↔ current ≠ "" := by
  rw [stringSet, find?_insert]
  split_ifs with h <;> simp [h]

lemma noZero_generateHash (current : String) : (stringSet.generateHash current).NoZero := by
  intro k
  rw [stringSet, find?_insert]
  split_ifs <;> simp

lemma MemoryFingerprint.addDelta_removeDelta {A : Type} [LinearOrder A] {fp : MemoryFingerprint StringSet A}
    {delta : MemoryFingerprintDelta StringSet A} (hvalue : fp.fingerprintValue.NoZero)
    (hreferences : fp.symbolicReferences.NoZero) (hdelta : delta.fingerprintValue.NoZero)
    (hnonempty : delta.fingerprintValue.find? "" = none) :
    ∃ fp1, fp.addDelta stringSet delta = some fp1 ∧
      fp1.fingerprintValue = fp.fingerprintValue.adjustAll delta.fingerprintValue.entries ∧
        fp1.removeDelta stringSet delta = some fp := by
  have hadd : stringSet.executeAdd fp.fingerprintValue delta.fingerprintValue = some _ :=
    (StringSet.executeAdd_eq hdelta).trans (if_pos hnonempty)
  have hremove : ∀ dst, stringSet.executeRemove dst delta.fingerprintValue = some _ := fun dst =>
    (StringSet.executeRemove_eq hdelta).trans (if_pos hnonempty)
  refine ⟨_, by rw [addDelta, hadd]; rfl, rfl, ?_⟩
  simp [removeDelta, hremove, hvalue.adjustAll_negated, addReferences, removeReferences, hreferences.adjustAll_negated]

/-! ## Signed multisets of fragments -/

/-- What the buffer holds when an operation uses it. -/
structure Fragment (A : Type) [LinearOrder A] where
  text : String
  references : SortedMap A Count

abbrev Net (A : Type) [LinearOrder A] := FreeAbelianGroup (Fragment A)

section
variable {A : Type} [LinearOrder A]

def MemoryFingerprint.fragment {V : Type} (fp : MemoryFingerprint V A) : Fragment A := ⟨fp.current, fp.bufferReferences⟩

noncomputable def valueOf : Net A →+ (String → Count) := FreeAbelianGroup.lift fun x => Pi.single x.text 1

noncomputable def referencesOf : Net A →+ (A → Count) := FreeAbelianGroup.lift fun x => x.references.count

/-- A value and reference counts that stand for a signed multiset. -/
structure Contributes (value : StringSet) (references : SortedMap A Count) (n : Net A) : Prop where
  noZero : value.NoZero
  nonempty : value.find? "" = none
  count_value : value.count = valueOf n
  count_references : references.count = referencesOf n

/-- Moreover no reference count is zero, as in every fingerprint and delta. -/
structure Represents (value : StringSet) (references : SortedMap A Count) (n : Net A) : Prop extends
    Contributes value references n where
  noZero_references : references.NoZero

variable {value value' result : StringSet} {references references' : SortedMap A Count} {n n' : Net A}

lemma represents_zero : Represents empty (empty : SortedMap A Count) 0 where
  noZero := noZero_empty
  nonempty := rfl
  count_value := (map_zero valueOf).symm
  count_references := (map_zero referencesOf).symm
  noZero_references := noZero_empty

variable {fp : MemoryFingerprint StringSet A}

lemma contributes_fragment (h : fp.current ≠ "") :
    Contributes (stringSet.generateHash fp.current) fp.bufferReferences (.of fp.fragment) where
  noZero := noZero_generateHash fp.current
  nonempty := generateHash_find?_empty.mpr h
  count_value := by
    rw [valueOf, FreeAbelianGroup.lift_apply_of]
    funext k
    rw [count, stringSet, find?_insert, MemoryFingerprint.fragment, Pi.single_apply]
    by_cases hk : fp.current = k
    · rw [if_pos hk, if_pos hk.symm, getD_some]
    · rw [if_neg hk, if_neg (Ne.symm hk), find?_empty, getD_none]
  count_references := by rw [referencesOf, FreeAbelianGroup.lift_apply_of]; rfl

lemma Represents.add (h : Represents value references n) (h' : Contributes value' references' n') :
    ∃ result, stringSet.executeAdd value value' = some result ∧
      Represents result (addReferences references references') (n + n') := by
  refine ⟨value.adjustAll value'.entries, (StringSet.executeAdd_eq h'.noZero).trans (if_pos h'.nonempty), ?_⟩
  refine ⟨⟨h.noZero.adjustAll _, ?_, ?_, ?_⟩, h.noZero_references.adjustAll _⟩
  · rw [StringSet.find?_adjustAll_of_notMem (StringSet.forall_ne_empty_iff.mpr h'.nonempty), h.nonempty]
  · rw [count_add, h.count_value, h'.count_value, map_add]
  · rw [addReferences, count_add, h.count_references, h'.count_references, map_add]

lemma Represents.remove (h : Represents value references n) (h' : Contributes value' references' n') :
    ∃ result, stringSet.executeRemove value value' = some result ∧
      Represents result (removeReferences references references') (n + -n') := by
  rw [← sub_eq_add_neg]
  refine ⟨value.adjustAll (negated value'.entries),
    (StringSet.executeRemove_eq h'.noZero).trans (if_pos h'.nonempty), ?_⟩
  refine ⟨⟨h.noZero.adjustAll _, ?_, ?_, ?_⟩, h.noZero_references.adjustAll _⟩
  · rw [StringSet.find?_adjustAll_of_notMem, h.nonempty]
    intro p hp
    obtain ⟨q, hq, rfl⟩ := List.mem_map.mp hp
    exact StringSet.forall_ne_empty_iff.mpr h'.nonempty q hq
  · rw [count_sub, h.count_value, h'.count_value, map_sub]
  · rw [removeReferences, count_sub, h.count_references, h'.count_references, map_sub]

lemma Represents.unique (h : Represents value references n) (h' : Represents value' references' n) :
    value = value' ∧ references = references' :=
  ⟨h.noZero.ext h'.noZero (h.count_value.trans h'.count_value.symm),
    h.noZero_references.ext h'.noZero_references (h.count_references.trans h'.count_references.symm)⟩

lemma current_ne_empty {r : StringSet}
    (h : (if (stringSet.generateHash fp.current).find? "" = none then some r else none) = some result) :
    fp.current ≠ "" :=
  generateHash_find?_empty.mp (by_contra fun hempty => nomatch (if_neg hempty).symm.trans h)

lemma Represents.addFragment (h : Represents value references n)
    (hresult : stringSet.executeAdd value (stringSet.generateHash fp.current) = some result) :
    Represents result (addReferences references fp.bufferReferences) (n + .of fp.fragment) := by
  have hne := current_ne_empty ((StringSet.executeAdd_eq (noZero_generateHash _)).symm.trans hresult)
  obtain ⟨_, hresult', hrep⟩ := h.add (contributes_fragment hne)
  cases hresult'.symm.trans hresult
  exact hrep

lemma Represents.removeFragment (h : Represents value references n)
    (hresult : stringSet.executeRemove value (stringSet.generateHash fp.current) = some result) :
    Represents result (removeReferences references fp.bufferReferences) (n + -.of fp.fragment) := by
  have hne := current_ne_empty ((StringSet.executeRemove_eq (noZero_generateHash _)).symm.trans hresult)
  obtain ⟨_, hresult', hrep⟩ := h.remove (contributes_fragment hne)
  cases hresult'.symm.trans hresult
  exact hrep

end

/-! ## Runs -/

section
variable {F I A : Type} [LinearOrder A] [DecidableEq F] [DecidableEq I]

structure Store (F I A : Type) [LinearOrder A] where
  fingerprints : F → MemoryFingerprint StringSet A
  deltas : I → MemoryFingerprintDelta StringSet A

inductive Operation (F I : Type)
  | addToFingerprint (f : F)
  | removeFromFingerprint (f : F)
  | addToFingerprintAndDelta (f : F) (i : I)
  | removeFromFingerprintAndDelta (f : F) (i : I)
  | addToDeltaOnly (f : F) (i : I)
  | removeFromDeltaOnly (f : F) (i : I)
  | addDelta (f : F) (i : I)
  | removeDelta (f : F) (i : I)
deriving DecidableEq

namespace Operation

def fingerprint : Operation F I → F
  | addToFingerprint f | removeFromFingerprint f | addToFingerprintAndDelta f _ | removeFromFingerprintAndDelta f _
  | addToDeltaOnly f _ | removeFromDeltaOnly f _ | addDelta f _ | removeDelta f _ => f

def appliesDelta : Operation F I → Bool
  | addDelta _ _ | removeDelta _ _ => true
  | _ => false

end Operation

namespace Store
variable (S : Store F I A)

def initial : Store F I A := ⟨fun _ => .initial stringSet, fun _ => ⟨stringSet.zero, .empty⟩⟩

def setFingerprint (f : F) (fp : MemoryFingerprint StringSet A) : Store F I A :=
  { S with fingerprints := update S.fingerprints f fp }

def setBoth (f : F) (i : I) (r : MemoryFingerprint StringSet A × MemoryFingerprintDelta StringSet A) : Store F I A :=
  ⟨update S.fingerprints f r.1, update S.deltas i r.2⟩

def step : Operation F I → Option (Store F I A)
  | .addToFingerprint f => ((S.fingerprints f).addToFingerprint stringSet).map (S.setFingerprint f)
  | .removeFromFingerprint f => ((S.fingerprints f).removeFromFingerprint stringSet).map (S.setFingerprint f)
  | .addToFingerprintAndDelta f i =>
    ((S.fingerprints f).addToFingerprintAndDelta stringSet (S.deltas i)).map (S.setBoth f i)
  | .removeFromFingerprintAndDelta f i =>
    ((S.fingerprints f).removeFromFingerprintAndDelta stringSet (S.deltas i)).map (S.setBoth f i)
  | .addToDeltaOnly f i => ((S.fingerprints f).addToDeltaOnly stringSet (S.deltas i)).map (S.setBoth f i)
  | .removeFromDeltaOnly f i => ((S.fingerprints f).removeFromDeltaOnly stringSet (S.deltas i)).map (S.setBoth f i)
  | .addDelta f i => ((S.fingerprints f).addDelta stringSet (S.deltas i)).map (S.setFingerprint f)
  | .removeDelta f i => ((S.fingerprints f).removeDelta stringSet (S.deltas i)).map (S.setFingerprint f)

end Store

abbrev Nets (F I A : Type) [LinearOrder A] := (F → Net A) × (I → Net A)

noncomputable def contribution (N : Nets F I A) : Operation F I × Fragment A → Nets F I A
  | (.addToFingerprint f, x) => (Pi.single f (.of x), 0)
  | (.removeFromFingerprint f, x) => (Pi.single f (-.of x), 0)
  | (.addToFingerprintAndDelta f i, x) => (Pi.single f (.of x), Pi.single i (.of x))
  | (.removeFromFingerprintAndDelta f i, x) => (Pi.single f (-.of x), Pi.single i (-.of x))
  | (.addToDeltaOnly _ i, x) => (0, Pi.single i (.of x))
  | (.removeFromDeltaOnly _ i, x) => (0, Pi.single i (-.of x))
  | (.addDelta f i, _) => (Pi.single f (N.2 i), 0)
  | (.removeDelta f i, _) => (Pi.single f (-N.2 i), 0)

noncomputable def nets : List (Operation F I × Fragment A) → Nets F I A
  | [] => 0
  | c :: calls => nets calls + contribution (nets calls) c

/-- Runs with the operations and the fragments they used, the last one first. -/
inductive Run : Store F I A → List (Operation F I × Fragment A) → Prop
  | start : Run .initial []
  | update {S : Store F I A} {calls : List (Operation F I × Fragment A)} (f : F) (text : String) (h : Run S calls) :
      Run (S.setFingerprint f ((S.fingerprints f).update text)) calls
  | updateExpr {S : Store F I A} {calls : List (Operation F I × Fragment A)} (f : F) (text : String)
      (usedArrays : List A) (h : Run S calls) :
      Run (S.setFingerprint f ((S.fingerprints f).updateExpr text usedArrays)) calls
  | step {S S' : Store F I A} {calls : List (Operation F I × Fragment A)} (op : Operation F I) (h : Run S calls)
      (hS' : S.step op = some S') : Run S' ((op, (S.fingerprints op.fingerprint).fragment) :: calls)

namespace Store
variable {S S' : Store F I A} {N : Nets F I A} {f : F} {i : I}

structure Represents (S : Store F I A) (N : Nets F I A) : Prop where
  fingerprints : ∀ f, Fingerprint.Represents (S.fingerprints f).fingerprintValue
    (S.fingerprints f).symbolicReferences (N.1 f)
  deltas : ∀ i, Fingerprint.Represents (S.deltas i).fingerprintValue (S.deltas i).symbolicReferences (N.2 i)

variable {fp : MemoryFingerprint StringSet A}

section
variable (h : S.Represents N)
include h

omit [DecidableEq I] in
lemma Represents.setFingerprint {n : Net A}
    (hfp : Fingerprint.Represents fp.fingerprintValue fp.symbolicReferences (N.1 f + n)) :
    (S.setFingerprint f fp).Represents (N + (Pi.single f n, 0)) where
  fingerprints f' := by
    by_cases hf : f' = f
    · subst hf
      simpa [Store.setFingerprint] using hfp
    · simpa [Store.setFingerprint, hf] using h.fingerprints f'
  deltas i := by simpa [Store.setFingerprint] using h.deltas i

lemma Represents.setBoth {r : MemoryFingerprint StringSet A × MemoryFingerprintDelta StringSet A} {n n' : Net A}
    (hfp : Fingerprint.Represents r.1.fingerprintValue r.1.symbolicReferences (N.1 f + n))
    (hdelta : Fingerprint.Represents r.2.fingerprintValue r.2.symbolicReferences (N.2 i + n')) :
    (S.setBoth f i r).Represents (N + (Pi.single f n, Pi.single i n')) where
  fingerprints f' := by
    by_cases hf : f' = f
    · subst hf
      simpa [Store.setBoth] using hfp
    · simpa [Store.setBoth, hf] using h.fingerprints f'
  deltas i' := by
    by_cases hi : i' = i
    · subst hi
      simpa [Store.setBoth] using hdelta
    · simpa [Store.setBoth, hi] using h.deltas i'

omit [DecidableEq I] in
lemma Represents.setBuffer (hvalue : fp.fingerprintValue = (S.fingerprints f).fingerprintValue)
    (hreferences : fp.symbolicReferences = (S.fingerprints f).symbolicReferences) :
    (S.setFingerprint f fp).Represents N := by
  have hfp : Fingerprint.Represents fp.fingerprintValue fp.symbolicReferences (N.1 f + 0) := by
    rw [hvalue, hreferences, add_zero]
    exact h.fingerprints f
  have hset := h.setFingerprint hfp
  rwa [Pi.single_zero, Prod.mk_zero_zero, add_zero] at hset

lemma Represents.setCleared {delta : MemoryFingerprintDelta StringSet A} {n : Net A}
    (hdelta : Fingerprint.Represents delta.fingerprintValue delta.symbolicReferences (N.2 i + n)) :
    (S.setBoth f i ((S.fingerprints f).clear, delta)).Represents (N + (0, Pi.single i n)) := by
  have hfp : Fingerprint.Represents (S.fingerprints f).clear.fingerprintValue
    (S.fingerprints f).clear.symbolicReferences
      (N.1 f + 0) := by simpa using h.fingerprints f
  have hboth := h.setBoth (r := ((S.fingerprints f).clear, delta)) hfp hdelta
  rwa [Pi.single_zero] at hboth

lemma Represents.step {op : Operation F I} (hS' : S.step op = some S') :
    S'.Represents (N + contribution N (op, (S.fingerprints op.fingerprint).fragment)) := by
  cases op with
  | addToFingerprint f =>
    obtain ⟨_, hvalue, rfl⟩ := of_map_map hS'
    exact h.setFingerprint ((h.fingerprints f).addFragment hvalue)
  | removeFromFingerprint f =>
    obtain ⟨_, hvalue, rfl⟩ := of_map_map hS'
    exact h.setFingerprint ((h.fingerprints f).removeFragment hvalue)
  | addToFingerprintAndDelta f i =>
    obtain ⟨r, hr, rfl⟩ := map_eq_some_iff.mp hS'
    obtain ⟨_, hdelta, hr⟩ := bind_eq_some_iff.mp hr
    obtain ⟨_, hvalue, rfl⟩ := of_map_map hr
    exact h.setBoth ((h.fingerprints f).addFragment hvalue) ((h.deltas i).addFragment hdelta)
  | removeFromFingerprintAndDelta f i =>
    obtain ⟨r, hr, rfl⟩ := map_eq_some_iff.mp hS'
    obtain ⟨_, hdelta, hr⟩ := bind_eq_some_iff.mp hr
    obtain ⟨_, hvalue, rfl⟩ := of_map_map hr
    exact h.setBoth ((h.fingerprints f).removeFragment hvalue) ((h.deltas i).removeFragment hdelta)
  | addToDeltaOnly f i =>
    obtain ⟨_, hdelta, rfl⟩ := of_map_map hS'
    exact h.setCleared ((h.deltas i).addFragment hdelta)
  | removeFromDeltaOnly f i =>
    obtain ⟨_, hdelta, rfl⟩ := of_map_map hS'
    exact h.setCleared ((h.deltas i).removeFragment hdelta)
  | addDelta f i =>
    obtain ⟨_, hvalue, rfl⟩ := of_map_map hS'
    obtain ⟨_, hvalue', hrep⟩ := (h.fingerprints f).add (h.deltas i).toContributes
    cases hvalue'.symm.trans hvalue
    exact h.setFingerprint hrep
  | removeDelta f i =>
    obtain ⟨_, hvalue, rfl⟩ := of_map_map hS'
    obtain ⟨_, hvalue', hrep⟩ := (h.fingerprints f).remove (h.deltas i).toContributes
    cases hvalue'.symm.trans hvalue
    exact h.setFingerprint hrep

lemma Represents.removeDelta_addDelta (f : F) (i : I) :
    ∃ S1, S.step (.addDelta f i) = some S1 ∧ S1.step (.removeDelta f i) = some S := by
  have hfp := h.fingerprints f
  have hdelta := h.deltas i
  obtain ⟨fp1, hadd, -, hremove⟩ :=
    MemoryFingerprint.addDelta_removeDelta hfp.noZero hfp.noZero_references hdelta.noZero hdelta.nonempty
  refine ⟨S.setFingerprint f fp1, by rw [Store.step, hadd]; rfl, ?_⟩
  simp [Store.step, Store.setFingerprint, hremove]

end

end Store

variable {S S' : Store F I A} {calls calls' : List (Operation F I × Fragment A)}

lemma Run.represents (h : Run S calls) : S.Represents (nets calls) := by
  induction h with
  | start => exact ⟨fun _ => represents_zero, fun _ => represents_zero⟩
  | update f text _ ih | updateExpr f text _ _ ih => exact ih.setBuffer rfl rfl
  | step op _ hS' ih => exact ih.step hS'

lemma nets_eq_sum (h : ∀ c ∈ calls, c.1.appliesDelta = false) : nets calls = (calls.map (contribution 0)).sum := by
  induction calls with
  | nil => rfl
  | cons c calls ih =>
    have hc : contribution (nets calls) c = contribution 0 c := by
      obtain ⟨op, x⟩ := c
      cases op with
      | addDelta f i | removeDelta f i => cases h _ List.mem_cons_self
      | _ => rfl
    rw [nets, hc, ih fun c' hc' => h c' (List.mem_cons_of_mem c hc'), List.map_cons, List.sum_cons, add_comm]

lemma nets_perm (hperm : calls.Perm calls') (h : ∀ c ∈ calls, c.1.appliesDelta = false) : nets calls = nets calls' := by
  rw [nets_eq_sum h, nets_eq_sum fun c hc => h c (hperm.mem_iff.mpr hc)]
  exact (hperm.map _).sum_eq

def SameValues (S S' : Store F I A) : Prop :=
  (∀ f, (S.fingerprints f).fingerprintValue = (S'.fingerprints f).fingerprintValue ∧
    (S.fingerprints f).symbolicReferences = (S'.fingerprints f).symbolicReferences) ∧ S.deltas = S'.deltas

/-- No count is zero, only the signed multiset of fragments matters, and removing a delta undoes adding it. -/
theorem Run.history_independent (h : Run S calls) (h' : Run S' calls') :
    ((∀ f, (S.fingerprints f).fingerprintValue.NoZero ∧ (S.fingerprints f).symbolicReferences.NoZero) ∧
      ∀ i, (S.deltas i).fingerprintValue.NoZero ∧ (S.deltas i).symbolicReferences.NoZero) ∧
    (∀ f f', (nets calls).1 f = (nets calls').1 f' →
      (S.fingerprints f).fingerprintValue = (S'.fingerprints f').fingerprintValue ∧
        (S.fingerprints f).symbolicReferences = (S'.fingerprints f').symbolicReferences) ∧
    (∀ i i', (nets calls).2 i = (nets calls').2 i' → S.deltas i = S'.deltas i') ∧
    (calls.Perm calls' → (∀ c ∈ calls, c.1.appliesDelta = false) → SameValues S S') ∧
    ∀ f i, ∃ S₁, S.step (.addDelta f i) = some S₁ ∧ S₁.step (.removeDelta f i) = some S := by
  have hrep := h.represents
  have hrep' := h'.represents
  have hdeltas : ∀ i i', (nets calls).2 i = (nets calls').2 i' → S.deltas i = S'.deltas i' := by
    intro i i' heq
    obtain ⟨hvalue, hreferences⟩ := (hrep.deltas i).unique (heq ▸ hrep'.deltas i')
    exact MemoryFingerprintDelta.ext hvalue hreferences
  refine ⟨⟨fun f => ⟨(hrep.fingerprints f).noZero, (hrep.fingerprints f).noZero_references⟩,
    fun i => ⟨(hrep.deltas i).noZero, (hrep.deltas i).noZero_references⟩⟩, ?_, hdeltas, ?_, hrep.removeDelta_addDelta⟩
  · intro f f' heq
    exact (hrep.fingerprints f).unique (heq ▸ hrep'.fingerprints f')
  · intro hperm hcalls
    have hnets := nets_perm hperm hcalls
    refine ⟨fun f => (hrep.fingerprints f).unique (hnets ▸ hrep'.fingerprints f), ?_⟩
    exact funext fun i => hdeltas i i (by rw [hnets])

theorem Run.history_independent_swap :
    ∃ (S S' : Store Unit Unit ℕ) (x y : Fragment ℕ), x.text = "1 8 5" ∧ y.text = "4 x" ∧
      Run S [(.addToFingerprint (), y), (.addToFingerprintAndDelta () (), x)] ∧
        Run S' [(.addToFingerprintAndDelta () (), x), (.addToFingerprint (), y)] ∧ SameValues S S' := by
  have hx : ∃ S : Store Unit Unit ℕ, Run S [(.addToFingerprint (), ⟨"4 x", empty.insert 7 1⟩),
      (.addToFingerprintAndDelta () (), ⟨"1 8 5", .empty⟩)] :=
    ⟨_, .step (.addToFingerprint ()) (.updateExpr () "x" [7] (.update () "4"
      (.step (.addToFingerprintAndDelta () ()) (.update () "5" (.update () "8" (.update () "1" .start))) rfl))) rfl⟩
  have hy : ∃ S : Store Unit Unit ℕ, Run S [(.addToFingerprintAndDelta () (), ⟨"1 8 5", .empty⟩),
      (.addToFingerprint (), ⟨"4 x", empty.insert 7 1⟩)] :=
    ⟨_, .step (.addToFingerprintAndDelta () ()) (.update () "5" (.update () "8" (.update () "1"
      (.step (.addToFingerprint ()) (.updateExpr () "x" [7] (.update () "4" .start)) rfl)))) rfl⟩
  obtain ⟨S, h⟩ := hx
  obtain ⟨S', h'⟩ := hy
  have hsame := (h.history_independent h').2.2.2.1 (List.Perm.swap _ _ _) (by simp [Operation.appliesDelta])
  exact ⟨S, S', _, _, rfl, rfl, h, h', hsame⟩

end

end Fingerprint
