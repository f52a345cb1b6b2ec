import PorSe.Fingerprint.HistoryIndependence
import PorSe.Lib.Closure
import PorSe.Lib.Keyed

/-! The path constraints in a fingerprint: those that are connected to a referenced array,
through constraints that share arrays, are printed into one more fragment. -/

namespace Fingerprint
open Option SortedMap Keyed

/-- Expressions as a fingerprint sees them; equal keys mean equal to `==` and to `exprSort`. -/
class Expression (E : Type) (A K : outParam Type) where
  key : E → K
  usedArrays : E → List A
  name : A → String
  printSingleExpr : E → String
  usedArrays_congr : ∀ {a b : E}, key a = key b → ∀ v, v ∈ usedArrays a ↔ v ∈ usedArrays b

variable {E A K V : Type} [LinearOrder A] [LinearOrder K] [Expression E A K]
open Expression

def exprSort (expressions : List E) : List E := Keyed.sort key expressions

def insertExpr (set : List E) (e : E) : List E := Keyed.insertFirst key set e

structure ConstraintMaps (E A K : Type) [LinearOrder A] [LinearOrder K] where
  constraintsMap : SortedMap A (List E)
  exprToArray : SortedMap K (List A)

namespace ConstraintMaps

variable (M : ConstraintMaps E A K)

def add (e : E) : ConstraintMaps E A K :=
  (usedArrays e).foldl (fun M s =>
    ⟨M.constraintsMap.insert s (insertExpr ((M.constraintsMap.find? s).getD []) e),
      M.exprToArray.insert (key e) (((M.exprToArray.find? (key e)).getD []).insert s)⟩) M

def ofExpressions (expressions : List E) : ConstraintMaps E A K := expressions.foldl add ⟨.empty, .empty⟩

def next (a : A) : List A :=
  ((M.constraintsMap.find? a).getD []).flatMap fun c => (M.exprToArray.find? (key c)).getD []

def transitiveClosure (arraysReferenced : List A) : Option (List A) :=
  Closure.rounds M.next (M.constraintsMap.size + 1) arraysReferenced arraysReferenced

end ConstraintMaps

namespace MemoryFingerprint

/-- The constraints of each array are printed in the order of `exprSort`. -/
def updateConstraints (fp : MemoryFingerprint V A) (M : ConstraintMaps E A K) (arrSet : List A) :
    MemoryFingerprint V A :=
  arrSet.foldl (fun fp v =>
    match M.constraintsMap.find? v with
    | none => fp
    | some set => (exprSort set).foldl (fun fp e => fp.update (printSingleExpr e)) fp) (fp.updateUint8 10)

def referenced (fp : MemoryFingerprint V A) : List A := fp.symbolicReferences.entries.map Prod.fst

/-- The value, the new fingerprint and the vector, sorted in place; `none` if an assertion fails. -/
def getFingerprint (D : Derived V) (fp : MemoryFingerprint V A) (expressions : List E) :
    Option (V × MemoryFingerprint V A × List E) :=
  if fp.symbolicReferences.entries.any fun s => decide (s.2.toInt ≤ 0) then none
  else if fp.referenced.isEmpty then some (fp.fingerprintValue, fp, expressions)
  else
    let M : ConstraintMaps E A K := .ofExpressions (exprSort expressions)
    (M.transitiveClosure fp.referenced).bind fun arraysReferenced =>
      let arrSet := arraysReferenced.insertionSort fun a b => name E a ≤ name E b
      ((fp.updateConstraints M arrSet).addToDeltaOnly D ⟨D.zero, .empty⟩).bind fun r =>
        (r.1.addDelta D r.2).bind fun fp₁ =>
          (fp₁.removeDelta D r.2).map fun fp₂ => (fp₁.fingerprintValue, fp₂, exprSort expressions)

end MemoryFingerprint

/-! ## The maps -/

namespace ConstraintMaps
variable {es : List E} {e c : E} {a b : A}

def constraintsOf (es : List E) (a : A) : List E := (Keyed.firsts key es).filter fun c => decide (a ∈ usedArrays c)

lemma add_constraintsMap (M : ConstraintMaps E A K) (e : E) (a : A) : ((M.add e).constraintsMap.find? a).getD [] =
      if a ∈ usedArrays e then insertExpr ((M.constraintsMap.find? a).getD []) e
      else (M.constraintsMap.find? a).getD [] := by
  rw [add]
  induction usedArrays e generalizing M with
  | nil => simp
  | cons s _ ih =>
    rw [List.foldl_cons, ih]
    by_cases hs : s = a
    · subst hs
      simp only [find?_insert_self, List.mem_cons, true_or]
      split_ifs
      · exact insertFirst_idem _ e
      · rfl
    · simp [find?_insert_ne _ _ hs, Ne.symm hs]

lemma add_exprToArray (M : ConstraintMaps E A K) (e : E) (k : K) (v : A) : v ∈ ((M.add e).exprToArray.find? k).getD [] ↔
      v ∈ (M.exprToArray.find? k).getD [] ∨ key e = k ∧ v ∈ usedArrays e := by
  rw [add]
  induction usedArrays e generalizing M with
  | nil => simp
  | cons s _ ih =>
    rw [List.foldl_cons, ih]
    by_cases hk : key e = k
    · subst hk
      simp only [find?_insert_self, getD_some, List.mem_insert_iff, List.mem_cons]
      tauto
    · simp [find?_insert_ne _ _ hk, hk]

lemma find?_ofExpressions (es : List E) (a : A) :
    ((ofExpressions es).constraintsMap.find? a).getD [] = constraintsOf es a := by
  induction es using List.reverseRecOn with
  | nil => rfl
  | append_singleton es e ih =>
    rw [ofExpressions, List.foldl_append, List.foldl_cons, List.foldl_nil, add_constraintsMap, ← ofExpressions, ih,
      constraintsOf, constraintsOf, firsts_concat]
    by_cases h : ∃ c ∈ firsts key es, key c = key e
    · rw [insertFirst_of_mem h]
      split_ifs with ha
      · obtain ⟨c, hc, hkey⟩ := h
        exact insertFirst_of_mem ⟨c, List.mem_filter.mpr ⟨hc, by simpa using (usedArrays_congr hkey a).mpr ha⟩, hkey⟩
      · rfl
    · rw [insertFirst_of_not_mem h]
      split_ifs with ha
      · have hnot : ¬ ∃ c ∈ (firsts key es).filter fun c => decide (a ∈ usedArrays c), key c = key e := by
          rintro ⟨c, hc, hkey⟩
          exact h ⟨c, List.mem_of_mem_filter hc, hkey⟩
        rw [insertExpr, insertFirst_of_not_mem hnot]
        simp [ha]
      · simp [ha]

lemma mem_exprToArray (es : List E) (k : K) (v : A) :
    v ∈ ((ofExpressions es).exprToArray.find? k).getD [] ↔ ∃ e ∈ es, key e = k ∧ v ∈ usedArrays e := by
  induction es using List.reverseRecOn with
  | nil => simp [ofExpressions]
  | append_singleton es e ih =>
    rw [ofExpressions, List.foldl_append, List.foldl_cons, List.foldl_nil, add_exprToArray, ← ofExpressions, ih]
    simp

def Linked (es : List E) (a b : A) : Prop := ∃ c ∈ es, a ∈ usedArrays c ∧ b ∈ usedArrays c

lemma mem_constraintsOf : c ∈ constraintsOf es a ↔ c ∈ Keyed.firsts key es ∧ a ∈ usedArrays c := by
  rw [constraintsOf, List.mem_filter, decide_eq_true_iff]

lemma exists_mem_constraintsOf (he : e ∈ es) (ha : a ∈ usedArrays e) : ∃ c ∈ constraintsOf es a, key c = key e := by
  obtain ⟨c, hc, hkey⟩ : ∃ c ∈ firsts key es, key c = key e := exists_first he
  exact ⟨c, mem_constraintsOf.mpr ⟨hc, (usedArrays_congr hkey a).mpr ha⟩, hkey⟩

lemma mem_next_iff : b ∈ (ofExpressions es).next a ↔ Linked es a b := by
  rw [next, List.mem_flatMap, find?_ofExpressions]
  constructor
  · rintro ⟨c, hc, hb⟩
    obtain ⟨hc, ha⟩ := mem_constraintsOf.mp hc
    obtain ⟨e, he, hkey, hb⟩ := (mem_exprToArray es (key c) b).mp hb
    exact ⟨e, he, (usedArrays_congr hkey a).mpr ha, hb⟩
  · rintro ⟨e, he, ha, hb⟩
    obtain ⟨c, hc, hkey⟩ := exists_mem_constraintsOf he ha
    exact ⟨c, hc, (mem_exprToArray es (key c) b).mpr ⟨e, he, hkey.symm, hb⟩⟩

lemma transitiveClosure_spec (es : List E) {referenced : List A} (hnodup : referenced.Nodup) :
    ∃ arrays, (ofExpressions es).transitiveClosure referenced = some arrays ∧ arrays.Nodup ∧
      ∀ b, b ∈ arrays ↔ ∃ a ∈ referenced, Relation.ReflTransGen (Linked es) a b := by
  have hU : ∀ a, ∀ b ∈ (ofExpressions es).next a, b ∈ (ofExpressions es).constraintsMap.entries.map Prod.fst := by
    intro a b hb
    obtain ⟨e, he, -, hb⟩ := mem_next_iff.mp hb
    obtain ⟨c, hc, -⟩ := exists_mem_constraintsOf he hb
    rw [← find?_ofExpressions] at hc
    cases hfind : (ofExpressions es).constraintsMap.find? b with
    | none => simp [hfind] at hc
    | some set => exact List.mem_map.mpr ⟨(b, set), mem_entries_iff.mpr hfind, rfl⟩
  have hfuel : (((ofExpressions es).constraintsMap.entries.map Prod.fst).filter
      fun x => decide (x ∉ referenced)).length < (ofExpressions es).constraintsMap.size + 1 := by
    refine Nat.lt_succ_of_le ((List.length_filter_le _ _).trans ?_)
    rw [List.length_map, size]
  have hsome := Closure.rounds_isSome referenced hU hfuel
  obtain ⟨arrays, harrays⟩ := isSome_iff_exists.mp hsome
  obtain ⟨harrays', hmem⟩ := Closure.rounds_spec harrays (fun a ha hna => absurd ha hna) (fun a ha => ha) hnodup
  refine ⟨arrays, harrays, harrays', fun b => (hmem b).trans ?_⟩
  simp [mem_next_iff]

end ConstraintMaps

/-! ## The call -/

def folded (es : List E) (arrSet : List A) : List E :=
  arrSet.flatMap fun v => ConstraintMaps.constraintsOf (exprSort es) v

def appendTexts (s : String) (texts : List String) : String := texts.foldl (fun s t => s ++ " " ++ t) s

namespace MemoryFingerprint
variable {fp : MemoryFingerprint V A} {es : List E} {arrSet : List A}

lemma foldl_update (fp : MemoryFingerprint V A) (hfirst : fp.first = false) (texts : List String) :
    texts.foldl (fun fp t => fp.update t) fp = { fp with current := appendTexts fp.current texts } := by
  induction texts generalizing fp with
  | nil => rfl
  | cons t texts ih =>
    rw [List.foldl_cons, ih _ rfl]
    simp [update, hfirst, appendTexts]

lemma updateConstraints_eq (fp : MemoryFingerprint V A) (es : List E) (arrSet : List A) :
    fp.updateConstraints (.ofExpressions (exprSort es)) arrSet = { fp.updateUint8 10 with
        current := appendTexts (fp.updateUint8 10).current ((folded es arrSet).map printSingleExpr) } := by
  have hset : ∀ (fp : MemoryFingerprint V A) (v : A),
      (match (ConstraintMaps.ofExpressions (exprSort es)).constraintsMap.find? v with
        | none => fp
        | some set => (exprSort set).foldl (fun fp e => fp.update (printSingleExpr e)) fp) =
      ((ConstraintMaps.constraintsOf (exprSort es) v).map printSingleExpr).foldl (fun fp t => fp.update t) fp := by
    intro fp v
    have hsorted : exprSort (ConstraintMaps.constraintsOf (exprSort es) v) =
      ConstraintMaps.constraintsOf (exprSort es) v :=
      sort_eq_self (((pairwise_firsts_sort es).filter _).imp fun h => h.le)
    have hfind := ConstraintMaps.find?_ofExpressions (exprSort es) v
    cases h : (ConstraintMaps.ofExpressions (exprSort es)).constraintsMap.find? v with
    | none =>
      rw [h] at hfind
      rw [← hfind]
      rfl
    | some set =>
      rw [h, getD_some] at hfind
      rw [hfind, List.foldl_map]
      simp [hsorted]
  rw [updateConstraints, ← foldl_update _ rfl, folded, List.map_flatMap, List.foldl_flatMap]
  simp [hset]

def constraintText (fp : MemoryFingerprint V A) (es : List E) (arrSet : List A) : String :=
  appendTexts (fp.updateUint8 10).current ((folded es arrSet).map printSingleExpr)

/-- The array is connected to a referenced one through constraints that share arrays. -/
def Connected (fp : MemoryFingerprint V A) (es : List E) (b : A) : Prop :=
  ∃ a ∈ fp.referenced, Relation.ReflTransGen (ConstraintMaps.Linked es) a b

omit [LinearOrder A] [LinearOrder K] in
lemma linked_congr {es' : List E} (h : ∀ e, e ∈ es ↔ e ∈ es') :
    ConstraintMaps.Linked es = ConstraintMaps.Linked es' := by
  funext a b
  simp [ConstraintMaps.Linked, h]

lemma nodup_referenced (fp : MemoryFingerprint V A) : fp.referenced.Nodup :=
  List.pairwise_map.mpr (fp.symbolicReferences.sorted.imp fun h => h.ne)

lemma appendTexts_ne_empty {s : String} (hs : s ≠ "") (texts : List String) : appendTexts s texts ≠ "" := by
  induction texts generalizing s with
  | nil => exact hs
  | cons t texts ih => exact ih (by simp)

lemma constraintText_ne_empty (fp : MemoryFingerprint V A) (es : List E) (arrSet : List A) :
    fp.constraintText es arrSet ≠ "" := by
  refine appendTexts_ne_empty ?_ _
  rw [updateUint8, update]
  split_ifs <;> simp

lemma addToDeltaOnly_constraints (fp : MemoryFingerprint StringSet A) (hne : fp.current ≠ "") :
    ∃ temp, fp.addToDeltaOnly stringSet ⟨stringSet.zero, .empty⟩ = some (fp.clear, temp) ∧
      temp.fingerprintValue.NoZero ∧ temp.fingerprintValue.find? "" = none ∧
        temp.fingerprintValue.count = Pi.single fp.current 1 := by
  obtain ⟨value, hvalue, hrep⟩ := represents_zero.add (contributes_fragment hne)
  refine ⟨⟨value, addReferences .empty fp.bufferReferences⟩, ?_, hrep.noZero, hrep.nonempty, ?_⟩
  · rw [addToDeltaOnly, show stringSet.zero = empty from rfl, hvalue]
    rfl
  · rw [hrep.count_value, zero_add, valueOf, FreeAbelianGroup.lift_apply_of]
    rfl

/-- The call returns, the buffer is empty and the value has one more fragment. -/
lemma getFingerprint_spec (fp : MemoryFingerprint StringSet A) (es : List E)
    (hpos : ∀ s ∈ fp.symbolicReferences.entries, 0 < s.2.toInt) (hvalue : fp.fingerprintValue.NoZero)
    (hne : fp.referenced ≠ []) :
    ∃ value arrSet, fp.getFingerprint stringSet es = some (value, fp.clear, exprSort es) ∧ value.NoZero ∧
      value.count = fp.fingerprintValue.count + Pi.single (fp.constraintText es arrSet) 1 ∧ arrSet.Nodup ∧
        (arrSet.Pairwise fun a b => name E a ≤ name E b) ∧ ∀ b, b ∈ arrSet ↔ fp.Connected es b := by
  have hassert : (fp.symbolicReferences.entries.any fun s => decide (s.2.toInt ≤ 0)) = false :=
    List.any_eq_false.mpr fun s hs => by simpa using hpos s hs
  have hreferences : fp.symbolicReferences.NoZero := fun k hk => by
    have := hpos _ (mem_entries_iff.mpr hk)
    simp at this
  obtain ⟨arrays, harrays, hnodup, hmem⟩ := ConstraintMaps.transitiveClosure_spec (exprSort es) (nodup_referenced fp)
  have hlinked : ConstraintMaps.Linked (exprSort es) = ConstraintMaps.Linked es :=
    linked_congr fun e => (sort_perm es).mem_iff
  rw [hlinked] at hmem
  obtain ⟨arrSet, harrSet⟩ : ∃ arrSet, arrSet = arrays.insertionSort fun a b => name E a ≤ name E b := ⟨_, rfl⟩
  have hperm : arrSet.Perm arrays := harrSet ▸ List.perm_insertionSort _ arrays
  obtain ⟨_, htemp, htempNoZero, htempNonempty, htempCount⟩ :=
    addToDeltaOnly_constraints (fp.updateConstraints (.ofExpressions (exprSort es)) arrSet) (by
      rw [updateConstraints_eq]
      exact constraintText_ne_empty fp es arrSet)
  have hclear : (fp.updateConstraints (.ofExpressions (exprSort es)) arrSet).clear = fp.clear := by
    rw [updateConstraints_eq]
    rfl
  obtain ⟨fp₁, hadd, hfp1, hremove⟩ := addDelta_removeDelta (by simpa using hvalue : fp.clear.fingerprintValue.NoZero)
    (by simpa using hreferences) htempNoZero htempNonempty
  refine ⟨fp₁.fingerprintValue, arrSet, ?_, ?_, ?_, hperm.nodup_iff.mpr hnodup, ?_, fun b =>
    hperm.mem_iff.trans (hmem b)⟩
  · rw [getFingerprint, hassert, if_neg Bool.false_ne_true, if_neg (by simpa using hne)]
    simp [harrays, ← harrSet, htemp, hclear, hadd, hremove]
  · rw [hfp1]
    exact NoZero.adjustAll (by simpa using hvalue) _
  · rw [hfp1, count_add, htempCount, updateConstraints_eq, clear_fingerprintValue]
    rfl
  · rw [harrSet]
    exact List.pairwise_insertionSort _ arrays

end MemoryFingerprint

end Fingerprint
