import Mathlib

/-! Lists of elements with keys: stable sorting, and sets that keep the first element of
each key. -/

namespace Keyed
open List
variable {E K : Type*} [LinearOrder K] (key : E → K)

def sort (es : List E) : List E := es.insertionSort fun a b => key a ≤ key b

def insertFirst (set : List E) (e : E) : List E := if set.any fun c => decide (key c = key e) then set else set ++ [e]

def firsts (es : List E) : List E := es.foldl (insertFirst key) []

def first? (es : List E) (k : K) : Option E := es.find? fun c => decide (key c = k)

variable {key} {es set : List E} {e c : E} {k : K}

lemma sort_perm (es : List E) : (sort key es).Perm es := perm_insertionSort _ es

lemma pairwise_sort (es : List E) : (sort key es).Pairwise fun a b => key a ≤ key b := pairwise_insertionSort _ es

lemma sort_eq_self (h : es.Pairwise fun a b => key a ≤ key b) : sort key es = es := h.insertionSort_eq

lemma first?_cons (e : E) (es : List E) (k : K) :
    first? key (e :: es) k = if key e = k then some e else first? key es k := by
  by_cases h : key e = k <;> simp [h, first?]

lemma first?_append (xs ys : List E) (k : K) : first? key (xs ++ ys) k = (first? key xs k).or (first? key ys k) :=
  find?_append

lemma first?_isSome_iff : (first? key es k).isSome = true ↔ ∃ c ∈ es, key c = k := by
  simp [first?]

lemma mem_of_first? (h : first? key es k = some c) : c ∈ es := mem_of_find?_eq_some h

lemma key_of_first? (h : first? key es k = some c) : key c = k := by simpa using find?_some h

lemma first?_sort (es : List E) (k : K) : first? key (sort key es) k = first? key es k := by
  have hinsert : ∀ (a : E) (l : List E),
      first? key (l.orderedInsert (fun a b => key a ≤ key b) a) k = first? key (a :: l) k := by
    intro a l
    induction l with
    | nil => rfl
    | cons b l ih =>
      rw [orderedInsert]
      split_ifs with hle
      · rfl
      · rw [first?_cons, ih, first?_cons, first?_cons, first?_cons]
        split_ifs with hb ha
        · exact absurd (ha.trans hb.symm).le hle
        · rfl
        · rfl
        · rfl
  induction es with
  | nil => rfl
  | cons a es ih => rw [sort, insertionSort_cons, hinsert, first?_cons, first?_cons, ← ih, sort]

lemma insertFirst_of_mem (h : ∃ c ∈ set, key c = key e) : insertFirst key set e = set := if_pos (by simpa using h)

lemma insertFirst_of_not_mem (h : ¬ ∃ c ∈ set, key c = key e) : insertFirst key set e = set ++ [e] :=
  if_neg (by simpa using h)

lemma insertFirst_idem (set : List E) (e : E) : insertFirst key (insertFirst key set e) e = insertFirst key set e := by
  by_cases h : ∃ c ∈ set, key c = key e
  · rw [insertFirst_of_mem h, insertFirst_of_mem h]
  · rw [insertFirst_of_not_mem h]
    exact insertFirst_of_mem ⟨e, by simp, rfl⟩

lemma firsts_concat (es : List E) (e : E) : firsts key (es ++ [e]) = insertFirst key (firsts key es) e := by
  rw [firsts, foldl_append]
  rfl

lemma firsts_sublist (es : List E) : (firsts key es).Sublist es := by
  induction es using reverseRecOn with
  | nil => exact List.Sublist.refl _
  | append_singleton es e ih =>
    rw [firsts_concat]
    by_cases h : ∃ c ∈ firsts key es, key c = key e
    · rw [insertFirst_of_mem h]
      exact ih.trans (sublist_append_left es [e])
    · rw [insertFirst_of_not_mem h]
      exact ih.append_right [e]

lemma first?_firsts (es : List E) (k : K) : first? key (firsts key es) k = first? key es k := by
  induction es using reverseRecOn with
  | nil => rfl
  | append_singleton es e ih =>
    rw [firsts_concat, first?_append, ← ih]
    by_cases h : ∃ c ∈ firsts key es, key c = key e
    · rw [insertFirst_of_mem h, first?_cons]
      split_ifs with hk
      · rw [Option.or_of_isSome (first?_isSome_iff.mpr (hk ▸ h))]
      · exact Option.or_none.symm
    · rw [insertFirst_of_not_mem h, first?_append]

lemma pairwise_firsts (es : List E) : (firsts key es).Pairwise fun a b => key a ≠ key b := by
  induction es using reverseRecOn with
  | nil => exact .nil
  | append_singleton es e ih =>
    rw [firsts_concat]
    by_cases h : ∃ c ∈ firsts key es, key c = key e
    · rwa [insertFirst_of_mem h]
    · rw [insertFirst_of_not_mem h]
      refine pairwise_append.mpr ⟨ih, pairwise_singleton _ _, fun c hc d hd hkey => h ⟨c, hc, ?_⟩⟩
      rw [hkey, mem_singleton.mp hd]

lemma pairwise_firsts_sort (es : List E) : (firsts key (sort key es)).Pairwise fun a b => key a < key b :=
  (((pairwise_sort es).sublist (firsts_sublist _)).and (pairwise_firsts _)).imp fun h => lt_of_le_of_ne h.1 h.2

lemma exists_first (he : e ∈ es) : ∃ c ∈ firsts key es, key c = key e := by
  refine first?_isSome_iff.mp ?_
  rw [first?_firsts]
  exact first?_isSome_iff.mpr ⟨e, he, rfl⟩

lemma first?_of_mem_firsts (hc : c ∈ firsts key es) : first? key es (key c) = some c := by
  rw [← first?_firsts]
  have hsome : (first? key (firsts key es) (key c)).isSome = true := first?_isSome_iff.mpr ⟨c, hc, rfl⟩
  have hpair : (firsts key es).Pairwise fun a b => key a ≠ key b := pairwise_firsts es
  have hsymm : Std.Symm fun a b : E => key a ≠ key b := ⟨fun _ _ h => h.symm⟩
  obtain ⟨d, hd⟩ := Option.isSome_iff_exists.mp hsome
  by_cases hdc : d = c
  · rw [hd, hdc]
  · exact absurd (key_of_first? hd) (hpair.forall (mem_of_first? hd) hc hdc)

end Keyed
