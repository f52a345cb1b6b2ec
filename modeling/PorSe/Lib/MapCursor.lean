import PorSe.Lib.SortedMap

/-! Positions in a sorted map, the iterators of `std::map`. A position is the key it
points at, or `none` past the last entry; it splits the entries in two, and the
searches, steps and updates at a position are stated by that split. -/

namespace SortedMap
open List SortedMap
variable {K V : Type*} [LinearOrder K]

variable (m : SortedMap K V)

def lowerBound (k : K) : Option K :=
  (m.entries.find? fun p => decide (k ≤ p.1)).map Prod.fst

def upperBound (k : K) : Option K :=
  (m.entries.find? fun p => decide (k < p.1)).map Prod.fst

def prev : Option K → Option (K × V)
  | none => m.entries.getLast?
  | some k => (m.entries.filter fun p => decide (p.1 < k)).getLast?

/-- Inserting without overwriting: an entry that is there already stays. -/
def emplace (k : K) (v : V) : SortedMap K V :=
  if (m.find? k).isSome then m else m.insert k v

/-- The position `it` of `m` has the entries `pre` before it and `rest` from it on. -/
structure At (m : SortedMap K V) (it : Option K) (pre rest : List (K × V)) : Prop where
  entries : m.entries = pre ++ rest
  position : it = rest.head?.map Prod.fst

section
variable {m : SortedMap K V} {it : Option K} {pre rest : List (K × V)} {k : K} {v : V}

lemma At.sorted (h : m.At it pre rest) : (pre ++ rest).Pairwise (fun a b => a.1 < b.1) :=
  h.entries ▸ m.sorted

lemma At.lt_of_mem (h : m.At it pre rest) {p q : K × V} (hp : p ∈ pre) (hq : q ∈ rest) : p.1 < q.1 :=
  (pairwise_append.mp h.sorted).2.2 p hp q hq

lemma At.lt_of_mem_tail (h : m.At it pre ((k, v) :: rest)) {q : K × V} (hq : q ∈ rest) : k < q.1 :=
  (pairwise_cons.mp (pairwise_append.mp h.sorted).2.1).1 q hq

lemma at_lowerBound (m : SortedMap K V) (k : K) :
    ∃ pre rest, m.At (m.lowerBound k) pre rest ∧ (∀ p ∈ pre, p.1 < k) ∧ ∀ p ∈ rest, k ≤ p.1 := by
  rw [lowerBound]
  cases hfind : m.entries.find? fun p => decide (k ≤ p.1) with
  | none =>
    have hlt := find?_eq_none.mp hfind
    exact ⟨m.entries, [], ⟨(append_nil _).symm, rfl⟩, fun p hp => by simpa using hlt p hp, by simp⟩
  | some q =>
    obtain ⟨hq, pre, rest, hentries, hpre⟩ := find?_eq_some_iff_append.mp hfind
    have hle : k ≤ q.1 := by simpa using hq
    refine ⟨pre, q :: rest, ⟨hentries, rfl⟩, fun p hp => by simpa using hpre p hp,
      forall_mem_cons.mpr ⟨hle, fun p hp => ?_⟩⟩
    exact hle.trans ((pairwise_cons.mp (pairwise_append.mp (hentries ▸ m.sorted)).2.1).1 p hp).le

lemma At.filter_eq (h : m.At it pre rest) (hpre : ∀ p ∈ pre, p.1 < k) (hrest : ∀ p ∈ rest, k ≤ p.1) :
    m.entries.filter (fun p => decide (k ≤ p.1)) = rest := by
  have hnil : pre.filter (fun p => decide (k ≤ p.1)) = [] :=
    filter_eq_nil_iff.mpr fun p hp => by simpa using hpre p hp
  have hself : rest.filter (fun p => decide (k ≤ p.1)) = rest :=
    filter_eq_self.mpr fun p hp => by simpa using hrest p hp
  rw [h.entries, filter_append, hnil, hself, nil_append]

lemma At.find? (h : m.At it pre ((k, v) :: rest)) : m.find? k = some v :=
  mem_entries_iff.mp (by rw [h.entries]; simp)

lemma At.exists_find? (h : m.At (some k) pre rest) : ∃ v, m.find? k = some v := by
  cases rest with
  | nil => cases h.position
  | cons q rest =>
    obtain rfl : k = q.1 := Option.some.inj h.position
    exact ⟨q.2, h.find?⟩

lemma at_upperBound (hentries : m.entries = pre ++ rest) (hpre : ∀ p ∈ pre, p.1 ≤ k) (hrest : ∀ p ∈ rest, k < p.1) :
    m.At (m.upperBound k) pre rest := by
  refine ⟨hentries, ?_⟩
  have hnone : pre.find? (fun p => decide (k < p.1)) = none :=
    find?_eq_none.mpr fun p hp => by simpa using hpre p hp
  rw [upperBound, hentries, find?_append, hnone, Option.none_or]
  cases rest with
  | nil => rfl
  | cons p ps => rw [find?_cons_of_pos (by simpa using hrest p mem_cons_self), head?_cons]

lemma At.upperBound (h : m.At it pre ((k, v) :: rest)) : m.At (m.upperBound k) (pre ++ [(k, v)]) rest := by
  refine at_upperBound (by rw [h.entries, append_assoc]; rfl) (fun p hp => ?_) fun q hq => h.lt_of_mem_tail hq
  rcases mem_append.mp hp with hp | hp
  · exact (h.lt_of_mem hp mem_cons_self).le
  · rw [mem_singleton.mp hp]

lemma At.prev (h : m.At it pre rest) : m.prev it = pre.getLast? := by
  cases rest with
  | nil =>
    rw [h.position]
    simp [prev, h.entries]
  | cons q qs =>
    have hpre : pre.filter (fun p => decide (p.1 < q.1)) = pre :=
      filter_eq_self.mpr fun p hp => by simpa using h.lt_of_mem hp mem_cons_self
    have hqs : (q :: qs).filter (fun p => decide (p.1 < q.1)) = [] := by
      refine filter_eq_nil_iff.mpr (forall_mem_cons.mpr ⟨by simp, fun p hp => ?_⟩)
      simpa using ((pairwise_cons.mp (pairwise_append.mp h.sorted).2.1).1 p hp).le
    rw [h.position]
    simp [prev, h.entries, hpre, hqs]

lemma entries_insert (m : SortedMap K V) (k : K) (v : V) : (m.insert k v).entries = insertIn k v m.entries :=
  rfl

lemma insertIn_append (hpre : ∀ p ∈ pre, p.1 < k) (rest : List (K × V)) :
    insertIn k v (pre ++ rest) = pre ++ insertIn k v rest := by
  induction pre with
  | nil => rfl
  | cons p ps ih =>
    have hp : p.1 < k := hpre p mem_cons_self
    rw [cons_append, insertIn, if_neg (not_lt.mpr hp.le), if_neg hp.ne,
      ih fun q hq => hpre q (mem_cons_of_mem p hq), cons_append]

section
variable (h : m.At it pre rest) (hpre : ∀ p ∈ pre, p.1 < k) (hrest : ∀ p ∈ rest, k < p.1)
include h hpre hrest

lemma At.insert : (m.insert k v).At it (pre ++ [(k, v)]) rest := by
  refine ⟨?_, h.position⟩
  rw [entries_insert, h.entries, insertIn_append hpre, append_assoc]
  congr 1
  cases rest with
  | nil => rfl
  | cons q qs => rw [insertIn, if_pos (hrest q mem_cons_self)]; rfl

lemma At.find?_eq_none : m.find? k = none := by
  rw [SortedMap.find?, h.entries]
  refine findIn_eq_none fun p hp => ?_
  rcases mem_append.mp hp with hp | hp
  · exact (hpre p hp).ne
  · exact (hrest p hp).ne'

lemma At.emplace : (m.emplace k v).At it (pre ++ [(k, v)]) rest := by
  rw [SortedMap.emplace, h.find?_eq_none hpre hrest]
  exact h.insert hpre hrest

end

lemma At.exists_emplace (h : m.At it pre rest) (v : V) (hrest : ∀ p ∈ rest, k < p.1) :
    ∃ pre', (m.emplace k v).At it pre' rest ∧ ((∀ p ∈ pre, p.1 < k) → pre' = pre ++ [(k, v)]) := by
  have key : ∀ ps : List (K × V), insertIn k v (ps ++ rest) = insertIn k v ps ++ rest := by
    intro ps
    induction ps with
    | nil =>
      cases rest with
      | nil => rfl
      | cons q qs => exact if_pos (hrest q mem_cons_self)
    | cons p ps ih =>
      rw [cons_append, insertIn, insertIn, ih]
      split_ifs <;> rfl
  rw [SortedMap.emplace]
  split_ifs with hfind
  · exact ⟨pre, h, fun hpre => absurd hfind (by simp [h.find?_eq_none hpre hrest])⟩
  · refine ⟨insertIn k v pre, ⟨by rw [entries_insert, h.entries, key], h.position⟩, fun hpre => ?_⟩
    simpa [insertIn] using insertIn_append hpre []

lemma At.replace (h : m.At it pre ((k, v) :: rest)) (v' : V) : (m.insert k v').At it pre ((k, v') :: rest) := by
  refine ⟨?_, h.position⟩
  have hpre : ∀ p ∈ pre, p.1 < k := fun p hp => h.lt_of_mem hp mem_cons_self
  rw [entries_insert, h.entries, insertIn_append hpre, insertIn, if_neg (lt_irrefl k), if_pos rfl]

lemma At.erase (h : m.At it pre ((k, v) :: rest)) : (m.erase k).At (m.upperBound k) pre rest := by
  refine ⟨?_, h.upperBound.position⟩
  have hpre : pre.filter (fun p => decide (p.1 ≠ k)) = pre :=
    filter_eq_self.mpr fun p hp => by simpa using (h.lt_of_mem hp mem_cons_self).ne
  have hrest : rest.filter (fun p => decide (p.1 ≠ k)) = rest :=
    filter_eq_self.mpr fun p hp => by simpa using (h.lt_of_mem_tail hp).ne'
  simp only [SortedMap.erase, h.entries, filter_append, hpre, filter_cons, ne_eq, append_cancel_left_eq]
  exact hrest

end

end SortedMap
