import Mathlib

/-! Finite maps kept as lists with strictly increasing keys, the iteration order
of `std::map`. Two maps with the same lookups are equal. -/

structure SortedMap (K V : Type*) [LinearOrder K] where
  entries : List (K × V)
  sorted : entries.Pairwise (fun a b => a.1 < b.1)

namespace SortedMap
open List
variable {K V : Type*} [LinearOrder K]

def empty : SortedMap K V := ⟨[], List.Pairwise.nil⟩

def findIn (k : K) : List (K × V) → Option V
  | [] => none
  | p :: ps => if p.1 = k then some p.2 else findIn k ps

def find? (m : SortedMap K V) (k : K) : Option V := findIn k m.entries

def insertIn (k : K) (v : V) : List (K × V) → List (K × V)
  | [] => [(k, v)]
  | p :: ps =>
    if k < p.1 then (k, v) :: p :: ps
    else if p.1 = k then (k, v) :: ps
    else p :: insertIn k v ps

variable {k k' : K} {v : V} {ps : List (K × V)} {m : SortedMap K V}

lemma mem_insertIn {p : K × V} (h : p ∈ insertIn k v ps) : p = (k, v) ∨ p ∈ ps := by
  induction ps with
  | nil => exact .inl (by simpa [insertIn] using h)
  | cons q qs ih =>
    simp only [insertIn] at h
    split_ifs at h with h1 h2
    · exact mem_cons.mp h
    · exact (mem_cons.mp h).imp_right (mem_cons_of_mem q)
    · rcases mem_cons.mp h with rfl | h
      · exact .inr mem_cons_self
      · exact (ih h).imp_right (mem_cons_of_mem q)

lemma pairwise_insertIn (k : K) (v : V) (h : ps.Pairwise (fun a b => a.1 < b.1)) :
    (insertIn k v ps).Pairwise (fun a b => a.1 < b.1) := by
  induction ps with
  | nil => exact pairwise_singleton _ _
  | cons q qs ih =>
    obtain ⟨hq, hqs⟩ := pairwise_cons.mp h
    simp only [insertIn]
    split_ifs with h1 h2
    · exact pairwise_cons.mpr ⟨forall_mem_cons.mpr ⟨h1, fun p hp => h1.trans (hq p hp)⟩, h⟩
    · exact pairwise_cons.mpr ⟨fun p hp => h2 ▸ hq p hp, hqs⟩
    · refine pairwise_cons.mpr ⟨fun p hp => ?_, ih hqs⟩
      rcases mem_insertIn hp with rfl | hp
      · exact lt_of_le_of_ne (not_lt.mp h1) h2
      · exact hq p hp

def insert (m : SortedMap K V) (k : K) (v : V) : SortedMap K V :=
  ⟨insertIn k v m.entries, pairwise_insertIn k v m.sorted⟩

def erase (m : SortedMap K V) (k : K) : SortedMap K V :=
  ⟨m.entries.filter (fun p => p.1 ≠ k), m.sorted.filter _⟩

def values (m : SortedMap K V) : List V := m.entries.map Prod.snd

def size (m : SortedMap K V) : Nat := m.entries.length

/-! ## Lookups -/

lemma findIn_insertIn (k k' : K) (v : V) (ps : List (K × V)) :
    findIn k' (insertIn k v ps) = if k = k' then some v else findIn k' ps := by
  induction ps with
  | nil => rfl
  | cons q qs ih =>
    rw [insertIn]
    by_cases h1 : k < q.1
    · rw [if_pos h1, findIn]
    · rw [if_neg h1]
      by_cases h2 : q.1 = k
      · rw [if_pos h2, findIn, findIn, h2]
        split_ifs <;> rfl
      · rw [if_neg h2, findIn, ih, findIn]
        by_cases h3 : q.1 = k'
        · rw [if_pos h3, if_pos h3, if_neg (fun h => h2 (h3.trans h.symm))]
        · rw [if_neg h3, if_neg h3]

@[simp] lemma find?_empty (k : K) : (empty : SortedMap K V).find? k = none := rfl

lemma find?_insert (m : SortedMap K V) (k k' : K) (v : V) :
    (m.insert k v).find? k' = if k = k' then some v else m.find? k' :=
  findIn_insertIn k k' v m.entries

@[simp] lemma find?_insert_self (m : SortedMap K V) (k : K) (v : V) : (m.insert k v).find? k = some v := by
  rw [find?_insert, if_pos rfl]

lemma find?_insert_ne (m : SortedMap K V) (v : V) (h : k ≠ k') : (m.insert k v).find? k' = m.find? k' := by
  rw [find?_insert, if_neg h]

lemma findIn_filter (k k' : K) (ps : List (K × V)) :
    findIn k' (ps.filter (fun p => p.1 ≠ k)) = if k = k' then none else findIn k' ps := by
  induction ps with
  | nil => simp [findIn]
  | cons q qs ih =>
    by_cases hq : q.1 = k
    · simp only [hq, findIn]
      by_cases hk : k = k' <;> simp_all
    · by_cases hk : k = k'
      · subst hk
        simp_all [findIn]
      · simp_all [findIn]

lemma find?_erase (m : SortedMap K V) (k k' : K) : (m.erase k).find? k' = if k = k' then none else m.find? k' :=
  findIn_filter k k' m.entries

lemma findIn_eq_none (h : ∀ p ∈ ps, p.1 ≠ k) : findIn k ps = none := by
  induction ps with
  | nil => rfl
  | cons q qs ih =>
    rw [findIn, if_neg (h q mem_cons_self)]
    exact ih fun p hp => h p (mem_cons_of_mem q hp)

lemma mem_of_findIn (h : findIn k ps = some v) : (k, v) ∈ ps := by
  induction ps with
  | nil => simp [findIn] at h
  | cons q qs ih =>
    rw [findIn] at h
    split_ifs at h with hq
    · cases h
      exact hq ▸ mem_cons_self
    · exact mem_cons_of_mem q (ih h)

lemma findIn_of_mem (hs : ps.Pairwise (fun a b => a.1 < b.1)) (h : (k, v) ∈ ps) : findIn k ps = some v := by
  induction ps with
  | nil => simp at h
  | cons q qs ih =>
    obtain ⟨hq, hqs⟩ := pairwise_cons.mp hs
    rcases mem_cons.mp h with rfl | h
    · simp [findIn]
    · rw [findIn, if_neg (ne_of_lt (hq _ h)), ih hqs h]

lemma mem_entries_iff : (k, v) ∈ m.entries ↔ m.find? k = some v :=
  ⟨findIn_of_mem m.sorted, mem_of_findIn⟩

lemma mem_values_iff : v ∈ m.values ↔ ∃ k, m.find? k = some v := by
  simp [values, mem_entries_iff]

lemma entries_eq_cons (h : m.find? k = some v) (hk : ∀ p ∈ m.entries, k ≤ p.1) : ∃ ps, m.entries = (k, v) :: ps := by
  have hmem := mem_entries_iff.mpr h
  have hs := m.sorted
  cases hm : m.entries with
  | nil => simp [hm] at hmem
  | cons p ps =>
    rw [hm] at hmem hs hk
    rcases mem_cons.mp hmem with rfl | hmem
    · exact ⟨ps, rfl⟩
    · exact absurd ((pairwise_cons.mp hs).1 _ hmem) (not_lt.mpr (hk p mem_cons_self))

lemma nodup_entries (m : SortedMap K V) : m.entries.Nodup := m.sorted.imp fun h heq => (heq ▸ h).ne rfl

lemma ext_find? {m' : SortedMap K V} (h : ∀ k, m.find? k = m'.find? k) : m = m' := by
  have hperm : m.entries.Perm m'.entries := by
    refine (perm_ext_iff_of_nodup m.nodup_entries m'.nodup_entries).mpr fun ⟨k, v⟩ => ?_
    rw [mem_entries_iff, mem_entries_iff, h]
  have heq := hperm.eq_of_pairwise (fun _ _ _ _ hab hba => absurd hba hab.asymm) m.sorted m'.sorted
  cases m
  cases m'
  obtain rfl := heq
  rfl

lemma insert_eq_self (h : m.find? k = some v) : m.insert k v = m := by
  refine ext_find? fun k' => ?_
  rw [find?_insert]
  split_ifs with hk
  · rw [← hk, h]
  · rfl

lemma insert_insert (m : SortedMap K V) (k : K) (v v' : V) : (m.insert k v).insert k v' = m.insert k v' := by
  refine ext_find? fun k' => ?_
  simp only [find?_insert]
  split_ifs <;> rfl

lemma insert_comm (m : SortedMap K V) (v v' : V) (h : k ≠ k') :
    (m.insert k v).insert k' v' = (m.insert k' v').insert k v := by
  refine ext_find? fun j => ?_
  simp only [find?_insert]
  split_ifs with h1 h2
  · exact absurd (h2.trans h1.symm) h
  all_goals rfl

/-! ## One entry apart -/

def mapValues {W : Type*} (f : V → W) (m : SortedMap K V) : SortedMap K W :=
  ⟨m.entries.map fun p => (p.1, f p.2), by simpa [pairwise_map] using m.sorted⟩

lemma find?_mapValues {W : Type*} (f : V → W) (m : SortedMap K V) (k : K) :
    (m.mapValues f).find? k = (m.find? k).map f := by
  have key : ∀ ps : List (K × V), findIn k (ps.map fun p => (p.1, f p.2)) = (findIn k ps).map f := by
    intro ps
    induction ps with
    | nil => rfl
    | cons p ps ih =>
      rw [map_cons, findIn, findIn, ih]
      split_ifs <;> rfl
  exact key m.entries

lemma entries_perm_erase (h : m.find? k = some v) : m.entries.Perm ((k, v) :: (m.erase k).entries) := by
  refine (perm_ext_iff_of_nodup m.nodup_entries (nodup_cons.mpr ⟨?_, nodup_entries _⟩)).mpr fun p => ?_
  · simp [erase]
  · obtain ⟨k', v'⟩ := p
    simp only [mem_cons, mem_entries_iff, find?_erase, Prod.mk.injEq]
    constructor
    · intro h'
      by_cases hk : k = k'
      · subst hk
        exact .inl ⟨rfl, Option.some.inj (h'.symm.trans h)⟩
      · exact .inr (by rw [if_neg hk, h'])
    · rintro (⟨rfl, rfl⟩ | h')
      · exact h
      · split_ifs at h' with hk
        exact h'

lemma erase_of_find?_eq_none (h : m.find? k = none) : m.erase k = m := by
  refine ext_find? fun j => ?_
  rw [find?_erase]
  split_ifs with hk
  · rw [← hk, h]
  · rfl

lemma erase_insert (m : SortedMap K V) (k : K) (v : V) : (m.insert k v).erase k = m.erase k := by
  refine ext_find? fun j => ?_
  rw [find?_erase, find?_erase, find?_insert]
  split_ifs <;> rfl

lemma entries_insert_perm (m : SortedMap K V) (k : K) (v : V) :
    (m.insert k v).entries.Perm ((k, v) :: (m.erase k).entries) := by
  have h := entries_perm_erase (find?_insert_self m k v)
  rwa [erase_insert] at h

/-! ## Merging

`mergeWith better m m'` keeps, for each key, the value of `m` unless the value of
`m'` is better. -/

def mergeWith (better : V → V → Bool) (m m' : SortedMap K V) : SortedMap K V :=
  m'.entries.foldl (fun r p => if (r.find? p.1).all (fun u => better u p.2) then r.insert p.1 p.2 else r) m

def pick (better : V → V → Bool) : Option V → Option V → Option V
  | o, none => o
  | none, some v => some v
  | some u, some v => if better u v then some v else some u

lemma find?_foldl_pick (better : V → V → Bool) (k : K) :
    ∀ (ps : List (K × V)) (_ : ps.Pairwise (fun a b => a.1 < b.1)) (m : SortedMap K V),
      (ps.foldl (fun r p => if (r.find? p.1).all (fun u => better u p.2) then r.insert p.1 p.2 else r) m).find? k
        = pick better (m.find? k) (findIn k ps)
  | [], _, m => by simp [findIn, pick]
  | p :: ps, hs, m => by
    obtain ⟨hp, hps⟩ := pairwise_cons.mp hs
    rw [foldl_cons, find?_foldl_pick better k ps hps]
    by_cases hk : p.1 = k
    · rw [findIn_eq_none fun c hc => (hk ▸ (hp c hc).ne' : c.1 ≠ k)]
      subst hk
      cases hm : m.find? p.1 with
      | none => simp [findIn, pick]
      | some u => by_cases hb : better u p.2 <;> simp [findIn, pick, hb, hm]
    · rw [findIn]
      split_ifs
      · rw [find?_insert_ne _ _ hk]
      · rfl

lemma find?_mergeWith (better : V → V → Bool) (m m' : SortedMap K V) (k : K) :
    (mergeWith better m m').find? k = pick better (m.find? k) (m'.find? k) :=
  find?_foldl_pick better k m'.entries m'.sorted m

end SortedMap
