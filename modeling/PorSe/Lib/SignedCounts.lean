import PorSe.Lib.SortedMap

/-! Maps from keys to counts in a commutative group, which store no count of zero. Such a map
is determined by its counts. -/

namespace SortedMap
open Option List
variable {K A : Type*} [LinearOrder K] [AddCommGroup A]

def count (m : SortedMap K A) (k : K) : A := (m.find? k).getD 0

def NoZero (m : SortedMap K A) : Prop := ∀ k, m.find? k ≠ some 0

lemma noZero_empty : (empty : SortedMap K A).NoZero := fun k => by simp

lemma NoZero.find? {m : SortedMap K A} (h : m.NoZero) (k : K) :
    m.find? k = open Classical in if m.count k = 0 then none else some (m.count k) := by
  rw [count]
  cases hk : m.find? k with
  | none => simp
  | some a => simp [show a ≠ 0 from fun ha => h k (ha ▸ hk)]

lemma NoZero.ext {m m' : SortedMap K A} (h : m.NoZero) (h' : m'.NoZero) (hcount : m.count = m'.count) : m = m' :=
  ext_find? fun k => by rw [h.find?, h'.find?, hcount]

variable [DecidableEq A] {m src : SortedMap K A} {k : K} {a : A}

/-- Adds to the count of a key that is there, and erases it at zero. -/
def bump (m : SortedMap K A) (k : K) (a : A) : SortedMap K A :=
  match m.find? k with
  | some v => if v + a = 0 then m.erase k else m.insert k (v + a)
  | none => m.insert k a

/-- Adds to the count of a key, zero if absent, and erases it at zero. -/
def adjust (m : SortedMap K A) (k : K) (a : A) : SortedMap K A :=
  if m.count k + a = 0 then m.erase k else m.insert k (m.count k + a)

lemma count_adjust (m : SortedMap K A) (k : K) (a : A) : (m.adjust k a).count = m.count + Pi.single k a := by
  funext j
  rw [Pi.add_apply, adjust]
  by_cases hj : k = j
  · subst hj
    rw [Pi.single_eq_same]
    split_ifs with hzero
    · rw [hzero, count, find?_erase, if_pos rfl, getD_none]
    · rw [count, find?_insert_self, getD_some]
  · rw [Pi.single_eq_of_ne (Ne.symm hj), add_zero]
    split_ifs
    · rw [count, find?_erase, if_neg hj, count]
    · rw [count, find?_insert_ne m _ hj, count]

lemma NoZero.adjust (h : m.NoZero) (k : K) (a : A) : (m.adjust k a).NoZero := by
  intro j
  rw [SortedMap.adjust]
  split_ifs with hzero
  · rw [find?_erase]
    split_ifs
    · simp
    · exact h j
  · rw [find?_insert]
    split_ifs
    · exact fun heq => hzero (some.inj heq)
    · exact h j

lemma bump_eq_adjust (m : SortedMap K A) (k : K) (ha : a ≠ 0) : m.bump k a = m.adjust k a := by
  rw [bump, adjust, count]
  cases m.find? k with
  | none => rw [getD_none, zero_add, if_neg ha]
  | some v => rfl

/-! ## Adding a whole map -/

def adjustAll (m : SortedMap K A) (ps : List (K × A)) : SortedMap K A := ps.foldl (fun m p => m.adjust p.1 p.2) m

lemma NoZero.adjustAll (h : m.NoZero) (ps : List (K × A)) : (m.adjustAll ps).NoZero := by
  induction ps generalizing m with
  | nil => exact h
  | cons p ps ih => exact ih (h.adjust p.1 p.2)

lemma count_adjustAll (m : SortedMap K A) (ps : List (K × A)) :
    (m.adjustAll ps).count = m.count + (ps.map fun p => Pi.single p.1 p.2).sum := by
  induction ps generalizing m with
  | nil => simp [adjustAll]
  | cons p ps ih =>
    rw [map_cons, sum_cons, ← add_assoc, ← count_adjust]
    exact ih (m.adjust p.1 p.2)

lemma foldl_bump {ps : List (K × A)} (hps : ∀ p ∈ ps, p.2 ≠ 0) (m : SortedMap K A) :
    ps.foldl (fun m p => m.bump p.1 p.2) m = m.adjustAll ps := by
  induction ps generalizing m with
  | nil => rfl
  | cons p ps ih =>
    rw [foldl_cons, bump_eq_adjust m p.1 (hps p mem_cons_self)]
    exact ih (fun q hq => hps q (mem_cons_of_mem p hq)) (m.adjust p.1 p.2)

omit [DecidableEq A] in
lemma sum_entries (m : SortedMap K A) : (m.entries.map fun p => Pi.single p.1 p.2).sum = m.count := by
  have key : ∀ ps : List (K × A), ps.Pairwise (fun a b => a.1 < b.1) →
      (ps.map fun p => (Pi.single p.1 p.2 : K → A)).sum = fun k => (findIn k ps).getD 0 := by
    intro ps hps
    induction ps with
    | nil => rfl
    | cons p ps ih =>
      obtain ⟨hp, hps⟩ := pairwise_cons.mp hps
      rw [map_cons, sum_cons, ih hps]
      funext k
      rw [Pi.add_apply, findIn]
      by_cases hk : p.1 = k
      · subst hk
        rw [if_pos rfl, Pi.single_eq_same, findIn_eq_none fun q hq => (hp q hq).ne', getD_none,
          add_zero, getD_some]
      · rw [if_neg hk, Pi.single_eq_of_ne (Ne.symm hk), zero_add]
  exact key m.entries m.sorted

def negated (ps : List (K × A)) : List (K × A) := ps.map fun p => (p.1, -p.2)

lemma count_add (m src : SortedMap K A) : (m.adjustAll src.entries).count = m.count + src.count := by
  rw [count_adjustAll, sum_entries]

lemma count_sub (m src : SortedMap K A) : (m.adjustAll (negated src.entries)).count = m.count - src.count := by
  have hneg : ((negated src.entries).map fun p => (Pi.single p.1 p.2 : K → A)) =
      (src.entries.map fun p => (Pi.single p.1 p.2 : K → A)).map fun x => -x := by
    simp [negated, Pi.single_neg]
  rw [count_adjustAll, hneg, ← sum_neg, sum_entries, sub_eq_add_neg]

omit [DecidableEq A] in
lemma NoZero.ne_zero (h : src.NoZero) {p : K × A} (hp : p ∈ src.entries) : p.2 ≠ 0 :=
  fun hzero => h p.1 (hzero ▸ mem_entries_iff.mp hp)

lemma NoZero.adjustAll_negated (h : m.NoZero) (src : SortedMap K A) :
    (m.adjustAll src.entries).adjustAll (negated src.entries) = m := by
  refine ((h.adjustAll _).adjustAll _).ext h ?_
  rw [count_sub, count_add, add_sub_cancel_right]

end SortedMap
