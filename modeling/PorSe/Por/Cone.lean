import PorSe.Lib.SortedMap
import PorSe.Por.Constructors

/-! Cones: the deepest event of each thread among a causally closed set of events,
`program_init` excluded. Causality between events of one configuration is decided
by comparing depths against the cone. -/

namespace Por
open SortedMap List

abbrev Cone (D : Type) := SortedMap ThreadId (Event D)

namespace Cone
variable {D : Type}

def insertDeeper (m : Cone D) (p : Event D) : Cone D :=
  if (m.find? p.tid).all fun a => a.depth < p.depth then insert m p.tid p else m

/-- `cone::insert`; `pc` is the cone stored in the inserted event. -/
def insertWith (m : Cone D) (p : Event D) (pc : Cone D) : Cone D :=
  if p.kind = .programInit then m
  else insertDeeper (m.mergeWith (fun a b => a.depth < b.depth) pc) p

def ofImmediate (p : Event D) (pc : Cone D) : Cone D :=
  if p.kind = .programInit then pc else insert pc p.tid p

def ofPredecessors (p : Event D × Cone D) (others : List (Event D × Cone D)) : Cone D :=
  others.foldl (fun m q => insertWith m q.1 q.2) (insert p.2 p.1.tid p.1)

/-- The member initialiser `_cone(...)`. That of wait2 passes the lock predecessor before the notification. -/
def initializer (label : Label D) (ps : List (Event D × Cone D)) : Cone D :=
  match label, ps with
  | .programInit, _ => empty
  | .localEvent _, p :: _ | .threadCreate _, p :: _ | .threadInit, p :: _ | .threadExit _, p :: _
  | .lockCreate _, p :: _ | .conditionVariableCreate _, p :: _ => ofImmediate p.1 p.2
  | .wait2 _ _, [p, c, l] => ofPredecessors p [l, c]
  | _, p :: ps => ofPredecessors p ps
  | _, [] => empty

end Cone

namespace Event
variable {D : Type}

def cone (e : Event D) : Cone D := e.fold fun _ l ps => Cone.initializer l ps

lemma cone_eq (e : Event D) : e.cone = Cone.initializer e.label (e.preds.map fun p => (p, p.cone)) :=
  fold_eq _ e

/-! ## `is_less_than` -/

def isLessThanCone (a : Event D) (m : Cone D) : Bool :=
  match m.find? a.tid with
  | some e => a.depth < e.depth || a.depth = e.depth
  | none => a.kind = .programInit

def isLessThan (a b : Event D) : Bool :=
  if b.tid = a.tid then a.depth < b.depth else a.isLessThanCone b.cone

def isLessThanEq [DecidableEq D] (a b : Event D) : Bool := b = a || a.isLessThan b

end Event

namespace Cone
variable {D : Type}

def insert (m : Cone D) (p : Event D) : Cone D := insertWith m p p.cone

def ofEvent (p : Event D) : Cone D := ofImmediate p p.cone

def ofRange (ps : List (Event D)) : Cone D := ps.foldl insert empty

def ofEvents (p : Event D) (single : Option (Event D)) (others : List (Event D)) : Cone D :=
  (single.toList ++ others).foldl insert (SortedMap.insert p.cone p.tid p)

def max (m : Cone D) : List (Event D) := ListSearch.maximals Event.isLessThan m.values

/-! ## What a cone stands for -/

/-- `m` holds, for each thread, a deepest event of `S` on it. -/
structure Represents (m : Cone D) (S : Set (Event D)) : Prop where
  mem : ∀ {t c}, m.find? t = some c → c ∈ S ∧ c.tid = t ∧ c.kind ≠ .programInit
  deepest : ∀ {a}, a ∈ S → a.kind ≠ .programInit → ∃ c, m.find? a.tid = some c ∧ a.depth ≤ c.depth

variable {m pc : Cone D} {S T : Set (Event D)} {p : Event D}

lemma Represents.nodup_values (h : Represents m S) : m.values.Nodup := by
  rw [values, List.Nodup, pairwise_map]
  refine m.sorted.imp_of_mem fun {a b} ha hb hab heq => hab.ne ?_
  rw [← (h.mem (mem_entries_iff.mp ha)).2.1, heq, (h.mem (mem_entries_iff.mp hb)).2.1]

lemma represents_empty (h : ∀ a ∈ S, a.kind = .programInit) : Represents empty S where
  mem h := by simp at h
  deepest ha hk := absurd (h _ ha) hk

lemma Represents.congr (h : Represents m S) (hST : ∀ a, a.kind ≠ .programInit → (a ∈ S ↔ a ∈ T)) : Represents m T where
  mem hc := by
    obtain ⟨hS, ht, hk⟩ := h.mem hc
    exact ⟨(hST _ hk).mp hS, ht, hk⟩
  deepest ha hk := h.deepest ((hST _ hk).mpr ha) hk

lemma Represents.merge {m' : Cone D} (h : Represents m S) (h' : Represents m' T) :
    Represents (m.mergeWith (fun a b => a.depth < b.depth) m') (S ∪ T) where
  mem {t c} hc := by
    rw [find?_mergeWith] at hc
    cases hm : m.find? t <;> cases hm' : m'.find? t <;> rw [hm, hm'] at hc
    · simp [pick] at hc
    · obtain rfl : _ = c := Option.some.inj hc
      exact (h'.mem hm').imp_left .inr
    · obtain rfl : _ = c := Option.some.inj hc
      exact (h.mem hm).imp_left .inl
    · simp only [pick] at hc
      split_ifs at hc
      · cases hc
        exact (h'.mem hm').imp_left .inr
      · cases hc
        exact (h.mem hm).imp_left .inl
  deepest {a} ha hk := by
    simp only [find?_mergeWith]
    rcases ha with ha | ha
    · obtain ⟨c, hc, hd⟩ := h.deepest ha hk
      rw [hc]
      cases hm' : m'.find? a.tid with
      | none => exact ⟨c, rfl, hd⟩
      | some c' =>
        by_cases hlt : c.depth < c'.depth
        · exact ⟨c', by simp [pick, hlt], hd.trans hlt.le⟩
        · exact ⟨c, by simp [pick, hlt], hd⟩
    · obtain ⟨c', hc', hd⟩ := h'.deepest ha hk
      rw [hc']
      cases hm : m.find? a.tid with
      | none => exact ⟨c', rfl, hd⟩
      | some c =>
        by_cases hlt : c.depth < c'.depth
        · exact ⟨c', by simp [pick, hlt], hd⟩
        · exact ⟨c, by simp [pick, hlt], hd.trans (not_lt.mp hlt)⟩

lemma Represents.insert_deeper (h : Represents m S) (hp : p.kind ≠ .programInit)
    (hdeep : ∀ c, m.find? p.tid = some c → c.depth ≤ p.depth) :
    Represents (SortedMap.insert m p.tid p) (S ∪ {p}) where
  mem {t c} hc := by
    rw [find?_insert] at hc
    split_ifs at hc with ht
    · cases hc
      exact ⟨.inr rfl, ht, hp⟩
    · exact (h.mem hc).imp_left .inl
  deepest {a} ha hk := by
    rw [find?_insert]
    split_ifs with ht
    · refine ⟨p, rfl, ?_⟩
      rcases ha with ha | rfl
      · obtain ⟨c, hc, hd⟩ := h.deepest ha hk
        exact hd.trans (hdeep c (ht ▸ hc))
      · exact le_rfl
    · rcases ha with ha | rfl
      · exact h.deepest ha hk
      · exact absurd rfl ht

lemma Represents.insertDeeper (h : Represents m S) (hp : p.kind ≠ .programInit) :
    Represents (insertDeeper m p) (S ∪ {p}) := by
  unfold Cone.insertDeeper
  split_ifs with hfind
  · refine h.insert_deeper hp fun c hc => ?_
    rw [hc] at hfind
    exact (of_decide_eq_true hfind).le
  · obtain ⟨c, hc, hd⟩ : ∃ c, m.find? p.tid = some c ∧ p.depth ≤ c.depth := by
      cases hc : m.find? p.tid with
      | none => exact absurd (by simp [hc]) hfind
      | some c => exact ⟨c, rfl, by simpa [hc] using hfind⟩
    constructor
    · exact fun h' => (h.mem h').imp_left .inl
    · rintro a (ha | rfl) hk
      · exact h.deepest ha hk
      · exact ⟨c, hc, hd⟩

lemma Iic_eq (p : Event D) : Set.Iic p = Set.Iio p ∪ {p} := by
  ext a
  simp

lemma Represents.insert_self (h : Represents pc (Set.Iio p)) (hp : p.kind ≠ .programInit) :
    Represents (SortedMap.insert pc p.tid p) (Set.Iic p) := by
  rw [Iic_eq]
  exact h.insert_deeper hp fun c hc => (Event.depth_lt_depth (h.mem hc).1).le

lemma Represents.insertWith (h : Represents m S) (hpc : Represents pc (Set.Iio p))
    (hroot : p.kind = .programInit → p.preds = []) : Represents (insertWith m p pc) (S ∪ Set.Iic p) := by
  unfold Cone.insertWith
  split_ifs with hp
  · refine h.congr fun a ha => ⟨.inl, ?_⟩
    rintro (hS | hap)
    · exact hS
    · -- below program_init there is only program_init
      rcases (Set.mem_Iic.mp hap).eq_or_lt' with rfl | hlt
      · exact absurd hp ha
      · obtain ⟨q, hq, -⟩ := Event.lt_iff_pred.mp hlt
        rw [hroot hp] at hq
        simp at hq
  · rw [Iic_eq, ← Set.union_assoc]
    exact (h.merge hpc).insertDeeper hp

lemma Represents.ofImmediate (h : Represents pc (Set.Iio p)) : Represents (ofImmediate p pc) (Set.Iic p) := by
  unfold Cone.ofImmediate
  split_ifs with hp
  · refine h.congr fun a ha => ⟨fun h => (Set.mem_Iio.mp h).le, fun h => ?_⟩
    refine lt_of_le_of_ne (Set.mem_Iic.mp h) ?_
    rintro rfl
    exact ha hp
  · exact h.insert_self hp

lemma Represents.foldl_insertWith {S : Set (Event D)} :
    ∀ {others : List (Event D × Cone D)} {m : Cone D}, Represents m S →
      (∀ q ∈ others, Represents q.2 (Set.Iio q.1) ∧ (q.1.kind = .programInit → q.1.preds = [])) →
      Represents (others.foldl (fun m q => Cone.insertWith m q.1 q.2) m) (S ∪ {a | ∃ q ∈ others, a ≤ q.1})
  | [], m, h, _ => h.congr fun a _ => by simp
  | q :: qs, m, h, hq => by
    obtain ⟨hq1, hq2⟩ := hq q mem_cons_self
    have := Represents.foldl_insertWith (h.insertWith hq1 hq2) fun r hr => hq r (mem_cons_of_mem q hr)
    refine this.congr fun a _ => ?_
    simp [or_assoc]

end Cone

namespace Event
variable {D : Type}

lemma Iio_eq (e : Event D) : Set.Iio e = {a | ∃ p ∈ e.preds, a ≤ p} := by
  ext a
  exact lt_iff_pred

variable [DecidableEq D]

lemma cone_represents {e : Event D} (he : e.Valid) : e.cone.Represents (Set.Iio e) := by
  induction e using induction with
  | h e ih =>
    have hpreds : ∀ p ∈ e.preds, p.cone.Represents (Set.Iio p) ∧ (p.kind = .programInit → p.preds = []) :=
      fun p hp =>
        have hv := he.mono (lt_of_mem_preds hp).le
        ⟨ih p hp hv, preds_nil_of_checks hv.checks⟩
    have hone : ∀ p, e.preds = [p] → (Cone.ofImmediate p p.cone).Represents (Set.Iio e) := by
      intro p hp
      refine (hpreds p (by simp [hp])).1.ofImmediate.congr fun a _ => ?_
      simp [Iio_eq, hp]
    have hmany : ∀ p ps, (p :: ps).Perm e.preds → p.kind ≠ .programInit →
        (Cone.ofPredecessors (p, p.cone) (ps.map fun q => (q, q.cone))).Represents (Set.Iio e) := by
      intro p ps hperm hk
      have hp : p ∈ e.preds := hperm.subset mem_cons_self
      refine (((hpreds p hp).1.insert_self hk).foldl_insertWith ?_).congr ?_
      · intro q hq
        obtain ⟨r, hr, rfl⟩ := mem_map.mp hq
        exact hpreds r (hperm.subset (mem_cons_of_mem p hr))
      · intro a _
        simp [Iio_eq, ← hperm.mem_iff]
    have hc := he.checks
    rw [cone_eq]
    by_cases hp : e.kind = .programInit
    · have hnil := preds_nil_of_checks hc hp
      obtain ⟨t, l, ps⟩ := e
      cases l <;> simp at hp
      exact Cone.represents_empty fun a ha => by simp_all [Iio_eq]
    by_cases hi : e.kind = .threadInit
    · obtain ⟨t, l, ps⟩ := e
      cases l <;> simp at hi
      obtain ⟨p, rfl⟩ : ∃ p, ps = [p] :=
        length_eq_one_iff.mp (length_preds_single hc (by simp [singleKinds]))
      exact hone p rfl
    · obtain ⟨p, hpp, -, -, hk, -⟩ := threadPred_of_checks hc hp hi
      obtain ⟨ps, hps⟩ := preds_eq_cons_of_threadPred hpp
      obtain ⟨t, l, qs⟩ := e
      obtain rfl : qs = p :: ps := hps
      have hperm : (p :: ps).Perm (mk t l (p :: ps)).preds := List.Perm.refl _
      cases l with
      | programInit => exact absurd rfl hp
      | threadInit => exact absurd rfl hi
      | wait2 c l =>
        obtain ⟨a, b, rfl⟩ : ∃ a b, ps = [a, b] :=
          length_eq_two.mp (by simpa using length_preds_of_wait2 hc rfl)
        exact hmany p [b, a] ((List.Perm.swap a b []).cons p) hk
      | threadJoin | lockDestroy | lockAcquire | lockRelease | conditionVariableDestroy | wait1 | signal
        | broadcast => exact hmany p ps hperm hk
      | localEvent | threadCreate | threadExit | lockCreate | conditionVariableCreate =>
        obtain rfl : ps = [] := by simpa using length_preds_single hc (by simp [singleKinds])
        exact hone p rfl

lemma isLessThan_iff_lt {a b : Event D} (ha : a.checks = true) (hb : b.Valid)
    (htotal : ∀ c ≤ b, c.tid = a.tid → a ≤ c ∨ c ≤ a) : a.isLessThan b = true ↔ a < b := by
  have hcone := cone_represents hb
  unfold isLessThan isLessThanCone
  split_ifs with ht
  · rw [decide_eq_true_eq]
    refine ⟨fun hd => ?_, depth_lt_depth⟩
    rcases htotal b le_rfl ht with h | h
    · exact lt_of_le_of_ne h fun h => by simp [h] at hd
    · exact absurd (depth_le_depth h) (not_le.mpr hd)
  · cases hc : b.cone.find? a.tid with
    | some c =>
      obtain ⟨hcb, hct, -⟩ := hcone.mem hc
      simp only [Bool.or_eq_true, decide_eq_true_eq, ← le_iff_lt_or_eq]
      constructor
      · intro hd
        exact (le_of_depth_le (htotal c (le_of_lt hcb) hct) hd).trans_lt hcb
      · intro hab
        by_cases hk : a.kind = .programInit
        · rw [depth_of_programInit ha hk]
          exact Nat.zero_le _
        · obtain ⟨c', hc', hd⟩ := hcone.deepest hab hk
          obtain rfl : c = c' := Option.some.inj (hc.symm.trans hc')
          exact hd
    | none =>
      simp only [decide_eq_true_eq]
      constructor
      · intro hk
        rw [eq_programInit ha hk] at ht ⊢
        refine lt_of_le_of_ne (programInit_le hb) ?_
        rintro rfl
        exact ht rfl
      · intro hab
        by_contra hk
        obtain ⟨c, hc', -⟩ := hcone.deepest hab hk
        simp [hc] at hc'

end Event
end Por
