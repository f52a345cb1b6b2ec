import PorSe.Por.Cone

/-! Combs: sets of events kept per thread, each tooth with its least event first and
its greatest last. -/

namespace Por
open List SortedMap ListSearch Event

structure Tooth (D : Type) where
  events : List (Event D)
  sorted : Bool

namespace Tooth
variable {D : Type} [DecidableEq D]

def empty : Tooth D := ⟨[], true⟩

def insert (t : Tooth D) (e : Event D) : Tooth D :=
  match t.events with
  | [] => ⟨[e], t.sorted⟩
  | front :: rest =>
    if e.isLessThan front then ⟨e :: front :: rest, t.sorted⟩
    else if (rest = [] ∧ front ≠ e) ∨ ((front :: rest).getLast (cons_ne_nil _ _)).isLessThan e then
      ⟨front :: rest ++ [e], t.sorted⟩
    else if e ∈ front :: rest then t
    else
      -- in front of the last event; with three events the order is preserved
      ⟨(front :: rest).dropLast ++ [e, (front :: rest).getLast (cons_ne_nil _ _)], t.sorted && rest.length = 1⟩

def sort (t : Tooth D) : Tooth D :=
  if t.sorted then t else ⟨t.events.insertionSort fun a b => a.isLessThan b = true, true⟩

variable {t : Tooth D} {e x : Event D}

lemma mem_insert : x ∈ (t.insert e).events ↔ x = e ∨ x ∈ t.events := by
  unfold insert
  split
  · rename_i h
    simp [h]
  · rename_i front rest h
    split_ifs with h1 h2 h3
    · simp [h]
    · simp [h, or_comm, or_left_comm]
    · rw [h]
      exact ⟨.inr, fun hx => hx.elim (fun hx => hx ▸ h3) id⟩
    · have hsplit := dropLast_append_getLast (cons_ne_nil front rest)
      have hx : x ∈ t.events ↔ x ∈ (front :: rest).dropLast ∨ x = (front :: rest).getLast (cons_ne_nil front rest) := by
        rw [h]
        conv_lhs => rw [← hsplit, mem_append, mem_singleton]
      rw [hx]
      simp [or_left_comm]

lemma insert_perm (h : e ∉ t.events) : (t.insert e).events.Perm (e :: t.events) := by
  unfold insert
  split
  · rename_i ht
    simp [ht]
  · rename_i front rest ht
    split_ifs with h1 h2 h3
    · rw [ht]
    · rw [ht]
      exact perm_append_singleton e _
    · exact absurd (ht ▸ h3) h
    · rw [ht]
      conv_rhs => rw [← dropLast_append_getLast (cons_ne_nil front rest)]
      exact perm_middle

lemma length_insert_le (t : Tooth D) (e : Event D) : (t.insert e).events.length ≤ t.events.length + 1 := by
  unfold insert
  split
  · simp
  · rename_i front rest h
    split_ifs <;> simp [h]

section
omit [DecidableEq D]

lemma sort_perm (t : Tooth D) : t.sort.events.Perm t.events := by
  unfold sort
  split_ifs
  · exact List.Perm.refl _
  · exact perm_insertionSort _ t.events

lemma mem_sort : x ∈ t.sort.events ↔ x ∈ t.events := (sort_perm t).mem_iff

lemma sorted_sort (t : Tooth D) : t.sort.sorted = true := by
  unfold sort
  split_ifs with h
  · exact h
  · rfl

end

/-- At either end of an unsorted tooth of more than three events the code reads past the end. -/
def remove (t : Tooth D) (e : Event D) : Option (Tooth D) :=
  if e ∈ t.events then
    if t.sorted ∨ t.events.length ≤ 3 then some ⟨t.events.erase e, true⟩
    else if t.events.head? ≠ some e ∧ t.events.getLast? ≠ some e then some ⟨t.events.erase e, t.events.length = 4⟩
    else none
  else some t

lemma remove_of_sorted (ht : t.sorted = true) (e : Event D) : t.remove e = some ⟨t.events.erase e, true⟩ := by
  obtain ⟨es, sorted⟩ := t
  obtain rfl : sorted = true := ht
  unfold remove
  split_ifs with he h
  · rfl
  · exact absurd (.inl rfl) h
  · exact absurd (.inl rfl) h
  · rw [erase_of_not_mem he]

lemma events_remove {t' : Tooth D} (h : t.remove e = some t') : t'.events = t.events.erase e := by
  unfold remove at h
  split_ifs at h with he
  · exact Option.some.inj h ▸ rfl
  · exact Option.some.inj h ▸ rfl
  · rw [← Option.some.inj h, erase_of_not_mem he]

end Tooth

abbrev Comb (D : Type) := SortedMap ThreadId (Tooth D)

namespace Comb
variable {D : Type} [DecidableEq D]

def insert (m : Comb D) (e : Event D) : Comb D :=
  SortedMap.insert m e.tid (((m.find? e.tid).getD Tooth.empty).insert e)

def ofEvents (es : List (Event D)) : Comb D := es.foldl insert empty

def events (m : Comb D) : List (Event D) := m.values.flatMap Tooth.events

def filter (m : Comb D) (p : Event D → Bool) : Comb D := ofEvents (m.events.filter p)

variable {m : Comb D} {x e : Event D} {tooth : Tooth D} {es M : List (Event D)} {α : Type} {s : List α}
  {xss : List (List α)} {Ms : List (List (Event D))}

section
omit [DecidableEq D]

lemma mem_events : x ∈ m.events ↔ ∃ t tooth, m.find? t = some tooth ∧ x ∈ tooth.events := by
  simp only [events, mem_flatMap, mem_values_iff]
  constructor
  · rintro ⟨tooth, ⟨t, ht⟩, hx⟩
    exact ⟨t, tooth, ht, hx⟩
  · rintro ⟨t, tooth, ht, hx⟩
    exact ⟨tooth, ⟨t, ht⟩, hx⟩

lemma events_perm_of_find? {t : ThreadId} (h : m.find? t = some tooth) :
    m.events.Perm (tooth.events ++ events (m.erase t)) :=
  ((entries_perm_erase h).map Prod.snd).flatMap_right Tooth.events

lemma events_insert_perm (m : Comb D) (t : ThreadId) (tooth : Tooth D) :
    (events (SortedMap.insert m t tooth)).Perm (tooth.events ++ events (m.erase t)) :=
  ((entries_insert_perm m t tooth).map Prod.snd).flatMap_right Tooth.events

end

lemma mem_insert : x ∈ (insert m e).events ↔ x = e ∨ x ∈ m.events := by
  have hold : x ∈ ((m.find? e.tid).getD Tooth.empty).events ↔ ∃ tooth, m.find? e.tid = some tooth ∧
    x ∈ tooth.events := by
    cases m.find? e.tid <;> simp [Tooth.empty]
  simp only [mem_events, insert, find?_insert]
  constructor
  · rintro ⟨t, tooth, ht, hx⟩
    split_ifs at ht with h
    · cases ht
      rcases Tooth.mem_insert.mp hx with hx | hx
      · exact .inl hx
      · obtain ⟨tooth, h, hx⟩ := hold.mp hx
        exact .inr ⟨_, tooth, h, hx⟩
    · exact .inr ⟨t, tooth, ht, hx⟩
  · rintro (rfl | ⟨t, tooth, ht, hx⟩)
    · exact ⟨x.tid, _, if_pos rfl, Tooth.mem_insert.mpr (.inl rfl)⟩
    · by_cases h : e.tid = t
      · subst h
        exact ⟨e.tid, _, if_pos rfl, Tooth.mem_insert.mpr (.inr (hold.mpr ⟨tooth, ht, hx⟩))⟩
      · exact ⟨t, tooth, by rw [if_neg h, ht], hx⟩

lemma insert_perm (h : e ∉ m.events) : (m.insert e).events.Perm (e :: m.events) := by
  refine (events_insert_perm m e.tid _).trans ?_
  cases ht : m.find? e.tid with
  | none => simp [erase_of_find?_eq_none ht, Tooth.empty, Tooth.insert]
  | some tooth =>
    have he : e ∉ tooth.events := fun he => h (mem_events.mpr ⟨e.tid, tooth, ht, he⟩)
    exact ((Tooth.insert_perm he).append_right _).trans ((events_perm_of_find? ht).symm.cons e)

lemma ofEvents_perm (h : es.Nodup) : (ofEvents es).events.Perm es := by
  have key : ∀ (es : List (Event D)) {m : Comb D}, (es ++ m.events).Nodup →
      (es.foldl insert m).events.Perm (es ++ m.events) := by
    intro es
    induction es with
    | nil => exact fun _ => List.Perm.refl _
    | cons e es ih =>
      intro m h
      have hperm : (es ++ (m.insert e).events).Perm (e :: es ++ m.events) :=
        ((insert_perm fun he => (nodup_cons.mp h).1 (mem_append_right es he)).append_left es).trans
          perm_middle
      exact (ih (hperm.nodup_iff.mpr h)).trans hperm
  have hempty : events (empty : Comb D) = [] := rfl
  simpa [ofEvents, hempty] using key es (m := empty) (by simpa [hempty] using h)

lemma mem_foldl_insert : x ∈ (es.foldl insert m).events ↔ x ∈ es ∨ x ∈ m.events := by
  induction es generalizing m with
  | nil => simp
  | cons e es ih => rw [foldl_cons, ih, mem_insert, mem_cons, or_assoc, or_left_comm]

lemma mem_ofEvents : x ∈ (ofEvents es).events ↔ x ∈ es := by
  rw [ofEvents, mem_foldl_insert]
  simp [mem_events]

lemma mem_filter {p : Event D → Bool} : x ∈ (m.filter p).events ↔ x ∈ m.events ∧ p x = true := by
  rw [filter, mem_ofEvents, List.mem_filter]

/-! ## What a comb of given events looks like -/

def Keyed (m : Comb D) : Prop := ∀ t tooth, m.find? t = some tooth → ∀ e ∈ tooth.events, e.tid = t

lemma Keyed.insert (h : m.Keyed) (e : Event D) : (m.insert e).Keyed := by
  intro t tooth ht x hx
  rw [Comb.insert, find?_insert] at ht
  split_ifs at ht with htid
  · cases ht
    rcases Tooth.mem_insert.mp hx with rfl | hx
    · exact htid
    · cases hold : m.find? e.tid with
      | none => simp [hold, Tooth.empty] at hx
      | some old => exact (h _ old hold x (by simpa [hold] using hx)).trans htid
  · exact h t tooth ht x hx

lemma keyed_ofEvents (es : List (Event D)) : (ofEvents es).Keyed :=
  es.foldlRecOn Comb.insert (fun t _ ht => by simp at ht) fun _ h e _ => h.insert e

lemma ne_nil_of_find?_ofEvents {t : ThreadId} (h : (ofEvents es).find? t = some tooth) : tooth.events ≠ [] := by
  refine es.foldlRecOn (motive := fun m : Comb D => ∀ t tooth, m.find? t = some tooth → tooth.events ≠ []) Comb.insert
    (fun t _ ht => by simp at ht) (fun m hm e _ t tooth ht => ?_) t tooth h
  rw [Comb.insert, find?_insert] at ht
  split_ifs at ht
  · cases ht
    exact ne_nil_of_mem (Tooth.mem_insert.mpr (.inl rfl))
  · exact hm t tooth ht

lemma length_insert_le (m : Comb D) (e : Event D) : (m.insert e).events.length ≤ m.events.length + 1 := by
  rw [Comb.insert, (events_insert_perm m e.tid _).length_eq, length_append]
  cases ht : m.find? e.tid with
  | none =>
    have := Tooth.length_insert_le Tooth.empty e
    rw [erase_of_find?_eq_none ht]
    simp [Tooth.empty] at this ⊢
    omega
  | some tooth =>
    have := Tooth.length_insert_le tooth e
    rw [(events_perm_of_find? ht).length_eq, length_append]
    simp only [Option.getD_some]
    omega

lemma length_ofEvents_le (es : List (Event D)) : (ofEvents es).events.length ≤ es.length := by
  have hfold : ∀ m : Comb D, (es.foldl Comb.insert m).events.length ≤ m.events.length + es.length := by
    induction es with
    | nil => exact fun m => le_rfl
    | cons e es ih =>
      intro m
      have hstep := length_insert_le m e
      have := ih (m.insert e)
      rw [foldl_cons, length_cons]
      omega
  exact (hfold empty).trans_eq (Nat.zero_add _)

/-! ## Taking events out -/

def sort (m : Comb D) : Comb D := m.mapValues Tooth.sort

def isEmpty (m : Comb D) : Option Bool :=
  if m.values.all fun t => !t.events.isEmpty then some m.entries.isEmpty else none

/-- The minimal ones among the first events of the teeth. -/
def min (m : Comb D) : Option (List (Event D)) :=
  (m.values.mapM fun t : Tooth D => t.events.head?).map (maximals fun a b => b.isLessThan a)

def remove (m : Comb D) (e : Event D) : Option (Comb D) :=
  match m.find? e.tid with
  | none => some m
  | some tooth => (tooth.remove e).map fun t => if t.events.isEmpty then m.erase e.tid else SortedMap.insert m e.tid t

def removeAll (m : Comb D) (es : List (Event D)) : Option (Comb D) := es.foldlM remove m

def Tidy (m : Comb D) : Prop :=
  ∀ t tooth, m.find? t = some tooth → tooth.sorted = true ∧ tooth.events ≠ [] ∧ ∀ e ∈ tooth.events, e.tid = t

lemma Keyed.remove_perm {m' : Comb D} (hm : m.Keyed) (h : m.remove e = some m') : m'.events.Perm
    (m.events.erase e) := by
  unfold Comb.remove at h
  cases ht : m.find? e.tid with
  | none =>
    rw [ht] at h
    rw [← Option.some.inj h, erase_of_not_mem fun he => ?_]
    obtain ⟨t, tooth, htooth, he⟩ := mem_events.mp he
    rw [hm t tooth htooth e he, htooth] at ht
    simp at ht
  | some tooth =>
    simp only [ht] at h
    obtain ⟨t', ht', rfl⟩ := Option.map_eq_some_iff.mp h
    have hrest : e ∉ events (m.erase e.tid) := by
      intro he
      obtain ⟨t, tooth', ht', he⟩ := mem_events.mp he
      rw [find?_erase] at ht'
      split_ifs at ht' with hne
      exact hne (hm t tooth' ht' e he)
    have hperm : (t'.events ++ events (m.erase e.tid)).Perm (m.events.erase e) := by
      rw [Tooth.events_remove ht']
      refine List.Perm.symm (((events_perm_of_find? ht).erase e).trans ?_)
      by_cases he : e ∈ tooth.events
      · rw [erase_append_left _ he]
      · rw [erase_append_right _ he, erase_of_not_mem hrest, erase_of_not_mem he]
    split_ifs with hempty
    · rwa [isEmpty_iff.mp hempty] at hperm
    · exact (events_insert_perm m e.tid _).trans hperm

lemma Tidy.remove (hm : m.Tidy) (e : Event D) :
    ∃ m', m.remove e = some m' ∧ m'.Tidy ∧ m'.events.Perm (m.events.erase e) := by
  have hkeyed : m.Keyed := fun t tooth ht => (hm t tooth ht).2.2
  suffices h : ∃ m', m.remove e = some m' ∧ m'.Tidy by
    obtain ⟨m', hm', htidy⟩ := h
    exact ⟨m', hm', htidy, hkeyed.remove_perm hm'⟩
  unfold Comb.remove
  cases ht : m.find? e.tid with
  | none => exact ⟨m, rfl, hm⟩
  | some tooth =>
    obtain ⟨hsorted, -, htid⟩ := hm _ _ ht
    simp only [Tooth.remove_of_sorted hsorted, Option.map_some, Option.some.injEq, exists_eq_left']
    split_ifs with hempty
    · intro t tooth' h
      rw [find?_erase] at h
      split_ifs at h
      exact hm t tooth' h
    · intro t tooth' h
      rw [find?_insert] at h
      split_ifs at h with htt
      · cases h
        exact ⟨rfl, by simpa using hempty, fun x hx => htt ▸ htid x (mem_of_mem_erase hx)⟩
      · exact hm t tooth' h

lemma Tidy.removeAll (hm : m.Tidy) (es : List (Event D)) :
    ∃ m', m.removeAll es = some m' ∧ m'.Tidy ∧ m'.events.Perm (m.events.diff es) := by
  induction es generalizing m with
  | nil => exact ⟨m, rfl, hm, List.Perm.refl _⟩
  | cons e es ih =>
    obtain ⟨m', hm', htidy, hperm⟩ := hm.remove e
    obtain ⟨m'', hm'', htidy', hperm'⟩ := ih htidy
    refine ⟨m'', ?_, htidy', hperm'.trans ?_⟩
    · rw [Comb.removeAll, foldlM_cons, hm']
      exact hm''
    · rw [diff_cons]
      exact hperm.diff_right es

omit [DecidableEq D] in
lemma Tidy.isEmpty_eq (hm : m.Tidy) : m.isEmpty = some m.entries.isEmpty := by
  refine if_pos (all_eq_true.mpr fun tooth htooth => ?_)
  obtain ⟨t, ht⟩ := mem_values_iff.mp htooth
  simpa using (hm t tooth ht).2.1

lemma tidy_sort_ofEvents (es : List (Event D)) : (ofEvents es).sort.Tidy := by
  intro t _ ht
  rw [sort, find?_mapValues, Option.map_eq_some_iff] at ht
  obtain ⟨tooth', ht', rfl⟩ := ht
  refine ⟨Tooth.sorted_sort tooth', fun hnil => ne_nil_of_find?_ofEvents ht' ?_, fun e he => ?_⟩
  · exact List.Perm.nil_eq (hnil ▸ Tooth.sort_perm tooth') |>.symm
  · exact keyed_ofEvents es t tooth' ht' e (Tooth.mem_sort.mp he)

omit [DecidableEq D] in
lemma length_events_sort (m : Comb D) : m.sort.events.length = m.events.length := by
  rw [events, events, values, sort, mapValues, values, map_map, length_flatMap, length_flatMap, map_map, map_map]
  exact congrArg sum (map_congr_left fun p _ => (Tooth.sort_perm p.2).length_eq)

omit [DecidableEq D] in
lemma Tidy.min_eq_some (hm : m.Tidy) (hne : m.entries ≠ []) :
    ∃ es, m.min = some es ∧ es ≠ [] ∧ ∀ e ∈ es, e ∈ m.events := by
  have hhead : ∀ tooth ∈ m.values, ∃ e, tooth.events.head? = some e := by
    intro tooth htooth
    obtain ⟨t, ht⟩ := mem_values_iff.mp htooth
    obtain ⟨e, es, hes⟩ := exists_cons_of_ne_nil (hm t tooth ht).2.1
    exact ⟨e, by simp [hes]⟩
  obtain ⟨_, hheads⟩ := exists_mapM_eq_some hhead
  refine ⟨_, by rw [Comb.min, hheads, Option.map_some], maximals_ne_nil ?_, fun e he => ?_⟩
  · rintro rfl
    have := congrArg length (mapM_eq_some_iff.mp hheads)
    simp only [values, length_map, length_nil, length_eq_zero_iff] at this
    exact hne this
  · obtain ⟨tooth, htooth, he⟩ := (mem_of_mapM hheads).mp (mem_of_mem_maximals he)
    exact mem_flatMap.mpr ⟨tooth, htooth, mem_of_head? he⟩

/-! ## Concurrent combinations -/

def selectedThreads {α : Type} : List α → List (List α)
  | [] => [[]]
  | t :: ts => (selectedThreads ts).flatMap fun s => [s, t :: s]

def selectedEvents {α : Type} : List (List α) → List (List α)
  | [] => [[]]
  | xs :: xss => (selectedEvents xss).flatMap fun s => xs.map fun x => x :: s

def concurrent (a b : Event D) : Bool := !a.isLessThan b && !b.isLessThan a

/-- The sets of pairwise concurrent events for the filter; at most 63 threads are supported. -/
def concurrentCombinations (m : Comb D) : Option (List (List (Event D))) :=
  if m.size < 64 then
    some (((selectedThreads (m.values.map fun t => t.sort.events)).flatMap selectedEvents).filter fun s =>
      s.Pairwise fun a b => concurrent a b = true)
  else none

def combinations {α : Type} (xss : List (List α)) : List (List α) := (selectedThreads xss).flatMap selectedEvents

lemma combinations_cons_perm (xs : List α) (xss : List (List α)) : (combinations (xs :: xss)).Perm
    (combinations xss ++ (combinations xss).flatMap fun s => xs.map fun x => x :: s) := by
  have hleft : combinations (xs :: xss) = (selectedThreads xss).flatMap fun ts =>
      selectedEvents ts ++ selectedEvents (xs :: ts) := by
    simp [combinations, selectedThreads, flatMap_assoc]
  rw [hleft, combinations, flatMap_assoc]
  exact (flatMap_append_perm _ _ _).symm

lemma mem_combinations_cons {xs : List α} : s ∈ combinations (xs :: xss) ↔
    s ∈ combinations xss ∨ ∃ s' ∈ combinations xss, ∃ x ∈ xs, x :: s' = s := by
  rw [(combinations_cons_perm xs xss).mem_iff, mem_append, mem_flatMap]
  simp

lemma sublist_of_combinations (h : s ∈ combinations xss) : s.Sublist xss.flatten := by
  induction xss generalizing s with
  | nil => simpa [combinations, selectedThreads, selectedEvents] using h
  | cons xs xss ih =>
    rcases mem_combinations_cons.mp h with hs | ⟨s', hs', x, hx, rfl⟩
    · exact (ih hs).trans (sublist_append_right xs _)
    · exact (singleton_sublist.mpr hx).append (ih hs')

lemma nodup_of_mem_combinations (hxss : xss.Pairwise List.Disjoint) (h : s ∈ combinations xss) : s.Nodup := by
  induction xss generalizing s with
  | nil =>
    obtain rfl : s = [] := by simpa [combinations, selectedThreads, selectedEvents] using h
    exact nodup_nil
  | cons xs xss ih =>
    obtain ⟨hxs, hxss⟩ := pairwise_cons.mp hxss
    rcases mem_combinations_cons.mp h with hs | ⟨s', hs', x, hx, rfl⟩
    · exact ih hxss hs
    · refine nodup_cons.mpr ⟨fun hxs' => ?_, ih hxss hs'⟩
      obtain ⟨ys, hys, hxy⟩ := mem_flatten.mp ((sublist_of_combinations hs').subset hxs')
      exact hxs ys hys hx hxy

section
omit [DecidableEq D]

lemma mem_of_mem_combinations (h : m.concurrentCombinations = some Ms) (hM : M ∈ Ms) :
    (∀ x ∈ M, x ∈ m.events) ∧ M.Pairwise fun a b => concurrent a b = true := by
  unfold concurrentCombinations at h
  split_ifs at h
  cases h
  obtain ⟨hM, hpw⟩ := List.mem_filter.mp hM
  refine ⟨fun x hx => ?_, of_decide_eq_true hpw⟩
  obtain ⟨xs, hxs, hx⟩ := mem_flatten.mp ((sublist_of_combinations hM).subset hx)
  obtain ⟨tooth, htooth, rfl⟩ := mem_map.mp hxs
  exact mem_flatMap.mpr ⟨tooth, htooth, Tooth.mem_sort.mp hx⟩

lemma not_lt_of_mem_combinations (h : m.concurrentCombinations = some Ms) (hM : M ∈ Ms)
    (hlt : ∀ a ∈ M, ∀ b ∈ M, (a.isLessThan b = true ↔ a < b)) : ∀ a ∈ M, ∀ b ∈ M, ¬ a < b := by
  intro a ha b hb hab
  have hless := (hlt a ha b hb).mpr hab
  rcases rel_or_rel_of_mem (mem_of_mem_combinations h hM).2 ha hb with rfl | h | h
  · exact lt_irrefl a hab
  · simp [concurrent, hless] at h
  · simp [concurrent, hless] at h

lemma Keyed.disjoint_teeth (hm : m.Keyed) : (m.values.map fun t => t.sort.events).Pairwise List.Disjoint := by
  rw [values, map_map, pairwise_map]
  refine m.sorted.imp_of_mem fun {a b} ha hb hab x hxa hxb => ?_
  have hta := hm _ _ (mem_entries_iff.mp ha) x (Tooth.mem_sort.mp hxa)
  have htb := hm _ _ (mem_entries_iff.mp hb) x (Tooth.mem_sort.mp hxb)
  exact hab.ne (hta.symm.trans htb)

lemma nodup_of_concurrent (hm : m.Keyed) (h : m.concurrentCombinations = some Ms) (hM : M ∈ Ms) :
    M.Nodup := by
  unfold concurrentCombinations at h
  split_ifs at h
  cases h
  exact nodup_of_mem_combinations hm.disjoint_teeth (List.mem_filter.mp hM).1

end

/-! ## Every set of concurrent events is a combination -/

lemma exists_mem_combinations {p : α → Prop} (hone : ∀ xs ∈ xss, ∀ a ∈ xs, ∀ b ∈ xs, p a → p b → a = b) :
    ∃ s ∈ combinations xss, ∀ x, x ∈ s ↔ (∃ xs ∈ xss, x ∈ xs) ∧ p x := by
  induction xss with
  | nil => exact ⟨[], by simp [combinations, selectedThreads, selectedEvents], by simp⟩
  | cons xs xss ih =>
    obtain ⟨s, hs, hmem⟩ := ih fun ys hys => hone ys (mem_cons_of_mem xs hys)
    by_cases hx : ∃ x ∈ xs, p x
    · obtain ⟨x, hx, hpx⟩ := hx
      refine ⟨x :: s, mem_combinations_cons.mpr (.inr ⟨s, hs, x, hx, rfl⟩), fun y => ?_⟩
      rw [mem_cons, hmem]
      constructor
      · rintro (rfl | ⟨⟨ys, hys, hy⟩, hpy⟩)
        · exact ⟨⟨xs, mem_cons_self, hx⟩, hpx⟩
        · exact ⟨⟨ys, mem_cons_of_mem xs hys, hy⟩, hpy⟩
      · rintro ⟨⟨ys, hys, hy⟩, hpy⟩
        rcases mem_cons.mp hys with rfl | hys
        · exact .inl (hone ys mem_cons_self y hy x hx hpy hpx)
        · exact .inr ⟨⟨ys, hys, hy⟩, hpy⟩
    · refine ⟨s, mem_combinations_cons.mpr (.inl hs), fun y => ?_⟩
      rw [hmem]
      constructor
      · rintro ⟨⟨ys, hys, hy⟩, hpy⟩
        exact ⟨⟨ys, mem_cons_of_mem xs hys, hy⟩, hpy⟩
      · rintro ⟨⟨ys, hys, hy⟩, hpy⟩
        rcases mem_cons.mp hys with rfl | hys
        · exact absurd ⟨y, hy, hpy⟩ hx
        · exact ⟨⟨ys, hys, hy⟩, hpy⟩

omit [DecidableEq D] in
lemma exists_mem_concurrent (hm : m.Keyed) (h : m.concurrentCombinations = some Ms)
    {p : Event D → Prop} (hp : ∀ a, p a → ∀ b, p b → ¬ a < b)
    (hlt : ∀ {a}, p a → ∀ {b}, p b → (a.isLessThan b = true ↔ a < b))
    (htotal : ∀ {a}, p a → ∀ {b}, p b → a.tid = b.tid → a ≤ b ∨ b ≤ a) :
    ∃ M ∈ Ms, ∀ x, x ∈ M ↔ x ∈ m.events ∧ p x := by
  have hteeth : ∀ x, (∃ xs ∈ m.values.map fun t => t.sort.events, x ∈ xs) ↔ x ∈ m.events := by
    simp [events, Tooth.mem_sort]
  have hone : ∀ xs ∈ m.values.map fun t => t.sort.events, ∀ a ∈ xs, ∀ b ∈ xs, p a → p b → a = b := by
    intro xs hxs a ha b hb hpa hpb
    obtain ⟨tooth, htooth, rfl⟩ := mem_map.mp hxs
    obtain ⟨t, ht⟩ := mem_values_iff.mp htooth
    have htid : ∀ {x}, x ∈ tooth.sort.events → x.tid = t := fun hx => hm t tooth ht _ (Tooth.mem_sort.mp hx)
    rcases htotal hpa hpb ((htid ha).trans (htid hb).symm) with hle | hle
    · exact hle.eq_of_not_lt (hp a hpa b hpb)
    · exact (hle.eq_of_not_lt (hp b hpb a hpa)).symm
  obtain ⟨s, hs, hmem⟩ := exists_mem_combinations hone
  simp only [hteeth] at hmem
  unfold concurrentCombinations at h
  split_ifs at h
  cases h
  refine ⟨s, List.mem_filter.mpr ⟨hs, decide_eq_true ?_⟩, hmem⟩
  refine (nodup_of_mem_combinations hm.disjoint_teeth hs).imp_of_mem fun {a b} ha hb _ => ?_
  obtain ⟨-, ha⟩ := (hmem a).mp ha
  obtain ⟨-, hb⟩ := (hmem b).mp hb
  simp [concurrent, Bool.eq_false_iff, hlt ha hb, hlt hb ha, hp a ha b hb, hp b hb a ha]

end Comb

namespace Cone
variable {D : Type} [DecidableEq D]

def keptBy (rhs : Cone D) (tid : ThreadId) (event : Event D) : List (Event D) :=
  match rhs.find? tid with
  | none => event.threadChain
  | some r => if r.depth > event.depth then [] else event.threadChain.takeWhile fun e => r.depth < e.depth

def setminus (m rhs : Cone D) : Comb D :=
  m.entries.foldl (fun result p => (keptBy rhs p.1 p.2).foldl Comb.insert result) empty

lemma mem_keptBy {rhs : Cone D} {tid : ThreadId} {event x : Event D} :
    x ∈ keptBy rhs tid event ↔ x ∈ event.threadChain ∧ ∀ r, rhs.find? tid = some r → r.depth < x.depth := by
  unfold keptBy
  cases rhs.find? tid with
  | none => simp
  | some r =>
    simp only [Option.some.injEq, forall_eq']
    have hpw : event.threadChain.Pairwise fun a b => b < a :=
      pairwise_chain threadPred_mem event
    split_ifs with h
    · refine ⟨fun hx => by simp at hx, fun ⟨hx, _⟩ => ?_⟩
      have := depth_le_depth (le_of_mem_chain threadPred_mem hx)
      omega
    · rw [mem_takeWhile_iff hpw, decide_eq_true_eq]
      intro a b _ _ hba hb
      exact decide_eq_true ((of_decide_eq_true hb).trans (depth_lt_depth hba))

lemma setminus_eq_ofEvents (m rhs : Cone D) :
    m.setminus rhs = Comb.ofEvents (m.entries.flatMap fun p => keptBy rhs p.1 p.2) := by
  rw [Comb.ofEvents, foldl_flatMap]
  rfl

lemma mem_setminus {m rhs : Cone D} {x : Event D} : x ∈ (m.setminus rhs).events ↔
    ∃ t h, m.find? t = some h ∧ x ∈ h.threadChain ∧ ∀ r, rhs.find? t = some r → r.depth < x.depth := by
  simp [setminus_eq_ofEvents, Comb.mem_ofEvents, mem_keptBy, mem_entries_iff]

end Cone
end Por
