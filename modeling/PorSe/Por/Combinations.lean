import PorSe.Por.Causes

/-! The loops of `concurrent_combinations`: a mask runs through the sets of threads, and for each of
them an odometer runs through the choices of one event per thread. -/

namespace Por
open Option SortedMap
namespace Comb
open List

/-! ## The mask -/

section
variable {α : Type}

def selectedBy : ℕ → List α → List α
  | _, [] => []
  | mask, t :: ts => if mask % 2 = 1 then t :: selectedBy (mask / 2) ts else selectedBy (mask / 2) ts

lemma selectedBy_sublist (mask : ℕ) (ts : List α) : (selectedBy mask ts).Sublist ts := by
  induction ts generalizing mask with
  | nil => exact Sublist.refl _
  | cons t ts ih =>
    rw [selectedBy]
    split_ifs
    · exact (ih _).cons_cons t
    · exact (ih _).cons t

lemma range_two_mul (n : ℕ) : range (2 * n) = (range n).flatMap fun k => [2 * k, 2 * k + 1] := by
  induction n with
  | zero => rfl
  | succ n ih =>
    rw [Nat.mul_succ, range_succ, range_succ, ih, range_succ]
    simp

lemma map_selectedBy (ts : List α) :
    (range (2 ^ ts.length)).map (fun mask => selectedBy mask ts) = selectedThreads ts := by
  induction ts with
  | nil => rfl
  | cons t ts ih =>
    have hbit : ∀ k, [2 * k, 2 * k + 1].map (fun mask => selectedBy mask (t :: ts)) =
        [selectedBy k ts, t :: selectedBy k ts] := by
      intro k
      have hodd : (2 * k + 1) / 2 = k := by omega
      simp [selectedBy, hodd]
    rw [length_cons, Nat.pow_succ', range_two_mul, map_flatMap, selectedThreads, ← ih, flatMap_map]
    exact congrArg (fun f => (range (2 ^ ts.length)).flatMap f) (funext hbit)

/-! ## The odometer -/

/-- The lowest position that can be incremented is, and the positions below it are reset. -/
def advance : List ℕ → List ℕ → Option (List ℕ)
  | i :: is, h :: hs => if i = h then (advance is hs).map (0 :: ·) else some ((i + 1) :: is)
  | _, _ => none

variable (xss : List (List α))

def highest : List ℕ := xss.map fun xs => xs.length - 1

def selectAt : List (List α) → List ℕ → List α
  | xs :: xss, i :: is => xs[i]?.toList ++ selectAt xss is
  | _, _ => []

def remaining : List (List α) → List ℕ → List (List α)
  | xs :: xss, i :: is =>
    match remaining xss is with
    | [] => []
    | s :: ss => ((xs.drop i).map fun x => x :: s) ++ ss.flatMap fun s => xs.map fun x => x :: s
  | _, _ => [[]]

def InRange (is : List ℕ) : Prop := Forall₂ (fun xs i => i < xs.length) xss is

lemma remaining_cons_zero (xs : List α) (xss : List (List α)) (is : List ℕ) :
    remaining (xs :: xss) (0 :: is) = (remaining xss is).flatMap fun s => xs.map fun x => x :: s := by
  rw [remaining]
  cases remaining xss is <;> simp

lemma remaining_zero : remaining xss (xss.map fun _ => 0) = selectedEvents xss := by
  induction xss with
  | nil => rfl
  | cons xs xss ih => rw [map_cons, remaining_cons_zero, ih, selectedEvents]

lemma InRange.advance {xss : List (List α)} {is is' : List ℕ} (h : InRange xss is)
    (hadv : Comb.advance is (highest xss) = some is') : InRange xss is' := by
  induction h generalizing is' with
  | nil => simp [Comb.advance] at hadv
  | @cons xs i xss is hi h ih =>
    rw [highest, map_cons, Comb.advance] at hadv
    split_ifs at hadv
    · obtain ⟨js, hjs, rfl⟩ := map_eq_some_iff.mp hadv
      exact .cons (Nat.zero_lt_of_lt hi) (ih hjs)
    · cases hadv
      exact .cons (by omega) h

lemma InRange.remaining_eq {xss : List (List α)} {is : List ℕ} (h : InRange xss is) : remaining xss is =
    selectAt xss is :: ((Comb.advance is (highest xss)).map (remaining xss)).getD [] := by
  induction h with
  | nil => rfl
  | @cons xs i xss is hi h ih =>
    have hdrop := drop_eq_getElem_cons hi
    have hselect : selectAt (xs :: xss) (i :: is) = xs[i] :: selectAt xss is := by simp [selectAt, hi]
    rw [hselect, highest, map_cons, Comb.advance]
    split_ifs with hlast
    · -- the last event of the first thread: the other positions advance
      rw [remaining, ih, hdrop, drop_eq_nil_of_le (by omega)]
      cases hadv : Comb.advance is (highest xss) with
      | none => simp [highest] at hadv ⊢; simp [hadv]
      | some _ => simp [highest] at hadv ⊢; simp [hadv, remaining_cons_zero]
    · simp only [map_some]
      rw [remaining, remaining, ih, hdrop]
      rfl

end

/-! ## The loops -/

section
variable {D : Type} [DecidableEq D]

/-- `subset`, or `none` inside when an event is not concurrent to those before it. -/
def complete : List (List (Event D)) → List ℕ → List (Event D) → Option (Option (List (Event D)))
  | xs :: xss, i :: is, subset => do
    let e ← xs[i]?
    if subset.all fun a => concurrent a e then complete xss is (subset ++ [e]) else some none
  | _, _, subset => some (some subset)

def runFrom (filter : List (Event D) → Bool) (xss : List (List (Event D))) :
    ℕ → List ℕ → Option (List (List (Event D)) × List (List (Event D)))
  | 0, _ => none
  | fuel + 1, is => do
    let subset ← complete xss is []
    match advance is (highest xss) with
    | none => some (subset.toList, subset.toList.filter filter)
    | some is' =>
      let rest ← runFrom filter xss fuel is'
      some (subset.toList ++ rest.1, subset.toList.filter filter ++ rest.2)

def filteredCombinations (m : Comb D) (filter : List (Event D) → Bool) :
    Option (List (List (Event D)) × List (List (Event D))) :=
  if m.size < 64 then do
    let runs ← (range (2 ^ m.size)).mapM fun mask =>
      let xss := selectedBy mask (m.values.map fun t => t.sort.events)
      if xss = [] then some ([[]], [[]].filter filter)
      else runFrom filter xss (xss.map length).prod (xss.map fun _ => 0)
    some (runs.flatMap Prod.fst, runs.flatMap Prod.snd)
  else none

variable {xss : List (List (Event D))} {is : List ℕ}

omit [DecidableEq D] in
lemma InRange.complete_eq (h : InRange xss is) {subset : List (Event D)}
    (hs : subset.Pairwise fun a b => concurrent a b = true) : complete xss is subset =
      some (if (subset ++ selectAt xss is).Pairwise fun a b => concurrent a b = true then
        some (subset ++ selectAt xss is) else none) := by
  induction h generalizing subset with
  | nil => simp [complete, selectAt, hs]
  | @cons xs i xss is hi h ih =>
    have hselect : subset ++ selectAt (xs :: xss) (i :: is) = subset ++ [xs[i]] ++ selectAt xss is := by
      simp [selectAt, hi]
    rw [hselect, complete, getElem?_eq_getElem hi]
    simp only [bind_eq_bind, bind_some]
    split_ifs with hall hpw hpw
    · rw [ih, if_pos hpw]
      exact (pairwise_append.mp hpw).1
    · rw [ih, if_neg hpw]
      refine pairwise_append.mpr ⟨hs, pairwise_singleton _ _, fun a ha b hb => ?_⟩
      rw [mem_singleton.mp hb]
      exact all_eq_true.mp hall a ha
    · refine absurd (all_eq_true.mpr fun a ha => ?_) hall
      exact (pairwise_append.mp (pairwise_append.mp hpw).1).2.2 a ha _ mem_cons_self
    · rfl

def concurrentOnly (ss : List (List (Event D))) : List (List (Event D)) :=
  ss.filter fun s => s.Pairwise fun a b => concurrent a b = true

omit [DecidableEq D] in
lemma InRange.runFrom_eq (filter : List (Event D) → Bool) (h : InRange xss is) {fuel : ℕ}
    (hfuel : (remaining xss is).length ≤ fuel) : runFrom filter xss fuel is =
      some (concurrentOnly (remaining xss is), (concurrentOnly (remaining xss is)).filter filter) := by
  induction fuel generalizing is with
  | zero => simp [h.remaining_eq] at hfuel
  | succ fuel ih =>
    have hcomplete := h.complete_eq List.Pairwise.nil
    rw [nil_append] at hcomplete
    have hhead : (if (selectAt xss is).Pairwise fun a b => concurrent a b = true then some (selectAt xss is)
        else none).toList = concurrentOnly [selectAt xss is] := by
      unfold concurrentOnly
      split_ifs with hpw <;> simp [hpw]
    have hsplit : ∀ s (ss : List (List (Event D))), concurrentOnly (s :: ss) = concurrentOnly
      [s] ++ concurrentOnly ss :=
      fun s ss => by rw [concurrentOnly, ← singleton_append, filter_append]; rfl
    rw [h.remaining_eq, length_cons] at hfuel
    rw [runFrom, hcomplete, h.remaining_eq]
    simp only [bind_eq_bind, bind_some, hhead]
    cases hadv : Comb.advance is (highest xss) with
    | none => rfl
    | some is' =>
      simp only [hadv, map_some, getD_some] at hfuel ⊢
      rw [ih (h.advance hadv) (by omega), hsplit _ (remaining xss is'), filter_append]
      rfl

lemma length_selectedEvents {α : Type} (xss : List (List α)) : (selectedEvents xss).length = (xss.map length).prod := by
  induction xss with
  | nil => rfl
  | cons xs xss ih => simp [selectedEvents, ih, Nat.mul_comm]

omit [DecidableEq D] in
lemma filtered_eq {m : Comb D} (hne : ∀ t tooth, m.find? t = some tooth → tooth.events ≠ [])
    (filter : List (Event D) → Bool) :
    m.filteredCombinations filter = m.concurrentCombinations.map fun calls => (calls, calls.filter filter) := by
  unfold filteredCombinations concurrentCombinations
  split_ifs
  · have hlen : m.size = (m.values.map fun t => t.sort.events).length := by simp [size, values]
    generalize hteeth : (m.values.map fun t => t.sort.events) = teeth at hlen
    have hpos : ∀ xs ∈ teeth, 0 < xs.length := by
      intro xs hxs
      obtain ⟨tooth, htooth, rfl⟩ := mem_map.mp (hteeth ▸ hxs)
      obtain ⟨t, ht⟩ := mem_values_iff.mp htooth
      rw [(Tooth.sort_perm tooth).length_eq]
      exact length_pos_iff.mpr (hne t tooth ht)
    rw [hlen, ListSearch.mapM_eq_some_map (g := fun mask => (concurrentOnly (selectedEvents (selectedBy mask teeth)),
      (concurrentOnly (selectedEvents (selectedBy mask teeth))).filter filter))]
    · simp only [bind_eq_bind, bind_some, map_some, ← map_selectedBy, flatMap_map, filter_flatMap]
      rfl
    · intro mask _
      dsimp only
      split_ifs with hnil
      · rw [hnil]
        rfl
      · have hrange : InRange (selectedBy mask teeth) ((selectedBy mask teeth).map fun _ => 0) :=
          forall₂_map_right_iff.mpr
            (forall₂_same.mpr fun xs hxs => hpos xs ((selectedBy_sublist mask teeth).subset hxs))
        rw [hrange.runFrom_eq filter (by rw [remaining_zero, length_selectedEvents]), remaining_zero]
  · rfl

end
end Comb

/-! ## Combs of events of one configuration -/

namespace Tooth
variable {D : Type} [DecidableEq D]

def min (t : Tooth D) : Option (Event D) := t.events.head?

def max (t : Tooth D) : Option (Event D) := t.events.getLast?

/-- The first event of an unsorted tooth is its least one, the last event its greatest. -/
structure Framed (t : Tooth D) : Prop where
  sorted : t.sorted = true → t.events.Pairwise (· < ·)
  unsorted : t.sorted = false → ∃ a mid b, t.events = a :: (mid ++ [b]) ∧ 2 ≤ mid.length ∧ mid.Nodup ∧ a < b ∧
    ∀ x ∈ mid, a < x ∧ x < b

section
open List
variable {t : Tooth D} (ht : t.Framed)
include ht

variable {x e : Event D} {l : List (Event D)}

section
omit [DecidableEq D]

lemma Framed.head_lt {a : Event D} (h : t.events = a :: l) (hx : x ∈ l) : a < x := by
  cases hs : t.sorted with
  | true => exact rel_of_pairwise_cons (h ▸ ht.sorted hs) hx
  | false =>
    obtain ⟨a', _, b, hev, -, -, hab, hmid⟩ := ht.unsorted hs
    obtain ⟨rfl, rfl⟩ := cons.inj (h.symm.trans hev)
    rcases mem_append.mp hx with hx | hx
    · exact (hmid x hx).1
    · exact mem_singleton.mp hx ▸ hab

lemma Framed.lt_last {b : Event D} (h : t.events = l ++ [b]) (hx : x ∈ l) : x < b := by
  cases hs : t.sorted with
  | true => exact (pairwise_append.mp (h ▸ ht.sorted hs)).2.2 x hx b mem_cons_self
  | false =>
    obtain ⟨a, _, b', hev, -, -, hab, hmid⟩ := ht.unsorted hs
    obtain ⟨rfl, hb⟩ := append_inj' (h.symm.trans (hev.trans (cons_append ..).symm)) rfl
    obtain rfl := singleton_inj.mp hb
    rcases mem_cons.mp hx with rfl | hx
    · exact hab
    · exact (hmid x hx).2

lemma Framed.nodup : t.events.Nodup := by
  cases hs : t.sorted with
  | true => exact (ht.sorted hs).imp fun h => h.ne
  | false =>
    obtain ⟨a, _, b, hev, -, hmid, -, hbetween⟩ := ht.unsorted hs
    rw [hev, nodup_cons]
    refine ⟨fun ha => lt_irrefl a (ht.head_lt hev ha), ?_⟩
    exact nodup_append_comm.mp (nodup_cons.mpr ⟨fun hb => lt_irrefl b (hbetween b hb).2, hmid⟩)

end

lemma Framed.remove {t' : Tooth D} (h : t.remove e = some t') : t'.Framed := by
  unfold Tooth.remove at h
  split_ifs at h with he hsort hends
  · cases h
    refine ⟨fun _ => ?_, by simp⟩
    cases hs : t.sorted with
    | true => exact (ht.sorted hs).sublist erase_sublist
    | false =>
      obtain ⟨a, mid, b, hev, _, -⟩ := ht.unsorted hs
      simp [hs, hev] at hsort
      omega
  · cases h
    obtain ⟨a, mid, b, hev, _, hnodup, hab, hmid⟩ := ht.unsorted (by simpa using fun h => hsort (.inl h))
    have hea : a ≠ e := fun h => hends.1 (by simp [hev, h])
    have heb : b ≠ e := fun h => hends.2 (by rw [hev, ← cons_append, getLast?_concat, h])
    have hemid : e ∈ mid := by simpa [hev, hea.symm, heb.symm] using he
    have hlen' := length_erase_of_mem hemid
    have herase : t.events.erase e = a :: (mid.erase e ++ [b]) := by
      rw [hev, erase_cons_tail (by simpa using hea), erase_append_left _ hemid]
    refine ⟨fun hs => ?_, fun hs => ⟨a, mid.erase e, b, herase, ?_, hnodup.erase e, hab, fun x hx => ?_⟩⟩
    · -- one event is left between the two ends
      obtain ⟨x, hx⟩ := length_eq_one_iff.mp (show (mid.erase e).length = 1 by simp [hev] at hs; omega)
      obtain ⟨hax, hxb⟩ := hmid x (mem_of_mem_erase (hx ▸ mem_cons_self))
      rw [herase, hx]
      simp [hax, hxb, hab]
    · simp [hev] at hs
      omega
    · exact hmid x (mem_of_mem_erase hx)
  · exact some.inj h ▸ ht

variable {P : Event D → Prop} (hlt : ∀ {a b}, P a → P b → (a.isLessThan b = true ↔ a < b))
  (htotal : ∀ {a b}, P a → P b → a ≠ b → a < b ∨ b < a)
include hlt htotal

lemma Framed.insert (hP : ∀ x ∈ t.events, P x) (he : P e) : (t.insert e).Framed := by
  unfold Tooth.insert
  split
  · rename_i hnil
    refine ⟨fun _ => pairwise_singleton _ _, fun hs => ?_⟩
    obtain ⟨a, mid, b, hev, -⟩ := ht.unsorted hs
    simp [hnil] at hev
  · rename_i front rest hev
    rw [hev] at hP
    have hfront := hP front mem_cons_self
    obtain ⟨l, b, hl⟩ : ∃ l b, front :: rest = l ++ [b] :=
      ⟨_, _, (dropLast_append_getLast (cons_ne_nil front rest)).symm⟩
    have hb : P b := hP b (hl ▸ mem_append_right l mem_cons_self)
    have hlast : (front :: rest).getLast (cons_ne_nil _ _) = b := by simp [hl]
    rw [hlast]
    split_ifs with h1 h2 h3
    · have hef := (hlt he hfront).mp h1
      have hlow : ∀ x ∈ front :: rest, e < x := forall_mem_cons.mpr ⟨hef, fun x hx => hef.trans (ht.head_lt hev hx)⟩
      refine ⟨fun hs => pairwise_cons.mpr ⟨hlow, hev ▸ ht.sorted hs⟩, fun hs => ?_⟩
      obtain ⟨a, mid, b, hev', hlen, hnodup, hab, hmid⟩ := ht.unsorted hs
      obtain ⟨rfl, rfl⟩ := cons.inj (hev.symm.trans hev')
      refine ⟨e, front :: mid, b, rfl, Nat.le_succ_of_le hlen, ?_, hlow b (by simp), fun x hx => ⟨hlow x ?_, ?_⟩⟩
      · exact nodup_cons.mpr ⟨fun h => lt_irrefl front (hmid front h).1, hnodup⟩
      · rw [← cons_append]
        exact mem_append_left _ hx
      · exact (mem_cons.mp hx).elim (fun h => h ▸ hab) fun h => (hmid x h).2
    · have hhigh : ∀ x ∈ front :: rest, x < e := by
        intro x hx
        rcases h2 with ⟨rfl, hne⟩ | h2
        · obtain rfl := mem_singleton.mp hx
          exact (htotal he hfront hne.symm).resolve_left fun h => h1 ((hlt he hfront).mpr h)
        · have hbe := (hlt hb he).mp h2
          rcases mem_append.mp (hl ▸ hx) with hx | hx
          · exact (ht.lt_last (hev.trans hl) hx).trans hbe
          · exact mem_singleton.mp hx ▸ hbe
      refine ⟨fun hs => pairwise_append.mpr ⟨hev ▸ ht.sorted hs, pairwise_singleton _ _, fun x hx y hy => ?_⟩,
        fun hs => ?_⟩
      · exact mem_singleton.mp hy ▸ hhigh x hx
      · obtain ⟨a, mid, b, hev', hlen, hnodup, hab, hmid⟩ := ht.unsorted hs
        obtain ⟨rfl, rfl⟩ := cons.inj (hev.symm.trans hev')
        refine ⟨front, mid ++ [b], e, rfl, by simp; omega, ?_, hhigh _ mem_cons_self, fun x hx => ⟨?_, ?_⟩⟩
        · exact nodup_append_comm.mp (nodup_cons.mpr ⟨fun h => lt_irrefl b (hmid b h).2, hnodup⟩)
        · exact ht.head_lt hev hx
        · exact hhigh x (mem_cons_of_mem front hx)
    · exact ht
    · -- the event goes between the first and the last one
      cases l with
      | nil =>
        obtain ⟨rfl, rfl⟩ := cons.inj hl
        exact absurd (.inl ⟨rfl, fun h => h3 (h ▸ mem_cons_self)⟩) h2
      | cons a mid =>
        rw [cons_append] at hl
        obtain ⟨rfl, rfl⟩ := cons.inj hl
        have hne : ∀ x ∈ front :: (mid ++ [b]), x ≠ e := fun x hx h => h3 (h ▸ hx)
        have hae := (htotal he hfront (hne front mem_cons_self).symm).resolve_left fun h => h1 ((hlt he hfront).mpr h)
        have heb := (htotal hb he (hne b (by simp))).resolve_left fun h => h2 (.inr ((hlt hb he).mpr h))
        have hmid : ∀ x ∈ mid, front < x ∧ x < b := fun x hx =>
          ⟨ht.head_lt hev (mem_append_left _ hx), ht.lt_last (hev.trans (cons_append ..).symm)
            (mem_cons_of_mem front hx)⟩
        have heq : (front :: (mid ++ [b])).dropLast ++ [e, b] = front :: ((mid ++ [e]) ++ [b]) := by
          rw [← cons_append, dropLast_concat]
          simp
        rw [heq]
        refine ⟨fun hs => ?_, fun hs => ⟨front, mid ++ [e], b, rfl, ?_, ?_, hae.trans heb, ?_⟩⟩
        · simp only [Bool.and_eq_true] at hs
          obtain rfl : mid = [] := by simpa using hs.2
          simp [hae, heb, hae.trans heb]
        · rcases Bool.and_eq_false_iff.mp hs with hs | hs
          · obtain ⟨a', _, b', hev', hlen, -⟩ := ht.unsorted hs
            have := congrArg length (hev.symm.trans hev')
            simp at this ⊢
            omega
          · simpa [Nat.one_le_iff_ne_zero] using hs
        · refine nodup_append_comm.mp (nodup_cons.mpr ⟨fun h => h3 (mem_cons_of_mem front (mem_append_left _ h)), ?_⟩)
          exact ht.nodup.sublist (hev ▸ (sublist_append_left mid [b]).trans (sublist_cons_self front _))
        · intro x hx
          rcases mem_append.mp hx with hx | hx
          · exact hmid x hx
          · exact mem_singleton.mp hx ▸ ⟨hae, heb⟩

omit ht [DecidableEq D] in
lemma pairwise_insertionSort (hl : l.Nodup) (hP : ∀ x ∈ l, P x) :
    (l.insertionSort fun a b => a.isLessThan b = true).Pairwise (· < ·) := by
  have hinsert : ∀ {e l}, (e :: l).Nodup → (∀ x ∈ e :: l, P x) → l.Pairwise (· < ·) →
      (l.orderedInsert (fun a b => a.isLessThan b = true) e).Pairwise (· < ·) := by
    intro e l
    induction l with
    | nil => exact fun _ _ _ => pairwise_singleton _ _
    | cons b l ih =>
      intro hnodup hP hl
      obtain ⟨he, hbl⟩ := nodup_cons.mp hnodup
      obtain ⟨hb, hl⟩ := pairwise_cons.mp hl
      have hPe := hP e mem_cons_self
      have hPb := hP b (mem_cons_of_mem e mem_cons_self)
      rw [orderedInsert_cons]
      split_ifs with heb
      · rw [hlt hPe hPb] at heb
        exact pairwise_cons.mpr ⟨fun x hx => (mem_cons.mp hx).elim (fun h => h ▸ heb) fun hx => heb.trans (hb x hx),
          pairwise_cons.mpr ⟨hb, hl⟩⟩
      · have hbe : b < e :=
          (htotal hPe hPb fun h => he (h ▸ mem_cons_self)).resolve_left fun h => heb ((hlt hPe hPb).mpr h)
        refine pairwise_cons.mpr ⟨fun x hx => ?_, ih ?_ ?_ hl⟩
        · exact ((mem_orderedInsert _).mp hx).elim (fun h => h ▸ hbe) (hb x)
        · exact nodup_cons.mpr ⟨fun h => he (mem_cons_of_mem b h), (nodup_cons.mp hbl).2⟩
        · exact fun x hx => hP x (by grind)
  induction l with
  | nil => exact .nil
  | cons e l ih =>
    have hperm := perm_insertionSort (fun a b : Event D => a.isLessThan b = true) l
    exact hinsert ((hperm.cons e).nodup_iff.mpr hl) (fun x hx => hP x ((hperm.cons e).mem_iff.mp hx))
      (ih (nodup_cons.mp hl).2 fun x hx => hP x (mem_cons_of_mem e hx))

omit [DecidableEq D] in
lemma Framed.sort (hP : ∀ x ∈ t.events, P x) : t.sort.Framed := by
  unfold Tooth.sort
  split_ifs
  · exact ht
  · exact ⟨fun _ => pairwise_insertionSort hlt htotal ht.nodup hP, by simp⟩

end
end Tooth

namespace Comb
open List
variable {D : Type} [DecidableEq D]

inductive BuiltFrom (C : Configuration D) : Comb D → Prop
  | empty : BuiltFrom C empty
  | insert {m : Comb D} {e : Event D} (hm : BuiltFrom C m) (he : e ∈ C) : BuiltFrom C (m.insert e)
  | remove {m m' : Comb D} {e : Event D} (hm : BuiltFrom C m) (h : m.remove e = some m') : BuiltFrom C m'
  | sort {m : Comb D} (hm : BuiltFrom C m) : BuiltFrom C m.sort

def Filled (C : Configuration D) (m : Comb D) : Prop := ∀ t tooth, m.find? t = some tooth →
  tooth.Framed ∧ tooth.events ≠ [] ∧ ∀ x ∈ tooth.events, x.tid = t ∧ x ∈ C

lemma BuiltFrom.filled {C : Configuration D} (hC : C.WellFormed) {m : Comb D} (h : m.BuiltFrom C) : m.Filled C := by
  have hlt : ∀ {t : ThreadId} {a b : Event D}, a.tid = t ∧ a ∈ C → b.tid = t ∧ b ∈ C →
      (a.isLessThan b = true ↔ a < b) := fun ha hb => hC.isLessThan_iff ha.2 hb.2
  have htotal : ∀ {t : ThreadId} {a b : Event D}, a.tid = t ∧ a ∈ C → b.tid = t ∧ b ∈ C → a ≠ b → a < b ∨ b < a :=
    fun ha hb hne => (hC.le_total ha.2 hb.2 (ha.1.trans hb.1.symm)).imp (lt_of_le_of_ne · hne)
      (lt_of_le_of_ne · hne.symm)
  induction h with
  | empty => exact fun t tooth ht => by simp at ht
  | @insert m e _ he ih =>
    have hold : ((m.find? e.tid).getD Tooth.empty).Framed ∧
        ∀ x ∈ ((m.find? e.tid).getD Tooth.empty).events, x.tid = e.tid ∧ x ∈ C := by
      cases ht : m.find? e.tid with
      | none => exact ⟨⟨fun _ => .nil, by simp [Tooth.empty]⟩, by simp [Tooth.empty]⟩
      | some tooth => exact ⟨(ih _ _ ht).1, (ih _ _ ht).2.2⟩
    intro t tooth ht
    rw [Comb.insert, find?_insert] at ht
    split_ifs at ht with htid
    · cases ht
      refine ⟨hold.1.insert hlt htotal hold.2 ⟨rfl, he⟩, ne_nil_of_mem
        (Tooth.mem_insert.mpr (.inl rfl)), fun x hx => ?_⟩
      rcases Tooth.mem_insert.mp hx with rfl | hx
      · exact ⟨htid, he⟩
      · exact ⟨(hold.2 x hx).1.trans htid, (hold.2 x hx).2⟩
    · exact ih t tooth ht
  | @remove m m' e _ h ih =>
    intro t tooth ht
    unfold Comb.remove at h
    split at h
    · cases h
      exact ih t tooth ht
    · rename_i old hold
      obtain ⟨_, hnew, rfl⟩ := map_eq_some_iff.mp h
      have hevents := Tooth.events_remove hnew
      split_ifs at ht with hempty
      · rw [find?_erase] at ht
        split_ifs at ht
        exact ih t tooth ht
      · rw [find?_insert] at ht
        split_ifs at ht with htid
        · cases ht
          refine ⟨(ih _ _ hold).1.remove hnew, by simpa using hempty, fun x hx => ?_⟩
          exact htid ▸ (ih _ _ hold).2.2 x (mem_of_mem_erase (hevents ▸ hx))
        · exact ih t tooth ht
  | @sort m _ ih =>
    intro t tooth ht
    rw [Comb.sort, find?_mapValues] at ht
    obtain ⟨old, hold, rfl⟩ := map_eq_some_iff.mp ht
    obtain ⟨hframed, hne, hmem⟩ := ih t old hold
    have hperm := Tooth.sort_perm old
    exact ⟨hframed.sort hlt htotal hmem, fun h => hne (nil_perm.mp (h ▸ hperm)),
      fun x hx => hmem x (hperm.mem_iff.mp hx)⟩

lemma nodup_combinations {α : Type} {xss : List (List α)} (hd : xss.Pairwise List.Disjoint)
    (hn : ∀ xs ∈ xss, xs.Nodup) : (combinations xss).Nodup := by
  induction xss with
  | nil => simp [combinations, selectedThreads, selectedEvents]
  | cons xs xss ih =>
    obtain ⟨hxs, hd⟩ := pairwise_cons.mp hd
    have hrest := ih hd fun ys hys => hn ys (mem_cons_of_mem xs hys)
    rw [(combinations_cons_perm xs xss).nodup_iff, nodup_append']
    refine ⟨hrest, nodup_flatMap.mpr ⟨fun s _ => ?_, ?_⟩, fun s hs hs' => ?_⟩
    · exact (hn xs mem_cons_self).map fun a b hab => (cons.inj hab).1
    · refine hrest.imp fun hne s hs hs' => hne ?_
      obtain ⟨x, -, rfl⟩ := mem_map.mp hs
      obtain ⟨y, -, h⟩ := mem_map.mp hs'
      exact (cons.inj h).2.symm
    · obtain ⟨s', -, hs'⟩ := mem_flatMap.mp hs'
      obtain ⟨x, hx, rfl⟩ := mem_map.mp hs'
      obtain ⟨ys, hys, hxy⟩ := mem_flatten.mp ((sublist_of_combinations hs).subset mem_cons_self)
      exact hxs ys hys hx hxy

lemma Filled.keyed {C : Configuration D} {m : Comb D} (hm : m.Filled C) : m.Keyed :=
  fun t tooth ht x hx => ((hm t tooth ht).2.2 x hx).1

lemma Filled.teeth {C : Configuration D} {m : Comb D} (hm : m.Filled C) :
    (∀ xs ∈ m.values.map fun t => t.sort.events, xs.Nodup) ∧
      (m.values.map fun t => t.sort.events).Pairwise List.Disjoint := by
  refine ⟨fun xs hxs => ?_, hm.keyed.disjoint_teeth⟩
  obtain ⟨tooth, htooth, rfl⟩ := mem_map.mp hxs
  obtain ⟨t, ht⟩ := mem_values_iff.mp htooth
  exact (Tooth.sort_perm tooth).nodup_iff.mpr (hm t tooth ht).1.nodup

lemma nodup_calls {C : Configuration D} {m : Comb D} (hm : m.Filled C) {calls : List (List (Event D))}
    (h : m.concurrentCombinations = some calls) : (calls.map List.toFinset).Nodup := by
  unfold concurrentCombinations at h
  split_ifs at h
  cases h
  obtain ⟨hteeth, hdisjoint⟩ := hm.teeth
  have hflat := nodup_flatten.mpr ⟨hteeth, hdisjoint⟩
  -- a combination keeps the order of the teeth, so its elements determine it
  have hfilter : ∀ S ∈ combinations (m.values.map fun t => t.sort.events),
      ((m.values.map fun t => t.sort.events).flatten.filter (· ∈ S)) = S := by
    intro S hS
    have hsub := (sublist_of_combinations hS).filter (· ∈ S)
    rw [filter_eq_self.mpr (by simp)] at hsub
    exact (hsub.eq_of_length_le ((hflat.filter _).subperm fun x hx => by simpa using
      (List.mem_filter.mp hx).2).length_le).symm
  refine Nodup.map_on (fun S hS S' hS' heq => ?_) ((nodup_combinations hdisjoint hteeth).filter _)
  rw [← hfilter S (List.mem_filter.mp hS).1, ← hfilter S' (List.mem_filter.mp hS').1]
  have hiff : ∀ x, x ∈ S ↔ x ∈ S' := fun x => by rw [← List.mem_toFinset, heq, List.mem_toFinset]
  simp [hiff]

/-- The filter is called once with each set of pairwise concurrent events; those it accepts are returned. -/
theorem BuiltFrom.filteredCombinations_exact {C : Configuration D}
    (hC : Configuration.Reachable Configuration.anyOp C) {m : Comb D}
    (hm : m.BuiltFrom C) (hsize : m.size < 64) (filter : List (Event D) → Bool) :
    ∃ calls, m.filteredCombinations filter = some (calls, calls.filter filter) ∧ (∀ S ∈ calls, S.Nodup) ∧
      (calls.map List.toFinset).Nodup ∧ ∀ S : Finset (Event D), S ∈ calls.map List.toFinset ↔
        (∀ x ∈ S, x ∈ m.events) ∧ ∀ a ∈ S, ∀ b ∈ S, ¬ a < b := by
  have hW := hC.wellFormed
  have hfilled := hm.filled hW
  have hkeyed := hfilled.keyed
  have hmemC : ∀ {x}, x ∈ m.events → x ∈ C := fun hx =>
    have ⟨t, tooth, ht, hx⟩ := mem_events.mp hx
    ((hfilled t tooth ht).2.2 _ hx).2
  obtain ⟨calls, hcalls⟩ : ∃ calls, m.concurrentCombinations = some calls := ⟨_, if_pos hsize⟩
  have hmem : ∀ {M}, M ∈ calls → (∀ x ∈ M, x ∈ m.events) ∧ ∀ a ∈ M, ∀ b ∈ M, ¬ a < b := by
    intro M hM
    have hevents := (mem_of_mem_combinations hcalls hM).1
    refine ⟨hevents, not_lt_of_mem_combinations hcalls hM fun a ha b hb => ?_⟩
    exact hW.isLessThan_iff (hmemC (hevents a ha)) (hmemC (hevents b hb))
  refine ⟨calls, ?_, fun S hS => nodup_of_concurrent hkeyed hcalls hS, ?_, fun S => ⟨?_, ?_⟩⟩
  · rw [filtered_eq fun t tooth ht => (hfilled t tooth ht).2.1, hcalls]
    rfl
  · exact nodup_calls hfilled hcalls
  · intro hS
    obtain ⟨M, hM, rfl⟩ := mem_map.mp hS
    simpa using hmem hM
  · rintro ⟨hevents, hS⟩
    have hSC : ∀ {x}, x ∈ S → x ∈ C := fun hx => hmemC (hevents _ hx)
    obtain ⟨M, hM, hmemM⟩ := exists_mem_concurrent hkeyed hcalls hS
      (fun ha _ hb => hW.isLessThan_iff (hSC ha) (hSC hb)) fun ha _ hb => hW.le_total (hSC ha) (hSC hb)
    refine mem_map.mpr ⟨M, hM, Finset.ext fun x => ?_⟩
    rw [List.mem_toFinset, hmemM]
    exact ⟨fun h => h.2, fun h => ⟨hevents x h, h⟩⟩

def lockedApart : Configuration Unit := Configuration.after [.createThread .main worker,
  .initThread worker .main, .acquireLock worker 1, .acquireLock .main 2]

def lastOf (t : ThreadId) : Event Unit := (lockedApart.lastOfTid t).getD .programInit

/-- The creation of the worker, its acquisition and one of the main thread. -/
def threeEvents : Comb Unit :=
  insert (insert (insert empty Configuration.forkedCreate) (lastOf worker)) (lastOf .main)

/-- The acquisitions are concurrent, and the filter is called with both of them. -/
theorem BuiltFrom.filteredCombinations_exact_threeEvents :
    ∃ calls, threeEvents.filteredCombinations (fun _ => true) =
        some (calls, calls.filter fun _ => true) ∧
      {lastOf worker, lastOf .main} ∈ calls.map List.toFinset ∧
      {Configuration.forkedCreate, lastOf .main} ∉ calls.map List.toFinset := by
  have hC : Configuration.Reachable Configuration.anyOp lockedApart := Configuration.reachable_after _
  have hmem : Configuration.forkedCreate ∈ lockedApart ∧ lastOf worker ∈ lockedApart ∧
    lastOf .main ∈ lockedApart := by decide
  obtain ⟨calls, hcalls, -, -, hiff⟩ := BuiltFrom.filteredCombinations_exact hC
    (.insert (.insert (.insert .empty hmem.1) hmem.2.1) hmem.2.2) (by decide) fun _ => true
  have hlt := fun {a b} => hC.wellFormed.isLessThan_iff (a := a) (b := b)
  refine ⟨calls, hcalls, (hiff _).mpr ⟨by decide, ?_⟩, fun h => ?_⟩
  · have hnot : ∀ a ∈ [lastOf worker, lastOf .main], ∀ b ∈ [lastOf worker, lastOf .main],
      a ∈ lockedApart ∧ b ∈ lockedApart ∧ a.isLessThan b = false := by decide
    intro a ha b hb hab
    obtain ⟨haC, hbC, hfalse⟩ := hnot a (by simpa using ha) b (by simpa using hb)
    simp [(hlt haC hbC).mpr hab] at hfalse
  · exact ((hiff _).mp h).2 _ (by simp) _ (by simp) ((hlt hmem.1 hmem.2.2).mp (by decide))

/-! ## Inserting and removing -/

/-- A comb that `insert` and `remove` made, with the events it has to hold. Only these are removed. -/
inductive Holds (C : Configuration D) : Comb D → Finset (Event D) → Prop
  | empty : Holds C empty ∅
  | insert {m : Comb D} {S : Finset (Event D)} {e : Event D} (h : Holds C m S) (he : e ∈ C) :
    Holds C (m.insert e) (Insert.insert e S)
  | remove {m m' : Comb D} {S : Finset (Event D)} {e : Event D} (h : Holds C m S) (he : e ∈ S)
    (hm : m.remove e = some m') : Holds C m' (S.erase e)

variable {C : Configuration D} {m : Comb D} {S : Finset (Event D)}

lemma Holds.builtFrom (h : m.Holds C S) : m.BuiltFrom C := by
  induction h with
  | empty => exact .empty
  | insert _ he ih => exact ih.insert he
  | remove _ _ hm ih => exact ih.remove hm

lemma Filled.nodup_events (h : m.Filled C) : m.events.Nodup := by
  have hperm : (m.values.map fun t => t.sort.events).flatten.Perm m.events := by
    rw [← flatMap_def]
    exact List.Perm.flatMap_left _ fun t _ => Tooth.sort_perm t
  exact hperm.nodup_iff.mp (nodup_flatten.mpr h.teeth)

lemma Holds.mem_events_iff (hC : C.WellFormed) (h : m.Holds C S) {x : Event D} : x ∈ m.events ↔ x ∈ S := by
  induction h with
  | empty => simp [mem_events]
  | insert _ _ ih => rw [mem_insert, Finset.mem_insert, ih]
  | remove h _ hm ih =>
    have hfilled := h.builtFrom.filled hC
    rw [(hfilled.keyed.remove_perm hm).mem_iff, hfilled.nodup_events.mem_erase_iff, Finset.mem_erase, ih]

/-- Each tooth has the events of its thread, the least first and the greatest last. A removal goes wrong exactly
if it takes one of these two out of an unsorted tooth of more than three events. -/
theorem Holds.teeth_exact (hC : Configuration.Reachable Configuration.anyOp C) (h : m.Holds C S) :
    (∀ t, m.find? t = none ↔ ∀ x ∈ S, x.tid ≠ t) ∧
    (∀ t tooth, m.find? t = some tooth → tooth.events.Nodup ∧ (∀ x, x ∈ tooth.events ↔ x ∈ S ∧ x.tid = t) ∧
      ∃ a b, tooth.min = some a ∧ tooth.max = some b ∧ ∀ x ∈ tooth.events, a.depth ≤ x.depth ∧ x.depth ≤ b.depth) ∧
    ∀ e ∈ S, ∀ tooth, m.find? e.tid = some tooth → ((m.remove e).isSome ↔
      tooth.sorted = true ∨ tooth.events.length ≤ 3 ∨ tooth.min ≠ some e ∧ tooth.max ≠ some e) := by
  have hW := hC.wellFormed
  have hfilled := h.builtFrom.filled hW
  have hkeyed := hfilled.keyed
  have hmem : ∀ {t tooth x}, m.find? t = some tooth → (x ∈ tooth.events ↔ x ∈ S ∧ x.tid = t) := by
    intro t tooth x ht
    rw [← h.mem_events_iff hW, mem_events]
    refine ⟨fun hx => ⟨⟨t, tooth, ht, hx⟩, hkeyed t tooth ht x hx⟩, ?_⟩
    rintro ⟨⟨t', tooth', ht', hx⟩, rfl⟩
    rw [← hkeyed t' tooth' ht' x hx, ht] at ht'
    exact some.inj ht' ▸ hx
  refine ⟨fun t => ?_, fun t tooth ht => ?_, fun e he tooth ht => ?_⟩
  · cases ht : m.find? t with
    | none =>
      refine iff_of_true rfl fun x hx htid => ?_
      obtain ⟨t', tooth, ht', hx⟩ := mem_events.mp ((h.mem_events_iff hW).mpr hx)
      rw [← hkeyed t' tooth ht' x hx, htid, ht] at ht'
      cases ht'
    | some tooth =>
      obtain ⟨x, hx⟩ := exists_mem_of_ne_nil _ (hfilled t tooth ht).2.1
      obtain ⟨hx, htid⟩ := (hmem ht).mp hx
      exact iff_of_false (some_ne_none tooth) fun hnone => hnone x hx htid
  · obtain ⟨hframed, hne, -⟩ := hfilled t tooth ht
    obtain ⟨a, l, ha⟩ := exists_cons_of_ne_nil hne
    obtain ⟨l', b, hb⟩ := (eq_nil_or_concat' tooth.events).resolve_left hne
    refine ⟨hframed.nodup, fun x => hmem ht, a, b, by rw [Tooth.min, ha]; rfl, by rw [Tooth.max, hb, getLast?_concat],
      fun x hx => ⟨?_, ?_⟩⟩
    · obtain rfl | hx := mem_cons.mp (ha ▸ hx)
      · exact le_rfl
      · exact (Event.depth_lt_depth (hframed.head_lt ha hx)).le
    · obtain hx | hx := mem_append.mp (hb ▸ hx)
      · exact (Event.depth_lt_depth (hframed.lt_last hb hx)).le
      · rw [mem_singleton.mp hx]
  · have hin := (hmem ht).mpr ⟨he, rfl⟩
    rw [Comb.remove, ht]
    simp only [isSome_map, Tooth.remove, if_pos hin]
    split_ifs with hsort hends
    · exact iff_of_true rfl (hsort.imp_right .inl)
    · exact iff_of_true rfl (.inr (.inr hends))
    · exact iff_of_false Bool.false_ne_true fun h => (or_assoc.mpr h).elim hsort hends

def creations : Configuration Unit :=
  .after [.createThread .main worker, .createThread .main worker2, .createThread .main worker3]

def fromLast : ℕ → Event Unit
  | 0 => (creations.lastOfTid .main).getD .programInit
  | n + 1 => (fromLast n).threadPredecessor.getD .programInit

def unordered : Comb Unit := insert (insert (insert (insert empty (fromLast 3)) (fromLast 0)) (fromLast 1)) (fromLast 2)

lemma holds_unordered : ∃ S, unordered.Holds creations S ∧ fromLast 1 ∈ S ∧ fromLast 3 ∈ S := by
  refine ⟨_, .insert (.insert (.insert (.insert .empty ?_) ?_) ?_) ?_, ?_, ?_⟩ <;> decide

theorem Holds.teeth_exact_unordered : (unordered.remove (fromLast 1)).isSome := by
  obtain ⟨S, hS, hmem, -⟩ := holds_unordered
  refine ((Holds.teeth_exact (Configuration.reachable_after _) hS).2.2 _ hmem _ rfl).mpr (.inr (.inr ?_))
  decide

/-- The first of four events is removed from a tooth that is not sorted. -/
theorem Holds.remove_first : ∃ S, Configuration.Reachable Configuration.anyOp creations ∧ unordered.Holds creations S ∧
    fromLast 3 ∈ S ∧ unordered.remove (fromLast 3) = none := by
  obtain ⟨S, hS, -, hmem⟩ := holds_unordered
  exact ⟨S, Configuration.reachable_after _, hS, hmem, by decide⟩

end Comb
end Por
