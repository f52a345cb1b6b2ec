import Mathlib

/-! Facts about lists: searches along a sorted list, replacing one element, maximal
elements, maps that can fail. -/

namespace ListSearch
open List Function
variable {α β : Type*}

section
variable {q : α → Bool} {R : α → α → Prop} {xs : List α}

variable {x a b : α}

section
variable (hs : xs.Pairwise R) (hq : ∀ {a b}, a ∈ xs → b ∈ xs → R a b → q b = true → q a = true)
include hs hq

lemma eq_false_of_mem_dropWhile (hx : x ∈ xs.dropWhile q) : q x = false := by
  induction xs with
  | nil => cases hx
  | cons a as ih =>
    obtain ⟨ha, has⟩ := pairwise_cons.mp hs
    by_cases hqa : q a = true
    · rw [dropWhile_cons_of_pos hqa] at hx
      exact ih has (fun hb hc => hq (mem_cons_of_mem a hb) (mem_cons_of_mem a hc)) hx
    · rw [dropWhile_cons_of_neg hqa] at hx
      rcases mem_cons.mp hx with rfl | hx
      · exact Bool.eq_false_iff.mpr hqa
      · exact Bool.eq_false_iff.mpr fun hqx => hqa (hq mem_cons_self (mem_cons_of_mem a hx) (ha x hx) hqx)

lemma mem_takeWhile_iff : x ∈ xs.takeWhile q ↔ x ∈ xs ∧ q x = true := by
  refine ⟨fun hx => ⟨(takeWhile_sublist q).subset hx, mem_takeWhile_imp hx⟩, fun ⟨hx, hqx⟩ => ?_⟩
  rw [← takeWhile_append_dropWhile (l := xs)] at hx
  refine (mem_append.mp hx).resolve_right fun hx => ?_
  simp [eq_false_of_mem_dropWhile hs hq hx] at hqx

end

lemma eq_or_rel_of_find? (hs : xs.Pairwise R) {m : α} (hm : xs.find? q = some m) (hx : x ∈ xs)
    (hqx : q x = true) : x = m ∨ R m x := by
  obtain ⟨-, as, bs, rfl, has⟩ := find?_eq_some_iff_append.mp hm
  rcases mem_append.mp hx with hx | hx
  · simpa [hqx] using has x hx
  · rcases mem_cons.mp hx with rfl | hx
    · exact .inl rfl
    · exact .inr ((pairwise_cons.mp (pairwise_append.mp hs).2.1).1 x hx)

lemma eq_of_countP_eq_one (hq : xs.countP q = 1) {i j : ℕ} (hi : xs[i]? = some a) (ha : q a = true)
    (hj : xs[j]? = some b) (hb : q b = true) : i = j := by
  induction xs generalizing i j with
  | nil => simp at hi
  | cons x xs ih =>
    -- the head is the one that counts, or the tail counts to one
    by_cases hx : q x = true
    · rw [countP_cons_of_pos hx, Nat.add_eq_right, countP_eq_zero] at hq
      cases i with
      | succ i => exact absurd ha (hq a (mem_of_getElem? hi))
      | zero =>
        cases j with
        | zero => rfl
        | succ j => exact absurd hb (hq b (mem_of_getElem? hj))
    · rw [countP_cons_of_neg hx] at hq
      cases i with
      | zero => exact absurd ((Option.some.inj hi) ▸ ha) hx
      | succ i =>
        cases j with
        | zero => exact absurd ((Option.some.inj hj) ▸ hb) hx
        | succ j => rw [ih hq hi hj]

lemma countP_eq_one_of_unique {i : ℕ} (hi : xs[i]? = some a) (ha : q a = true)
    (huniq : ∀ j b, xs[j]? = some b → q b = true → j = i) : xs.countP q = 1 := by
  induction xs generalizing i with
  | nil => simp at hi
  | cons x xs ih =>
    cases i with
    | zero =>
      obtain rfl : x = a := Option.some.inj hi
      rw [countP_cons_of_pos ha, Nat.add_eq_right, countP_eq_zero]
      intro b hb hqb
      obtain ⟨j, hj⟩ := mem_iff_getElem?.mp hb
      exact absurd (huniq (j + 1) b hj hqb) (Nat.succ_ne_zero j)
    | succ i =>
      have hx : ¬ q x = true := fun hx => Nat.succ_ne_zero i (huniq 0 x rfl hx).symm
      rw [countP_cons_of_neg hx]
      exact ih hi fun j b hj hb => Nat.succ.inj (huniq (j + 1) b hj hb)

lemma countP_update [DecidableEq α] (hs : xs.Nodup) {w : α} (hw : w ∈ xs) (hq : q w = false) :
    xs.countP (update q w true) = xs.countP q + 1 := by
  have hperm := perm_cons_erase hw
  have hrest : (xs.erase w).countP (update q w true) = (xs.erase w).countP q :=
    countP_congr fun x hx => by rw [update_of_ne (hs.mem_erase_iff.mp hx).1]
  rw [hperm.countP_eq, hperm.countP_eq, countP_cons_of_pos (update_self w true q),
    countP_cons_of_neg (by simp [hq]), hrest]

lemma rel_or_rel_of_mem (hs : xs.Pairwise R) (ha : a ∈ xs) (hb : b ∈ xs) : a = b ∨ R a b ∨ R b a := by
  obtain ⟨i, hi, rfl⟩ := mem_iff_getElem.mp ha
  obtain ⟨j, hj, rfl⟩ := mem_iff_getElem.mp hb
  have hpw := pairwise_iff_getElem.mp hs
  rcases Nat.lt_trichotomy i j with h | rfl | h
  · exact .inr (.inl (hpw i j hi hj h))
  · exact .inl rfl
  · exact .inr (.inr (hpw j i hj hi h))

lemma mem_take_iff [Std.Asymm R] (hs : xs.Pairwise R) {i : ℕ} {p : α} (hx : xs[i]? = some x) :
    p ∈ xs.take i ↔ p ∈ xs ∧ R p x := by
  obtain ⟨hi, rfl⟩ := List.getElem?_eq_some_iff.mp hx
  have hsplit : xs = xs.take i ++ xs[i] :: xs.drop (i + 1) := by simp
  have hpw := hs
  rw [hsplit, pairwise_append, pairwise_cons] at hpw
  obtain ⟨-, ⟨hafter, -⟩, hbefore⟩ := hpw
  refine ⟨fun hp => ⟨mem_of_mem_take hp, hbefore p hp _ mem_cons_self⟩, ?_⟩
  rintro ⟨hp, hR⟩
  rw [hsplit, mem_append, mem_cons] at hp
  rcases hp with hp | rfl | hp
  · exact hp
  · exact absurd hR (Std.Asymm.asymm _ _ hR)
  · exact absurd (hafter p hp) (Std.Asymm.asymm _ _ hR)

end

section
variable [DecidableEq α] {w e x : α} {xs : List α}

lemma replace_cons_eq_ite (w e a : α) (as : List α) :
    (a :: as).replace w e = if w = a then e :: as else a :: as.replace w e := by
  by_cases h : w = a
  · simp [h]
  · simp [replace_cons, h, beq_eq_false_iff_ne.mpr h]

lemma mem_of_mem_replace (h : x ∈ xs.replace w e) : x ∈ xs ∨ x = e := by
  induction xs with
  | nil => simp at h
  | cons a as ih =>
    rw [replace_cons_eq_ite] at h
    split_ifs at h
    · exact (mem_cons.mp h).symm.imp_left (mem_cons_of_mem a)
    · rcases mem_cons.mp h with rfl | h
      · exact .inl mem_cons_self
      · exact (ih h).imp_left (mem_cons_of_mem a)

lemma mem_replace_iff (hnodup : xs.Nodup) (hw : w ∈ xs) : x ∈ xs.replace w e ↔ x = e ∨ x ∈ xs ∧ x ≠ w := by
  induction xs with
  | nil => simp at hw
  | cons a as ih =>
    obtain ⟨ha, _⟩ := nodup_cons.mp hnodup
    rw [replace_cons_eq_ite]
    split_ifs with haw
    · subst haw
      rw [mem_cons, mem_cons]
      refine or_congr_right ⟨fun h => ⟨.inr h, fun h' => ha (h' ▸ h)⟩, ?_⟩
      rintro ⟨h, hne⟩
      exact h.resolve_left hne
    · have hw : w ∈ as := (mem_cons.mp hw).resolve_left haw
      grind

lemma nodup_replace (hnodup : xs.Nodup) (he : e ∉ xs) : (xs.replace w e).Nodup := by
  induction xs with
  | nil => simp
  | cons a as ih =>
    obtain ⟨ha, has⟩ := nodup_cons.mp hnodup
    rw [mem_cons, not_or] at he
    rw [replace_cons_eq_ite]
    split_ifs
    · exact nodup_cons.mpr ⟨he.2, has⟩
    · refine nodup_cons.mpr ⟨fun h => ?_, ih has he.2⟩
      rcases mem_of_mem_replace h with h | h
      · exact ha h
      · exact he.1 h.symm

lemma filter_replace {q : α → Bool} (hw : q w = false) (he : q e = false) :
    (xs.replace w e).filter q = xs.filter q := by
  induction xs with
  | nil => rfl
  | cons a as ih =>
    rw [replace_cons_eq_ite]
    split_ifs with ha
    · subst ha
      rw [filter_cons_of_neg (by simp [he]), filter_cons_of_neg (by simp [hw])]
    · rw [filter_cons, filter_cons, ih]

end

section

/-- Drops what is below `x` and stops at an element above `x`; the flag says that there was none. -/
def maxStep (lt : α → α → Bool) (x : α) : List α → List α × Bool
  | [] => ([], true)
  | y :: ys =>
    if lt y x then maxStep lt x ys
    else if lt x y then (y :: ys, false)
    else (y :: (maxStep lt x ys).1, (maxStep lt x ys).2)

def maxInsert (lt : α → α → Bool) (result : List α) (x : α) : List α :=
  if (maxStep lt x result).2 then (maxStep lt x result).1 ++ [x] else (maxStep lt x result).1

def maximals (lt : α → α → Bool) (xs : List α) : List α := xs.foldl (maxInsert lt) []

variable {lt : α → α → Bool} {x y : α} {xs ys : List α}

lemma mem_maxStep (h : y ∈ ys) : y ∈ (maxStep lt x ys).1 ∨ lt y x = true := by
  induction ys with
  | nil => simp at h
  | cons z zs ih =>
    rw [maxStep]
    split_ifs with hz hx
    · rcases mem_cons.mp h with rfl | h
      · exact .inr hz
      · exact ih h
    · exact .inl h
    · rcases mem_cons.mp h with rfl | h
      · exact .inl mem_cons_self
      · exact (ih h).imp_left (mem_cons_of_mem z)

lemma maxStep_sublist (lt : α → α → Bool) (x : α) (ys : List α) : (maxStep lt x ys).1.Sublist ys := by
  induction ys with
  | nil => exact List.Sublist.refl []
  | cons z zs ih =>
    rw [maxStep]
    split_ifs
    · exact ih.cons z
    · exact List.Sublist.refl _
    · exact ih.cons_cons z

lemma mem_of_mem_maxStep (h : y ∈ (maxStep lt x ys).1) : y ∈ ys := (maxStep_sublist lt x ys).subset h

lemma incomparable_of_maxStep_eq_true (h : (maxStep lt x ys).2 = true) (hy : y ∈ (maxStep lt x ys).1) :
    lt y x = false ∧ lt x y = false := by
  induction ys with
  | nil => simp [maxStep] at hy
  | cons z zs ih =>
    rw [maxStep] at h hy
    split_ifs at h hy with hz hx
    · exact ih h hy
    · rcases mem_cons.mp hy with rfl | hy
      · exact ⟨Bool.eq_false_iff.mpr hz, Bool.eq_false_iff.mpr hx⟩
      · exact ih h hy

lemma exists_of_maxStep_eq_false (h : (maxStep lt x ys).2 = false) : ∃ z ∈ (maxStep lt x ys).1, lt x z = true := by
  induction ys with
  | nil => simp [maxStep] at h
  | cons z zs ih =>
    rw [maxStep] at h ⊢
    split_ifs at h ⊢ with hz hx
    · exact ih h
    · exact ⟨z, mem_cons_self, hx⟩
    · obtain ⟨v, hv, hxv⟩ := ih h
      exact ⟨v, mem_cons_of_mem z hv, hxv⟩

lemma mem_of_mem_maxInsert (h : y ∈ maxInsert lt ys x) : y ∈ ys ∨ y = x := by
  unfold maxInsert at h
  split_ifs at h
  · rcases mem_append.mp h with h | h
    · exact .inl (mem_of_mem_maxStep h)
    · exact .inr (mem_singleton.mp h)
  · exact .inl (mem_of_mem_maxStep h)

lemma exists_mem_maxInsert (htrans : ∀ {z}, z ∈ ys → lt y x = true → lt x z = true → lt y z = true)
    (h : y ∈ ys ∨ y = x) : ∃ m ∈ maxInsert lt ys x, y = m ∨ lt y m = true := by
  unfold maxInsert
  split_ifs with hflag
  · rcases h with h | rfl
    · rcases mem_maxStep h with h | h
      · exact ⟨y, mem_append_left _ h, .inl rfl⟩
      · exact ⟨x, by simp, .inr h⟩
    · exact ⟨y, by simp, .inl rfl⟩
  · obtain ⟨z, hz, hxz⟩ := exists_of_maxStep_eq_false (by simpa using hflag)
    rcases h with h | rfl
    · rcases mem_maxStep h with h | h
      · exact ⟨y, h, .inl rfl⟩
      · exact ⟨z, hz, .inr (htrans (mem_of_mem_maxStep hz) h hxz)⟩
    · exact ⟨z, hz, .inr hxz⟩

lemma maximals_sublist (lt : α → α → Bool) (xs : List α) : (maximals lt xs).Sublist xs := by
  have hinsert : ∀ ys x, (maxInsert lt ys x).Sublist (ys ++ [x]) := by
    intro ys x
    unfold maxInsert
    split_ifs
    · exact (maxStep_sublist lt x ys).append_right [x]
    · exact (maxStep_sublist lt x ys).trans (sublist_append_left ys [x])
  have key : ∀ xs ys : List α, (xs.foldl (maxInsert lt) ys).Sublist (ys ++ xs) := by
    intro xs
    induction xs with
    | nil => simp
    | cons x xs ih =>
      intro ys
      rw [append_cons]
      exact (ih _).trans ((hinsert ys x).append_right xs)
  exact key xs []

lemma mem_of_mem_maximals (h : y ∈ maximals lt xs) : y ∈ xs := (maximals_sublist lt xs).subset h

lemma pairwise_maximals (lt : α → α → Bool) (xs : List α) :
    (maximals lt xs).Pairwise fun a b => lt a b = false ∧ lt b a = false := by
  have key : ∀ (xs : List α) {ys : List α}, ys.Pairwise (fun a b => lt a b = false ∧ lt b a = false) →
      (xs.foldl (maxInsert lt) ys).Pairwise fun a b => lt a b = false ∧ lt b a = false := by
    intro xs
    induction xs with
    | nil => exact fun h => h
    | cons x xs ih =>
      intro ys hys
      refine ih ?_
      have hstep := hys.sublist (maxStep_sublist lt x ys)
      unfold maxInsert
      split_ifs with hflag
      · refine pairwise_append.mpr ⟨hstep, pairwise_singleton _ _, fun a ha b hb => ?_⟩
        rw [mem_singleton.mp hb]
        exact incomparable_of_maxStep_eq_true hflag ha
      · exact hstep
  exact key xs List.Pairwise.nil

lemma maxInsert_ne_nil : maxInsert lt ys x ≠ [] := by
  unfold maxInsert
  split_ifs with hflag
  · simp
  · obtain ⟨z, hz, -⟩ := exists_of_maxStep_eq_false (by simpa using hflag)
    exact ne_nil_of_mem hz

lemma maximals_ne_nil (h : xs ≠ []) : maximals lt xs ≠ [] := by
  have key : ∀ {xs ys : List α}, ys ≠ [] → xs.foldl (maxInsert lt) ys ≠ [] := by
    intro xs
    induction xs with
    | nil => exact fun h => h
    | cons x xs ih => exact fun _ => ih maxInsert_ne_nil
  cases xs with
  | nil => exact absurd rfl h
  | cons x xs =>
    rw [maximals, foldl_cons]
    exact key maxInsert_ne_nil

lemma exists_mem_maximals (htrans : ∀ {a b c}, a ∈ xs → b ∈ xs → c ∈ xs → lt a b = true → lt b c = true → lt a c = true)
    (h : y ∈ xs) : ∃ m ∈ maximals lt xs, y = m ∨ lt y m = true := by
  have key : ∀ {zs ys : List α}, zs ⊆ xs → ys ⊆ xs → (y ∈ zs ∨ ∃ m ∈ ys, y = m ∨ lt y m = true) →
      ∃ m ∈ zs.foldl (maxInsert lt) ys, y = m ∨ lt y m = true := by
    intro zs
    induction zs with
    | nil => exact fun _ _ h => h.resolve_left (by simp)
    | cons z zs ih =>
      intro ys hzs hys hcov
      have hz : z ∈ xs := hzs mem_cons_self
      refine ih (fun a ha => hzs (mem_cons_of_mem z ha)) (fun a ha => ?_) ?_
      · rcases mem_of_mem_maxInsert ha with ha | rfl
        · exact hys ha
        · exact hz
      · rcases hcov with hcov | ⟨m, hm, hym⟩
        · rcases mem_cons.mp hcov with rfl | hcov
          · exact .inr (exists_mem_maxInsert (fun hc => htrans h hz (hys hc)) (.inr rfl))
          · exact .inl hcov
        · have hmx := hys hm
          obtain ⟨m', hm', hmm'⟩ := exists_mem_maxInsert (fun hc => htrans hmx hz (hys hc)) (.inl hm)
          have hm'x : m' ∈ xs := by
            rcases mem_of_mem_maxInsert hm' with ha | rfl
            · exact hys ha
            · exact hz
          refine .inr ⟨m', hm', ?_⟩
          rcases hym with rfl | hym
          · exact hmm'
          · rcases hmm' with rfl | hmm'
            · exact .inr hym
            · exact .inr (htrans h hmx hm'x hym hmm')
  exact key (List.Subset.refl xs) (by simp) (.inl h)

end

variable {f : α → Option β} {xs pre : List α} {ys : List β} {g val : α → β} {x a : α} {κ : Type*} {hits : α → Bool}
  {k : κ}

lemma mapM_eq_some_iff : xs.mapM f = some ys ↔ xs.map f = ys.map some := by
  induction xs generalizing ys with
  | nil =>
    cases ys <;> simp
  | cons x xs ih =>
    rw [mapM_cons]
    simp only [Option.bind_eq_bind, Option.bind_eq_some_iff, pure, Option.some.injEq, ih]
    constructor
    · rintro ⟨y, hy, zs, hzs, rfl⟩
      simp [hy, hzs]
    · intro h
      cases ys with
      | nil => simp at h
      | cons y zs =>
        injection h with hy hzs
        exact ⟨y, hy, zs, hzs, rfl⟩

lemma mapM_eq_some_map (h : ∀ x ∈ xs, f x = some (g x)) : xs.mapM f = some (xs.map g) := by
  rw [mapM_eq_some_iff, map_map]
  exact map_congr_left h

lemma mapM_eq_ok_map {ε : Type*} {f : α → Except ε β} (h : ∀ x ∈ xs, f x = .ok (g x)) : xs.mapM f = .ok (xs.map g) := by
  induction xs with
  | nil => rfl
  | cons x xs ih =>
    rw [mapM_cons, h x mem_cons_self, ih fun y hy => h y (mem_cons_of_mem x hy)]
    rfl

lemma exists_mapM_eq_some (h : ∀ x ∈ xs, ∃ y, f x = some y) : ∃ ys, xs.mapM f = some ys := by
  induction xs with
  | nil => exact ⟨[], rfl⟩
  | cons x xs ih =>
    obtain ⟨y, hy⟩ := h x mem_cons_self
    obtain ⟨ys, hys⟩ := ih fun x' hx' => h x' (mem_cons_of_mem x hx')
    exact ⟨y :: ys, by rw [mapM_cons, hy, hys]; rfl⟩

lemma mem_of_mapM (h : xs.mapM f = some ys) {y : β} : y ∈ ys ↔ ∃ x ∈ xs, f x = some y := by
  rw [mapM_eq_some_iff] at h
  constructor
  · intro hy
    have : some y ∈ ys.map some := mem_map_of_mem hy
    rw [← h] at this
    exact mem_map.mp this
  · rintro ⟨x, hx, hy⟩
    have : some y ∈ xs.map f := mem_map.mpr ⟨x, hx, hy⟩
    rw [h] at this
    simpa using this

lemma mem_flatten_of_mapM {f : α → Option (List β)} {yss : List (List β)} (h : xs.mapM f = some yss) {y : β} :
    y ∈ yss.flatten ↔ ∃ x ∈ xs, ∃ ys, f x = some ys ∧ y ∈ ys := by
  simp only [mem_flatten, mem_of_mapM h]
  exact ⟨fun ⟨ys, ⟨x, hx, hys⟩, hy⟩ => ⟨x, hx, ys, hys, hy⟩, fun ⟨x, hx, ys, hys, hy⟩ => ⟨ys, ⟨x, hx, hys⟩, hy⟩⟩

lemma exists_of_mapM (h : xs.mapM f = some ys) (hx : x ∈ xs) : ∃ y ∈ ys, f x = some y := by
  have hmem : f x ∈ ys.map some := mapM_eq_some_iff.mp h ▸ mem_map_of_mem hx
  obtain ⟨y, hy, hxy⟩ := mem_map.mp hmem
  exact ⟨y, hy, hxy.symm⟩

/-! ## Writes

A list of writes to the cells of a function, the last one in front. -/

lemma foldr_write_apply {write : α → (κ → β) → κ → β} (h : ∀ x m, write x m k = if hits x then val x else m k)
    (xs : List α) (m : κ → β) : xs.foldr write m k = (xs.find? hits).elim (m k) val := by
  induction xs with
  | nil => rfl
  | cons x xs ih =>
    rw [foldr_cons, h, find?_cons]
    cases hits x with
    | false => exact ih
    | true => rfl

lemma getElem?_length_takeWhile (q : α → Bool) (xs : List α) :
    (∀ n < (xs.takeWhile q).length, ∃ x, xs[n]? = some x ∧ q x = true) ∧
      ∀ x, xs[(xs.takeWhile q).length]? = some x → q x = false := by
  induction xs with
  | nil => simp
  | cons y xs ih =>
    cases hy : q y with
    | false => simp [hy]
    | true =>
      rw [takeWhile_cons_of_pos hy, length_cons]
      refine ⟨fun n hn => ?_, fun x hx => ih.2 x (by simpa using hx)⟩
      cases n with
      | zero => exact ⟨y, rfl, hy⟩
      | succ n => simpa using ih.1 n (by omega)

lemma sublist_of_cons_sublist_append {l post : List α} (h : (a :: l).Sublist (pre ++ a :: post)) (ha : a ∉ pre) :
    l.Sublist post := by
  induction pre with
  | nil => exact cons_sublist_cons.mp h
  | cons x pre ih =>
    rcases sublist_cons_iff.mp h with h | ⟨r, hr, -⟩
    · exact ih h fun hm => ha (mem_cons_of_mem x hm)
    · exact absurd (mem_cons.mpr (.inl (cons.inj hr).1)) ha

lemma eq_of_flatMap_eq [DecidableEq κ] {f f' : κ → List α} {ks : List κ} (hne : ∀ j, j ≠ k → f j = f' j)
    (hk : k ∈ ks) (h : ks.flatMap f = ks.flatMap f') : f k = f' k := by
  have hcount : ∀ ks : List κ, (ks.flatMap f).length + ks.count k * (f' k).length =
      (ks.flatMap f').length + ks.count k * (f k).length := by
    intro ks
    induction ks with
    | nil => simp
    | cons j ks ih =>
      rw [flatMap_cons, flatMap_cons, length_append, length_append]
      by_cases hj : j = k
      · subst hj
        rw [count_cons_self, Nat.add_mul, Nat.add_mul]
        omega
      · rw [count_cons_of_ne hj, hne j hj]
        omega
  have hlength : (f k).length = (f' k).length := by
    have heq := hcount ks
    rw [h, Nat.add_left_cancel_iff] at heq
    exact (Nat.eq_of_mul_eq_mul_left (count_pos_iff.mpr hk) heq).symm
  induction ks with
  | nil => cases hk
  | cons j ks ih =>
    rw [flatMap_cons] at h
    by_cases hj : j = k
    · subst hj
      exact (append_inj h hlength).1
    · rw [hne j hj] at h
      exact ih ((mem_cons.mp hk).resolve_left (Ne.symm hj)) (append_cancel_left h)

lemma mem_zip_previous {first prev : Option α} : (prev, x) ∈ (first :: xs.map some).zip xs ↔
      (prev = first ∧ ∃ rest, xs = x :: rest) ∨ ∃ pre y rest, prev = some y ∧ xs = pre ++ y :: x :: rest := by
  induction xs generalizing first with
  | nil => simp
  | cons a as ih =>
    rw [map_cons, zip_cons_cons, mem_cons, ih, Prod.mk.injEq]
    constructor
    · rintro (⟨rfl, rfl⟩ | ⟨rfl, rest, rfl⟩ | ⟨pre, y, rest, rfl, rfl⟩)
      · exact .inl ⟨rfl, as, rfl⟩
      · exact .inr ⟨[], a, rest, rfl, rfl⟩
      · exact .inr ⟨a :: pre, y, rest, rfl, rfl⟩
    · rintro (⟨rfl, rest, heq⟩ | ⟨pre, y, rest, rfl, heq⟩)
      · exact .inl ⟨rfl, (cons.inj heq).1.symm⟩
      · cases pre with
        | nil =>
          obtain ⟨rfl, rfl⟩ := cons.inj heq
          exact .inr (.inl ⟨rfl, rest, rfl⟩)
        | cons b pre =>
          obtain ⟨rfl, rfl⟩ := cons.inj heq
          exact .inr (.inr ⟨pre, y, rest, rfl, rfl⟩)

lemma place_unique {f : α → β} {pre' rest rest' : List α} {a' : α} (hnodup : ((pre ++ a :: rest).map f).Nodup)
    (h : pre ++ a :: rest = pre' ++ a' :: rest') (hf : f a = f a') : pre = pre' ∧ a = a' ∧ rest = rest' := by
  have ha : (pre ++ a :: rest)[pre.length]? = some a := by simp
  have ha' : (pre ++ a :: rest)[pre'.length]? = some a' := by simp [h]
  -- Equal keys are at one place.
  have hlength : pre.length = pre'.length := by
    refine (getElem?_inj (by simp) hnodup).mp ?_
    rw [getElem?_map, getElem?_map, ha, ha', Option.map_some, Option.map_some, hf]
  obtain ⟨hpre, hrest⟩ := append_inj h hlength
  exact ⟨hpre, cons.inj hrest⟩

lemma foldlM_guard {α β : Type} {p : α → Prop} [DecidablePred p] (f : β → α → β) (xs : List α) (b : β) :
    xs.foldlM (fun b x => if p x then none else some (f b x)) b =
      if ∀ x ∈ xs, ¬ p x then some (xs.foldl f b) else none := by
  induction xs generalizing b with
  | nil => rfl
  | cons x xs ih =>
    rw [foldlM_cons]
    by_cases hx : p x
    · rw [if_pos hx, if_neg fun h => h x mem_cons_self hx]
      rfl
    · rw [if_neg hx]
      refine (ih (f b x)).trans ?_
      simp [hx]

lemma exists_allM_eq {xs : List α} {f : α → Option Bool} {p : α → Prop}
    (h : ∀ x ∈ xs, ∃ b, f x = some b ∧ (b = true ↔ p x)) : ∃ b, xs.allM f = some b ∧ (b = true ↔ ∀ x ∈ xs, p x) := by
  induction xs with
  | nil => exact ⟨true, rfl, by simp⟩
  | cons x xs ih =>
    obtain ⟨⟨b, hb, hx⟩, hxs⟩ := forall_mem_cons.mp h
    cases b with
    | false => exact ⟨false, by simp [allM, hb], by simp [← hx]⟩
    | true => simpa [allM, hb, hx.mp rfl] using ih hxs

end ListSearch
