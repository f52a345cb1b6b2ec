import PorSe.Lib.BitOrder

/-! The bounds of `FastCexSolver` for disjunctions and conjunctions of two intervals. -/

namespace Klee
open BitOrder List

/-- The bits from the highest one down, with what two of the bounds get before its `break`. -/
def firstAdjustment (adjust : BitVec 64 → Option (BitVec 64 × BitVec 64)) : Option (BitVec 64 × BitVec 64) :=
  (List.range 64).reverse.findSome? fun i => adjust (1#64 <<< i)

section
variable (a b c d m : BitVec 64)

def minORStep : Option (BitVec 64 × BitVec 64) :=
  if ~~~a &&& c &&& m ≠ 0#64 then
    let temp := (a ||| m) &&& -m
    if temp ≤ b then some (temp, c) else none
  else if a &&& ~~~c &&& m ≠ 0#64 then
    let temp := (c ||| m) &&& -m
    if temp ≤ d then some (a, temp) else none
  else none

def minOR : BitVec 64 :=
  let (a, c) := (firstAdjustment (minORStep a b c d)).getD (a, c)
  a ||| c

def maxORStep : Option (BitVec 64 × BitVec 64) :=
  if b &&& d &&& m ≠ 0#64 then
    let temp := (b - m) ||| (m - 1#64)
    if a ≤ temp then some (temp, d)
    else
      let temp := (d - m) ||| (m - 1#64)
      if c ≤ temp then some (b, temp) else none
  else none

def maxOR : BitVec 64 :=
  let (b, d) := (firstAdjustment (maxORStep a b c d)).getD (b, d)
  b ||| d

def minANDStep : Option (BitVec 64 × BitVec 64) :=
  if ~~~a &&& ~~~c &&& m ≠ 0#64 then
    let temp := (a ||| m) &&& -m
    if temp ≤ b then some (temp, c)
    else
      let temp := (c ||| m) &&& -m
      if temp ≤ d then some (a, temp) else none
  else none

def minAND : BitVec 64 :=
  let (a, c) := (firstAdjustment (minANDStep a b c d)).getD (a, c)
  a &&& c

def maxANDStep : Option (BitVec 64 × BitVec 64) :=
  if b &&& ~~~d &&& m ≠ 0#64 then
    let temp := (b &&& ~~~m) ||| (m - 1#64)
    if a ≤ temp then some (temp, d) else none
  else if ~~~b &&& d &&& m ≠ 0#64 then
    let temp := (d &&& ~~~m) ||| (m - 1#64)
    if c ≤ temp then some (b, temp) else none
  else none

def maxAND : BitVec 64 :=
  let (b, d) := (firstAdjustment (maxANDStep a b c d)).getD (b, d)
  b &&& d

def results (op : BitVec 64 → BitVec 64 → BitVec 64) : Set (BitVec 64) :=
  {r | ∃ x y, (a ≤ x ∧ x ≤ b) ∧ (c ≤ y ∧ y ≤ d) ∧ r = op x y}

end

variable {a b c d r : BitVec 64} {i k : ℕ} {f g : BitVec 64 → Option (BitVec 64 × BitVec 64)}

/-- `Q` has the bits that gave no adjustment. -/
lemma firstAdjustment_cases (f : BitVec 64 → Option (BitVec 64 × BitVec 64)) :
    ∃ Q : ℕ → Prop, (∀ j k, Q j → j < k → Q k) ∧ (∀ k < 64, Q k → f (1#64 <<< k) = none) ∧
      ((firstAdjustment f = none ∧ ∀ k, Q k) ∨
        ∃ i p, i < 64 ∧ firstAdjustment f = some p ∧ f (1#64 <<< i) = some p ∧ ∀ k, Q k ↔ i < k) := by
  cases hf : firstAdjustment f with
  | none =>
    refine ⟨fun _ => True, fun _ _ _ _ => trivial, fun k hk _ => ?_, .inl ⟨rfl, fun _ => trivial⟩⟩
    exact findSome?_eq_none_iff.mp hf k (by simpa using hk)
  | some p =>
    obtain ⟨before, i, after, hlist, hp, hnone⟩ := findSome?_eq_some_iff.mp hf
    have hi : i ∈ (range 64).reverse := by simp [hlist]
    refine ⟨(i < ·), fun _ _ => lt_trans, fun k hk hik => hnone k ?_,
      .inr ⟨i, p, by simpa using hi, rfl, hp, fun _ => Iff.rfl⟩⟩
    have hmem : k ∈ before ++ i :: after := by simpa [← hlist] using hk
    have hsorted : (before ++ i :: after).Pairwise (· > ·) := by
      rw [← hlist, pairwise_reverse]
      exact pairwise_lt_range
    refine (mem_append.mp hmem).resolve_right fun hk => ?_
    rcases mem_cons.mp hk with rfl | hk
    · exact lt_irrefl _ hik
    · exact lt_asymm hik ((pairwise_cons.mp (pairwise_append.mp hsorted).2.1).1 k hk)

/-! ## Disjunctions -/

lemma minORStep_eq (hk : k < 64) : minORStep a b c d (1#64 <<< k) =
    if a.getLsbD k = false ∧ c.getLsbD k = true then if raised a k ≤ b then some (raised a k, c) else none
    else if a.getLsbD k = true ∧ c.getLsbD k = false then if raised c k ≤ d then some (a, raised c k) else none
    else none := by
  simp only [minORStep, ne_eq, and_mask_eq_zero_iff hk, BitVec.getLsbD_and, BitVec.getLsbD_not, hk]
  cases a.getLsbD k <;> cases c.getLsbD k <;> rfl

lemma minOR_isLeast (hab : a ≤ b) (hcd : c ≤ d) : IsLeast (results a b c d (· ||| ·)) (minOR a b c d) := by
  obtain ⟨Q, hQ, hnone, hcases⟩ := firstAdjustment_cases (minORStep a b c d)
  have hleft : ∀ k, Q k → a.getLsbD k = false → c.getLsbD k = true → b < raised a k := by
    intro k hk ha hc
    by_contra hle
    have hlt := BitVec.lt_of_getLsbD hc
    simpa [minORStep_eq hlt, ha, hc, BitVec.not_lt.mp hle] using hnone k hlt hk
  have hright : ∀ k, Q k → a.getLsbD k = true → c.getLsbD k = false → d < raised c k := by
    intro k hk ha hc
    by_contra hle
    have hlt := BitVec.lt_of_getLsbD ha
    simpa [minORStep_eq hlt, ha, hc, BitVec.not_lt.mp hle] using hnone k hlt hk
  rcases hcases with ⟨heq, hall⟩ | ⟨i, p, hi, heq, hp, hiff⟩
  · rw [minOR, heq]
    refine ⟨⟨a, c, ⟨BitVec.le_refl a, hab⟩, ⟨BitVec.le_refl c, hcd⟩, rfl⟩, ?_⟩
    rintro _ ⟨x, y, ⟨hax, hxb⟩, ⟨hcy, hyd⟩, rfl⟩
    refine le_or hQ hax hxb hcy hyd (fun j hj => ?_) hleft hright
    simpa [hall, or_comm] using hj
  · rw [minOR, heq]
    rw [minORStep_eq hi] at hp
    split_ifs at hp with hbits hle hbits hle
    · cases hp
      refine ⟨⟨_, c, ⟨le_raised hi hbits.1, hle⟩, ⟨BitVec.le_refl c, hcd⟩, rfl⟩, ?_⟩
      rintro _ ⟨x, y, ⟨hax, hxb⟩, ⟨hcy, hyd⟩, rfl⟩
      refine le_or hQ hax hxb hcy hyd (fun j hj => ?_) hleft hright
      rcases eq_or_ne j i with rfl | hne
      · exact .inl hbits.2
      · simpa [getLsbD_raised hi, hne, hiff, or_comm] using hj
    · cases hp
      refine ⟨⟨a, _, ⟨BitVec.le_refl a, hab⟩, ⟨le_raised hi hbits.2, hle⟩, rfl⟩, ?_⟩
      rintro _ ⟨x, y, ⟨hax, hxb⟩, ⟨hcy, hyd⟩, rfl⟩
      dsimp only
      rw [BitVec.or_comm x]
      refine le_or hQ hcy hyd hax hxb (fun j hj => ?_) (fun k hk hc ha => hright k hk ha hc)
        fun k hk hc ha => hleft k hk ha hc
      rcases eq_or_ne j i with rfl | hne
      · exact .inl hbits.1
      · simpa [getLsbD_raised hi, hne, hiff] using hj

lemma maxORStep_eq (hk : k < 64) : maxORStep a b c d (1#64 <<< k) = if b.getLsbD k = true ∧ d.getLsbD k = true then
      if a ≤ lowered b k then some (lowered b k, d) else if c ≤ lowered d k then some (b, lowered d k) else none
    else none := by
  simp only [maxORStep, ne_eq, and_mask_eq_zero_iff hk]
  by_cases hbits : b.getLsbD k = true ∧ d.getLsbD k = true
  · rw [if_pos (by simp [hbits]), if_pos hbits, sub_mask hbits.1, sub_mask hbits.2]
    rfl
  · rw [if_neg (by simpa using hbits), if_neg hbits]

lemma getLsbD_lowered_or (hi : i < 64) (hd : d.getLsbD i = true) :
    (∀ j, (lowered b i ||| d).getLsbD j = false → i < j) ∧
      ∀ k, i < k → (lowered b i ||| d).getLsbD k = (b ||| d).getLsbD k := by
  refine ⟨fun j hj => ?_, fun k hk => ?_⟩
  · rw [BitVec.getLsbD_or, getLsbD_lowered hi] at hj
    rcases lt_trichotomy j i with hlt | rfl | hlt
    · simp [hlt] at hj
    · rw [hd, Bool.or_true] at hj
      cases hj
    · exact hlt
  · rw [BitVec.getLsbD_or, getLsbD_lowered hi]
    simp [hk, hk.not_gt]

lemma maxOR_isGreatest (hab : a ≤ b) (hcd : c ≤ d) : IsGreatest (results a b c d (· ||| ·)) (maxOR a b c d) := by
  obtain ⟨Q, hQ, hnone, hcases⟩ := firstAdjustment_cases (maxORStep a b c d)
  have hboth : ∀ k, Q k → b.getLsbD k = true → d.getLsbD k = true → lowered b k < a ∧ lowered d k < c := by
    intro k hk hb hd
    have hlt := BitVec.lt_of_getLsbD hb
    have hstep := hnone k hlt hk
    rw [maxORStep_eq hlt, if_pos ⟨hb, hd⟩] at hstep
    split_ifs at hstep with hle hle'
    exact ⟨BitVec.not_le.mp hle, BitVec.not_le.mp hle'⟩
  rcases hcases with ⟨heq, hall⟩ | ⟨i, p, hi, heq, hp, hiff⟩
  · rw [maxOR, heq]
    refine ⟨⟨b, d, ⟨hab, BitVec.le_refl b⟩, ⟨hcd, BitVec.le_refl d⟩, rfl⟩, ?_⟩
    rintro _ ⟨x, y, ⟨hax, hxb⟩, ⟨hcy, hyd⟩, rfl⟩
    exact or_le hQ hax hxb hcy hyd (fun j _ => hall j) (fun _ _ => rfl) hboth
  · obtain rfl : Q = (i < ·) := funext fun k => propext (hiff k)
    rw [maxOR, heq]
    rw [maxORStep_eq hi] at hp
    split_ifs at hp with hbits hle hle'
    · cases hp
      obtain ⟨hlow, hsame⟩ := getLsbD_lowered_or hi hbits.2
      refine ⟨⟨_, d, ⟨hle, lowered_le hbits.1⟩, ⟨hcd, BitVec.le_refl d⟩, rfl⟩, ?_⟩
      rintro _ ⟨x, y, ⟨hax, hxb⟩, ⟨hcy, hyd⟩, rfl⟩
      exact or_le hQ hax hxb hcy hyd hlow hsame hboth
    · cases hp
      obtain ⟨hlow, hsame⟩ := getLsbD_lowered_or hi hbits.1
      refine ⟨⟨b, _, ⟨hab, BitVec.le_refl b⟩, ⟨hle', lowered_le hbits.2⟩, rfl⟩, ?_⟩
      rintro _ ⟨x, y, ⟨hax, hxb⟩, ⟨hcy, hyd⟩, rfl⟩
      simp only [Option.getD_some, BitVec.or_comm b, BitVec.or_comm x]
      exact or_le hQ hcy hyd hax hxb hlow hsame fun k hk hd hb => (hboth k hk hb hd).symm

/-! ## Conjunctions, as disjunctions of the complements -/

lemma not_le_not_iff {x y : BitVec 64} : ~~~x ≤ ~~~y ↔ y ≤ x := by bv_omega

lemma mem_results_and_iff : r ∈ results a b c d (· &&& ·) ↔ ~~~r ∈ results (~~~b) (~~~a) (~~~d) (~~~c) (· ||| ·) := by
  constructor
  · rintro ⟨x, y, ⟨hax, hxb⟩, ⟨hcy, hyd⟩, rfl⟩
    exact ⟨~~~x, ~~~y, ⟨not_le_not_iff.mpr hxb, not_le_not_iff.mpr hax⟩,
      ⟨not_le_not_iff.mpr hyd, not_le_not_iff.mpr hcy⟩, BitVec.not_and⟩
  · rintro ⟨x, y, ⟨hbx, hxa⟩, ⟨hdy, hyc⟩, h⟩
    rw [← BitVec.not_not (b := x), not_le_not_iff] at hbx hxa
    rw [← BitVec.not_not (b := y), not_le_not_iff] at hdy hyc
    refine ⟨~~~x, ~~~y, ⟨hxa, hbx⟩, ⟨hyc, hdy⟩, ?_⟩
    dsimp only at h ⊢
    rw [← BitVec.not_or, ← h, BitVec.not_not]

def complements (p : BitVec 64 × BitVec 64) : BitVec 64 × BitVec 64 := (~~~p.1, ~~~p.2)

lemma firstAdjustment_complements (heq : ∀ k < 64, f (1#64 <<< k) = (g (1#64 <<< k)).map complements) :
    firstAdjustment f = (firstAdjustment g).map complements := by
  have hlist : ∀ ks : List ℕ, (∀ k ∈ ks, k < 64) → (ks.findSome? fun i => f (1#64 <<< i)) =
      (ks.findSome? fun i => g (1#64 <<< i)).map complements := by
    intro ks hlt
    induction ks with
    | nil => rfl
    | cons k ks ih =>
      rw [findSome?_cons, findSome?_cons, heq k (hlt k mem_cons_self), ih fun k hk => hlt k (mem_cons_of_mem _ hk)]
      cases g (1#64 <<< k) <;> rfl
  exact hlist _ (by simp)

lemma minANDStep_eq (hk : k < 64) : minANDStep a b c d (1#64 <<< k) =
    (maxORStep (~~~b) (~~~a) (~~~d) (~~~c) (1#64 <<< k)).map complements := by
  have hraised : ∀ x : BitVec 64, (x ||| 1#64 <<< k) &&& -(1#64 <<< k) = raised x k := fun _ => rfl
  simp only [maxORStep_eq hk, ← not_raised, not_le_not_iff, minANDStep, hraised, ne_eq, and_mask_eq_zero_iff hk,
    BitVec.getLsbD_and, Bool.and_eq_false_iff, not_or, Bool.not_eq_false]
  split_ifs <;> simp [complements]

lemma maxANDStep_eq (k : ℕ) : maxANDStep a b c d (1#64 <<< k) =
    (minORStep (~~~b) (~~~a) (~~~d) (~~~c) (1#64 <<< k)).map complements := by
  have hlowered : ∀ x : BitVec 64, x &&& ~~~(1#64 <<< k) ||| (1#64 <<< k - 1#64) = ~~~raised (~~~x) k := fun x => by
    rw [not_raised, BitVec.not_not, lowered]
  have hraised : ∀ x : BitVec 64, (x ||| 1#64 <<< k) &&& -(1#64 <<< k) = raised x k := fun _ => rfl
  have hle : ∀ x y : BitVec 64, x ≤ ~~~y ↔ y ≤ ~~~x := fun x y => by rw [← not_le_not_iff, BitVec.not_not]
  simp only [maxANDStep, minORStep, hlowered, hraised, hle, BitVec.not_not]
  split_ifs <;> simp [complements]

lemma not_and_getD (o : Option (BitVec 64 × BitVec 64)) :
    ~~~(((o.map complements).getD (a, c)).1 &&& ((o.map complements).getD (a, c)).2) =
      (o.getD (~~~a, ~~~c)).1 ||| (o.getD (~~~a, ~~~c)).2 := by
  cases o <;> simp [complements, BitVec.not_and]

lemma minAND_isLeast (hab : a ≤ b) (hcd : c ≤ d) : IsLeast (results a b c d (· &&& ·)) (minAND a b c d) := by
  have hmin : ~~~minAND a b c d = maxOR (~~~b) (~~~a) (~~~d) (~~~c) := by
    rw [minAND, firstAdjustment_complements fun k hk => minANDStep_eq hk]
    exact not_and_getD _
  obtain ⟨hmem, hle⟩ := maxOR_isGreatest (not_le_not_iff.mpr hab) (not_le_not_iff.mpr hcd)
  rw [← hmin] at hmem hle
  exact ⟨mem_results_and_iff.mpr hmem, fun r hr => not_le_not_iff.mp (hle (mem_results_and_iff.mp hr))⟩

lemma maxAND_isGreatest (hab : a ≤ b) (hcd : c ≤ d) : IsGreatest (results a b c d (· &&& ·)) (maxAND a b c d) := by
  have hmax : ~~~maxAND a b c d = minOR (~~~b) (~~~a) (~~~d) (~~~c) := by
    rw [maxAND, firstAdjustment_complements fun k _ => maxANDStep_eq k]
    exact not_and_getD _
  obtain ⟨hmem, hle⟩ := minOR_isLeast (not_le_not_iff.mpr hab) (not_le_not_iff.mpr hcd)
  rw [← hmax] at hmem hle
  exact ⟨mem_results_and_iff.mpr hmem, fun r hr => not_le_not_iff.mp (hle (mem_results_and_iff.mp hr))⟩

theorem bitwise_bounds_tight (hab : a ≤ b) (hcd : c ≤ d) :
    IsLeast (results a b c d (· ||| ·)) (minOR a b c d) ∧ IsGreatest (results a b c d (· ||| ·)) (maxOR a b c d) ∧
      IsLeast (results a b c d (· &&& ·)) (minAND a b c d) ∧ IsGreatest (results a b c d (· &&& ·)) (maxAND a b c d) :=
  ⟨minOR_isLeast hab hcd, maxOR_isGreatest hab hcd, minAND_isLeast hab hcd, maxAND_isGreatest hab hcd⟩

theorem bitwise_bounds_tight_small :
    IsLeast (results 2 5 9 12 (· ||| ·)) 10 ∧ IsGreatest (results 2 5 9 12 (· ||| ·)) 15 ∧
      IsLeast (results 2 5 9 12 (· &&& ·)) 0 ∧ IsGreatest (results 2 5 9 12 (· &&& ·)) 4 := by
  have hbounds : minOR 2 5 9 12 = 10 ∧ maxOR 2 5 9 12 = 15 ∧ minAND 2 5 9 12 = 0 ∧ maxAND 2 5 9 12 = 4 := by
    decide +kernel
  have htight := bitwise_bounds_tight (show (2 : BitVec 64) ≤ 5 by decide) (show (9 : BitVec 64) ≤ 12 by decide)
  rwa [hbounds.1, hbounds.2.1, hbounds.2.2.1, hbounds.2.2.2] at htight

end Klee
