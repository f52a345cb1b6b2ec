import Mathlib

/-! Words are compared by the highest bit in which they differ. The words nearest to a
bound that differ from it in a given bit bound the disjunction of two intervals. -/

namespace BitOrder
variable {w : ℕ} {a b c d r x y : BitVec w} {i j k : ℕ}

lemma getLsbD_mask (hk : k < w) (j : ℕ) : (1#w <<< k).getLsbD j = decide (j = k) := by
  rw [← BitVec.twoPow_eq]
  simp [hk, eq_comm]

lemma and_mask_eq_zero_iff (hk : k < w) : x &&& (1#w <<< k) = 0#w ↔ x.getLsbD k = false := by
  constructor
  · intro h
    have hbit := congrArg (BitVec.getLsbD · k) h
    simpa [getLsbD_mask hk] using hbit
  · intro h
    refine BitVec.eq_of_getLsbD_eq fun j _ => ?_
    rw [BitVec.getLsbD_and, getLsbD_mask hk]
    by_cases hj : j = k <;> simp [hj, h]

lemma lt_of_bit (hx : x.getLsbD k = false) (hy : y.getLsbD k = true)
    (h : ∀ l, k < l → x.getLsbD l = y.getLsbD l) : x < y := Nat.lt_of_testBit k hx hy h

lemma exists_bit_of_lt (h : x < y) : ∃ k, x.getLsbD k = false ∧ y.getLsbD k = true ∧
    ∀ l, k < l → x.getLsbD l = y.getLsbD l := by
  have hne : x.toNat ^^^ y.toNat ≠ 0 := fun hzero => absurd h
    (by simp [BitVec.toNat_inj.mp (Nat.xor_eq_zero_iff.mp hzero)])
  obtain ⟨k, hk, habove⟩ := Nat.exists_most_significant_bit hne
  simp only [Nat.testBit_xor, BitVec.testBit_toNat, bne_eq_false_iff_eq] at hk habove
  cases hx : x.getLsbD k with
  | false => exact ⟨k, hx, by simpa [hx] using hk, habove⟩
  | true =>
    have hy : y.getLsbD k = false := by simpa [hx] using hk
    exact absurd (lt_of_bit hy hx fun l hl => (habove l hl).symm) (Nat.lt_asymm h)

lemma exists_bit_above (h : x ≤ y) (hx : x.getLsbD j = true) (hy : y.getLsbD j = false) :
    ∃ k, j < k ∧ x.getLsbD k = false ∧ y.getLsbD k = true ∧ ∀ l, k < l → x.getLsbD l = y.getLsbD l := by
  have hlt : x < y := Nat.lt_of_le_of_ne h fun heq => by simp [BitVec.toNat_inj.mp heq, hy] at hx
  obtain ⟨k, hxk, hyk, habove⟩ := exists_bit_of_lt hlt
  refine ⟨k, ?_, hxk, hyk, habove⟩
  rcases lt_trichotomy j k with hjk | rfl | hkj
  · exact hjk
  · simp [hx] at hxk
  · simp [habove j hkj, hy] at hx

lemma le_of_bits (h : ∀ k, x.getLsbD k = true → y.getLsbD k = true) : x ≤ y := by
  by_contra hlt
  obtain ⟨k, hy, hx, -⟩ := exists_bit_of_lt (BitVec.not_le.mp hlt)
  simp [h k hx] at hy

/-- The least word above `a` that first differs from it in bit `k`. -/
def raised (a : BitVec w) (k : ℕ) : BitVec w := (a ||| 1#w <<< k) &&& -(1#w <<< k)

/-- The greatest word below `b` that first differs from it in bit `k`. -/
def lowered (b : BitVec w) (k : ℕ) : BitVec w := (b &&& ~~~(1#w <<< k)) ||| (1#w <<< k - 1#w)

lemma getLsbD_lowered (hk : k < w) (j : ℕ) :
    (lowered b k).getLsbD j = (decide (j < k) || decide (k < j) && b.getLsbD j) := by
  have hlow : (1#w <<< k - 1#w).getLsbD j = decide (j < k) := by
    have hpow : 2 ^ k < 2 ^ w := Nat.pow_lt_pow_right (by decide) hk
    have hone : 1 ≤ 2 ^ k := Nat.one_le_two_pow
    have hmask : (1#w <<< k).toNat = 2 ^ k := by
      rw [← BitVec.twoPow_eq, BitVec.toNat_twoPow, Nat.mod_eq_of_lt hpow]
    have hle : 1#w ≤ 1#w <<< k := by simpa [BitVec.le_def, hmask, Nat.mod_eq_of_lt (hone.trans_lt hpow)]
    rw [← BitVec.testBit_toNat, BitVec.toNat_sub_of_le hle, hmask]
    simp [Nat.mod_eq_of_lt (hone.trans_lt hpow)]
  rw [lowered, BitVec.getLsbD_or, BitVec.getLsbD_and, BitVec.getLsbD_not, getLsbD_mask hk, hlow]
  rcases lt_trichotomy j k with hj | rfl | hj
  · simp [hj]
  · simp
  · cases hb : b.getLsbD j with
    | false => simp
    | true => simp [hj.ne', BitVec.lt_of_getLsbD hb]

lemma not_raised (a : BitVec w) (k : ℕ) : ~~~raised a k = lowered (~~~a) k := by
  have hneg : -(1#w <<< k) = ~~~(1#w <<< k - 1#w) := by
    rw [BitVec.neg_eq_not_add]
    exact BitVec.not_sub_one_eq_not_add_one.symm
  rw [raised, lowered, hneg, BitVec.not_and, BitVec.not_or, BitVec.not_not]

lemma getLsbD_raised (hk : k < w) (j : ℕ) :
    (raised a k).getLsbD j = (decide (j = k) || decide (k < j) && a.getLsbD j) := by
  rw [← BitVec.not_not (b := raised a k), not_raised, BitVec.getLsbD_not, getLsbD_lowered hk, BitVec.getLsbD_not]
  rcases lt_trichotomy j k with hj | rfl | hj
  · simp [hj, hj.ne, hj.not_gt]
  · simp [hk]
  · cases ha : a.getLsbD j with
    | false => by_cases hjw : j < w <;> simp [hj, hj.ne', hjw]
    | true => simp [hj, hj.not_gt, BitVec.lt_of_getLsbD ha]

lemma sub_mask (hb : b.getLsbD k = true) : b - 1#w <<< k = b &&& ~~~(1#w <<< k) := by
  have hdisjoint : ~~~b &&& 1#w <<< k = 0#w :=
    (and_mask_eq_zero_iff (BitVec.lt_of_getLsbD hb)).mpr (by simp [hb])
  rw [← BitVec.not_not (b := b - _), BitVec.not_sub_eq_not_add, BitVec.add_eq_or_of_and_eq_zero _ _ hdisjoint,
    BitVec.not_or, BitVec.not_not]

lemma raised_le (hx : x.getLsbD k = true) (h : ∀ l, k < l → a.getLsbD l = x.getLsbD l) : raised a k ≤ x := by
  refine le_of_bits fun j hj => ?_
  rw [getLsbD_raised (BitVec.lt_of_getLsbD hx)] at hj
  by_cases hjk : j = k
  · exact hjk ▸ hx
  · simp only [hjk, decide_false, Bool.false_or, Bool.and_eq_true, decide_eq_true_eq] at hj
    exact h j hj.1 ▸ hj.2

lemma le_raised (hk : k < w) (ha : a.getLsbD k = false) : a ≤ raised a k := by
  refine BitVec.le_of_lt (lt_of_bit ha ?_ fun l hl => ?_)
  · simp [getLsbD_raised hk]
  · simp [getLsbD_raised hk, hl, hl.ne']

lemma le_lowered (hk : k < w) (hx : x.getLsbD k = false) (h : ∀ l, k < l → x.getLsbD l = b.getLsbD l) :
    x ≤ lowered b k := by
  refine le_of_bits fun j hj => ?_
  rw [getLsbD_lowered hk]
  rcases lt_trichotomy j k with hjk | rfl | hjk
  · simp [hjk]
  · simp [hx] at hj
  · simp [hjk, ← h j hjk, hj]

lemma lowered_le (hb : b.getLsbD k = true) : lowered b k ≤ b := by
  have hk := BitVec.lt_of_getLsbD hb
  refine BitVec.le_of_lt (lt_of_bit ?_ hb fun l hl => ?_)
  · simp [getLsbD_lowered hk]
  · simp [getLsbD_lowered hk, hl, hl.not_gt]

/-! ## Disjunctions of two intervals -/

section
variable {Q : ℕ → Prop} (hQ : ∀ j k, Q j → j < k → Q k) (hax : a ≤ x) (hxb : x ≤ b) (hcy : c ≤ y) (hyd : y ≤ d)

include hQ hax hxb hcy hyd in
/-- At the bits of `Q`, neither `a` nor `c` can be raised in its interval to clear bits of the other one. -/
lemma le_or (hr : ∀ j, r.getLsbD j = true → c.getLsbD j = true ∨ Q j ∧ a.getLsbD j = true)
    (hleft : ∀ k, Q k → a.getLsbD k = false → c.getLsbD k = true → b < raised a k)
    (hright : ∀ k, Q k → a.getLsbD k = true → c.getLsbD k = false → d < raised c k) : r ≤ x ||| y := by
  by_contra hlt
  obtain ⟨j, hxy, hrj, hsame⟩ := exists_bit_of_lt (BitVec.not_le.mp hlt)
  rw [BitVec.getLsbD_or, Bool.or_eq_false_iff] at hxy
  rcases hr j hrj with hc | ⟨hj, ha⟩
  · obtain ⟨k, hjk, hck, hyk, habove⟩ := exists_bit_above hcy hc hxy.2
    obtain hck' | ⟨hk, hak⟩ := hr k (by rw [← hsame k hjk]; simp [hyk])
    · simp [hck] at hck'
    · exact BitVec.not_le.mpr (hright k hk hak hck) (BitVec.le_trans (raised_le hyk habove) hyd)
  · obtain ⟨k, hjk, hak, hxk, habove⟩ := exists_bit_above hax ha hxy.1
    obtain hck | ⟨-, hak'⟩ := hr k (by rw [← hsame k hjk]; simp [hxk])
    · exact BitVec.not_le.mpr (hleft k (hQ j k hj hjk) hak hck) (BitVec.le_trans (raised_le hxk habove) hxb)
    · simp [hak] at hak'

include hQ hax hxb hcy hyd in
lemma not_or_bit (hr : ∀ j, r.getLsbD j = false → Q j) (hsame : ∀ k, j < k → r.getLsbD k = (x ||| y).getLsbD k)
    (hor : ∀ k, Q k → r.getLsbD k = (b ||| d).getLsbD k)
    (hleft : ∀ k, Q k → b.getLsbD k = true → d.getLsbD k = true → lowered b k < a ∧ lowered d k < c)
    (hrj : r.getLsbD j = false) : x.getLsbD j = false := by
  by_contra hx
  rw [Bool.not_eq_false] at hx
  have hj := hr j hrj
  rw [hor j hj, BitVec.getLsbD_or, Bool.or_eq_false_iff] at hrj
  obtain ⟨k, hjk, hxk, hbk, habove⟩ := exists_bit_above hxb hx hrj.1
  have hk := hQ j k hj hjk
  have hyk : y.getLsbD k = true := by
    have := hsame k hjk
    rw [hor k hk, BitVec.getLsbD_or, BitVec.getLsbD_or, hbk, hxk] at this
    simpa using this.symm
  cases hdk : d.getLsbD k with
  | true =>
    refine BitVec.not_le.mpr (hleft k hk hbk hdk).1 (BitVec.le_trans hax ?_)
    exact le_lowered (BitVec.lt_of_getLsbD hbk) hxk habove
  | false =>
    obtain ⟨l, hkl, hyl, hdl, habove'⟩ := exists_bit_above hyd hyk hdk
    have hl := hQ k l hk hkl
    have hbl : b.getLsbD l = true := by
      have := hsame l (hjk.trans hkl)
      rw [hor l hl, BitVec.getLsbD_or, BitVec.getLsbD_or, hdl, hyl, Bool.or_true, Bool.or_false] at this
      rw [← habove l hkl, ← this]
    refine BitVec.not_le.mpr (hleft l hl hbl hdl).2 (BitVec.le_trans hcy ?_)
    exact le_lowered (BitVec.lt_of_getLsbD hdl) hyl habove'

include hQ hax hxb hcy hyd in
/-- At the bits of `Q`, no bit of both `b` and `d` can be traded for all lower ones. -/
lemma or_le (hr : ∀ j, r.getLsbD j = false → Q j) (hor : ∀ k, Q k → r.getLsbD k = (b ||| d).getLsbD k)
    (hleft : ∀ k, Q k → b.getLsbD k = true → d.getLsbD k = true → lowered b k < a ∧ lowered d k < c) :
    x ||| y ≤ r := by
  by_contra hlt
  obtain ⟨j, hrj, hxy, hsame⟩ := exists_bit_of_lt (BitVec.not_le.mp hlt)
  have hx := not_or_bit hQ hax hxb hcy hyd hr hsame hor hleft hrj
  have hy : y.getLsbD j = false := by
    refine not_or_bit hQ hcy hyd hax hxb hr ?_ ?_ (fun k hk hd hb => (hleft k hk hb hd).symm) hrj
    · rwa [BitVec.or_comm]
    · rwa [BitVec.or_comm]
  simp [hx, hy] at hxy

end
end BitOrder
