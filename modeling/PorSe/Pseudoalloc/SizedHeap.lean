import PorSe.Pseudoalloc.Quarantine

/-! A bin for objects of one size. The slots of layer `i` are at the odd multiples of the
size of the bin divided by `2 ^ i`; a bitmap tells which of them are free. -/

namespace Pseudoalloc

/-- `__builtin_ctzl`, for a value other than 0. -/
def ctz (x : ℕ) : ℕ := ((List.range 64).find? fun i => x.testBit i).getD 64

/-- `__builtin_clzl`, for a value other than 0. -/
def clz (x : ℕ) : ℕ := 63 - x.log2

structure Bin where
  base : ℕ
  size : ℕ
  slotSize : ℕ
  /-- Sizes of sized bins must be powers of two. -/
  isPow : ∃ k < 64, size = 2 ^ k

namespace Bin

def index2pos (B : Bin) (index : ℕ) : Option ℕ :=
  let index := index + 1
  let layer := 64 - clz index
  let highBit := 1 <<< (layer - 1)
  let currentSlotSize := B.size >>> layer
  if B.slotSize < currentSlotSize then some (currentSlotSize * ((index ^^^ highBit) * 2 + 1)) else none

def pos2index (B : Bin) (pos : ℕ) : ℕ :=
  let trailingZeroes := ctz pos
  let layerIndex := pos >>> (trailingZeroes + 1)
  let layer := ctz B.size - (trailingZeroes + 1)
  (1 <<< layer) + layerIndex - 1

end Bin

/-- The state of a bin: the bitmap has a one for each *free* slot. -/
structure SizedHeap where
  bitmap : List (BitVec 64)
  finger : ℕ
  quarantine : Quarantine ℕ

namespace SizedHeap

def initial (quarantineSize : ℕ) : SizedHeap := ⟨[], 0, .initial quarantineSize⟩

/-- `while(_finger < _bitmap.size() && _bitmap[_finger] == 0) { ++_finger; }` -/
def advanced (H : SizedHeap) : ℕ := H.finger + ((H.bitmap.drop H.finger).takeWhile (· == 0#64)).length

/-- A free slot of the word at the finger, or the first one of a new word; `none` without room for a red zone. -/
def allocate (B : Bin) (H : SizedHeap) : Option (ℕ × SizedHeap) :=
  match H.bitmap[H.advanced]? with
  | some word =>
    let shift := ctz word.toNat
    let mask := 1#64 <<< shift
    (B.index2pos (H.advanced * 64 + shift)).map fun pos =>
      (B.base + pos, { H with finger := H.advanced, bitmap := H.bitmap.set H.advanced (word ^^^ mask) })
  | none =>
    (B.index2pos (H.advanced * 64)).map fun pos =>
      (B.base + pos, { H with finger := H.advanced, bitmap := H.bitmap ++ [~~~1#64] })

/-- Marks the slot as free, unless the assertion fails, and drops full words at the end. -/
def release (H : SizedHeap) (index : ℕ) : Option SizedHeap :=
  let loc := index / 64
  let mask := 1#64 <<< (index % 64)
  match H.bitmap[loc]? with
  | none => none
  | some word =>
    if word &&& mask = 0#64 then
      let bitmap := H.bitmap.set loc (word ||| mask)
      some { H with
        finger := if loc < H.finger then loc else H.finger
        bitmap := if loc + 1 = bitmap.length then bitmap.rdropWhile (· == ~~~0#64) else bitmap }
    else none

def deallocate (B : Bin) (H : SizedHeap) (ptr : ℕ) : Option SizedHeap :=
  let (ptr, quarantine) := H.quarantine.deallocate ptr
  if ptr = 0 then some { H with quarantine }
  else ({ H with quarantine } : SizedHeap).release (B.pos2index (ptr - B.base))

end SizedHeap

/-! ## Positions -/

lemma ctz_two_pow_mul_odd {a j : ℕ} (ha : a < 64) : ctz (2 ^ a * (2 * j + 1)) = a := by
  have hbit : ∀ i, (2 ^ a * (2 * j + 1)).testBit i = (decide (a ≤ i) && (2 * j + 1).testBit (i - a)) := fun i =>
    Nat.testBit_two_pow_mul
  have hfind : (List.range 64).find? (fun i => (2 ^ a * (2 * j + 1)).testBit i) = some a := by
    rw [List.find?_range_eq_some]
    refine ⟨?_, by simpa using ha, fun i hi => ?_⟩
    · simp [hbit]
    · simp [hbit, hi]
  rw [ctz, hfind, Option.getD_some]

lemma exists_eq_two_pow_mul_odd {x : ℕ} (hx : x ≠ 0) : ∃ a j, x = 2 ^ a * (2 * j + 1) := by
  obtain ⟨a, m, ⟨j, rfl⟩, rfl⟩ := Nat.exists_eq_two_pow_mul_odd hx
  exact ⟨a, j, rfl⟩

lemma layer_eq {i j : ℕ} (hj : j < 2 ^ i) (hi : i < 64) :
    64 - clz (2 ^ i + j) = i + 1 ∧ (2 ^ i + j) ^^^ (1 <<< i) = j := by
  have hlog : (2 ^ i + j).log2 = i := by
    refine (Nat.log2_eq_iff (by omega)).mpr ⟨by omega, ?_⟩
    omega
  refine ⟨by rw [clz]; omega, ?_⟩
  have hxor : 2 ^ i + j = 2 ^ i ^^^ j := by
    refine Nat.eq_of_testBit_eq fun n => ?_
    rcases lt_trichotomy n i with hn | rfl | hn
    · simp [Nat.testBit_two_pow_add_gt hn, hn.ne']
    · simp [Nat.testBit_two_pow_add_eq]
    · have hlt : 2 ^ i + j < 2 ^ n := by
        have := Nat.pow_le_pow_right (n := 2) (by decide) hn
        omega
      simp [Nat.testBit_lt_two_pow hlt, Nat.testBit_lt_two_pow (show j < 2 ^ n by omega), hn.ne]
  rw [Nat.one_shiftLeft, hxor, Nat.xor_comm, ← Nat.xor_assoc, Nat.xor_self, Nat.zero_xor]

namespace Bin
variable {B : Bin} {k a i j : ℕ}

lemma index2pos_layer (hk : B.size = 2 ^ k) (hj : j < 2 ^ i) (hi : i < 64) : B.index2pos (2 ^ i + j - 1) =
      if i < k ∧ B.slotSize < 2 ^ (k - (i + 1)) then some (2 ^ (k - (i + 1)) * (2 * j + 1)) else none := by
  obtain ⟨hlayer, hxor⟩ := layer_eq hj hi
  have hindex : 2 ^ i + j - 1 + 1 = 2 ^ i + j := by omega
  rw [index2pos, hindex, hlayer, Nat.add_sub_cancel, hxor, hk, Nat.shiftRight_eq_div_pow, mul_comm j 2]
  by_cases hik : i < k
  · rw [Nat.pow_div hik (by decide)]
    simp [hik]
  · have hzero : 2 ^ k / 2 ^ (i + 1) = 0 := Nat.div_eq_of_lt (Nat.pow_lt_pow_right (by decide) (by omega))
    rw [if_neg (by omega), if_neg fun h => hik h.1]

lemma pos2index_two_pow_mul_odd (hk : B.size = 2 ^ k) (hk64 : k < 64) (ha : a < k) :
    B.pos2index (2 ^ a * (2 * j + 1)) = 2 ^ (k - (a + 1)) + j - 1 := by
  have hsize : ctz (2 ^ k) = k := by simpa using ctz_two_pow_mul_odd (j := 0) hk64
  have hshift : (2 ^ a * (2 * j + 1)) >>> (a + 1) = j := by
    rw [Nat.shiftRight_eq_div_pow, pow_succ, Nat.mul_div_mul_left _ _ (Nat.two_pow_pos a)]
    omega
  rw [pos2index, hk, hsize, ctz_two_pow_mul_odd (ha.trans hk64), hshift, Nat.one_shiftLeft]

/-- The greatest power of two leaves room for a red zone, and the position gives the index back. -/
lemma index2pos_eq_some_iff {index pos : ℕ} : B.index2pos index = some pos ↔
    (0 < pos ∧ pos < B.size) ∧ B.slotSize < 2 ^ ctz pos ∧ B.pos2index pos = index := by
  obtain ⟨k, hk64, hk⟩ := B.isPow
  constructor
  · intro h
    have hle : 2 ^ (index + 1).log2 ≤ index + 1 := Nat.log2_self_le (by omega)
    have hlt : index + 1 < 2 ^ ((index + 1).log2 + 1) := Nat.lt_log2_self
    obtain ⟨i, j, _, hj, hindex⟩ : ∃ i j, (index + 1).log2 = i ∧ j < 2 ^ i ∧ index = 2 ^ i + j - 1 := by
      exact ⟨_, index + 1 - 2 ^ (index + 1).log2, rfl, by omega, by omega⟩
    by_cases hi : i < 64
    · rw [hindex, index2pos_layer hk hj hi] at h
      split_ifs at h with hcond
      obtain ⟨_, hslot⟩ := hcond
      cases h
      have ha : k - (i + 1) < k := by omega
      rw [ctz_two_pow_mul_odd (ha.trans hk64), pos2index_two_pow_mul_odd hk hk64 ha, hk]
      refine ⟨⟨Nat.mul_pos (Nat.two_pow_pos _) (by omega), ?_⟩, hslot, by rw [hindex]; congr 3; omega⟩
      calc 2 ^ (k - (i + 1)) * (2 * j + 1) < 2 ^ (k - (i + 1)) * 2 ^ (i + 1) := by
            refine Nat.mul_lt_mul_of_pos_left ?_ (Nat.two_pow_pos _)
            omega
        _ = 2 ^ k := by rw [← pow_add]; congr 1; omega
    · -- An index this large is in no layer of the bin.
      have hlayer : 64 - clz (index + 1) = 64 := by rw [clz]; omega
      have hzero : 2 ^ k / 2 ^ 64 = 0 := Nat.div_eq_of_lt (Nat.pow_lt_pow_right (by decide) hk64)
      rw [index2pos, hlayer, hk, Nat.shiftRight_eq_div_pow, hzero] at h
      cases h
  · rintro ⟨⟨hpos, hlt⟩, hslot, rfl⟩
    obtain ⟨a, j, rfl⟩ := exists_eq_two_pow_mul_odd hpos.ne'
    rw [hk] at hlt
    have ha : a < k := by
      refine (Nat.pow_lt_pow_iff_right (by decide)).mp (lt_of_le_of_lt ?_ hlt)
      exact Nat.le_mul_of_pos_right _ (by omega)
    have hj : j < 2 ^ (k - (a + 1)) := by
      have hsplit : 2 ^ k = 2 ^ a * (2 * 2 ^ (k - (a + 1))) := by
        rw [← mul_assoc, ← pow_succ, ← pow_add]
        congr 1
        omega
      have := Nat.lt_of_mul_lt_mul_left (hsplit ▸ hlt)
      omega
    rw [pos2index_two_pow_mul_odd hk hk64 ha, index2pos_layer hk hj (by omega)]
    rw [ctz_two_pow_mul_odd (ha.trans hk64)] at hslot
    have hka : k - (k - (a + 1) + 1) = a := by omega
    rw [hka, if_pos ⟨by omega, hslot⟩]

lemma two_pow_ctz_dvd {x : ℕ} (hx : 0 < x) (hlt : x < 2 ^ 64) : 2 ^ ctz x ∣ x := by
  obtain ⟨a, j, rfl⟩ := exists_eq_two_pow_mul_odd hx.ne'
  have ha : a < 64 := by
    refine (Nat.pow_lt_pow_iff_right (by decide)).mp (lt_of_le_of_lt ?_ hlt)
    exact Nat.le_mul_of_pos_right _ (by omega)
  rw [ctz_two_pow_mul_odd ha]
  exact dvd_mul_right _ _

def IsSlot (B : Bin) (pos : ℕ) : Prop := B.index2pos (B.pos2index pos) = some pos

lemma isSlot_of_allocate {H H' : SizedHeap} {p : ℕ} (h : H.allocate B = some (p, H')) :
    ∃ pos, B.IsSlot pos ∧ p = B.base + pos := by
  rw [SizedHeap.allocate] at h
  split at h <;> obtain ⟨pos, hpos, heq⟩ := Option.map_eq_some_iff.mp h <;>
    exact ⟨pos, by rwa [IsSlot, (index2pos_eq_some_iff.mp hpos).2.2], (Prod.mk.inj heq).1.symm⟩

lemma IsSlot.exists_dvd {pos : ℕ} (h : B.IsSlot pos) :
    ∃ a, B.slotSize < 2 ^ a ∧ 2 ^ a ∣ pos ∧ 0 < pos ∧ pos < B.size ∧ 2 ^ a ∣ B.size := by
  obtain ⟨k, hk64, hk⟩ := B.isPow
  obtain ⟨⟨hpos, hlt⟩, hslot, -⟩ := index2pos_eq_some_iff.mp h
  have hdvd := two_pow_ctz_dvd hpos (hlt.trans (hk ▸ Nat.pow_lt_pow_right (by decide) hk64))
  refine ⟨ctz pos, hslot, hdvd, hpos, hlt, hk ▸ pow_dvd_pow 2 ?_⟩
  exact ((Nat.pow_lt_pow_iff_right (by decide)).mp (hk ▸ (Nat.le_of_dvd hpos hdvd).trans_lt hlt)).le

lemma IsSlot.lt_of_lt {p q : ℕ} (hp : B.IsSlot p) (hq : B.IsSlot q) (h : p < q) : p + B.slotSize < q := by
  obtain ⟨a, ha, hap, -⟩ := hp.exists_dvd
  obtain ⟨b, hb, hbq, -⟩ := hq.exists_dvd
  rcases le_total a b with hab | hab
  · have := Nat.le_of_dvd (Nat.sub_pos_of_lt h) (Nat.dvd_sub ((pow_dvd_pow 2 hab).trans hbq) hap)
    omega
  · have := Nat.le_of_dvd (Nat.sub_pos_of_lt h) (Nat.dvd_sub hbq ((pow_dvd_pow 2 hab).trans hap))
    omega

lemma IsSlot.le_size {p : ℕ} (hp : B.IsSlot p) : p + B.slotSize ≤ B.size := by
  obtain ⟨a, ha, hap, -, hlt, hsize⟩ := hp.exists_dvd
  have := Nat.le_of_dvd (Nat.sub_pos_of_lt hlt) (Nat.dvd_sub hsize hap)
  omega

end Bin
end Pseudoalloc
