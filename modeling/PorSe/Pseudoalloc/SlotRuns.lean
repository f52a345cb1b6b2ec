import PorSe.Pseudoalloc.SizedHeap
import PorSe.Lib.ListSearch
import PorSe.Lib.BitOrder

/-! Runs of a sized bin. The zeroes of the bitmap are the live and the quarantined slots,
so a slot is handed out to one owner at a time. -/

namespace Pseudoalloc
open List Option BitOrder Nat Quarantine
variable {B : Bin} {H H' : SizedHeap} {bitmap : List (BitVec 64)} {word : BitVec 64} {loc shift i p : ℕ}

/-! ## The bitmap -/

def Occupied (bitmap : List (BitVec 64)) (i : ℕ) : Prop :=
  ∃ word, bitmap[i / 64]? = some word ∧ word.getLsbD (i % 64) = false

lemma occupied_set {word' : BitVec 64} (hword : bitmap[loc]? = some word) : Occupied (bitmap.set loc word') i ↔
      if i / 64 = loc then word'.getLsbD (i % 64) = false else Occupied bitmap i := by
  have hlt : loc < bitmap.length := (List.getElem?_eq_some_iff.mp hword).1
  rw [Occupied, getElem?_set]
  by_cases hloc : i / 64 = loc
  · rw [if_pos hloc.symm, if_pos hlt, if_pos hloc]
    simp
  · rw [if_neg (Ne.symm hloc), if_neg hloc]
    rfl

lemma occupied_set_bit {word' : BitVec 64} (hword : bitmap[loc]? = some word) (hshift : shift < 64)
    (hsame : ∀ j ≠ shift, word'.getLsbD j = word.getLsbD j) : Occupied (bitmap.set loc word') i ↔
      if i = loc * 64 + shift then word'.getLsbD shift = false else Occupied bitmap i := by
  rw [occupied_set hword]
  by_cases hloc : i / 64 = loc
  · by_cases hi : i % 64 = shift
    · rw [if_pos hloc, if_pos (by omega), hi]
    · rw [if_pos hloc, if_neg (by omega), hsame _ hi, Occupied, hloc, hword]
      simp
  · rw [if_neg hloc, if_neg (by omega)]

lemma occupied_set_xor (hword : bitmap[loc]? = some word) (hshift : shift < 64) (hfree : word.getLsbD shift = true) :
    Occupied (bitmap.set loc (word ^^^ (1#64 <<< shift))) i ↔ Occupied bitmap i ∨ i = loc * 64 + shift := by
  rw [occupied_set_bit hword hshift fun j hj => by simp [getLsbD_mask hshift, hj]]
  split_ifs with hi <;> simp [hi, getLsbD_mask hshift, hfree]

lemma occupied_set_or (hword : bitmap[loc]? = some word) (hshift : shift < 64) :
    Occupied (bitmap.set loc (word ||| (1#64 <<< shift))) i ↔ Occupied bitmap i ∧ i ≠ loc * 64 + shift := by
  rw [occupied_set_bit hword hshift fun j hj => by simp [getLsbD_mask hshift, hj]]
  split_ifs with hi <;> simp [hi, getLsbD_mask hshift]

lemma occupied_concat : Occupied (bitmap ++ [word]) i ↔
    Occupied bitmap i ∨ i / 64 = bitmap.length ∧ word.getLsbD (i % 64) = false := by
  rw [Occupied, Occupied]
  rcases lt_trichotomy (i / 64) bitmap.length with h | h | h
  · simp [getElem?_append_left h, h.ne]
  · simp [h]
  · have h1 : (bitmap ++ [word])[i / 64]? = none := getElem?_eq_none (by simp; omega)
    have h2 : bitmap[i / 64]? = none := getElem?_eq_none h.le
    simp [h1, h2, h.ne']

lemma occupied_rdropWhile : Occupied (bitmap.rdropWhile (· == ~~~0#64)) i ↔ Occupied bitmap i := by
  induction bitmap using reverseRecOn with
  | nil => rw [rdropWhile_nil]
  | append_singleton bitmap word ih =>
    rw [rdropWhile_concat]
    split_ifs with hword
    · obtain rfl : word = ~~~0#64 := by simpa using hword
      have hone : (~~~0#64).getLsbD (i % 64) = true := by
        rw [BitVec.getLsbD_not]
        simpa using mod_lt i (by decide)
      rw [ih, occupied_concat, hone]
      simp
    · rfl

lemma getElem?_rdropWhile {n : ℕ} (hword : bitmap[n]? = some word) (hne : word ≠ ~~~0#64) :
    (bitmap.rdropWhile (· == ~~~0#64))[n]? = some word := by
  induction bitmap using reverseRecOn with
  | nil => simp at hword
  | append_singleton bitmap last ih =>
    rw [rdropWhile_concat]
    split_ifs with hlast
    · rcases lt_trichotomy n bitmap.length with hn | rfl | hn
      · exact ih (by rwa [getElem?_append_left hn] at hword)
      · obtain rfl : last = word := by simpa using hword
        exact absurd (eq_of_beq hlast) hne
      · rw [getElem?_eq_none (by simp; omega)] at hword
        cases hword
    · exact hword

/-! ## The finger -/

namespace SizedHeap

/-- The words before the finger have no free slot. -/
structure Fingered (H : SizedHeap) : Prop where
  le : H.finger ≤ H.bitmap.length
  zero : ∀ n < H.finger, H.bitmap[n]? = some 0#64

lemma Fingered.advanced (h : H.Fingered) : H.advanced ≤ H.bitmap.length ∧
    (∀ n < H.advanced, H.bitmap[n]? = some 0#64) ∧ ∀ word, H.bitmap[H.advanced]? = some word → word ≠ 0#64 := by
  obtain ⟨hbefore, hstop⟩ := ListSearch.getElem?_length_takeWhile (· == 0#64) (H.bitmap.drop H.finger)
  have hle := h.le
  have hlen := (takeWhile_sublist (· == 0#64) (l := H.bitmap.drop H.finger)).length_le
  rw [length_drop] at hlen
  rw [SizedHeap.advanced]
  refine ⟨by omega, fun n hn => ?_, fun word hword => ?_⟩
  · by_cases hfinger : n < H.finger
    · exact h.zero n hfinger
    · obtain ⟨m, rfl⟩ := Nat.exists_eq_add_of_le (not_lt.mp hfinger)
      obtain ⟨word, hword, hzero⟩ := hbefore m (by omega)
      rw [getElem?_drop] at hword
      rw [hword, eq_of_beq hzero]
  · simpa using hstop word (by rwa [getElem?_drop])

lemma ctz_of_ne_zero (h : word ≠ 0#64) : ctz word.toNat < 64 ∧ word.getLsbD (ctz word.toNat) = true ∧
    ∀ n < ctz word.toNat, word.getLsbD n = false := by
  have hexists : ∃ n < 64, word.getLsbD n = true := by
    by_contra hall
    push Not at hall
    exact h (BitVec.eq_of_getLsbD_eq fun n hn => by simpa using hall n hn)
  obtain ⟨n, hn, hbit⟩ := hexists
  have hsome : ((range 64).find? fun i => word.toNat.testBit i).isSome = true :=
    find?_isSome.mpr ⟨n, mem_range.mpr hn, by rwa [BitVec.testBit_toNat]⟩
  obtain ⟨m, hm⟩ := isSome_iff_exists.mp hsome
  rw [ctz, hm]
  obtain ⟨hbit, hlt, hbefore⟩ := find?_range_eq_some.mp hm
  exact ⟨mem_range.mp hlt, hbit, fun n hn => by simpa [BitVec.testBit_toNat] using hbefore n hn⟩

/-- The slot handed out is the free one with the lowest index. -/
lemma allocate_eq (h : H.Fingered) (B : Bin) : ∃ i H', ¬ Occupied H.bitmap i ∧ (∀ j < i, Occupied H.bitmap j) ∧
    H.allocate B = (B.index2pos i).map (fun pos => (B.base + pos, H')) ∧
      (∀ j, Occupied H'.bitmap j ↔ Occupied H.bitmap j ∨ j = i) ∧ H'.Fingered ∧ H'.quarantine = H.quarantine := by
  obtain ⟨hle, hzero, hword⟩ := h.advanced
  have hbefore : ∀ j, j / 64 < H.advanced → Occupied H.bitmap j := fun j hj => ⟨0#64, hzero _ hj, BitVec.getLsbD_zero⟩
  rw [allocate]
  cases hat : H.bitmap[H.advanced]? with
  | some word =>
    obtain ⟨hshift, hbit, hlow⟩ := ctz_of_ne_zero (hword word hat)
    refine ⟨_, _, ?_, fun j hj => ?_, rfl, fun j => occupied_set_xor hat hshift hbit, ⟨?_, ?_⟩, rfl⟩
    · rintro ⟨_, hword', hbit'⟩
      rw [show (H.advanced * 64 + ctz word.toNat) / 64 = H.advanced by omega, hat] at hword'
      cases hword'
      rw [show (H.advanced * 64 + ctz word.toNat) % 64 = ctz word.toNat by omega, hbit] at hbit'
      cases hbit'
    · by_cases hloc : j / 64 < H.advanced
      · exact hbefore j hloc
      · obtain hloc : j / 64 = H.advanced := by omega
        exact ⟨word, hloc ▸ hat, hlow _ (by omega)⟩
    · rw [length_set]
      exact hle
    · intro n hn
      rw [getElem?_set, if_neg (ne_of_gt hn)]
      exact hzero n hn
  | none =>
    have hlen : H.advanced = H.bitmap.length := le_antisymm hle (getElem?_eq_none_iff.mp hat)
    refine ⟨_, _, ?_, fun j hj => hbefore j (by omega), rfl, fun j => ?_, ⟨?_, ?_⟩, rfl⟩
    · rintro ⟨_, hword', -⟩
      rw [Nat.mul_div_cancel _ (by decide), hat] at hword'
      cases hword'
    · have hnew : (~~~1#64).getLsbD (j % 64) = false ↔ j % 64 = 0 := by
        have := mod_lt j (show 64 > 0 by decide)
        rw [BitVec.getLsbD_not]
        simp [this]
      rw [occupied_concat, hnew]
      refine or_congr_right ?_
      omega
    · rw [length_append]
      exact hle.trans (le_add_right _ _)
    · intro n hn
      rw [getElem?_append_left (lt_of_lt_of_le hn hle)]
      exact hzero n hn

lemma release_eq_some (h : H.Fingered) (hi : Occupied H.bitmap i) :
    ∃ H', H.release i = some H' ∧ (∀ j, Occupied H'.bitmap j ↔ Occupied H.bitmap j ∧ j ≠ i) ∧ H'.Fingered ∧
      H'.quarantine = H.quarantine := by
  obtain ⟨word, hword, hbit⟩ := hi
  have hshift : i % 64 < 64 := mod_lt i (by decide)
  have hindex : i / 64 * 64 + i % 64 = i := div_add_mod' i 64
  rw [release, hword]
  refine ⟨_, if_pos ((and_mask_eq_zero_iff hshift).mpr hbit), fun j => ?_, ?_, rfl⟩
  · have hset := occupied_set_or (i := j) hword hshift
    rw [hindex] at hset
    rw [← hset]
    dsimp only
    split_ifs
    · exact occupied_rdropWhile
    · rfl
  · have hfinger : ∀ {n}, n < (if i / 64 < H.finger then i / 64 else H.finger) → n < i / 64 ∧ n < H.finger := by
      intro n hn
      split_ifs at hn <;> omega
    have hzero : ∀ {n}, n < (if i / 64 < H.finger then i / 64 else H.finger) →
        (if i / 64 + 1 = (H.bitmap.set (i / 64) (word ||| 1#64 <<< (i % 64))).length then
          (H.bitmap.set (i / 64) (word ||| 1#64 <<< (i % 64))).rdropWhile (· == ~~~0#64)
        else H.bitmap.set (i / 64) (word ||| 1#64 <<< (i % 64)))[n]? = some 0#64 := by
      intro n hn
      obtain ⟨hn1, hn2⟩ := hfinger hn
      have hset : (H.bitmap.set (i / 64) (word ||| 1#64 <<< (i % 64)))[n]? = some 0#64 := by
        rw [getElem?_set, if_neg hn1.ne']
        exact h.zero n hn2
      split_ifs
      · exact getElem?_rdropWhile hset (by decide)
      · exact hset
    refine ⟨?_, fun n => hzero⟩
    by_contra hgt
    have := hzero (not_le.mp hgt)
    simp at this

end SizedHeap

/-! ## Runs -/

structure Owns (B : Bin) (H : SizedHeap) (slots : List ℕ) : Prop where
  fingered : H.Fingered
  nodup : slots.Nodup
  isSlot : ∀ p ∈ slots, B.base ≤ p ∧ B.IsSlot (p - B.base)
  occupied : ∀ i, Occupied H.bitmap i ↔ ∃ p ∈ slots, B.pos2index (p - B.base) = i

namespace Owns
variable {slots slots' : List ℕ}

lemma perm (h : Owns B H slots) (hperm : slots'.Perm slots) : Owns B H slots' where
  fingered := h.fingered
  nodup := hperm.nodup_iff.mpr h.nodup
  isSlot p hp := h.isSlot p (hperm.mem_iff.mp hp)
  occupied i := by simp only [h.occupied, hperm.mem_iff]

lemma withQuarantine (h : Owns B H slots) (quarantine : Quarantine ℕ) :
    Owns B ⟨H.bitmap, H.finger, quarantine⟩ slots where
  fingered := ⟨h.fingered.le, h.fingered.zero⟩
  nodup := h.nodup
  isSlot := h.isSlot
  occupied := h.occupied

lemma allocate (h : Owns B H slots) (hp : H.allocate B = some (p, H')) :
    Owns B H' (p :: slots) ∧ H'.quarantine = H.quarantine := by
  obtain ⟨i, _, hfree, -, heq, hocc, hfingered, hq⟩ := SizedHeap.allocate_eq h.fingered B
  obtain ⟨pos, hpos, heq⟩ := map_eq_some_iff.mp (heq.symm.trans hp)
  obtain ⟨rfl, rfl⟩ := Prod.mk.inj heq
  have hindex : B.pos2index (B.base + pos - B.base) = i := by
    rw [Nat.add_sub_cancel_left]
    exact (Bin.index2pos_eq_some_iff.mp hpos).2.2
  refine ⟨⟨hfingered, nodup_cons.mpr ⟨fun hmem => ?_, h.nodup⟩, ?_, fun j => ?_⟩, hq⟩
  · exact hfree ((h.occupied i).mpr ⟨_, hmem, hindex⟩)
  · intro q hq
    rcases mem_cons.mp hq with rfl | hq
    · refine ⟨le_add_right _ _, ?_⟩
      rw [Bin.IsSlot, hindex, hpos, Nat.add_sub_cancel_left]
    · exact h.isSlot q hq
  · simp only [hocc, h.occupied, mem_cons, exists_eq_or_imp, hindex]
    rw [or_comm, eq_comm]

lemma release (h : Owns B H slots) (hp : p ∈ slots) :
    ∃ H', H.release (B.pos2index (p - B.base)) = some H' ∧ Owns B H' (slots.erase p) ∧
      H'.quarantine = H.quarantine ∧ ¬ Occupied H'.bitmap (B.pos2index (p - B.base)) := by
  obtain ⟨H', heq, hocc, hfingered, hq⟩ := SizedHeap.release_eq_some h.fingered ((h.occupied _).mpr ⟨p, hp, rfl⟩)
  refine ⟨H', heq, ⟨hfingered, h.nodup.erase p, fun q hq => h.isSlot q (mem_of_mem_erase hq), fun j => ?_⟩, hq,
    fun h => ((hocc _).mp h).2 rfl⟩
  rw [hocc, h.occupied]
  constructor
  · rintro ⟨⟨q, hq, rfl⟩, hne⟩
    exact ⟨q, (mem_erase_of_ne fun heq => hne (by rw [heq])).mpr hq, rfl⟩
  · rintro ⟨q, hq, rfl⟩
    obtain ⟨hqp, hq⟩ := (h.nodup.mem_erase_iff).mp hq
    refine ⟨⟨q, hq, rfl⟩, fun hindex => hqp ?_⟩
    -- Equal indices give equal positions.
    obtain ⟨_, hsq⟩ := h.isSlot q hq
    obtain ⟨_, hsp⟩ := h.isSlot p hp
    rw [Bin.IsSlot, hindex, hsp] at hsq
    have := some.inj hsq
    omega

end Owns

/-- The heap, the live addresses and those in quarantine. Only live addresses are deallocated. -/
inductive SlotRun (B : Bin) (quarantineSize : ℕ) : SizedHeap → List ℕ → List ℕ → Prop
  | start : SlotRun B quarantineSize (.initial quarantineSize) [] []
  | allocate {H H' : SizedHeap} {live quarantined : List ℕ} {p : ℕ} (h : SlotRun B quarantineSize H live quarantined)
      (hp : H.allocate B = some (p, H')) : SlotRun B quarantineSize H' (p :: live) quarantined
  | deallocate {H H' : SizedHeap} {live quarantined : List ℕ} {p : ℕ} (h : SlotRun B quarantineSize H live quarantined)
      (hp : p ∈ live) (hH : H.deallocate B p = some H') :
      SlotRun B quarantineSize H' (live.erase p) (Quarantine.after quarantined p (H.quarantine.deallocate p).1)

structure SlotInvariant (B : Bin) (H : SizedHeap) (live quarantined : List ℕ) : Prop where
  owns : Owns B H (live ++ quarantined)
  valid : H.quarantine.Valid
  held : H.quarantine.held.Subperm quarantined

namespace SlotInvariant
variable {live quarantined : List ℕ}

lemma deallocate (h : SlotInvariant B H live quarantined) (hp : p ∈ live) :
    ∃ H', H.deallocate B p = some H' ∧ SlotInvariant B H' (live.erase p)
      (Quarantine.after quarantined p (H.quarantine.deallocate p).1) ∧
      H'.quarantine = (H.quarantine.deallocate p).2 ∧ ((H.quarantine.deallocate p).1 ≠ default →
        ¬ Occupied H'.bitmap (B.pos2index ((H.quarantine.deallocate p).1 - B.base))) := by
  obtain ⟨hsub, hmem⟩ := deallocate_held h.valid p
  have hheld := hsub.trans (after_subperm h.held p (H.quarantine.deallocate p).1)
  have hvalid := deallocate_valid h.valid p
  have hmoved : (live.erase p ++ p :: quarantined).Perm (live ++ quarantined) :=
    perm_middle.trans ((perm_cons_erase hp).symm.append_right quarantined)
  have howns := (h.owns.perm hmoved).withQuarantine (H.quarantine.deallocate p).2
  by_cases hzero : (H.quarantine.deallocate p).1 = default
  · refine ⟨_, if_pos hzero, ⟨?_, hvalid, hheld⟩, rfl, fun hne => absurd hzero hne⟩
    rw [Quarantine.after, if_pos hzero]
    exact howns
  · have hreleased : (H.quarantine.deallocate p).1 ∈ p :: quarantined :=
      cons_subset_cons p h.held.subset (hmem hzero)
    obtain ⟨H', heq, howns', hq, hfree⟩ := howns.release (mem_append_right _ hreleased)
    have hnot : (H.quarantine.deallocate p).1 ∉ live.erase p := fun hlive =>
      disjoint_of_nodup_append howns.nodup hlive hreleased
    rw [erase_append_right _ hnot] at howns'
    refine ⟨H', (if_neg hzero).trans heq, ⟨?_, hq ▸ hvalid, hq ▸ hheld⟩, hq, fun _ => hfree⟩
    rwa [Quarantine.after, if_neg hzero]

end SlotInvariant

lemma SlotRun.invariant {quarantineSize : ℕ} {live quarantined : List ℕ}
    (h : SlotRun B quarantineSize H live quarantined) : SlotInvariant B H live quarantined := by
  induction h with
  | start =>
    refine ⟨⟨⟨le_rfl, by simp [SizedHeap.initial]⟩, nodup_nil, by simp, fun i => ?_⟩, valid_initial _, ?_⟩
    · simp [Occupied, SizedHeap.initial]
    · exact List.Subperm.refl _
  | allocate _ hp ih =>
    obtain ⟨howns, hq⟩ := ih.owns.allocate hp
    exact ⟨howns, hq ▸ ih.valid, hq ▸ ih.held⟩
  | deallocate _ hp hH ih =>
    obtain ⟨H'', heq, hinv, -⟩ := ih.deallocate hp
    obtain rfl : H'' = _ := some.inj (heq.symm.trans hH)
    exact hinv

def LowestFree (B : Bin) (slots : List ℕ) (i : ℕ) : Prop :=
  (∀ p ∈ slots, B.pos2index (p - B.base) ≠ i) ∧ ∀ j < i, ∃ p ∈ slots, B.pos2index (p - B.base) = j

lemma LowestFree.unique {slots slots' : List ℕ} {j : ℕ} (h : LowestFree B slots i) (h' : LowestFree B slots' j)
    (heq : ∀ p, p ∈ slots ↔ p ∈ slots') : i = j := by
  rcases lt_trichotomy i j with hlt | rfl | hlt
  · obtain ⟨p, hp, hi⟩ := h'.2 i hlt
    exact absurd hi (h.1 p ((heq p).mpr hp))
  · rfl
  · obtain ⟨p, hp, hj⟩ := h.2 j hlt
    exact absurd hj (h'.1 p ((heq p).mp hp))

lemma Owns.lowestFree {slots : List ℕ} (h : Owns B H slots) : ∃ i, LowestFree B slots i ∧
    (H.allocate B).map Prod.fst = (B.index2pos i).map (B.base + ·) := by
  obtain ⟨i, H', hfree, hlow, heq, -⟩ := SizedHeap.allocate_eq h.fingered B
  refine ⟨i, ⟨fun p hp hi => hfree ((h.occupied i).mpr ⟨p, hp, hi⟩), fun j hj => (h.occupied j).mp (hlow j hj)⟩, ?_⟩
  rw [heq, Option.map_map]
  rfl

/-- A bin always hands out the lowest slot that is neither live nor quarantined. -/
theorem SlotRun.allocate_lowest {quarantineSize : ℕ} {live quarantined : List ℕ}
    (h : SlotRun B quarantineSize H live quarantined) :
    (∃ i, LowestFree B (live ++ quarantined) i ∧ (H.allocate B).map Prod.fst = (B.index2pos i).map (B.base + ·)) ∧
      (∀ quarantineSize' H' live' quarantined', SlotRun B quarantineSize' H' live' quarantined' →
        (∀ p, p ∈ live ++ quarantined ↔ p ∈ live' ++ quarantined') →
          (H'.allocate B).map Prod.fst = (H.allocate B).map Prod.fst) ∧
      H.finger ≤ H.bitmap.length ∧ ∀ n < H.finger, H.bitmap[n]? = some 0#64 := by
  obtain ⟨howns, -, -⟩ := h.invariant
  obtain ⟨i, hi, heq⟩ := howns.lowestFree
  refine ⟨⟨i, hi, heq⟩, fun _ H' _ _ h' hsame => ?_, howns.fingered.le, howns.fingered.zero⟩
  obtain ⟨j, hj, heq'⟩ := h'.invariant.owns.lowestFree
  rw [heq, heq', hi.unique hj hsame]

/-- The slots in use lie inside the bin with a byte or more between them; positions and indices correspond. -/
theorem SlotRun.disjoint_slots {quarantineSize : ℕ} {live quarantined : List ℕ}
    (h : SlotRun B quarantineSize H live quarantined) :
    ((live ++ quarantined).Pairwise fun p q => p + B.slotSize < q ∨ q + B.slotSize < p) ∧
      (∀ p ∈ live ++ quarantined, B.base ≤ p ∧ p + B.slotSize ≤ B.base + B.size) ∧
      (∀ index pos, B.index2pos index = some pos → B.pos2index pos = index) ∧
      ∀ pos, 0 < pos → pos < B.size → B.slotSize < 2 ^ ctz pos → B.index2pos (B.pos2index pos) = some pos := by
  obtain ⟨howns, -, -⟩ := h.invariant
  refine ⟨?_, fun p hp => ?_, fun index pos hpos => (Bin.index2pos_eq_some_iff.mp hpos).2.2, ?_⟩
  · refine howns.nodup.imp_of_mem fun {p q} hp hq hne => ?_
    obtain ⟨_, hsp⟩ := howns.isSlot p hp
    obtain ⟨_, hsq⟩ := howns.isSlot q hq
    rcases lt_or_gt_of_ne hne with hlt | hlt
    · have := hsp.lt_of_lt hsq (by omega)
      omega
    · have := hsq.lt_of_lt hsp (by omega)
      omega
  · obtain ⟨_, hsp⟩ := howns.isSlot p hp
    have := hsp.le_size
    omega
  · intro pos hpos hlt hslot
    exact Bin.index2pos_eq_some_iff.mpr ⟨⟨hpos, hlt⟩, hslot, rfl⟩

def smallBin : Bin := ⟨4096, 64, 4, 6, by decide, rfl⟩

theorem SlotRun.disjoint_slots_smallBin : ∃ H, SlotRun smallBin 1 H [4112] [4128] ∧
      (([4112] ++ [4128]).Pairwise fun p q => p + smallBin.slotSize < q ∨ q + smallBin.slotSize < p) ∧
      (∀ p ∈ [4112] ++ [4128], smallBin.base ≤ p ∧ p + smallBin.slotSize ≤ smallBin.base + smallBin.size) ∧
      (∀ index pos, smallBin.index2pos index = some pos → smallBin.pos2index pos = index) ∧
      ∀ pos, 0 < pos → pos < smallBin.size → smallBin.slotSize < 2 ^ ctz pos →
        smallBin.index2pos (smallBin.pos2index pos) = some pos := by
  have hfirst : SlotRun smallBin 1 ⟨[~~~1#64], 0, .initial 1⟩ [4128] [] := SlotRun.start.allocate rfl
  have hsecond : SlotRun smallBin 1 ⟨[~~~3#64], 0, .initial 1⟩ [4112, 4128] [] := hfirst.allocate rfl
  have hrun : SlotRun smallBin 1 ⟨[~~~3#64], 0, ⟨some [4128], 1, 0⟩⟩ [4112] [4128] :=
    hsecond.deallocate (by decide) rfl
  exact ⟨_, hrun, hrun.disjoint_slots⟩

theorem SlotRun.allocate_lowest_smallBin :
    ∃ H, SlotRun smallBin 0 H [4112, 4128] [] ∧ (H.allocate smallBin).map Prod.fst = some 4144 ∧
      (∀ H', SlotRun smallBin 1 H' [4128] [4112] → (H'.allocate smallBin).map Prod.fst = some 4144) ∧ H.finger ≤ 1 := by
  have hrun : SlotRun smallBin 0 ⟨[~~~3#64], 0, .initial 0⟩ [4112, 4128] [] :=
    (SlotRun.start.allocate rfl).allocate rfl
  obtain ⟨-, hsame, hle, -⟩ := hrun.allocate_lowest
  exact ⟨_, hrun, rfl, fun H' h' => hsame 1 H' _ _ h' (by simp [or_comm]), hle⟩

end Pseudoalloc
