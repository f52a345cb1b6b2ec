import PorSe.Pseudoalloc.FreeRanges
import PorSe.Pseudoalloc.SizedHeap

/-! The allocator of a mapping has a bin for each of nine sizes and, behind the bins, the heap for
larger objects. The memory manager asks it for the alignment when that is larger than the size. -/

namespace Pseudoalloc
open List SortedMap Option

def slotSizes : List ℕ := [1, 4, 8, 16, 32, 64, 256, 1024, 4096]

def size2bin (size : ℕ) : ℕ := slotSizes.findIdx (size ≤ ·)

structure Mapping where
  base : ℕ
  size : ℕ

def Mapping.binSize (M : Mapping) : ℕ := 1 <<< (63 - clz (M.size / 10))

def Mapping.bin (M : Mapping) (i : ℕ) : Option Bin :=
  slotSizes[i]?.map fun slotSize =>
    ⟨M.base + i * M.binSize, M.binSize, slotSize, _, by omega, Nat.one_shiftLeft _⟩

structure Allocator where
  mapping : Mapping
  bins : ℕ → SizedHeap
  loh : LargeObjectHeap

namespace Allocator

def initial (M : Mapping) (quarantineSize : ℕ) : Allocator where
  mapping := M
  bins _ := .initial quarantineSize
  loh := .initial (M.base + 9 * M.binSize) (M.size - 9 * M.binSize) quarantineSize

def allocate (A : Allocator) (size : ℕ) : Option (ℕ × Allocator) :=
  let bin := size2bin size
  match A.mapping.bin bin with
  | some B => ((A.bins bin).allocate B).map fun (ptr, H) => (ptr, { A with bins := Function.update A.bins bin H })
  | none => (A.loh.allocate size).map fun (ptr, loh) => (ptr, { A with loh })

def free (A : Allocator) (ptr size : ℕ) : Option Allocator :=
  let bin := size2bin size
  match A.mapping.bin bin with
  | some B => ((A.bins bin).deallocate B ptr).map fun H => { A with bins := Function.update A.bins bin H }
  | none => (A.loh.deallocate ptr size).map fun loh => { A with loh }

/-- The states after any calls of which none fails an assertion. -/
inductive Reached (M : Mapping) (quarantineSize : ℕ) : Allocator → Prop
  | initial : Reached M quarantineSize (initial M quarantineSize)
  | allocate {A A' : Allocator} {s p : ℕ} (h : Reached M quarantineSize A) (hp : A.allocate s = some (p, A')) :
      Reached M quarantineSize A'
  | free {A A' : Allocator} {s p : ℕ} (h : Reached M quarantineSize A) (hp : A.free p s = some A') :
      Reached M quarantineSize A'

end Allocator

/-! ## Free ranges start at whole pages -/

section
variable {m m' : SortedMap ℕ (List ℕ)} {v : List ℕ} {k x : ℕ} {H H' : LargeObjectHeap}

lemma dvd_roundUp (x : ℕ) : 4096 ∣ roundUpToMultipleOf4096 x := by
  rw [roundUpToMultipleOf4096, or_4095, add64]
  omega

lemma dvd_add64 {a b : ℕ} (ha : 4096 ∣ a) (hb : 4096 ∣ b) : 4096 ∣ add64 a b := by
  rw [add64]
  omega

def OnPages (m : SortedMap ℕ (List ℕ)) : Prop := ∀ e ∈ m.entries, ∀ p ∈ e.2, 4096 ∣ p

lemma OnPages.replaceVector (h : OnPages m) (hv : ∀ p ∈ v, 4096 ∣ p) : OnPages (replaceVector m k v) := by
  intro e he
  rw [Pseudoalloc.replaceVector] at he
  split_ifs at he
  · exact h e (mem_of_mem_filter he)
  · rcases mem_insertIn he with rfl | he
    · exact hv
    · exact h e he

lemma OnPages.emplaceBack (h : OnPages m) (hx : 4096 ∣ x) : OnPages (emplaceBack m k x) := by
  intro e he p hp
  rcases mem_insertIn he with rfl | he
  · rcases mem_append.mp hp with hp | hp
    · cases hv : m.find? k with
      | none => simp [hv] at hp
      | some v => exact h (k, v) (mem_entries_iff.mpr hv) p (by simpa [hv] using hp)
    · exact mem_singleton.mp hp ▸ hx
  · exact h e he p hp

lemma dvd_of_mem_swapRemove (hv : ∀ p ∈ v, 4096 ∣ p) (x : ℕ) : ∀ p ∈ swapRemove v x, 4096 ∣ p := by
  intro p hp
  rcases mem_or_eq_of_mem_set (mem_of_mem_dropLast hp) with hp | rfl
  · exact hv p hp
  · rw [getLastD_eq_getLast?]
    cases hlast : v.getLast? with
    | none => exact dvd_zero _
    | some y => exact hv y (mem_of_getLast? hlast)

lemma OnPages.extractBoth (h : OnPages m) {l ls r rs : ℕ} (hm : LargeObjectHeap.extractBoth m l ls r rs = some m') :
    OnPages m' := by
  rw [LargeObjectHeap.extractBoth] at hm
  cases hl : m.find? ls with
  | none => simp [hl] at hm
  | some left =>
    have hleft := h (ls, left) (mem_entries_iff.mpr hl)
    simp only [hl] at hm
    split_ifs at hm
    · cases hm
      refine h.replaceVector ?_
      rw [swapRemoveBoth]
      split_ifs <;> exact dvd_of_mem_swapRemove (dvd_of_mem_swapRemove hleft _) _
    · obtain ⟨right, hr, rfl⟩ := map_eq_some_iff.mp hm
      have h' := h.replaceVector (k := ls) (dvd_of_mem_swapRemove hleft l)
      exact h'.replaceVector (dvd_of_mem_swapRemove (h' (rs, right) (mem_entries_iff.mpr hr)) r)

namespace LargeObjectHeap

structure Paged (H : LargeObjectHeap) : Prop where
  map1 : OnPages H.map1
  map2 : ∀ e ∈ H.map2.entries, 4096 ∣ e.1

lemma Paged.allocate {s p : ℕ} (h : H.Paged) (hp : H.allocate s = some (p, H')) : 4096 ∣ p ∧ H'.Paged := by
  obtain ⟨rangeSize, _, rangePos, hlast, hpos, -, hplace⟩ := allocate_eq_some hp
  have hpositions := h.map1 _ (mem_of_getLast? hlast)
  have hrange := hpositions rangePos (mem_of_getLast? hpos)
  have hs := dvd_roundUp s
  have hblock := dvd_add64 hrange (dvd_roundUp (sub64 rangeSize (roundUpToMultipleOf4096 s) / 2))
  obtain ⟨rfl, rfl⟩ := Prod.mk.inj hplace
  have hmap1 := h.map1.replaceVector (k := rangeSize) fun p hp => hpositions p (mem_of_mem_dropLast hp)
  refine ⟨hblock, (hmap1.emplaceBack hrange).emplaceBack (dvd_add64 hblock hs), fun e he => ?_⟩
  have hleft : ∀ {n}, e ∈ (H.map2.insert rangePos n).entries → 4096 ∣ e.1 := fun he =>
    (mem_insertIn he).elim (fun heq => heq ▸ hrange) (h.map2 e)
  rw [emplace] at he
  split_ifs at he
  · exact hleft he
  · exact (mem_insertIn he).elim (fun heq => heq ▸ dvd_add64 hblock hs) hleft

lemma Paged.deallocate {ptr s : ℕ} (h : H.Paged) (hH : H.deallocate ptr s = some H') : H'.Paged := by
  rw [LargeObjectHeap.deallocate] at hH
  dsimp only at hH
  split_ifs at hH
  · exact some.inj hH ▸ ⟨h.map1, h.map2⟩
  · rw [release] at hH
    split at hH
    · cases hH
    · split at hH
      · rename_i rightPos _ _ _ rightSize leftPos leftSize hright hprev
        obtain ⟨_, hmap1, rfl⟩ := map_eq_some_iff.mp hH
        have hleft := h.map2 _ (mem_of_mem_filter (mem_of_getLast? hprev))
        refine ⟨(h.map1.extractBoth hmap1).emplaceBack hleft, fun e he => ?_⟩
        exact (mem_insertIn (mem_of_mem_filter he)).elim (fun heq => heq ▸ hleft) (h.map2 e)
      · cases hH

end LargeObjectHeap

end

namespace Allocator
variable {M : Mapping} {A A' : Allocator} {quarantineSize s p k : ℕ}

structure Paged (A : Allocator) : Prop where
  base : 4096 ∣ A.mapping.base
  binSize : 4096 ∣ A.mapping.binSize
  loh : A.loh.Paged

lemma paged_initial (hbase : 4096 ∣ M.base) (hsize : 40960 ≤ M.size) : (initial M quarantineSize).Paged := by
  have hlog : 12 ≤ (M.size / 10).log2 := (Nat.le_log2 (by omega)).mpr (by omega)
  have hbin : 4096 ∣ M.binSize := by
    rw [Mapping.binSize, Nat.one_shiftLeft, clz]
    exact pow_dvd_pow 2 (by omega : 12 ≤ _)
  have hloh := hbase.add (hbin.mul_left 9)
  refine ⟨hbase, hbin, fun e he p hp => ?_, fun e he => ?_⟩
  · obtain rfl := mem_singleton.mp he
    exact mem_singleton.mp hp ▸ hloh
  · obtain rfl := mem_singleton.mp he
    exact hloh

lemma Reached.paged (h : A.Reached M quarantineSize) (hM : (Allocator.initial M quarantineSize).Paged) : A.Paged := by
  induction h with
  | initial => exact hM
  | allocate _ hp ih =>
    rw [Allocator.allocate] at hp
    split at hp <;> obtain ⟨⟨p, r⟩, hr, heq⟩ := map_eq_some_iff.mp hp <;> obtain rfl := (Prod.mk.inj heq).2
    · exact ⟨ih.base, ih.binSize, ih.loh⟩
    · exact ⟨ih.base, ih.binSize, (ih.loh.allocate hr).2⟩
  | free _ hp ih =>
    rw [Allocator.free] at hp
    split at hp <;> obtain ⟨r, hr, rfl⟩ := map_eq_some_iff.mp hp
    · exact ⟨ih.base, ih.binSize, ih.loh⟩
    · exact ⟨ih.base, ih.binSize, ih.loh.deallocate hr⟩

lemma Paged.dvd (h : A.Paged) (hp : A.allocate s = some (p, A')) (hk : 2 ^ k ≤ s) (hpage : k ≤ 12) : 2 ^ k ∣ p := by
  have hpow : 2 ^ k ∣ 4096 := pow_dvd_pow 2 hpage
  rw [Allocator.allocate] at hp
  split at hp <;> obtain ⟨⟨p, r⟩, hr, heq⟩ := map_eq_some_iff.mp hp <;> obtain rfl := (Prod.mk.inj heq).1
  · rename_i B hB
    obtain ⟨_, hslot, rfl⟩ := map_eq_some_iff.mp hB
    obtain ⟨hlt, rfl⟩ := List.getElem?_eq_some_iff.mp hslot
    have hle : s ≤ slotSizes[size2bin s] := of_decide_eq_true (findIdx_getElem (w := hlt))
    obtain ⟨_, hpos, rfl⟩ := Bin.isSlot_of_allocate hr
    obtain ⟨a, hslot, hdvd, -⟩ := hpos.exists_dvd
    have hka : k ≤ a := ((Nat.pow_lt_pow_iff_right (by decide)).mp (hk.trans_lt (hle.trans_lt hslot))).le
    exact (hpow.trans (h.base.add (h.binSize.mul_left _))).add ((pow_dvd_pow 2 hka).trans hdvd)
  · exact hpow.trans (h.loh.allocate hr).1

/-! ## Objects of sized bins -/

lemma bin_le {i j : ℕ} {X Y : Bin} (hX : M.bin i = some X) (hY : M.bin j = some Y) (h : i < j) :
    X.base + X.size ≤ Y.base := by
  obtain ⟨_, -, rfl⟩ := map_eq_some_iff.mp hX
  obtain ⟨_, -, rfl⟩ := map_eq_some_iff.mp hY
  have hle := Nat.mul_le_mul_right M.binSize (Nat.succ_le_of_lt h)
  rw [Nat.succ_mul] at hle
  dsimp only
  omega

lemma exists_slot (hs : s ≤ 4096) (hp : A.allocate s = some (p, A')) :
    ∃ B pos, A.mapping.bin (size2bin s) = some B ∧ s ≤ B.slotSize ∧ B.IsSlot pos ∧ p = B.base + pos := by
  have hlt : size2bin s < slotSizes.length := findIdx_lt_length_of_exists ⟨4096, by simp [slotSizes], by simpa⟩
  have hB : A.mapping.bin (size2bin s) = some _ := congrArg _ (getElem?_eq_getElem hlt)
  rw [Allocator.allocate, hB] at hp
  obtain ⟨⟨p, r⟩, hr, heq⟩ := map_eq_some_iff.mp hp
  obtain rfl := (Prod.mk.inj heq).1
  obtain ⟨pos, hpos, rfl⟩ := Bin.isSlot_of_allocate hr
  exact ⟨_, pos, hB, of_decide_eq_true (findIdx_getElem (w := hlt)), hpos, rfl⟩

/-- In any states of copies of an allocator, two objects of sized bins have one slot or are apart. -/
theorem same_slot_or_apart {B B' : Allocator} {s' q : ℕ} (hM : A.mapping = B.mapping) (hs : s ≤ 4096)
    (hs' : s' ≤ 4096) (hp : A.allocate s = some (p, A')) (hq : B.allocate s' = some (q, B')) :
    p = q ∧ size2bin s = size2bin s' ∨ p + s ≤ q ∨ q + s' ≤ p := by
  obtain ⟨X, i, hX, hsX, hi, rfl⟩ := exists_slot hs hp
  obtain ⟨Y, j, hY, hsY, hj, rfl⟩ := exists_slot hs' hq
  rw [hM] at hX
  have hiX := hi.le_size
  have hjY := hj.le_size
  rcases lt_trichotomy (size2bin s) (size2bin s') with h | h | h
  · have := bin_le hX hY h
    omega
  · cases hX.symm.trans (h ▸ hY)
    rcases lt_trichotomy i j with hij | rfl | hij
    · have := hi.lt_of_lt hj hij
      omega
    · exact .inl ⟨rfl, h⟩
    · have := hj.lt_of_lt hi hij
      omega
  · have := bin_le hY hX h
    omega

end Allocator

/-! ## The memory manager -/

namespace MemoryManager

structure MemoryObject where
  address : ℕ
  size : ℕ
  alignment : ℕ
  isLocal : Bool

def isPowerOf2 (x : ℕ) : Bool := x ≠ 0 && x &&& (x - 1) = 0

def allocate (nullOnZeroMalloc : Bool) (alloc : Bool → Allocator) (size : ℕ) (isLocal : Bool) (alignment : ℕ) :
    Option (Option MemoryObject × (Bool → Allocator)) :=
  if nullOnZeroMalloc && size = 0 then some (none, alloc)
  else if !isPowerOf2 alignment then some (none, alloc)
  else
    ((alloc isLocal).allocate (max size alignment)).map fun (address, A) =>
      (if address = 0 then none else some ⟨address, size, alignment, isLocal⟩, Function.update alloc isLocal A)

section
variable {nullOnZeroMalloc isLocal : Bool} {alloc alloc' : Bool → Allocator} {M : Mapping}
  {quarantineSize size alignment k : ℕ} {object : MemoryObject}

lemma exists_two_pow (h : isPowerOf2 alignment = true) : ∃ k, alignment = 2 ^ k := by
  simp only [isPowerOf2, Bool.and_eq_true, decide_eq_true_eq] at h
  exact (Nat.and_sub_one_eq_zero_iff_isPowerOfTwo h.1).mp h.2

lemma dvd_address (hbase : 4096 ∣ M.base) (hsize : 40960 ≤ M.size)
    (hreached : (alloc isLocal).Reached M quarantineSize) (hpage : alignment ≤ 4096)
    (h : allocate nullOnZeroMalloc alloc size isLocal alignment = some (some object, alloc')) :
    alignment ∣ object.address := by
  rw [allocate] at h
  split_ifs at h with hnull hpow
  · cases h
  · cases h
  · obtain ⟨⟨_, A⟩, hA, heq⟩ := map_eq_some_iff.mp h
    have heq := (Prod.mk.inj heq).1
    split_ifs at heq
    cases heq
    obtain ⟨k, rfl⟩ := exists_two_pow (by simpa using hpow)
    exact (hreached.paged (Allocator.paged_initial hbase hsize)).dvd hA (le_max_right _ _)
      ((Nat.pow_le_pow_iff_right (by decide)).mp (hpage : _ ≤ 2 ^ 12))

lemma allocate_initial (hs : 4096 < size)
    (hfits : roundUpToMultipleOf4096 size ≤ add64 (M.size - 9 * M.binSize) (2 * 4096)) :
    ∃ A, (Allocator.initial M quarantineSize).allocate size = some (add64 (M.base + 9 * M.binSize)
      (roundUpToMultipleOf4096
        (sub64 (M.size - 9 * M.binSize) (roundUpToMultipleOf4096 size) / 2)), A) := by
  have hbin : (Allocator.initial M quarantineSize).mapping.bin (size2bin size) = none := by
    have hlen : slotSizes.length ≤ size2bin size := by
      refine (findIdx_eq_length_of_false fun x hx => decide_eq_false ?_).ge
      simp only [slotSizes, mem_cons, not_mem_nil, or_false] at hx
      omega
    rw [Mapping.bin, getElem?_eq_none hlen, map_none]
  obtain ⟨loh, hloh⟩ : ∃ loh, (Allocator.initial M quarantineSize).loh.allocate size =
      some (_, loh) := ⟨_, if_neg (not_lt.mpr hfits)⟩
  exact ⟨_, by rw [Allocator.allocate, hbin, hloh]; rfl⟩

/-- A mapping whose large object heap has room for `2 ^ 62` bytes. -/
def wideMapping (base : ℕ) : Mapping := ⟨base, 10 * 2 ^ 60 - 40960⟩

lemma allocate_wideMapping (hk : 12 < k) (hk' : k < 63) : ∃ offset, 0 < offset ∧
    ∀ base < 2 ^ 61, ∃ A, (Allocator.initial (wideMapping base) 0).allocate (2 ^ k) = some (base + offset, A) := by
  have hlow : 2 ^ 13 ≤ 2 ^ k := Nat.pow_le_pow_right (by decide) hk
  have hhigh : 2 ^ k ≤ 2 ^ 62 := Nat.pow_le_pow_right (by decide) (by omega)
  have hround : roundUpToMultipleOf4096 (2 ^ k) = 2 ^ k := by
    have hdvd : 4096 ∣ 2 ^ k := pow_dvd_pow 2 hk.le
    rw [roundUp_eq (by omega) (by omega), pages]
    omega
  have hmiddle : roundUpToMultipleOf4096 (sub64 (11 * 2 ^ 59 - 40960) (2 ^ k) / 2) =
      pages ((11 * 2 ^ 59 - 40960 - 2 ^ k) / 2) := by
    rw [sub64_of_le (by omega) (by omega), roundUp_eq (by omega) (by omega)]
  refine ⟨9 * 2 ^ 59 + pages ((11 * 2 ^ 59 - 40960 - 2 ^ k) / 2), by omega, fun base hbase => ?_⟩
  have hbin : (wideMapping base).binSize = 2 ^ 59 :=
    (by decide : 1 <<< (63 - clz ((10 * 2 ^ 60 - 40960) / 10)) = 2 ^ 59)
  have hsize : (wideMapping base).size - 9 * 2 ^ 59 = 11 * 2 ^ 59 - 40960 :=
    (by decide : 10 * 2 ^ 60 - 40960 - 9 * 2 ^ 59 = 11 * 2 ^ 59 - 40960)
  obtain ⟨A, hA⟩ : ∃ A, (Allocator.initial (wideMapping base) 0).allocate (2 ^ k) = some (_, A) :=
    allocate_initial (by omega) (by
      rw [hround, hbin, hsize, add64]
      omega)
  rw [hround, hbin, hsize, hmiddle, add64_of_lt, add_assoc] at hA
  · exact ⟨A, hA⟩
  · change base + _ + pages _ < _
    rw [pages]
    omega

/-- On mappings of whole pages an alignment is honoured for every request in every state exactly
if it is at most a page. -/
theorem allocate_aligned_iff (hpow : isPowerOf2 alignment = true) (hlt : alignment < 2 ^ 63) :
    (∀ M quarantineSize nullOnZeroMalloc isLocal alloc alloc' size object, 4096 ∣ M.base →
      40960 ≤ M.size → M.base + M.size ≤ 2 ^ 64 →
      (alloc isLocal).Reached M quarantineSize →
      allocate nullOnZeroMalloc alloc size isLocal alignment = some (some object, alloc') →
      alignment ∣ object.address) ↔ alignment ≤ 4096 := by
  obtain ⟨k, rfl⟩ := exists_two_pow hpow
  constructor
  · intro hall
    by_contra hpage
    have hk : 12 < k := (Nat.pow_lt_pow_iff_right (by decide)).mp (not_le.mp hpage : 2 ^ 12 < _)
    have hk' : k < 63 := (Nat.pow_lt_pow_iff_right (by decide)).mp hlt
    obtain ⟨offset, hpos, hoffset⟩ := allocate_wideMapping hk hk'
    -- of two mappings a page apart, one has the object at an odd page
    have hdvd : ∀ base, 4096 ∣ base → base < 2 ^ 61 → 2 ^ k ∣ base + offset := by
      intro base hbase hlt
      obtain ⟨A, hA⟩ := hoffset base hlt
      have hobject : ∃ alloc', allocate false (fun _ => .initial (wideMapping base) 0) 0 false (2 ^ k) =
          some (some ⟨base + offset, 0, 2 ^ k, false⟩, alloc') := by
        simp [allocate, hpow, hA, hpos.ne']
      have hsize : base + (10 * 2 ^ 60 - 40960) ≤ 2 ^ 64 := by omega
      exact hall (wideMapping base) 0 _ _ _ _ _ _ hbase
        (by decide : 40960 ≤ 10 * 2 ^ 60 - 40960) hsize .initial hobject.choose_spec
    have hodd : 2 ^ k ∣ 4096 := by
      have := Nat.dvd_sub (hdvd 8192 (by decide) (by decide)) (hdvd 4096 (by decide) (by decide))
      rwa [Nat.add_sub_add_right] at this
    exact hpage (Nat.le_of_dvd (by decide) hodd)
  · intro hpage M _ _ _ _ _ _ _ hbase hsize _ hreached h
    exact dvd_address hbase hsize hreached hpage h

end

def heap50GiB : Allocator := .initial ⟨2 ^ 40, 50 * 2 ^ 30⟩ 8

theorem allocate_aligned_iff_stack : ∃ object alloc', allocate false (fun _ => heap50GiB) 5 true 16 =
    some (some object, alloc') ∧ 16 ∣ object.address :=
  have ⟨object, alloc', h⟩ : ∃ object alloc',
      allocate false (fun _ => heap50GiB) 5 true 16 = some (some object, alloc') := ⟨_, _, rfl⟩
  ⟨object, alloc', h, (allocate_aligned_iff (by decide) (by decide)).mpr (by decide) ⟨2 ^ 40, 50 * 2 ^ 30⟩ 8
    _ _ _ _ _ _ (by decide) (by decide) (by decide) .initial h⟩

/-- The first block for an alignment of two pages is at an odd page. -/
theorem allocate_misaligned : ∃ object alloc', heap50GiB.Reached ⟨2 ^ 40, 50 * 2 ^ 30⟩ 8 ∧
    allocate false (fun _ => heap50GiB) 8192 false 8192 = some (some object, alloc') ∧ ¬ 8192 ∣ object.address :=
  ⟨_, _, .initial, rfl, by decide⟩

theorem same_slot_or_apart_first : ∃ p q A B, heap50GiB.allocate 5 = some (p, A) ∧ heap50GiB.allocate 3 = some (q, B) ∧
    (p = q ∧ size2bin 5 = size2bin 3 ∨ p + 5 ≤ q ∨ q + 3 ≤ p) := by
  have hp : heap50GiB.allocate 5 = some (_, _) := rfl
  have hq : heap50GiB.allocate 3 = some (_, _) := rfl
  exact ⟨_, _, _, _, hp, hq, Allocator.same_slot_or_apart rfl (by decide) (by decide) hp hq⟩

end MemoryManager
end Pseudoalloc
