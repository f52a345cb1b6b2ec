import PorSe.Pseudoalloc.LargeObjectHeap
import PorSe.Lib.Tiling

/-! Runs of the large object heap. The region is tiled by free ranges and blocks, as long
as each request leaves a page on both sides of it. -/

namespace Pseudoalloc
open List SortedMap Option Tiling LargeObjectHeap Nat

/-! ## Sizes -/

def pages (x : ℕ) : ℕ := 4096 * ((x + 4095) / 4096)

lemma or_4095 (y : ℕ) : y ||| (4096 - 1) = 4096 * (y / 4096) + 4095 := by
  refine eq_of_testBit_eq fun i => ?_
  rw [testBit_or, show 4096 = 2 ^ 12 by rfl, show 4095 = 2 ^ 12 - 1 by rfl,
    testBit_two_pow_mul_add _ (by decide), testBit_two_pow_sub_one, testBit_div_two_pow]
  split_ifs with hi
  · simp [hi]
  · simp [hi, Nat.sub_add_cancel (not_lt.mp hi)]

lemma add64_of_lt {a b : ℕ} (h : a + b < 2 ^ 64) : add64 a b = a + b := mod_eq_of_lt h

lemma sub64_of_le {a b : ℕ} (h : b ≤ a) (ha : a < 2 ^ 64) : sub64 a b = a - b := by
  rw [sub64]
  omega

lemma roundUp_eq {x : ℕ} (hx : 0 < x) (hlt : x ≤ 2 ^ 64 - 4096) :
    roundUpToMultipleOf4096 x = pages x := by
  rw [roundUpToMultipleOf4096, sub64_of_le hx (by omega), or_4095, add64, pages]
  omega

/-- A request that leaves a page to place on one side and more than one in all. -/
structure Fits (size range : ℕ) : Prop where
  pos : 0 < size
  le : pages size + 4096 ≤ range
  lt : size + 4096 < range

structure Placed (size range offset : ℕ) : Prop where
  left : 0 < offset
  right : size + offset < range
  le : offset + pages size ≤ range

lemma Fits.placed {size range : ℕ} (h : Fits size range) (hrange : range < 2 ^ 64) :
    roundUpToMultipleOf4096 size = pages size ∧
      Placed size range (roundUpToMultipleOf4096 (sub64 range (pages size) / 2)) := by
  obtain ⟨hpos, _, _⟩ := h
  have hpages : size ≤ pages size := by rw [pages]; omega
  have hsub : sub64 range (pages size) = range - pages size := sub64_of_le (by omega) hrange
  obtain ⟨d, rfl⟩ := Nat.exists_eq_add_of_le (show pages size ≤ range by omega)
  have hoffset : pages (d / 2) = 4096 * ((d / 2 + 4095) / 4096) := rfl
  refine ⟨roundUp_eq hpos (by omega), ?_⟩
  rw [hsub, Nat.add_sub_cancel_left, roundUp_eq (by omega) (by omega)]
  exact ⟨by omega, by omega, by omega⟩

/-! ## The ranges by size -/

section
variable {v w : List ℕ} {x y k : ℕ} {m : SortedMap ℕ (List ℕ)} {rs rs' : List (ℕ × ℕ)}

lemma swapRemove_perm (h : v.Perm (x :: w)) : (swapRemove v x).Perm w := by
  obtain ⟨pre, post, rfl, hpre⟩ := eq_append_cons_of_mem (h.mem_iff.mpr mem_cons_self)
  have hidx : (pre ++ x :: post).idxOf x = pre.length := by
    rw [idxOf_append_of_notMem hpre, idxOf_cons_self, add_zero]
  have hrest : (pre ++ post).Perm w := (perm_middle.symm.trans h).cons_inv
  rw [swapRemove, hidx]
  rcases eq_nil_or_concat' post with rfl | ⟨post, z, rfl⟩
  · simpa using hrest
  · have hlast : (pre ++ x :: (post ++ [z])).getLastD 0 = z := by
      rw [← cons_append, ← append_assoc, getLastD_concat]
    have hset : (pre ++ x :: (post ++ [z])).set pre.length z = pre ++ z :: post ++ [z] := by simp
    rw [hlast, hset, dropLast_concat]
    refine List.Perm.trans ?_ hrest
    exact (perm_append_singleton z post).symm.append_left pre

lemma swapRemoveBoth_perm (h : v.Perm (x :: y :: w)) : (swapRemoveBoth v x y).Perm w := by
  rw [swapRemoveBoth]
  split_ifs
  · exact swapRemove_perm (swapRemove_perm h)
  · exact swapRemove_perm (swapRemove_perm (h.trans (List.Perm.swap y x w)))

def Grouped (m : SortedMap ℕ (List ℕ)) (rs : List (ℕ × ℕ)) : Prop :=
  ∀ k, ((m.find? k).getD []).Perm ((rs.filter fun r => decide (r.2 = k)).map Prod.fst) ∧ m.find? k ≠ some []

lemma Grouped.perm (h : Grouped m rs) (hperm : rs.Perm rs') : Grouped m rs' := fun k =>
  ⟨(h k).1.trans ((hperm.filter _).map Prod.fst), (h k).2⟩

lemma Grouped.push (h : Grouped m rs) (k x : ℕ) : Grouped (emplaceBack m k x) ((x, k) :: rs) := by
  intro k'
  rw [emplaceBack, find?_insert, filter_cons]
  by_cases hk : k = k'
  · subst hk
    rw [if_pos rfl, if_pos (by simp)]
    exact ⟨(perm_append_singleton x _).trans ((h k).1.cons x), by simp⟩
  · rw [if_neg hk, if_neg (by simpa using hk)]
    exact h k'

lemma Grouped.perm_of_find (h : Grouped m ((x, k) :: rs)) (hv : m.find? k = some v) :
    v.Perm (x :: (rs.filter fun r => decide (r.2 = k)).map Prod.fst) := by
  have hperm := (h k).1
  rwa [hv, filter_cons, if_pos (by simp)] at hperm

lemma find?_replaceVector (k' : ℕ) :
    (replaceVector m k w).find? k' = if k = k' then (if w.isEmpty then none else some w) else m.find? k' := by
  rw [replaceVector]
  split_ifs <;> simp [find?_erase, find?_insert, *]

lemma Grouped.remove (removed : List (ℕ × ℕ)) (h : Grouped m (removed ++ rs)) (hremoved : ∀ r ∈ removed, r.2 = k)
    (hw : w.Perm ((rs.filter fun r => decide (r.2 = k)).map Prod.fst)) : Grouped (replaceVector m k w) rs := by
  intro k'
  rw [find?_replaceVector]
  by_cases hk : k = k'
  · subst hk
    rw [if_pos rfl]
    cases w <;> exact ⟨hw, by simp⟩
  · have hnil : (removed.filter fun r => decide (r.2 = k')) = [] :=
      filter_eq_nil_iff.mpr fun r hr => by simpa [hremoved r hr] using hk
    have := h k'
    rw [if_neg hk]
    rwa [filter_append, hnil] at this

lemma Grouped.exists_find (h : Grouped m rs) (hx : (x, k) ∈ rs) : ∃ v, m.find? k = some v ∧ x ∈ v := by
  have hmem : x ∈ (m.find? k).getD [] := (h k).1.mem_iff.mpr (mem_map.mpr ⟨(x, k), by simp [hx], rfl⟩)
  cases hv : m.find? k with
  | none => simp [hv] at hmem
  | some v => exact ⟨v, rfl, by simpa [hv] using hmem⟩

lemma Grouped.mem (h : Grouped m rs) (hv : m.find? k = some v) (hx : x ∈ v) : (x, k) ∈ rs := by
  have hmem := (h k).1.mem_iff.mp (by rwa [hv])
  obtain ⟨⟨x', k'⟩, hfilter, rfl⟩ := mem_map.mp hmem
  obtain ⟨hr, hk⟩ := mem_filter.mp hfilter
  obtain rfl : k' = k := by simpa using hk
  exact hr

lemma Grouped.largest (h : Grouped m rs) (hlast : m.entries.getLast? = some (k, v)) :
    (∃ x, v.getLast? = some x ∧ (x, k) ∈ rs) ∧ m.find? k = some v ∧ ∀ r ∈ rs, r.2 ≤ k := by
  have hfind : m.find? k = some v := mem_entries_iff.mp (mem_of_getLast? hlast)
  refine ⟨?_, hfind, ?_⟩
  · have hne : v ≠ [] := fun hnil => (h k).2 (hnil ▸ hfind)
    obtain ⟨x, hx⟩ := isSome_iff_exists.mp (getLast?_isSome.mpr hne)
    exact ⟨x, hx, h.mem hfind (mem_of_getLast? hx)⟩
  · rintro ⟨x, k'⟩ hr
    obtain ⟨v', hv', -⟩ := h.exists_find hr
    have hentry := mem_entries_iff.mpr hv'
    obtain ⟨_, hinit⟩ := getLast?_eq_some_iff.mp hlast
    rw [hinit] at hentry
    rcases mem_append.mp hentry with hentry | hentry
    · exact (((pairwise_append.mp (hinit ▸ m.sorted)).2.2 _ hentry (k, v) (by simp)).le)
    · exact (Prod.mk.inj (mem_singleton.mp hentry)).1.le

lemma Grouped.extractBoth {l : ℕ} (h : Grouped m ((x, k) :: (y, l) :: rs)) :
    ∃ m', LargeObjectHeap.extractBoth m x k y l = some m' ∧ Grouped m' rs := by
  obtain ⟨v, hv, -⟩ := h.exists_find mem_cons_self
  have hperm := h.perm_of_find hv
  rw [LargeObjectHeap.extractBoth, hv]
  by_cases hkl : k = l
  · subst hkl
    rw [filter_cons, if_pos (by simp)] at hperm
    exact ⟨_, if_pos rfl, Grouped.remove [(x, k), (y, k)] h (by simp) (swapRemoveBoth_perm hperm)⟩
  · have hleft : Grouped (replaceVector m k (swapRemove v x)) ((y, l) :: rs) :=
      Grouped.remove [(x, k)] h (by simp) (swapRemove_perm hperm)
    obtain ⟨w, hw, -⟩ := hleft.exists_find mem_cons_self
    refine ⟨replaceVector (replaceVector m k (swapRemove v x)) l (swapRemove w y), ?_, ?_⟩
    · simp [if_neg hkl, hw]
    · exact Grouped.remove [(y, l)] hleft (by simp) (swapRemove_perm (hleft.perm_of_find hw))

end

/-! ## Steps -/

/-- Free ranges and blocks, in whole pages, tile the region. A block of one byte stands for its end. -/
structure Tiled (base size : ℕ) (H : LargeObjectHeap) (spans cells : List (ℕ × ℕ)) : Prop where
  ranges : H.map2.entries = Tiling.ranges base cells
  grouped : Grouped H.map1 (Tiling.ranges base cells)
  blocks : (Tiling.blocks base cells).Perm ((base + size, 1) :: spans.map fun b => (b.1, pages b.2))
  length : Tiling.length cells = size + 1
  nonempty : ∀ c ∈ cells, 0 < c.2

section
variable {base size s p ptr : ℕ} {H H' : LargeObjectHeap} {spans spans' cells : List (ℕ × ℕ)}

lemma Tiled.perm (h : Tiled base size H spans cells) (hperm : spans.Perm spans') : Tiled base size H spans' cells :=
  { h with blocks := h.blocks.trans ((hperm.map _).cons _) }

lemma Tiled.withQuarantine (h : Tiled base size H spans cells) (quarantine : Quarantine (ℕ × ℕ)) :
    Tiled base size { H with quarantine } spans cells := ⟨h.ranges, h.grouped, h.blocks, h.length, h.nonempty⟩

lemma tiled_initial (base size quarantineSize : ℕ) :
    Tiled base size (.initial base size quarantineSize) [] [(size, 1)] where
  ranges := rfl
  grouped k := by
    rw [initial, find?_insert]
    by_cases hk : size = k
    · simp [Tiling.ranges, hk]
    · simp [Tiling.ranges, hk, SortedMap.find?, SortedMap.empty, SortedMap.findIn]
  blocks := List.Perm.refl _
  length := rfl
  nonempty := by simp

def LargeObjectHeap.largest (H : LargeObjectHeap) : ℕ := (H.map1.entries.getLast?.map Prod.fst).getD 0

/-- The block lies in a free range with bytes left on both sides, and its pages overlap with no other block. -/
def Safe (H : LargeObjectHeap) (spans : List (ℕ × ℕ)) (s p : ℕ) : Prop :=
  ∃ pos len, H.map2.find? pos = some len ∧ pos < p ∧ p + s < pos + len ∧ p + pages s ≤ pos + len ∧
    ∀ b ∈ spans, b.1 + pages b.2 ≤ p ∨ p + pages s ≤ b.1

lemma LargeObjectHeap.allocate_eq_some (h : H.allocate s = some (p, H')) :
    ∃ rangeSize positions rangePos, H.map1.entries.getLast? = some (rangeSize, positions) ∧
      positions.getLast? = some rangePos ∧ H.largest = rangeSize ∧
        H.place rangeSize positions rangePos (roundUpToMultipleOf4096 s) = (p, H') := by
  rw [allocate] at h
  cases hlast : H.map1.entries.getLast? with
  | none => simp [hlast] at h
  | some entry =>
    obtain ⟨rangeSize, positions⟩ := entry
    simp only [hlast] at h
    split_ifs at h
    obtain ⟨rangePos, hpos, hplace⟩ := map_eq_some_iff.mp h
    exact ⟨rangeSize, positions, rangePos, rfl, hpos, by rw [largest, hlast]; rfl, hplace⟩

lemma LargeObjectHeap.place_eq {rangeSize rangePos offset n : ℕ} {positions : List ℕ}
    (hoffset : offset = roundUpToMultipleOf4096 (sub64 rangeSize n / 2)) (hle : offset + n ≤ rangeSize)
    (hlt : rangePos + rangeSize < 2 ^ 64) :
    H.place rangeSize positions rangePos n = (rangePos + offset, { H with
        map1 := emplaceBack (emplaceBack (replaceVector H.map1 rangeSize positions.dropLast) offset rangePos)
          (rangeSize - offset - n) (rangePos + offset + n)
        map2 := (H.map2.insert rangePos offset).emplace (rangePos + offset + n) (rangeSize - offset - n) }) := by
  have hpos : add64 rangePos offset = rangePos + offset := add64_of_lt (by omega)
  have hright : add64 (rangePos + offset) n = rangePos + offset + n := add64_of_lt (by omega)
  have hsize : sub64 rangeSize offset = rangeSize - offset := sub64_of_le (by omega) (by omega)
  have hrest : sub64 (rangeSize - offset) n = rangeSize - offset - n := sub64_of_le (by omega) (by omega)
  rw [place, ← hoffset, hpos, hright, hsize, hrest]

lemma Tiled.place {rangeSize rangePos offset block : ℕ} {positions : List ℕ} {pre post : List (ℕ × ℕ)}
    (h : Tiled base size H spans (pre ++ (rangeSize, block) :: post)) (hrangePos : rangePos = base + Tiling.length pre)
    (hfind : H.map1.find? rangeSize = some positions) (hlast : positions.getLast? = some rangePos)
    (hs : 0 < s) (hle : offset + pages s ≤ rangeSize) :
    Tiled base size
      { H with
        map1 := emplaceBack (emplaceBack (replaceVector H.map1 rangeSize positions.dropLast) offset rangePos)
          (rangeSize - offset - pages s) (rangePos + offset + pages s)
        map2 := (H.map2.insert rangePos offset).emplace (rangePos + offset + pages s) (rangeSize - offset - pages s) }
      ((rangePos + offset, s) :: spans)
        (pre ++ (offset, pages s) :: (rangeSize - offset - pages s, block) :: post) := by
  have hpages : 0 < pages s := by rw [pages]; omega
  have hblock : 0 < block := h.nonempty (rangeSize, block) (by simp)
  obtain ⟨hranges, hgrouped, hblocks, hlength, hnonempty⟩ := h
  rw [ranges_at, ← hrangePos] at hranges hgrouped
  rw [blocks_at, ← hrangePos] at hblocks
  have hat : H.map2.At (some rangePos) (Tiling.ranges base pre)
      ((rangePos, rangeSize) :: Tiling.ranges (rangePos + rangeSize + block) post) := ⟨hranges, rfl⟩
  refine ⟨?_, ?_, ?_, ?_, ?_⟩
  · have hnew := (hat.replace offset).upperBound.emplace (k := rangePos + offset + pages s)
      (v := rangeSize - offset - pages s) ?_ ?_
    · rw [hnew.entries, ranges_split hle, ← hrangePos]
      simp
    · intro r hr
      rcases mem_append.mp hr with hr | hr
      · have := hat.lt_of_mem hr mem_cons_self
        omega
      · rw [mem_singleton.mp hr]
        omega
    · intro r hr
      have := lt_of_mem_ranges hblock hr
      omega
  · have hgroup : Grouped H.map1 ((rangePos, rangeSize) ::
        (Tiling.ranges base pre ++ Tiling.ranges (rangePos + rangeSize + block) post)) :=
      hgrouped.perm perm_middle
    obtain ⟨init, rfl⟩ := getLast?_eq_some_iff.mp hlast
    have hinit := ((perm_append_singleton rangePos init).symm.trans (hgroup.perm_of_find hfind)).cons_inv
    rw [ranges_split hle, ← hrangePos, dropLast_concat]
    refine (((hgroup.remove [(rangePos, rangeSize)] (by simp) hinit).push offset rangePos).push _ _).perm ?_
    refine (List.Perm.swap _ _ _).trans ?_
    exact (perm_middle.trans (perm_middle.cons _)).symm
  · rw [blocks_split hle, ← hrangePos]
    exact perm_middle.trans ((hblocks.cons _).trans (List.Perm.swap _ _ _))
  · simp only [Tiling.length_append, Tiling.length_cons] at hlength ⊢
    omega
  · simp only [forall_mem_append, forall_mem_cons] at hnonempty ⊢
    exact ⟨hnonempty.1, hpages, hnonempty.2⟩

lemma Tiled.allocate (h : Tiled base size H spans cells) (hregion : base + size < 2 ^ 64) (hfit : Fits s H.largest)
    (hp : H.allocate s = some (p, H')) :
    Safe H spans s p ∧ H'.quarantine = H.quarantine ∧ s ≤ 2 ^ 64 - 4096 ∧
      ∃ cells', Tiled base size H' ((p, s) :: spans) cells' := by
  obtain ⟨rangeSize, _, rangePos, hlast, hpos, hlargest, hplace⟩ := allocate_eq_some hp
  obtain ⟨⟨_, hpos', hmem⟩, hfind, -⟩ := h.grouped.largest hlast
  cases hpos.symm.trans hpos'
  rw [hlargest] at hfit
  obtain ⟨pre, block, post, rfl, hrangePos⟩ := exists_of_mem_ranges hmem
  have hblock : 0 < block := h.nonempty (rangeSize, block) (by simp)
  have hend : rangePos + rangeSize ≤ base + size := by
    have := h.length
    rw [Tiling.length_append, Tiling.length_cons] at this
    omega
  obtain ⟨hpages, hplaced⟩ := hfit.placed (by omega)
  generalize hoffset : roundUpToMultipleOf4096 (sub64 rangeSize (pages s) / 2) = offset at hplaced
  rw [hpages, place_eq hoffset.symm hplaced.le (by omega)] at hplace
  obtain ⟨rfl, rfl⟩ := Prod.mk.inj hplace
  obtain ⟨_, _, hle⟩ := hplaced
  have hranges := h.ranges
  rw [ranges_at, ← hrangePos] at hranges
  have hat : H.map2.At (some rangePos) (Tiling.ranges base pre)
      ((rangePos, rangeSize) :: Tiling.ranges (rangePos + rangeSize + block) post) := ⟨hranges, rfl⟩
  refine ⟨⟨rangePos, rangeSize, hat.find?, by omega, by omega, by omega, fun b hb => ?_⟩, rfl,
    by have := hfit.lt; omega, pre ++ (offset, pages s) :: (rangeSize - offset - pages s, block) :: post, ?_⟩
  · have hb' : (b.1, pages b.2) ∈ Tiling.blocks base (pre ++ (rangeSize, block) :: post) :=
      h.blocks.mem_iff.mpr (mem_cons_of_mem _ (mem_map.mpr ⟨b, hb, rfl⟩))
    have := disjoint hmem hb'
    omega
  · exact h.place hrangePos hfind hpos hfit.pos hle

lemma Tiled.exists_right (h : Tiled base size H spans cells) (hmem : (ptr, s) ∈ spans) :
    ∃ pre left right block post, cells = pre ++ (left, pages s) :: (right, block) :: post ∧
      ptr = base + Tiling.length pre + left := by
  have hblock : (ptr, pages s) ∈ Tiling.blocks base cells :=
    h.blocks.mem_iff.mpr (mem_cons_of_mem _ (mem_map.mpr ⟨(ptr, s), hmem, rfl⟩))
  obtain ⟨pre, left, rest, rfl, rfl⟩ := exists_of_mem_blocks hblock
  cases rest with
  | cons c post => exact ⟨pre, left, c.1, c.2, post, rfl, rfl⟩
  | nil =>
    exfalso
    have hend : (base + size, 1) ∈ Tiling.blocks base (pre ++ [(left, pages s)]) :=
      h.blocks.mem_iff.mpr mem_cons_self
    have hpos : 0 < pages s := h.nonempty (left, pages s) (by simp)
    have hlength := h.length
    rw [Tiling.length_append, Tiling.length_cons] at hlength
    rw [blocks_append] at hend
    rcases mem_append.mp hend with hend | hend
    · have := (blocks_bounds hend).2
      omega
    · have hone : 1 = pages s := (Prod.mk.inj (mem_singleton.mp hend)).2
      rw [pages] at hone
      omega

def LargeObjectHeap.Free (H : LargeObjectHeap) (b : ℕ × ℕ) : Prop :=
  ∃ pos len, H.map2.find? pos = some len ∧ pos ≤ b.1 ∧ b.1 + pages b.2 ≤ pos + len

lemma Tiled.release (h : Tiled base size H ((ptr, s) :: spans) cells) (hregion : base + size < 2 ^ 64) :
    ∃ H' cells', H.release ptr (pages s) = some H' ∧ H'.quarantine = H.quarantine ∧
      Tiled base size H' spans cells' ∧ H'.Free (ptr, s) := by
  obtain ⟨pre, left, right, block, post, rfl, hptr⟩ := h.exists_right mem_cons_self
  obtain ⟨hranges, hgrouped, hblocks, hlength, hnonempty⟩ := h
  have hpages : 0 < pages s := hnonempty (left, pages s) (by simp)
  have hblock : 0 < block := hnonempty (right, block) (by simp)
  obtain ⟨leftPos, hleftPos⟩ : ∃ leftPos, leftPos = base + Tiling.length pre := ⟨_, rfl⟩
  have hnext : leftPos + left + pages s + right + block = leftPos + (left + pages s + right) + block := by omega
  rw [Tiling.ranges_at, Tiling.ranges, ← hleftPos, hnext] at hranges hgrouped
  rw [Tiling.blocks_at, Tiling.blocks, ← hleftPos] at hblocks
  rw [← hleftPos] at hptr
  have hat : H.map2.At (some leftPos) (Tiling.ranges base pre) ((leftPos, left) :: (leftPos + left + pages s, right) ::
      Tiling.ranges (leftPos + (left + pages s + right) + block) post) := ⟨hranges, rfl⟩
  have hupper : H.map2.At (H.map2.upperBound ptr) (Tiling.ranges base pre ++ [(leftPos, left)])
      ((leftPos + left + pages s, right) :: Tiling.ranges (leftPos + (left + pages s + right) + block) post) := by
    refine at_upperBound (by rw [hranges]; simp) (fun r hr => ?_) fun r hr => ?_
    · rcases mem_append.mp hr with hr | hr
      · have := hat.lt_of_mem hr mem_cons_self
        omega
      · rw [mem_singleton.mp hr]
        omega
    · rcases mem_cons.mp hr with rfl | hr
      · dsimp only
        omega
      · have := Tiling.lt_of_mem_ranges hblock hr
        omega
  have hprev := hupper.prev
  rw [hupper.position, head?_cons, map_some, getLast?_concat] at hprev
  have hgroup : Grouped H.map1 ((leftPos, left) :: (leftPos + left + pages s, right) ::
      (Tiling.ranges base pre ++ Tiling.ranges (leftPos + (left + pages s + right) + block) post)) :=
    hgrouped.perm (perm_middle.trans (perm_middle.cons _))
  obtain ⟨map1, hmap1, hgroup⟩ := hgroup.extractBoth
  have hcombined : add64 (add64 left (pages s)) right = left + pages s + right := by
    simp only [Tiling.length_append, Tiling.length_cons] at hlength
    have hleft : add64 left (pages s) = left + pages s := add64_of_lt (by omega)
    rw [hleft, add64_of_lt (by omega)]
  have hmap2 := (hat.replace (left + pages s + right)).upperBound.erase.entries
  refine ⟨{ H with
      map1 := emplaceBack map1 (left + pages s + right) leftPos
      map2 := (H.map2.insert leftPos (left + pages s + right)).erase (leftPos + left + pages s) },
    pre ++ (left + pages s + right, block) :: post, ?_, rfl, ⟨?_, ?_, ?_, ?_, ?_⟩, leftPos, left + pages s + right,
    mem_entries_iff.mp (by simp [hmap2]), by dsimp only; omega, by dsimp only; omega⟩
  · rw [LargeObjectHeap.release, hupper.position]
    simp [hupper.find?, hprev, hmap1, hcombined]
  · rw [hmap2, Tiling.ranges_at, ← hleftPos, append_assoc]
    rfl
  · rw [Tiling.ranges_at, ← hleftPos]
    exact (hgroup.push _ leftPos).perm perm_middle.symm
  · have hend : leftPos + left + pages s + right = leftPos + (left + pages s + right) := by omega
    rw [hend, ← hptr] at hblocks
    rw [Tiling.blocks_at, ← hleftPos]
    exact ((perm_middle.symm.trans hblocks).trans (List.Perm.swap _ _ _)).cons_inv
  · simp only [Tiling.length_append, Tiling.length_cons] at hlength ⊢
    omega
  · simp only [forall_mem_append, forall_mem_cons] at hnonempty ⊢
    exact ⟨hnonempty.1, hnonempty.2.2⟩

end

/-! ## Runs -/

/-- Runs on a region, with the live and the quarantined blocks. Every request fits into a largest free range. -/
inductive BlockRun (base size quarantineSize : ℕ) : LargeObjectHeap → List (ℕ × ℕ) → List (ℕ × ℕ) → Prop
  | start : BlockRun base size quarantineSize (.initial base size quarantineSize) [] []
  | allocate {H H' : LargeObjectHeap} {live quarantined : List (ℕ × ℕ)} {s p : ℕ}
      (h : BlockRun base size quarantineSize H live quarantined) (hfit : Fits s H.largest)
      (hp : H.allocate s = some (p, H')) : BlockRun base size quarantineSize H' ((p, s) :: live) quarantined
  | deallocate {H H' : LargeObjectHeap} {live quarantined : List (ℕ × ℕ)} {s p : ℕ}
      (h : BlockRun base size quarantineSize H live quarantined) (hp : (p, s) ∈ live)
      (hH : H.deallocate p s = some H') :
      BlockRun base size quarantineSize H' (live.erase (p, s))
        (Quarantine.after quarantined (p, s) (H.quarantine.deallocate (p, s)).1)

structure BlockInvariant (base size : ℕ) (H : LargeObjectHeap) (live quarantined : List (ℕ × ℕ)) : Prop where
  tiled : ∃ cells, Tiled base size H (live ++ quarantined) cells
  spans : ∀ b ∈ live ++ quarantined, 0 < b.1 ∧ 0 < b.2 ∧ b.2 ≤ 2 ^ 64 - 4096
  valid : H.quarantine.Valid
  held : H.quarantine.held.Subperm quarantined

section
variable {base size quarantineSize s p : ℕ} {H H' : LargeObjectHeap} {live quarantined : List (ℕ × ℕ)}

section
variable (h : BlockInvariant base size H live quarantined) (hregion : base + size < 2 ^ 64)
include h hregion

lemma BlockInvariant.allocate (hfit : Fits s H.largest) (hp : H.allocate s = some (p, H')) :
    Safe H (live ++ quarantined) s p ∧ BlockInvariant base size H' ((p, s) :: live) quarantined := by
  obtain ⟨⟨_, htiled⟩, hspans, hvalid, hheld⟩ := h
  obtain ⟨hsafe, hq, hs, htiled'⟩ := htiled.allocate hregion hfit hp
  refine ⟨hsafe, htiled', fun b hb => ?_, hq ▸ hvalid, hq ▸ hheld⟩
  rcases mem_cons.mp hb with rfl | hb
  · obtain ⟨_, _, -, _, -⟩ := hsafe
    exact ⟨by omega, hfit.pos, hs⟩
  · exact hspans b hb

lemma BlockInvariant.deallocate (hp : (p, s) ∈ live) :
    ∃ H', H.deallocate p s = some H' ∧ BlockInvariant base size H' (live.erase (p, s))
      (Quarantine.after quarantined (p, s) (H.quarantine.deallocate (p, s)).1) ∧
      H'.quarantine = (H.quarantine.deallocate (p, s)).2 ∧ ((H.quarantine.deallocate (p, s)).1 ≠ default →
        H'.Free (H.quarantine.deallocate (p, s)).1) := by
  obtain ⟨⟨cells, htiled⟩, hspans, hvalid, hheld⟩ := h
  obtain ⟨hsub, hmem⟩ := Quarantine.deallocate_held hvalid (p, s)
  have hheld' := hsub.trans (Quarantine.after_subperm hheld (p, s) (H.quarantine.deallocate (p, s)).1)
  have hvalid' := Quarantine.deallocate_valid hvalid (p, s)
  have hmoved : (live.erase (p, s) ++ (p, s) :: quarantined).Perm (live ++ quarantined) :=
    perm_middle.trans ((perm_cons_erase hp).symm.append_right quarantined)
  have htiled' := (htiled.perm hmoved.symm).withQuarantine (H.quarantine.deallocate (p, s)).2
  rw [LargeObjectHeap.deallocate]
  generalize H.quarantine.deallocate (p, s) = d at *
  obtain ⟨⟨ptr, n⟩, _⟩ := d
  dsimp only at *
  by_cases hdefault : (ptr, n) = default
  · have hzero : ptr = 0 := congrArg Prod.fst hdefault
    rw [Quarantine.after, if_pos hdefault] at hheld' ⊢
    exact ⟨_, if_pos hzero, ⟨⟨cells, htiled'⟩, fun b hb => hspans b (hmoved.mem_iff.mp hb), hvalid', hheld'⟩, rfl,
      fun hne => absurd hdefault hne⟩
  · have hwaiting := cons_subset_cons (p, s) hheld.subset (hmem hdefault)
    obtain ⟨hptr, hn, hle⟩ := hspans (ptr, n) (hmoved.mem_iff.mp (mem_append_right _ hwaiting))
    have hrest : (live.erase (p, s) ++ (p, s) :: quarantined).Perm
        ((ptr, n) :: (live.erase (p, s) ++ Quarantine.after quarantined (p, s) (ptr, n))) :=
      ((Quarantine.after_perm hdefault hwaiting).append_left _).trans perm_middle
    obtain ⟨H', cells', hrelease, hq, htiled'', hfree⟩ := (htiled'.perm hrest).release hregion
    rw [if_neg hptr.ne', roundUp_eq hn hle]
    refine ⟨H', hrelease, ⟨⟨cells', htiled''⟩, fun b hb => ?_, hq ▸ hvalid', hq ▸ hheld'⟩, hq, fun _ => hfree⟩
    exact hspans b (hmoved.mem_iff.mp (hrest.mem_iff.mpr (mem_cons_of_mem _ hb)))

end

lemma BlockRun.invariant (h : BlockRun base size quarantineSize H live quarantined)
    (hregion : base + size < 2 ^ 64) : BlockInvariant base size H live quarantined := by
  induction h with
  | start => exact ⟨⟨_, tiled_initial base size quarantineSize⟩, by simp,
      Quarantine.valid_initial _, List.Subperm.refl _⟩
  | allocate _ hfit hp ih => exact (ih.allocate hregion hfit hp).2
  | deallocate _ hp hH ih =>
    obtain ⟨H'', heq, hinv, -⟩ := ih.deallocate hregion hp
    obtain rfl : H'' = _ := some.inj (heq.symm.trans hH)
    exact hinv

/-- If all requests fit, a block is placed inside a free range, apart from all other blocks and from both ends. -/
theorem BlockRun.allocate_safe (h : BlockRun base size quarantineSize H live quarantined)
    (hregion : base + size < 2 ^ 64) (hfit : Fits s H.largest) (hp : H.allocate s = some (p, H')) :
    Safe H (live ++ quarantined) s p :=
  ((h.invariant hregion).allocate hregion hfit hp).1

lemma exists_second_request : ∃ H H', BlockRun 65536 40960 1 H [] [(81920, 5000)] ∧
    Fits 5000 H.largest ∧ H.allocate 5000 = some (94208, H') := by
  have hfirst : Fits 5000 (initial 65536 40960 1).largest := ⟨by decide, by decide, by decide⟩
  exact ⟨_, _, .deallocate (.allocate .start hfirst rfl) mem_cons_self rfl,
    ⟨by decide, by decide, by decide⟩, rfl⟩

theorem BlockRun.allocate_safe_second :
    ∃ H H', BlockRun 65536 40960 1 H [] [(81920, 5000)] ∧ H.allocate 5000 = some (94208, H') ∧
      Safe H [(81920, 5000)] 5000 94208 := by
  obtain ⟨H, H', hrun, hfit, hp⟩ := exists_second_request
  exact ⟨H, H', hrun, hp, hrun.allocate_safe (by decide) hfit hp⟩

/-- The assertion adds two pages on the wrong side: five pages pass it on a region of four, and end up outside. -/
theorem allocate_outside_region :
    ∃ H', (LargeObjectHeap.initial 65536 16384 0).allocate 20480 = some (65536 + 2 ^ 63, H') ∧
      ¬ Safe (LargeObjectHeap.initial 65536 16384 0) [] 20480 (65536 + 2 ^ 63) := by
  refine ⟨_, rfl, ?_⟩
  rintro ⟨_, _, hfind, -, _, -⟩
  rw [initial, find?_insert] at hfind
  split_ifs at hfind with hpos
  · cases hfind
    omega
  · cases hfind

lemma Tiled.countP_covers {spans cells : List (ℕ × ℕ)} (h : Tiled base size H spans cells) (x : ℕ) :
    (H.map2.entries ++ spans.map fun b => (b.1, pages b.2)).countP (Tiling.covers x) =
      if Tiling.covers x (base, size) then 1 else 0 := by
  have hcovers : (Tiling.ranges base cells).countP (Tiling.covers x) + _ = _ := Tiling.countP_covers x
  rw [← h.ranges, h.blocks.countP_eq, countP_cons, h.length] at hcovers
  rw [countP_append]
  -- The block of one byte at the end is not part of the region.
  simp only [Tiling.covers, decide_eq_true_eq] at hcovers ⊢
  split_ifs at hcovers ⊢ <;> omega

/-- Exactly the addresses of the region are in one free range or block; free ranges are not adjacent and both maps have
the same ranges. -/
structure Bookkeeping (base size : ℕ) (H : LargeObjectHeap) (spans : List (ℕ × ℕ)) : Prop where
  tiles : ∀ x, (H.map2.entries ++ spans.map fun b => (b.1, pages b.2)).countP (Tiling.covers x) =
    if Tiling.covers x (base, size) then 1 else 0
  apart : H.map2.entries.Pairwise fun r r' => r.1 + r.2 < r'.1
  inverse : ∀ pos len, H.map2.find? pos = some len ↔ ∃ v, H.map1.find? len = some v ∧ pos ∈ v
  vectors : ∀ len v, H.map1.find? len = some v → v ≠ [] ∧ v.Nodup

lemma Tiled.toBookkeeping {spans cells : List (ℕ × ℕ)} (h : Tiled base size H spans cells) :
    Bookkeeping base size H spans where
  tiles := h.countP_covers
  apart := h.ranges ▸ pairwise_ranges h.nonempty
  inverse pos len := by
    rw [← mem_entries_iff, h.ranges]
    exact ⟨h.grouped.exists_find, fun ⟨v, hv, hpos⟩ => h.grouped.mem hv hpos⟩
  vectors len v hv := by
    refine ⟨fun hnil => (h.grouped len).2 (hnil ▸ hv), ?_⟩
    have hperm := (h.grouped len).1
    rw [hv, ← h.ranges] at hperm
    refine hperm.nodup_iff.mpr ((filter_sublist.map Prod.fst).nodup ?_)
    exact pairwise_map.mpr (H.map2.sorted.imp fun hlt => hlt.ne)

/-- The books are right, and a request of a byte or more that leaves two pages of the largest range continues the run.
-/
theorem BlockRun.bookkeeping (h : BlockRun base size quarantineSize H live quarantined)
    (hregion : base + size < 2 ^ 64) : Bookkeeping base size H (live ++ quarantined) ∧
      ∀ s p H', 0 < s → pages s + 8192 ≤ H.largest → H.allocate s = some (p, H') →
        BlockRun base size quarantineSize H' ((p, s) :: live) quarantined := by
  obtain ⟨_, htiled⟩ := (h.invariant hregion).tiled
  refine ⟨htiled.toBookkeeping, fun s p H' hs hle hp => h.allocate ⟨hs, by omega, ?_⟩ hp⟩
  rw [pages] at hle
  omega

/-- One block is live and another one quarantined. -/
theorem BlockRun.bookkeeping_second : ∃ H, BlockRun 65536 40960 1 H [(94208, 5000)] [(81920, 5000)] ∧
    Bookkeeping 65536 40960 H [(94208, 5000), (81920, 5000)] := by
  obtain ⟨H, H', hrun, hfit, hp⟩ := exists_second_request
  exact ⟨H', hrun.allocate hfit hp, (BlockRun.bookkeeping (hrun.allocate hfit hp) (by decide)).1⟩

/-- A request of no bytes leaves two free ranges next to each other. -/
theorem allocate_zero_adjacent : ∃ p H', (LargeObjectHeap.initial 65536 40960 0).allocate 0 = some (p, H') ∧
      roundUpToMultipleOf4096 0 + 8192 ≤ (LargeObjectHeap.initial 65536 40960 0).largest ∧
      ¬ Bookkeeping 65536 40960 H' [(p, 0)] :=
  ⟨_, _, rfl, by decide, fun h => absurd h.apart (by decide)⟩

end

end Pseudoalloc
