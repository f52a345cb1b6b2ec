import PorSe.Pseudoalloc.Quarantine
import PorSe.Lib.MapCursor

/-! The heap for objects that are too large for the bins. It maps the free ranges from
size to positions and back, and places an object in the middle of a largest range. -/

namespace Pseudoalloc

def add64 (a b : ℕ) : ℕ := (a + b) % 2 ^ 64

def sub64 (a b : ℕ) : ℕ := (a + (2 ^ 64 - b)) % 2 ^ 64

def roundUpToMultipleOf4096 (x : ℕ) : ℕ := add64 (sub64 x 1 ||| (4096 - 1)) 1

/-- `map1` maps a size to the positions of its ranges, with the largest size last, and `map2` a position to its size. -/
structure LargeObjectHeap where
  map1 : SortedMap ℕ (List ℕ)
  map2 : SortedMap ℕ ℕ
  quarantine : Quarantine (ℕ × ℕ)

variable (m : SortedMap ℕ (List ℕ))

/-- `m[k].emplace_back(x)`. -/
def emplaceBack (k x : ℕ) : SortedMap ℕ (List ℕ) := m.insert k ((m.find? k).getD [] ++ [x])

/-- The vector of a key is replaced, and the key extracted if there is nothing left. -/
def replaceVector (k : ℕ) (v : List ℕ) : SortedMap ℕ (List ℕ) :=
  if v.isEmpty then m.erase k else m.insert k v

/-- `*it = v.back(); v.pop_back();` where `it` is the first place of `x`. -/
def swapRemove (v : List ℕ) (x : ℕ) : List ℕ := (v.set (v.idxOf x) (v.getLastD 0)).dropLast

/-- Removes two positions in order. The source pops at the end and leaves the stale last place out of the search. -/
def swapRemoveBoth (v : List ℕ) (x y : ℕ) : List ℕ :=
  if v.find? (fun z => decide (z = x ∨ z = y)) = some x then swapRemove (swapRemove v x) y
  else swapRemove (swapRemove v y) x

namespace LargeObjectHeap

def initial (base size quarantineSize : ℕ) : LargeObjectHeap where
  map1 := SortedMap.empty.insert size [base]
  map2 := SortedMap.empty.insert base size
  quarantine := .initial quarantineSize

variable (H : LargeObjectHeap)

/-- Places a block in the middle of the range, which is the last one of its size. -/
def place (rangeSize : ℕ) (positions : List ℕ) (rangePos size : ℕ) : ℕ × LargeObjectHeap :=
  let map1 := replaceVector H.map1 rangeSize positions.dropLast
  let offset := roundUpToMultipleOf4096 (sub64 rangeSize size / 2)
  let rightSize := sub64 (sub64 rangeSize offset) size
  let rightPos := add64 (add64 rangePos offset) size
  (add64 rangePos offset, { H with
      map1 := emplaceBack (emplaceBack map1 offset rangePos) rightSize rightPos
      map2 := (H.map2.insert rangePos offset).emplace rightPos rightSize })

/-- The address; `none` if the assertion fails or a missing entry would be dereferenced. -/
def allocate (size : ℕ) : Option (ℕ × LargeObjectHeap) :=
  let size := roundUpToMultipleOf4096 size
  match H.map1.entries.getLast? with
  | none => none
  | some (rangeSize, positions) =>
    if add64 rangeSize (2 * 4096) < size then none
    else positions.getLast?.map fun rangePos => H.place rangeSize positions rangePos size

def extractBoth (map1 : SortedMap ℕ (List ℕ)) (leftPos leftSize rightPos rightSize : ℕ) :
    Option (SortedMap ℕ (List ℕ)) :=
  match map1.find? leftSize with
  | none => none
  | some left =>
    if leftSize = rightSize then some (replaceVector map1 leftSize (swapRemoveBoth left leftPos rightPos))
    else
      let map1 := replaceVector map1 leftSize (swapRemove left leftPos)
      (map1.find? rightSize).map fun right => replaceVector map1 rightSize (swapRemove right rightPos)

def release (ptr size : ℕ) : Option LargeObjectHeap :=
  match H.map2.upperBound ptr with
  | none => none
  | some rightPos =>
    match H.map2.find? rightPos, H.map2.prev (some rightPos) with
    | some rightSize, some (leftPos, leftSize) =>
      let combinedSize := add64 (add64 leftSize size) rightSize
      (extractBoth H.map1 leftPos leftSize rightPos rightSize).map fun map1 =>
        { H with
          map1 := emplaceBack map1 combinedSize leftPos
          map2 := (H.map2.insert leftPos combinedSize).erase rightPos }
    | _, _ => none

def deallocate (ptr size : ℕ) : Option LargeObjectHeap :=
  let ((ptr, size), quarantine) := H.quarantine.deallocate (ptr, size)
  if ptr = 0 then some { H with quarantine }
  else ({ H with quarantine } : LargeObjectHeap).release ptr (roundUpToMultipleOf4096 size)

end LargeObjectHeap

end Pseudoalloc
