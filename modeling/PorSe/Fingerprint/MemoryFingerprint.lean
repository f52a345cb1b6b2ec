import PorSe.Lib.SignedCounts

/-! The fingerprint of a program state. Fragments are written to a buffer and then added to
or removed from a value; the symbolic arrays in them are counted. -/

namespace Fingerprint

/-- The counts are `std::int64_t`, those of the buffer `std::uint64_t`. -/
abbrev Count := BitVec 64

/-- A kind of value: `generateHash` applied to the text of the buffer, `executeAdd` and `executeRemove`. -/
structure Derived (V : Type) where
  zero : V
  generateHash : String → V
  executeAdd : V → V → Option V
  executeRemove : V → V → Option V

structure MemoryFingerprint (V A : Type) [LinearOrder A] where
  fingerprintValue : V
  symbolicReferences : SortedMap A Count
  current : String
  first : Bool
  bufferContainsSymbolic : Bool
  bufferSymbolicReferences : SortedMap A Count

@[ext]
structure MemoryFingerprintDelta (V A : Type) [LinearOrder A] where
  fingerprintValue : V
  symbolicReferences : SortedMap A Count

section
variable {A : Type} [LinearOrder A]

variable (references counts : SortedMap A Count)

/-- Each count is added, with `try_emplace` of zero before, and an entry erased at zero. -/
def addReferences : SortedMap A Count := references.adjustAll counts.entries

def removeReferences : SortedMap A Count :=
  references.adjustAll (SortedMap.negated counts.entries)

end

/-! ## The buffer -/

namespace MemoryFingerprint
variable {V A : Type} [LinearOrder A] (D : Derived V) (fp : MemoryFingerprint V A)

def initial : MemoryFingerprint V A := ⟨D.zero, .empty, "", true, false, .empty⟩

/-- Writes to the buffer, with a blank before all but the first text. -/
def update (text : String) : MemoryFingerprint V A :=
  { fp with current := if fp.first then fp.current ++ text else fp.current ++ " " ++ text, first := false }

def updateUint8 (value : UInt8) : MemoryFingerprint V A := fp.update (toString value.toNat)

def updateUint16 (value : UInt16) : MemoryFingerprint V A := fp.update (toString value.toNat)

def updateUint64 (value : UInt64) : MemoryFingerprint V A := fp.update (toString value.toNat)

/-- The text of an expression, and a reference to each array that it uses. -/
def updateExpr (text : String) (usedArrays : List A) : MemoryFingerprint V A :=
  { fp.update text with
    bufferContainsSymbolic := true
    bufferSymbolicReferences :=
      usedArrays.foldl (fun counts v => counts.insert v (counts.count v + 1)) fp.bufferSymbolicReferences }

def bufferReferences : SortedMap A Count := if fp.bufferContainsSymbolic then fp.bufferSymbolicReferences else .empty

/-- `clearHash`, and `resetBufferRefCount` if the buffer contains a symbolic expression. -/
def clear : MemoryFingerprint V A :=
  if fp.bufferContainsSymbolic then
    { fp with current := "", first := true, bufferContainsSymbolic := false, bufferSymbolicReferences := .empty }
  else { fp with current := "", first := true }

@[simp] lemma clear_fingerprintValue : fp.clear.fingerprintValue = fp.fingerprintValue := by
  rw [clear]
  split_ifs <;> rfl

@[simp] lemma clear_symbolicReferences : fp.clear.symbolicReferences = fp.symbolicReferences := by
  rw [clear]
  split_ifs <;> rfl

/-! ## Operations -/

def addToFingerprint : Option (MemoryFingerprint V A) :=
  (D.executeAdd fp.fingerprintValue (D.generateHash fp.current)).map fun value =>
    { fp.clear with
      fingerprintValue := value
      symbolicReferences := addReferences fp.symbolicReferences fp.bufferReferences }

def removeFromFingerprint : Option (MemoryFingerprint V A) :=
  (D.executeRemove fp.fingerprintValue (D.generateHash fp.current)).map fun value =>
    { fp.clear with
      fingerprintValue := value
      symbolicReferences := removeReferences fp.symbolicReferences fp.bufferReferences }

variable (delta : MemoryFingerprintDelta V A)

def addToFingerprintAndDelta : Option (MemoryFingerprint V A × MemoryFingerprintDelta V A) :=
  (D.executeAdd delta.fingerprintValue (D.generateHash fp.current)).bind fun deltaValue =>
    (fp.addToFingerprint D).map fun fp' =>
      (fp', ⟨deltaValue, addReferences delta.symbolicReferences fp.bufferReferences⟩)

def removeFromFingerprintAndDelta : Option (MemoryFingerprint V A × MemoryFingerprintDelta V A) :=
  (D.executeRemove delta.fingerprintValue (D.generateHash fp.current)).bind fun deltaValue =>
    (fp.removeFromFingerprint D).map fun fp' =>
      (fp', ⟨deltaValue, removeReferences delta.symbolicReferences fp.bufferReferences⟩)

def addToDeltaOnly : Option (MemoryFingerprint V A × MemoryFingerprintDelta V A) :=
  (D.executeAdd delta.fingerprintValue (D.generateHash fp.current)).map fun deltaValue =>
    (fp.clear, ⟨deltaValue, addReferences delta.symbolicReferences fp.bufferReferences⟩)

def removeFromDeltaOnly : Option (MemoryFingerprint V A × MemoryFingerprintDelta V A) :=
  (D.executeRemove delta.fingerprintValue (D.generateHash fp.current)).map fun deltaValue =>
    (fp.clear, ⟨deltaValue, removeReferences delta.symbolicReferences fp.bufferReferences⟩)

def addDelta : Option (MemoryFingerprint V A) :=
  (D.executeAdd fp.fingerprintValue delta.fingerprintValue).map fun value =>
    { fp with
      fingerprintValue := value
      symbolicReferences := addReferences fp.symbolicReferences delta.symbolicReferences }

def removeDelta : Option (MemoryFingerprint V A) :=
  (D.executeRemove fp.fingerprintValue delta.fingerprintValue).map fun value =>
    { fp with
      fingerprintValue := value
      symbolicReferences := removeReferences fp.symbolicReferences delta.symbolicReferences }

end MemoryFingerprint

/-! ## String sets -/

/-- `std::map<std::string, std::int64_t>`. -/
abbrev StringSet := SortedMap String Count

namespace StringSet

/-- The assertion that no element is empty is `none`. -/
def executeAdd (dst src : StringSet) : Option StringSet :=
  src.entries.foldlM (fun dst p => if p.1 = "" then none else some (dst.bump p.1 p.2)) dst

def executeRemove (dst src : StringSet) : Option StringSet :=
  src.entries.foldlM (fun dst p => if p.1 = "" then none else some (dst.bump p.1 (-p.2))) dst

end StringSet

def stringSet : Derived StringSet where
  zero := .empty
  generateHash current := SortedMap.empty.insert current 1
  executeAdd := StringSet.executeAdd
  executeRemove := StringSet.executeRemove

end Fingerprint
