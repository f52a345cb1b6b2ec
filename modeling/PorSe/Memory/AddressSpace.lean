import PorSe.Lib.SortedMap

/-! Address spaces: maps from memory objects to references of object states, which copies of an
address space share until one of them writes. -/

namespace Klee
open Option SortedMap

structure MemoryObject where
  id : ℕ
  address : ℕ
  size : ℕ
deriving DecidableEq, Repr

structure ObjectState (V : Type) where
  copyOnWriteOwner : BitVec 32
  readOnly : Bool
  contents : V
deriving DecidableEq

namespace ObjectState
variable {V : Type}

def new (v : V) : ObjectState V := ⟨0, false, v⟩

def copy (os : ObjectState V) : Option (ObjectState V) := do
  guard !os.readOnly
  some { copyOnWriteOwner := 0, readOnly := false, contents := os.contents }

end ObjectState

abbrev Heap (V : Type) := SortedMap ℕ (ObjectState V)

/-- Ordered by address, so that an object takes the place of one with the same address. -/
abbrev MemoryMap := SortedMap ℕ (MemoryObject × ℕ)

structure AddressSpace where
  cowKey : BitVec 32
  objects : MemoryMap
  keyed : ∀ {address mo os}, objects.find? address = some (mo, os) → mo.address = address

namespace AddressSpace
variable {V : Type}

def new : AddressSpace := ⟨1, .empty, nofun⟩

def copy (b : AddressSpace) : AddressSpace × AddressSpace :=
  ({ b with cowKey := b.cowKey + 1 }, { b with cowKey := b.cowKey + 1 })

variable (a : AddressSpace)

variable (mo : MemoryObject)

def replace (os : ℕ) : AddressSpace where
  cowKey := a.cowKey
  objects := a.objects.insert mo.address (mo, os)
  keyed h := by
    rw [find?_insert] at h
    split_ifs at h with haddress
    · cases h
      exact haddress
    · exact a.keyed h

def bindObject (heap : Heap V) (mo : MemoryObject) (os : ℕ) : Option (AddressSpace × Heap V) := do
  let o ← heap.find? os
  guard (o.copyOnWriteOwner = 0)
  some (a.replace mo os, heap.insert os { o with copyOnWriteOwner := a.cowKey })

def unbindObject : AddressSpace where
  cowKey := a.cowKey
  objects := a.objects.erase mo.address
  keyed h := by
    rw [find?_erase] at h
    split_ifs at h
    exact a.keyed h

def findObject : Option ℕ := (a.objects.find? mo.address).map Prod.snd

/-- The writeable object state, with the address space and heap afterwards; `fresh` is for a new one. -/
def getWriteable (heap : Heap V) (mo : MemoryObject) (os fresh : ℕ) : Option (ℕ × AddressSpace × Heap V) := do
  let o ← heap.find? os
  guard !o.readOnly
  if a.cowKey = o.copyOnWriteOwner then
    some (os, a, heap)
  else
    let newObjectState ← o.copy
    some (fresh, a.replace mo fresh, heap.insert fresh { newObjectState with copyOnWriteOwner := a.cowKey })

variable {a a' : AddressSpace} {heap heap' : Heap V} {mo : MemoryObject} {os fresh r : ℕ}

lemma bindObject_spec (h : a.bindObject heap mo os = some (a', heap')) :
    ∃ o, heap.find? os = some o ∧ o.copyOnWriteOwner = 0 ∧ a' = a.replace mo os ∧
      heap' = heap.insert os { o with copyOnWriteOwner := a.cowKey } := by
  simp only [bindObject, bind_eq_bind, bind_eq_some_iff, guard_eq_some'] at h
  obtain ⟨o, ho, -, hzero, rfl, rfl⟩ := h
  exact ⟨o, ho, hzero, rfl, rfl⟩

lemma getWriteable_spec (h : a.getWriteable heap mo os fresh = some (r, a', heap')) :
    ∃ o, heap.find? os = some o ∧ o.readOnly = false ∧ (o.copyOnWriteOwner = a.cowKey ∧ r = os ∧ a' = a ∧ heap' = heap ∨
        o.copyOnWriteOwner ≠ a.cowKey ∧ r = fresh ∧ a' = a.replace mo fresh ∧
          heap' = heap.insert fresh ⟨a.cowKey, false, o.contents⟩) := by
  simp only [getWriteable, ObjectState.copy, bind_eq_bind, bind_eq_some_iff, guard_eq_some', Bool.not_eq_true'] at h
  obtain ⟨o, ho, -, hwrite, h⟩ := h
  refine ⟨o, ho, hwrite, ?_⟩
  split_ifs at h with hkey
  · cases h
    exact .inl ⟨hkey.symm, rfl, rfl, rfl⟩
  · simp only [hwrite] at h
    obtain ⟨_, ⟨-, rfl⟩, rfl, rfl, rfl⟩ := h
    exact .inr ⟨fun h => hkey h.symm, rfl, rfl, rfl⟩

@[simp] lemma replace_cowKey : (a.replace mo os).cowKey = a.cowKey := rfl

@[simp] lemma unbindObject_cowKey : (a.unbindObject mo).cowKey = a.cowKey := rfl

lemma find?_replace (address : ℕ) :
    (a.replace mo os).objects.find? address = if mo.address = address then some (mo, os) else a.objects.find? address :=
  find?_insert _ _ _ _

lemma find?_unbindObject (address : ℕ) :
    (a.unbindObject mo).objects.find? address = if mo.address = address then none else a.objects.find? address :=
  find?_erase _ _ _

end AddressSpace

end Klee
