import PorSe.Lib.MapCursor
import PorSe.Por.ThreadId

/-! The accesses to one memory object: an interval map of the accesses at concrete
offsets and a multimap of those at symbolic ones, in an operation list that copies
share until one of them writes to it. -/

namespace RaceDetection
open Por

inductive AccessType
  | unknown
  | write
  | read
  | alloc
  | free
  deriving DecidableEq, Repr

def isWrite (type : AccessType) : Bool := type = .write

def isRead (type : AccessType) : Bool := type = .read

def isAlloc (type : AccessType) : Bool := type = .alloc

def isFree (type : AccessType) : Bool := type = .free

def isAllocOrFree (type : AccessType) : Bool := type = .alloc || type = .free

structure MemoryObject where
  id : ℕ
  address : ℕ
  deriving DecidableEq, Repr

/-- Offset expressions in their structural order; a constant has a value. -/
class Offset (E : Type) extends LinearOrder E where
  constantValue : E → Option ℕ

/-- Offsets that are constants or symbols. -/
abbrev SimpleOffset := ℕ ⊕ₗ ℕ

instance : Offset SimpleOffset where
  constantValue e := (ofLex e).getLeft?

/-- Allocations and frees have no offset; the field is not read for them. -/
structure MemoryOperation (I E : Type) where
  instruction : I
  type : AccessType
  tid : ThreadId
  object : MemoryObject
  offset : E
  numBytes : ℕ

/-- A recorded access; `ConcreteAccess` and `SymbolicAccess` have the same fields. -/
structure Access (I : Type) where
  numBytes : ℕ
  type : AccessType
  instruction : I
  deriving DecidableEq

variable {I E : Type}

def MemoryOperation.access (op : MemoryOperation I E) (numBytes : ℕ) : Access I :=
  ⟨numBytes, op.type, op.instruction⟩

def add64 (a b : ℕ) : ℕ := (a + b) % 2 ^ 64

lemma add64_eq {a b : ℕ} (h : a + b < 2 ^ 64) : add64 a b = a + b := Nat.mod_eq_of_lt h

/-- The multimap keeps, per offset, the accesses in the order of their insertion. -/
structure OperationList (I E : Type) [LinearOrder E] where
  concrete : SortedMap ℕ (Access I)
  symbolic : SortedMap E (List (Access I))

structure ObjectAccesses (I : Type) where
  allocFreeInstruction : Option I
  accesses : Option ℕ
  deriving DecidableEq

/-- The lists by address, the next unused address, and the objects that may point to a list. -/
structure Heap (I E : Type) [LinearOrder E] where
  lists : ℕ → OperationList I E
  next : ℕ
  objects : List (ObjectAccesses I)

inductive Fault
  /-- An `assert` other than the one in `mut()`. -/
  | assertion
  /-- The `assert` in `mut()`. -/
  | notOwned
  | endDereferenced
  | staleIterator
  | fuel
  deriving DecidableEq, Repr

/-- An iterator into the concrete accesses of the list at `list`; `none` is `end()`. -/
structure Iterator where
  list : ℕ
  key : Option ℕ
  deriving DecidableEq, Repr

namespace OperationList
variable [LinearOrder E]

def empty : OperationList I E := ⟨SortedMap.empty, SortedMap.empty⟩

def symbolicAt (L : OperationList I E) (offset : E) : List (Access I) := (L.symbolic.find? offset).getD []

end OperationList

namespace Heap
variable [LinearOrder E]

variable (H : Heap I E)

variable (i : ℕ)

def pointer : Option ℕ := (H.objects[i]?).bind ObjectAccesses.accesses

def self : ℕ := (H.pointer i).getD 0

def operations : OperationList I E := H.lists (H.self i)

def useCount (p : ℕ) : ℕ := H.objects.countP fun o => decide (o.accesses = some p)

def setObject (o : ObjectAccesses I) : Heap I E := { H with objects := H.objects.set i o }

/-- `std::make_shared` of a list, kept by object `i`. -/
def makeShared (L : OperationList I E) : Heap I E :=
  { lists := Function.update H.lists H.next L
    next := H.next + 1
    objects := H.objects.modify i fun o => { o with accesses := some H.next } }

def setConcrete (p : ℕ) (m : SortedMap ℕ (Access I)) : Heap I E :=
  { H with lists := Function.update H.lists p { H.lists p with concrete := m } }

def setSymbolic (p : ℕ) (m : SortedMap E (List (Access I))) : Heap I E :=
  { H with lists := Function.update H.lists p { H.lists p with symbolic := m } }

/-! ## Ownership -/

/-- `Acquisition::acquire()`: whether the list was forked. -/
def acquire : Heap I E × Bool :=
  if 1 < H.useCount (H.self i) then (H.makeShared i (H.operations i), true) else (H, false)

/-- `Acquisition::mut()`. -/
def mutable : Except Fault ℕ :=
  if H.useCount (H.self i) = 1 then .ok (H.self i) else .error .notOwned

variable (it : Iterator)

def relocate : Except Fault Iterator :=
  match it.key with
  | none => .error .endDereferenced
  | some k => .ok ⟨H.self i, if ((H.operations i).concrete.find? k).isSome then some k else none⟩

/-- `self.acquire([&it](auto* self) { it = self->concrete.find(it->first); })`. -/
def acquireAt : Except Fault (Heap I E × Iterator) :=
  match H.acquire i with
  | (H, false) => .ok (H, it)
  | (H, true) => do
    let it ← H.relocate i it
    return (H, it)

/-- `self.acquire([&it](auto* self) { it = self->concrete.end(); })`. -/
def acquireEnd : Heap I E × Iterator :=
  match H.acquire i with
  | (H, false) => (H, it)
  | (H, true) => (H, ⟨H.self i, none⟩)

/-! ## The concrete accesses through iterators -/

def current : Except Fault (Option (ℕ × Access I)) :=
  if it.list = H.self i then
    match it.key with
    | none => .ok none
    | some k =>
      match (H.operations i).concrete.find? k with
      | none => .error .staleIterator
      | some acc => .ok (some (k, acc))
  else .error .staleIterator

def deref : Except Fault (ℕ × Access I) := do
  match ← H.current i it with
  | none => .error .endDereferenced
  | some entry => return entry

/-- `std::next(it)`. -/
def nextOf : Iterator :=
  ⟨it.list, it.key.bind (H.lists it.list).concrete.upperBound⟩

/-- `std::prev(it)`; `none` when `it` is `begin()`. -/
def prevOf : Option Iterator :=
  ((H.lists it.list).concrete.prev it.key).map fun entry => ⟨it.list, some entry.1⟩

def assign (f : Access I → Access I) : Except Fault (Heap I E) := do
  let (k, acc) ← H.deref i it
  return H.setConcrete it.list ((H.lists it.list).concrete.insert k (f acc))

/-- `self.mut()->concrete.emplace_hint(it, k, acc)`, or `insert` of such a node. -/
def emplaceHint (k : ℕ) (acc : Access I) : Except Fault (Heap I E) := do
  let p ← H.mutable i
  if it.list = p then return H.setConcrete p ((H.lists p).concrete.emplace k acc)
  else .error .staleIterator

/-- `self.mut()->concrete.extract(it)`. -/
def extract : Except Fault (Heap I E × Access I) := do
  let p ← H.mutable i
  let (k, acc) ← H.deref i it
  return (H.setConcrete p ((H.lists p).concrete.erase k), acc)

end Heap

/-! ## `registerConcreteMemoryOperation` -/

namespace Heap
variable [LinearOrder E]

variable (H : Heap I E)

variable (i : ℕ)

/-- The insertion after the loop over the conflicts to the right. -/
def insertRemaining (it : Iterator) (incomingBegin incomingEnd : ℕ)
    (incoming : MemoryOperation I E) : Except Fault (Heap I E) := do
  let (H, it) ← if it.key = none then .ok (H.acquireEnd i it) else H.acquireAt i it
  H.emplaceHint i it incomingBegin (incoming.access (incomingEnd - incomingBegin))

/-- Whether a node handle is reused for an insertion makes no difference to the map. -/
def rightConflicts (i incomingEnd : ℕ) (incoming : MemoryOperation I E) :
    ℕ → Heap I E → Iterator → ℕ → Except Fault (Heap I E)
  | 0, _, _, _ => .error .fuel
  | fuel + 1, H, it, incomingBegin => do
    match ← H.current i it with
    | none => H.insertRemaining i it incomingBegin incomingEnd incoming
    | some (itBegin, acc) =>
      if itBegin < incomingEnd then
        let itEnd := add64 itBegin acc.numBytes
        if itBegin = incomingBegin then
          if isRead incoming.type || isWrite acc.type then
            if incomingEnd ≤ itEnd then return H
            else rightConflicts i incomingEnd incoming fuel H (H.nextOf it) itEnd
          else
            let (H, it) ← H.acquireAt i it
            if itEnd = incomingEnd then
              H.assign i it fun a => { a with instruction := incoming.instruction, type := incoming.type }
            else if itEnd < incomingEnd then
              let next := H.nextOf it
              let (H, _) ← H.extract i it
              rightConflicts i incomingEnd incoming fuel H next incomingBegin
            else
              let next := H.nextOf it
              let (H, node2) ← H.extract i it
              let H ← H.emplaceHint i next incomingBegin (incoming.access (incomingEnd - incomingBegin))
              H.emplaceHint i next incomingEnd node2
        else if itBegin < incomingBegin then .error .assertion
        else if isWrite incoming.type || isRead acc.type then
          let (H, it) ← H.acquireAt i it
          if itEnd ≤ incomingEnd then
            let next := H.nextOf it
            let (H, _) ← H.extract i it
            rightConflicts i incomingEnd incoming fuel H next incomingBegin
          else
            let H ← H.emplaceHint i it incomingBegin (incoming.access (incomingEnd - incomingBegin))
            let next := H.nextOf it
            let (H, node) ← H.extract i it
            H.emplaceHint i next incomingEnd node
        else
          let H ← H.emplaceHint i it incomingBegin (incoming.access (itBegin - incomingBegin))
          if incomingEnd ≤ itEnd then return H
          else rightConflicts i incomingEnd incoming fuel H (H.nextOf it) itEnd
      else H.insertRemaining i it incomingBegin incomingEnd incoming

/-- The read at `prev` is cut off, and what lies behind the write becomes an entry of its own. -/
def splitLeft (it prev : Iterator) (prevBegin : ℕ) (acc : Access I)
    (incomingBegin incomingEnd : ℕ) (incoming : MemoryOperation I E) :
    Except Fault (Heap I E ⊕ Heap I E × Iterator × ℕ) := do
  let prevEnd := add64 prevBegin acc.numBytes
  let (H, forked) := H.acquire i
  -- the lambda given to `acquire` moves both iterators to the new list
  let it ← if forked then H.relocate i it else .ok it
  let prev := if forked then (H.prevOf it).getD it else prev
  let H ← H.assign i prev fun a => { a with numBytes := incomingBegin - prevBegin }
  if incomingEnd < prevEnd then
    let H ← H.emplaceHint i it incomingBegin (incoming.access incoming.numBytes)
    let H ← H.emplaceHint i it incomingEnd { acc with numBytes := prevEnd - incomingEnd }
    return .inl H
  else return .inr (H, it, incomingBegin)

/-- The entry that begins before the operation: the final heap, or what the loop continues with. -/
def leftConflict (it : Iterator) (incomingBegin incomingEnd : ℕ)
    (incoming : MemoryOperation I E) : Except Fault (Heap I E ⊕ Heap I E × Iterator × ℕ) := do
  match if it.key = some incomingBegin then none else H.prevOf it with
  | none => return .inr (H, it, incomingBegin)
  | some prev =>
    let (prevBegin, acc) ← H.deref i prev
    let prevEnd := add64 prevBegin acc.numBytes
    if incomingBegin < prevEnd then
      if isWrite acc.type || isRead incoming.type then
        if incomingEnd ≤ prevEnd then return .inl H else return .inr (H, it, prevEnd)
      else H.splitLeft i it prev prevBegin acc incomingBegin incomingEnd incoming
    else return .inr (H, it, incomingBegin)

def registerConcreteMemoryOperation (i incomingBegin : ℕ) (incoming : MemoryOperation I E) :
    Except Fault (Heap I E) := do
  let incomingEnd := add64 incomingBegin incoming.numBytes
  let it : Iterator := ⟨H.self i, (H.operations i).concrete.lowerBound incomingBegin⟩
  match ← H.leftConflict i it incomingBegin incomingEnd incoming with
  | .inl H => return H
  | .inr (H, it, incomingBegin) =>
    if it.key.all (incomingBegin ≤ ·) then
      rightConflicts i incomingEnd incoming ((H.operations i).concrete.size + 1) H it incomingBegin
    else .error .assertion

/-! ## `registerSymbolicMemoryOperation` -/

/-- The loop from place `pos` of the equal range on: whether a node was extracted, `none` when an access covers it. -/
def symbolicConflicts (i : ℕ) (incoming : MemoryOperation I E) :
    ℕ → Heap I E → ℕ → ℕ → Bool → Except Fault (Heap I E × Option Bool)
  | 0, _, _, _, _ => .error .fuel
  | fuel + 1, H, list, pos, node =>
    if list = H.self i then
      match ((H.operations i).symbolicAt incoming.offset)[pos]? with
      | none => .ok (H, some node)
      | some acc =>
        if incoming.numBytes ≤ acc.numBytes && (isWrite acc.type || isRead incoming.type) then .ok (H, none)
        else if acc.numBytes ≤ incoming.numBytes && (isRead acc.type || isWrite incoming.type) then
          match H.acquire i with
          | (H, true) => symbolicConflicts i incoming fuel H (H.self i) 0 node
          | (H, false) => do
            let p ← H.mutable i
            let H := H.setSymbolic p ((H.lists p).symbolic.insert incoming.offset
              (((H.lists p).symbolicAt incoming.offset).eraseIdx pos))
            symbolicConflicts i incoming fuel H list pos true
        else symbolicConflicts i incoming fuel H list (pos + 1) node
    else .error .staleIterator

variable (incoming : MemoryOperation I E)

def emplaceSymbolic : Except Fault (Heap I E) := do
  let p ← H.mutable i
  return H.setSymbolic p ((H.lists p).symbolic.insert incoming.offset
    ((H.lists p).symbolicAt incoming.offset ++ [incoming.access incoming.numBytes]))

def registerSymbolicMemoryOperation : Except Fault (Heap I E) := do
  let fuel := 2 * ((H.operations i).symbolicAt incoming.offset).length + 2
  match ← symbolicConflicts i incoming fuel H (H.self i) 0 false with
  | (H, none) => return H
  | (H, some node) =>
    match H.acquire i with
    | (H, true) => if node then .error .assertion else H.emplaceSymbolic i incoming
    | (H, false) => H.emplaceSymbolic i incoming

/-- The copy constructor of `ObjectAccesses`: the copy shares the list. -/
def copy : Heap I E := { H with objects := H.objects ++ (H.objects[i]?).toList }

def fresh : Heap I E := ⟨fun _ => .empty, 0, [⟨none, none⟩]⟩

def recorded : Option (Option I × Option (OperationList I E)) :=
  (H.objects[i]?).map fun o => (o.allocFreeInstruction, o.accesses.map H.lists)

end Heap

/-! ## `trackMemoryOperation` -/

namespace Heap
variable [Offset E]

def registerMemoryOperation (H : Heap I E) (i : ℕ) (incoming : MemoryOperation I E) : Except Fault (Heap I E) :=
  if isRead incoming.type || isWrite incoming.type then
    match Offset.constantValue incoming.offset with
    | some incomingOffset => H.registerConcreteMemoryOperation i incomingOffset incoming
    | none => H.registerSymbolicMemoryOperation i incoming
  else .error .assertion

def trackMemoryOperation (H : Heap I E) (i : ℕ) (mop : MemoryOperation I E) : Except Fault (Heap I E) :=
  if mop.type = .unknown then .error .assertion
  else
    match H.objects[i]? with
    | none => .ok H
    | some o =>
      if o.allocFreeInstruction.isSome then .ok H
      else if isAllocOrFree mop.type then .ok (H.setObject i ⟨some mop.instruction, none⟩)
      else if o.accesses = none then (H.makeShared i .empty).registerMemoryOperation i mop
      else H.registerMemoryOperation i mop

end Heap

end RaceDetection
