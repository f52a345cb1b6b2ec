import PorSe.RaceDetection.Copies
import PorSe.Por.Configuration

/-! The data race detector: the accesses of each thread by epoch and object, the check
that needs no solver and the one that asks it a single query. -/

namespace RaceDetection
open Por

variable {I E D : Type}

/-! ## The accesses of one epoch -/

/-- An `ObjectAccesses` by value, with an operation list that no copy shares. -/
structure AccessRecord (I E : Type) [LinearOrder E] where
  allocFreeInstruction : Option I
  accesses : Option (OperationList I E)

namespace AccessRecord
variable [Offset E]

def empty : AccessRecord I E := ⟨none, none⟩

variable (r : AccessRecord I E)

def isAllocOrFree : Bool := r.allocFreeInstruction.isSome

def getConcreteAccesses : SortedMap ℕ (Access I) := (r.accesses.getD .empty).concrete

def getSymbolicAccesses : SortedMap E (List (Access I)) := (r.accesses.getD .empty).symbolic

/-- The heap that holds the object and its list alone. -/
def load : Heap I E where
  lists := fun _ => r.accesses.getD .empty
  next := 1
  objects := [⟨r.allocFreeInstruction, r.accesses.map fun _ => 0⟩]

def store (H : Heap I E) : AccessRecord I E :=
  match H.recorded 0 with
  | none => empty
  | some (allocFreeInstruction, accesses) => ⟨allocFreeInstruction, accesses⟩

def trackMemoryOperation (op : MemoryOperation I E) : Except Fault (AccessRecord I E) := do
  let H ← r.load.trackMemoryOperation 0 op
  return store H

end AccessRecord

/-- The accesses of one thread between two events, by the address of the object. -/
abbrev EpochMemoryAccesses (I E : Type) [LinearOrder E] := SortedMap ℕ (AccessRecord I E)

namespace EpochMemoryAccesses
variable [Offset E]

variable (epoch : EpochMemoryAccesses I E)

def trackMemoryOperation (op : MemoryOperation I E) : Except Fault (EpochMemoryAccesses I E) := do
  let accesses ← ((epoch.find? op.object.address).getD .empty).trackMemoryOperation op
  return epoch.insert op.object.address accesses

def pruneDataForMemoryObject (obj : MemoryObject) : EpochMemoryAccesses I E :=
  epoch.erase obj.address

def getMemoryAccessesOfThread (mo : MemoryObject) : Option (AccessRecord I E) :=
  epoch.find? mo.address

end EpochMemoryAccesses

/-! ## `trackAccess` -/

/-- The epochs of each thread, the latest first, each with the event it follows. -/
structure DataRaceDetection (I E D : Type) [LinearOrder E] where
  accesses : SortedMap ThreadId (List (Event D × EpochMemoryAccesses I E))

namespace DataRaceDetection
variable [Offset E]

def empty : DataRaceDetection I E D := ⟨SortedMap.empty⟩

def getAccessListOfThread (det : DataRaceDetection I E D) (tid : ThreadId) : List (Event D × EpochMemoryAccesses I E) :=
  (det.accesses.find? tid).getD []

variable [DecidableEq D]

/-- The epoch after `ev`, new unless it is the last one of the thread, and those before it. -/
def getAccessesAfter (det : DataRaceDetection I E D) (tid : ThreadId) (ev : Event D) :
    EpochMemoryAccesses I E × List (Event D × EpochMemoryAccesses I E) :=
  match det.getAccessListOfThread tid with
  | [] => (SortedMap.empty, [])
  | (back, epoch) :: older =>
    if back = ev then (epoch, older) else (SortedMap.empty, (back, epoch) :: older)

def trackAccess (det : DataRaceDetection I E D) (C : Configuration D) (op : MemoryOperation I E) :
    Except Fault (DataRaceDetection I E D) :=
  if op.type = .unknown ∨ op.tid.isEmpty ∨ ¬ (isAllocOrFree op.type || op.numBytes ≠ 0) then .error .assertion
  else
    match C.threadHeads.find? op.tid with
    | none => .error .assertion
    | some ev => do
      let (acc, older) := det.getAccessesAfter op.tid ev
      let acc ← if isFree op.type then .ok (acc.pruneDataForMemoryObject op.object) else acc.trackMemoryOperation op
      return ⟨det.accesses.insert op.tid ((ev, acc) :: older)⟩

/-! ## The accesses to check -/

/-- `while (evt != nullptr && evt != target) { succ = evt; evt = evt->thread_predecessor(); }`
along the chain of thread predecessors. -/
def skipTo (target : Event D) : Option (Event D) → List (Event D) → Option (Event D) × List (Event D)
  | succ, [] => (succ, [])
  | succ, evt :: chain => if evt = target then (succ, evt :: chain) else skipTo target (some evt) chain

/-- From the latest backwards, up to the first epoch synchronised with the event `cur` of the operating thread. -/
def epochsToCheck (cur : Event D) : Option (Event D) → List (Event D) →
    List (Event D × EpochMemoryAccesses I E) → List (EpochMemoryAccesses I E)
  | _, _, [] => []
  | succ, chain, (ev, epoch) :: older =>
    match skipTo ev succ chain with
    | (_, []) => []
    | (succ, evt :: chain) =>
      if succ.any (·.isLessThan cur) then [] else epoch :: epochsToCheck cur succ (evt :: chain) older

/-- What the other threads recorded for the object, in the order of the loops. -/
def recordsToCheck (det : DataRaceDetection I E D) (C : Configuration D) (cur : Event D)
    (operation : MemoryOperation I E) : List (ThreadId × AccessRecord I E) :=
  C.threadHeads.entries.flatMap fun (tid, evt) =>
    if tid = operation.tid then []
    else (epochsToCheck cur none evt.threadChain (det.getAccessListOfThread tid)).filterMap fun epoch =>
      (epoch.getMemoryAccessesOfThread operation.object).map fun accessed => (tid, accessed)

end DataRaceDetection

/-! ## Queries -/

inductive PointerExpr (E : Type)
  | pointer (value : ℕ)
  | zext (offset : E)
  | add (a b : PointerExpr E)

inductive Condition (E : Type)
  | true
  | ult (a b : PointerExpr E)
  | or (a b : Condition E)
  | and (a b : Condition E)

def PointerExpr.eval (value : E → ℕ) : PointerExpr E → ℕ
  | pointer n => n % 2 ^ 64
  | zext offset => value offset
  | add a b => add64 (a.eval value) (b.eval value)

def Condition.Holds (value : E → ℕ) : Condition E → Prop
  | true => True
  | ult a b => a.eval value < b.eval value
  | or a b => a.Holds value ∨ b.Holds value
  | and a b => a.Holds value ∧ b.Holds value

structure SolverInterface (E : Type) where
  mustBeTrue : Condition E → Option Bool
  mayBeTrue : Condition E → Option Bool
  mayBeFalse : Condition E → Option Bool

structure RaceDetectionResult (I E : Type) where
  isRace : Bool
  racingInstruction : Option I
  racingThread : ThreadId
  canBeSafe : Bool
  conditionToBeSafe : Option (Condition E)
  hasNewConstraints : Bool
  newConstraints : Option (Condition E)

namespace RaceDetectionResult

def noRace : RaceDetectionResult I E := ⟨false, none, .empty, false, none, false, none⟩

def race (tid : ThreadId) (instruction : Option I) : RaceDetectionResult I E :=
  ⟨true, instruction, tid, false, none, false, none⟩

end RaceDetectionResult

/-! ## `FastPath` -/

namespace DataRaceDetection
variable [Offset E]

def symbolicAccesses (accessed : AccessRecord I E) : List (E × Access I) :=
  accessed.getSymbolicAccesses.entries.flatMap fun (offset, accs) => accs.map fun acc => (offset, acc)

variable (operation : MemoryOperation I E)

/-- The concrete access that overlaps, if one of the two is a write: the entry to the left, or the first one after. -/
def concreteRace (operationOffset : ℕ) (m : SortedMap ℕ (Access I)) : Option (Access I) :=
  match (Heap.leftEntry m operationOffset).filter fun p =>
      (isWrite operation.type || isWrite p.2.type) && decide (operationOffset < add64 p.1 p.2.numBytes) with
  | some prev => some prev.2
  | none =>
    (((m.entries.filter fun p => decide (operationOffset ≤ p.1)).takeWhile fun p =>
      decide (p.1 < add64 operationOffset operation.numBytes)).find? fun p =>
        isWrite operation.type || isWrite p.2.type).map Prod.snd

/-- The check against one record of one thread: the result to return, or that with which the loops continue. -/
def fastCheck (tid : ThreadId) (accessed : AccessRecord I E)
    (result : Option (RaceDetectionResult I E)) : RaceDetectionResult I E ⊕ Option (RaceDetectionResult I E) :=
  if isAllocOrFree operation.type || accessed.isAllocOrFree then
    .inl (.race tid
      (if accessed.isAllocOrFree then accessed.allocFreeInstruction
      else if ¬ accessed.getConcreteAccesses.entries.isEmpty then
        accessed.getConcreteAccesses.values.head?.map Access.instruction
      else (symbolicAccesses accessed).head?.map fun p => p.2.instruction))
  else
    match Offset.constantValue operation.offset with
    | some operationOffset =>
      match concreteRace operation operationOffset accessed.getConcreteAccesses with
      | some acc => .inl (.race tid (some acc.instruction))
      | none =>
        .inr (if (symbolicAccesses accessed).any fun p => isWrite operation.type || isWrite p.2.type then none
          else result)
    | none =>
      match ((symbolicAccesses accessed).filter fun p => decide (p.1 = operation.offset)).find? fun p =>
          !(isRead operation.type && isRead p.2.type) with
      | some p => .inl (.race tid (some p.2.instruction))
      | none =>
        .inr (if ((symbolicAccesses accessed).filter fun p => decide (p.1 ≠ operation.offset)).any (fun p =>
            isWrite operation.type || isWrite p.2.type) ||
            accessed.getConcreteAccesses.values.any (fun acc => isWrite operation.type || isWrite acc.type) then none
          else result)

def fastLoop (operation : MemoryOperation I E) :
    List (ThreadId × AccessRecord I E) → Option (RaceDetectionResult I E) → Option (RaceDetectionResult I E)
  | [], result => result
  | (tid, accessed) :: rest, result =>
    match fastCheck operation tid accessed result with
    | .inl result => some result
    | .inr result => fastLoop operation rest result

variable [DecidableEq D]

variable (det : DataRaceDetection I E D)

variable (C : Configuration D)

def fastPath (operation : MemoryOperation I E) : Except Fault (Option (RaceDetectionResult I E)) :=
  match C.threadHeads.find? operation.tid with
  | none => .error .assertion
  | some cur => .ok (fastLoop operation (det.recordsToCheck C cur operation) (some .noRace))

/-! ## `SolverPath` -/

structure AccessToCheck (I E : Type) where
  tid : ThreadId
  offset : PointerExpr E
  numBytes : ℕ
  instruction : I

/-- The accesses of one record that the fast path did not decide. -/
def accessesToCheck (tid : ThreadId) (accessed : AccessRecord I E) : Except Fault (List (AccessToCheck I E)) :=
  let conflicting (acc : Access I) : Bool := isWrite operation.type || isWrite acc.type
  let symbolic := (symbolicAccesses accessed).filter fun p => conflicting p.2
  let symbolicToCheck := symbolic.map fun p => ⟨tid, .zext p.1, p.2.numBytes, p.2.instruction⟩
  if accessed.isAllocOrFree then .error .assertion
  else if (Offset.constantValue operation.offset).isSome then .ok symbolicToCheck
  else if symbolic.any fun p => decide (p.1 = operation.offset) then .error .assertion
  else .ok ((accessed.getConcreteAccesses.entries.filter fun p => conflicting p.2).map (fun p =>
      ⟨tid, .pointer p.1, p.2.numBytes, p.2.instruction⟩) ++ symbolicToCheck)

/-- The last byte of an access, `numBytes - 1` being computed without sign. -/
def endOf (offset : PointerExpr E) (numBytes : ℕ) : PointerExpr E := offset.add (.pointer (numBytes + (2 ^ 64 - 1)))

def notOverlapping (access : AccessToCheck I E) : Condition E :=
  .or (.ult (endOf (.zext operation.offset) operation.numBytes) access.offset)
    (.ult (endOf access.offset access.numBytes) (.zext operation.offset))

def queryIsSafeForAll (accesses : List (AccessToCheck I E)) : Condition E :=
  accesses.foldl (fun query access => .and query (notOverlapping operation access)) .true

variable (interface : SolverInterface E)

/-- The first access with an overlap; where the solver fails, it goes on with the next one. -/
def racingAccess (operation : MemoryOperation I E)
    (accesses : List (AccessToCheck I E)) : Option (AccessToCheck I E) :=
  accesses.find? fun access => interface.mayBeFalse (notOverlapping operation access) == some true

def solverPath (operation : MemoryOperation I E) : Except Fault (Option (RaceDetectionResult I E)) :=
  match C.threadHeads.find? operation.tid with
  | none => .error .assertion
  | some cur => do
    let accesses ← (det.recordsToCheck C cur operation).mapM fun (tid, accessed) =>
      accessesToCheck operation tid accessed
    if accesses.flatten.isEmpty then .error .assertion
    else
      let query := queryIsSafeForAll operation accesses.flatten
      match interface.mustBeTrue query with
      | none => return none
      | some true => return some { RaceDetectionResult.noRace with hasNewConstraints := true, newConstraints := query }
      | some false =>
        match interface.mayBeTrue query with
        | none => return none
        | some canBeSafe =>
          return (racingAccess interface operation accesses.flatten).map fun access =>
            { RaceDetectionResult.race access.tid (some access.instruction) with
              canBeSafe := canBeSafe
              conditionToBeSafe := if canBeSafe then some query else none }

end DataRaceDetection

end RaceDetection
