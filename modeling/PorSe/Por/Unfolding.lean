import PorSe.Lib.Worklist
import PorSe.Por.Cone
import PorSe.Por.Independence

/-! The unfolding: the store of all events seen so far. An event is stored once, together
with its successors and the events it is in immediate conflict with. -/

namespace Por
open Function
namespace Event
variable {D : Type}

def localPath (e : Event D) : List D :=
  match e.label with
  | .localEvent path => path
  | _ => []

/-- `unfolding::compare_events`; of the predecessors it looks at the identity only. -/
def compareEvents [DecidableEq D] (a b : Event D) : Bool :=
  a = b || a.tid = b.tid && a.depth = b.depth && a.kind = b.kind && a.lid = b.lid && a.cid = b.cid &&
    a.atomicPredecessor = b.atomicPredecessor && (a.kind ≠ .threadCreate || a.createdTid = b.createdTid) &&
    (a.kind ≠ .localEvent || a.localPath = b.localPath) && a.predecessors = b.predecessors

lemma compareEvents_self [DecidableEq D] (a : Event D) : a.compareEvents a = true := by simp [compareEvents]

lemma preds_of_compareEvents [DecidableEq D] {a b : Event D} (h : a.compareEvents b = true) :
    a.kind = b.kind ∧ a.predecessors = b.predecessors := by
  simp only [compareEvents, Bool.or_eq_true, Bool.and_eq_true, decide_eq_true_eq] at h
  rcases h with rfl | h
  · exact ⟨rfl, rfl⟩
  · exact ⟨h.1.1.1.1.1.1.2, h.2⟩

lemma waitPreds_eq_of_compareEvents [DecidableEq D] {a b : Event D} (h : a.compareEvents b = true) :
    a.waitPredecessors = b.waitPredecessors ∧ a.cid = b.cid := by
  obtain ⟨hk, hp⟩ := preds_of_compareEvents h
  have hc : a.cid = b.cid := by
    simp only [compareEvents, Bool.or_eq_true, Bool.and_eq_true, decide_eq_true_eq] at h
    rcases h with rfl | h
    · rfl
    · exact h.1.1.1.1.2
  refine ⟨?_, hc⟩
  obtain ⟨ta, la, pa⟩ := a
  obtain ⟨tb, lb, pb⟩ := b
  cases la <;> cases lb <;> simp only [kind_mk, Label.kind, reduceCtorEq] at hk <;>
    simp only [predecessors] at hp <;> simp only [waitPredecessors]
  case signal.signal => rw [signalWaitPredecessor, signalWaitPredecessor, hp]
  case broadcast.broadcast => rw [broadcastWaitPredecessors, broadcastWaitPredecessors, numNotified, numNotified, hp]

/-- The maximal causes; `cone::max` for the classes that have no override. -/
def immediatePredecessors [DecidableEq D] (e : Event D) : List (Event D) :=
  match e.label with
  | .programInit => []
  | .localEvent _ | .threadCreate _ | .threadInit | .threadExit _ | .lockCreate _
      | .conditionVariableCreate _ => e.preds
  | .lockAcquire _ | .lockDestroy _ | .lockRelease _ _ =>
    match e.preds with
    | [a, b] => if a.isLessThanEq b then [b] else if b.isLessThan a then [a] else [a, b]
    | ps => ps
  | .threadJoin =>
    match e.preds with
    | [a, b] => if a.isLessThan b then [b] else [a, b]
    | ps => ps
  | .signal _ =>
    if e.signalIsLost then Cone.max e.cone
    else
      match e.preds with
      | [a, w] => if w.isLessThan a then [a] else if a.isLessThan w then [w] else [a, w]
      | ps => ps
  | .wait2 _ _ =>
    -- the wait1 is below its notification
    match e.preds with
    | [_, n, l] => if n.isLessThan l then [l] else if l.isLessThan n then [n] else [n, l]
    | ps => ps
  | .wait1 _ _ | .broadcast _ | .conditionVariableDestroy _ => Cone.max e.cone

def destroyedFrom [DecidableEq D] (e : Event D) : List (Event D) :=
  match e.label with
  | .programInit => []
  | .localEvent _ | .threadCreate _ | .threadInit | .threadExit _ | .lockCreate _
      | .conditionVariableCreate _ => e.preds
  | .threadJoin | .lockAcquire _ | .lockDestroy _ | .lockRelease _ _ | .wait1 _ _ | .wait2 _ _
      | .signal _ | .broadcast _
  | .conditionVariableDestroy _ => Cone.max e.cone

def paths (e : Event D) : ℕ := e.fold fun _ _ ps => 1 + (ps.map Prod.snd).sum

lemma paths_eq (e : Event D) : e.paths = 1 + (e.preds.map paths).sum := by
  unfold paths
  rw [fold_eq, List.map_map]
  rfl

end Event

/-! ## The state -/

/-- `fingerprint` stands for the fingerprint and the thread's delta; memory objects are their addresses. -/
structure Metadata (M : Type) where
  fingerprint : M
  pendingFrees : SortedMap ThreadId (List ℕ)
  id : BitVec 64

instance {M : Type} [Inhabited M] : Inhabited (Metadata M) := ⟨⟨default, SortedMap.empty, 0⟩⟩

structure Candidate (D M : Type) where
  event : Event D
  isCutoff : Bool
  metadata : Metadata M

structure Unfolding (D M : Type) where
  events : List (Event D)
  successors : Event D → List (Event D)
  immediateConflicts : Event D → List (Event D)
  isCutoff : Event D → Bool
  metadata : Event D → Metadata M
  size : BitVec 64

namespace Unfolding
variable {D M : Type} [DecidableEq D]

/-- Looked up by thread, depth and kind; `compare_events` compares these again. -/
def storeEvent (U : Unfolding D M) (c : Candidate D M) : Unfolding D M :=
  { U with
    events := U.events ++ [c.event]
    isCutoff := update U.isCutoff c.event c.isCutoff
    metadata := update U.metadata c.event { c.metadata with id := U.size + 1 }
    size := U.size + 1 }

def pushBack (f : Event D → List (Event D)) (e p : Event D) : Event D → List (Event D) :=
  update f p (f p ++ [e])

def addToSuccessors (U : Unfolding D M) (e : Event D) : Unfolding D M :=
  { U with successors := e.immediatePredecessors.foldl (fun f p => pushBack f e p) U.successors }

def stored (U : Unfolding D M) (c : Candidate D M) : Unfolding D M := (U.storeEvent c).addToSuccessors c.event

/-! ## `compute_immediate_conflicts` -/

/-- Each call takes two fresh colours, so all events start without a colour. -/
inductive Color
  | uncolored
  | red
  | blue
deriving DecidableEq

/-- `event::colorize` over a range of events. -/
def colorize (c : Color) (es : List (Event D)) (color : Event D → Color) : Event D → Color :=
  es.foldl (fun color e => update color e c) color

lemma colorize_apply {c : Color} {es : List (Event D)} {color : Event D → Color} {z : Event D} :
    colorize c es color z = if z ∈ es then c else color z := by
  unfold colorize
  induction es generalizing color with
  | nil => simp
  | cons e es ih =>
    rw [List.foldl_cons, ih]
    grind

/-- A cause becomes red and its immediate conflicts become blue. -/
def redden (imm : Event D → List (Event D)) (color : Event D → Color) (p : Event D) : Event D → Color :=
  colorize .blue (imm p) (update color p .red)

def reddenAll (imm : Event D → List (Event D)) : List (Event D) → (Event D → Color) → (Event D → Color) × List (Event D)
  | [], color => (color, [])
  | p :: ps, color =>
    if color p = .red then reddenAll imm ps color
    else ((reddenAll imm ps (redden imm color p)).1, p :: (reddenAll imm ps (redden imm color p)).2)

def causesStep (U : Unfolding D M) (w : Event D) (W : List (Event D)) (s : (Event D → Color) × List (Event D)) :
    List (Event D) × (Event D → Color) × List (Event D) :=
  let r := reddenAll U.immediateConflicts w.predecessors s.1
  (W ++ r.2, r.1, s.2 ++ r.2)

/-- Where all predecessors are red, it is concurrent to `e` or in immediate conflict with it. -/
def examine (e : Event D) (s : List (Event D) × (Event D → Color) × List (Event D)) (succ : Event D) :
    List (Event D) × (Event D → Color) × List (Event D) :=
  if succ = e ∨ s.2.1 succ = .red ∨ s.2.1 succ = .blue then s
  else if succ.predecessors.any fun p => s.2.1 p ≠ .red then s
  else if e.isIndependentOf succ then (succ :: s.1, update s.2.1 succ .red, s.2.2)
  else (s.1, update s.2.1 succ .blue, s.2.2 ++ [succ])

def successorsStep (U : Unfolding D M) (e w : Event D) (W : List (Event D)) (s : (Event D → Color) × List (Event D)) :
    List (Event D) × (Event D → Color) × List (Event D) :=
  (U.successors w).foldl (examine e) (W, s)

/-- The second worklist is a stack whose top is the event coloured last. -/
def computeImmediateConflicts (U : Unfolding D M) (e : Event D) : Option (List (Event D)) := do
  let init := reddenAll U.immediateConflicts e.predecessors fun _ => .uncolored
  let (color, W) ← Worklist.run U.causesStep e.paths init.2 init
  let (_, result) ← Worklist.run (U.successorsStep e) (W.length + U.events.length) W.reverse (color, [])
  some result

/-! ## `mark_as_cutoff`, `deduplicate` and `remove_event` -/

def cutoffStep (U : Unfolding D M) (w : Event D) (W : List (Event D)) (isCutoff : Event D → Bool) :
    List (Event D) × (Event D → Bool) :=
  let isCutoff := update isCutoff w true
  (((U.successors w).filter fun s => !isCutoff s).reverse ++ W, isCutoff)

def maxDepth (U : Unfolding D M) : ℕ := (U.events.map Event.depth).foldr max 0

def width (U : Unfolding D M) : ℕ := (U.events.map fun e => (U.successors e).length).foldr max 0

/-- The fuel bounds the number of ways up from an event. -/
def markAsCutoff (U : Unfolding D M) (e : Event D) : Option (Unfolding D M) :=
  if U.isCutoff e then some U
  else
    (Worklist.run U.cutoffStep ((U.width + 1) ^ U.maxDepth) [e] U.isCutoff).map fun isCutoff => { U with isCutoff }

def setMetadata (U : Unfolding D M) (e : Event D) (md : Metadata M) : Unfolding D M :=
  { U with metadata := update U.metadata e md }

/-- `remove_from_successors_of`: the last entry moves into the gap. -/
def swapRemove (e : Event D) (es : List (Event D)) : List (Event D) :=
  if e ∈ es then (es.set (es.idxOf e) (es.getLast?.getD e)).dropLast else es

/-- Runs the destructor of `e`, too, once `e` has left the lists of its immediate conflicts. -/
def removeEvent (U : Unfolding D M) (e : Event D) : Unfolding D M :=
  if e ∈ U.events then
    { U with
      events := U.events.erase e
      immediateConflicts := (U.immediateConflicts e).foldl (fun f ic => update f ic ((f ic).erase e))
        U.immediateConflicts
      successors := e.destroyedFrom.foldl (fun f p => update f p (swapRemove e (f p))) U.successors
      size := U.size - 1 }
  else U

def setImmediateConflicts (U : Unfolding D M) (e : Event D) (conflicts : List (Event D)) : Unfolding D M :=
  { U with immediateConflicts :=
      conflicts.foldl (fun f other => pushBack f e other) (update U.immediateConflicts e conflicts) }

variable [Inhabited M]

/-- The constructor leaves `_size` uninitialised, so that any value may be there. -/
def empty (size : BitVec 64) : Unfolding D M where
  events := []
  successors _ := []
  immediateConflicts _ := []
  isCutoff _ := false
  metadata _ := default
  size := size

def initial (size : BitVec 64) : Unfolding D M :=
  (empty size).storeEvent ⟨.programInit, false, default⟩

variable [DecidableEq M]

/-- Default metadata, which the event got without being executed, is replaced. -/
def replaceDefaultMetadata (U : Unfolding D M) (v : Event D) (md : Metadata M) : Unfolding D M :=
  if (U.metadata v).fingerprint = (default : Metadata M).fingerprint then U.setMetadata v md else U

def deduplicate (U : Unfolding D M) (c : Candidate D M) : Option (Unfolding D M × Bool × Event D) :=
  match U.events.find? c.event.compareEvents with
  | some v =>
    (if c.isCutoff then U.markAsCutoff v else some U).map fun U => (U.replaceDefaultMetadata v c.metadata, false, v)
  | none =>
    ((U.stored c).computeImmediateConflicts c.event).map fun conflicts =>
      ((U.stored c).setImmediateConflicts c.event conflicts, true, c.event)

end Unfolding
end Por
