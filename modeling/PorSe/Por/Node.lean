import PorSe.Lib.TreePath
import PorSe.Por.Configuration

/-! The exploration tree. The left child of a node goes on with the event of the node, the
right child excludes it. One node at a time carries the sweep bit; when it is finished, it is
removed together with the ancestors that it leaves without children. -/

namespace Por
open TreePath

structure Node (D : Type) where
  event : Option (Event D)
  configuration : Option (Configuration D)
  /-- The events that are not to happen next, `_D` in the source. -/
  excluded : List (Event D)
  standby : Bool
  isSweepNode : Bool

namespace Node
variable {D : Type} [DecidableEq D]

abbrev Tree (D : Type) := BinaryTree (Node D)

def root : Tree D := .node ⟨none, some .initial, [], false, true⟩ .nil .nil

def hasEvent (n : Node D) : Bool := n.event.isSome

/-! ## Adding children -/

def allocateLeftChild (n : Node D) : Node D := ⟨none, n.configuration, n.excluded, false, false⟩

/-- A node that is given an event hands the sweep bit to its left child. -/
def withLeftChild (n : Node D) (event : Event D) (child : Node D) (right : Tree D) : Tree D :=
  .node { n with event := some event, isSweepNode := false }
    (.node { child with isSweepNode := n.isSweepNode } .nil .nil) right

variable (event : Event D)

/-- For an event to be caught up with: its configuration is not known yet. -/
def makeLeftChildOf : Tree D → Option (Tree D)
  | .node n .nil r =>
    if n.hasEvent then none else some (n.withLeftChild event { n.allocateLeftChild with configuration := none } r)
  | _ => none

variable (standby : Bool)

/-- For an event that extends the configuration of the node. -/
def makeLeftChild : Tree D → Option (Tree D)
  | .node n .nil r => do
    let C ← n.configuration
    if n.hasEvent then none
    else some (n.withLeftChild event { n.allocateLeftChild with configuration := some (C.commit event), standby } r)
  | _ => none

/-- For the start of the main thread, which is in the configuration already. -/
def makeLeftChildInit : Tree D → Option (Tree D)
  | .node n .nil r => do
    let C ← n.configuration
    let event ← C.threadHeads.entries.head?.map Prod.snd
    if n.hasEvent = false ∧ C.size = 2 ∧ n.excluded = [] ∧ event.kind = .threadInit then
      some (.node { n with event := some event } (.node { n.allocateLeftChild with standby } .nil .nil) r)
    else none
  | _ => none

def makeRightChild : Tree D → Option (Tree D)
  | .node n l .nil => do
    let event ← n.event
    some (.node n l (.node ⟨none, n.configuration, n.excluded ++ [event], n.standby, false⟩ .nil .nil))
  | _ => none

def makeRightLocalChild (t : Tree D) : Option (Tree D) := do
  match t with
  | .nil => none
  | .node n _ _ =>
    if n.event.any fun e => e.kind = .localEvent then
      updateAt (makeLeftChild event standby) [.right] (← makeRightChild t)
    else none

def makeLeftChildren : List (Event D) → Tree D → Option (Tree D)
  | [], t => some t
  | event :: events, t => do updateAt (makeLeftChildren events) [.left] (← makeLeftChildOf event t)

/-- What `make_right_branch` changes: the alternative goes into the right child. -/
def addRightBranch (events : List (Event D)) (t : Tree D) : Option (Tree D) := do
  updateAt (makeLeftChildren events) [.right] (← makeRightChild t)

/-- Walks down to the right until the event is found; its left child gets the configuration. -/
def catchUp (event : Event D) (copy : Configuration D) (standby : Bool) : Tree D → Option (Tree D)
  | .nil => none
  | .node n l r =>
    if n.event = some event then
      match l with
      | .nil => none
      | .node m l' r' =>
        if m.configuration.all fun C => copy.size = C.size then
          some (.node n (.node { m with
            configuration := some (m.configuration.getD copy), standby := m.standby || standby } l' r') r)
        else none
    else if n.hasEvent then (catchUp event copy standby r).map fun r' => .node n l r' else none

/-! ## Removing nodes -/

/-- Removes the node and ancestors without children. The first one with some passes the bit on to its right side. -/
def removeUp : Path → Tree D → Option (Tree D)
  | [], .node _ .nil .nil => some .nil
  | .left :: p, .node n l r => do
    match ← removeUp p l, r with
    | .nil, .nil => some .nil
    | .nil, r =>
      if n.isSweepNode then none
      else some (.node n .nil (updateLeftmost (fun m => { m with isSweepNode := true }) r))
    | l', r => some (.node n l' r)
  | .right :: p, .node n l r => do
    match l, ← removeUp p r with
    | .nil, .nil => some .nil
    | _, .nil => none
    | l, r' => some (.node n l r')
  | _, _ => none

def backtrack (p : Path) (t : Tree D) : Option (Tree D) :=
  match subtree t p, t with
  | .node n .nil .nil, .node m _ _ =>
    if n.isSweepNode then (removeUp p t).map fun
      | .nil => .node m .nil .nil
      | t' => t'
    else some t
  | _, _ => none

/-! ## Runs -/

inductive Op (D : Type)
  | makeLeftChild (event : Event D) (standby : Bool)
  | makeLeftChildInit (standby : Bool)
  | makeRightLocalChild (event : Event D) (standby : Bool)
  | addRightBranch (events : List (Event D))
  | catchUp (event : Event D) (copy : Configuration D) (standby : Bool)
  | backtrack

def perform (op : Op D) (p : Path) : Tree D → Option (Tree D) :=
  match op with
  | .makeLeftChild event standby => updateAt (makeLeftChild event standby) p
  | .makeLeftChildInit standby => updateAt (makeLeftChildInit standby) p
  | .makeRightLocalChild event standby => updateAt (makeRightLocalChild event standby) p
  | .addRightBranch events => updateAt (addRightBranch events) p
  | .catchUp event copy standby => updateAt (catchUp event copy standby) p
  | .backtrack => backtrack p

end Node
end Por
