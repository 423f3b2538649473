import TxKernel.Vm.Types
import Mathlib.Data.Prod.Lex

/-!
The interval tree of a range lock: reservations ordered by start address and id, in an array of
nodes linked by slot numbers. `none` is a panic of the source, or the fuel of a recursion running
out. Heights are `i8` in the source; they stay below the number of slots.
-/

namespace TxKernel.Vm

inductive LockMode
  | exclusiveWriter
  | materializer
  deriving Repr, DecidableEq

structure Reservation where
  id : ℕ
  range : UserRange
  mode : LockMode
  deriving Repr, DecidableEq

inductive ReservationKeyOrdering
  | less
  | equal
  | greater
  deriving Repr, DecidableEq

def compareReservationKey (aId : ℕ) (aRange : UserRange) (bId : ℕ) (bRange : UserRange) :
    ReservationKeyOrdering :=
  match compare aRange.start bRange.start with
  | .lt => .less
  | .gt => .greater
  | .eq =>
    match compare aId bId with
    | .lt => .less
    | .eq => .equal
    | .gt => .greater

def minOptionId : Option ℕ → Option ℕ → Option ℕ
  | some a, some b => some (min a b)
  | some a, none => some a
  | none, some b => some b
  | none, none => none

structure ReservationNode where
  reservation : Option Reservation
  left : Option ℕ
  right : Option ℕ
  height : ℤ
  maxEnd : ℕ
  deriving Repr, DecidableEq

namespace ReservationNode

def empty : ReservationNode := ⟨none, none, none, 0, 0⟩

def new (r : Reservation) : ReservationNode := ⟨some r, none, none, 1, r.range.stop⟩

end ReservationNode

structure ReservationIntervalTree where
  root : Option ℕ
  nodes : List ReservationNode
  deriving Repr, DecidableEq

namespace ReservationIntervalTree

def new (n : ℕ) : ReservationIntervalTree := ⟨none, List.replicate n .empty⟩

section Nodes

variable (nodes : List ReservationNode)

def nodeHeight : Option ℕ → Option ℤ
  | none => some 0
  | some index => do
    let node ← nodes[index]?
    return node.height

def nodeMaxEnd : Option ℕ → Option ℕ
  | none => some 0
  | some index => do
    let node ← nodes[index]?
    return node.maxEnd

def balanceFactor (index : ℕ) : Option ℤ := do
  let node ← nodes[index]?
  let left ← nodeHeight nodes node.left
  let right ← nodeHeight nodes node.right
  return left - right

def recompute (index : ℕ) : Option (List ReservationNode) := do
  let node ← nodes[index]?
  let reservation ← node.reservation
  let leftHeight ← nodeHeight nodes node.left
  let rightHeight ← nodeHeight nodes node.right
  let leftEnd ← nodeMaxEnd nodes node.left
  let rightEnd ← nodeMaxEnd nodes node.right
  return nodes.set index { node with
    height := 1 + max leftHeight rightHeight
    maxEnd := max (max reservation.range.stop leftEnd) rightEnd }

def setLeft (index : ℕ) (left : Option ℕ) : Option (List ReservationNode) := do
  let node ← nodes[index]?
  return nodes.set index { node with left := left }

def setRight (index : ℕ) (right : Option ℕ) : Option (List ReservationNode) := do
  let node ← nodes[index]?
  return nodes.set index { node with right := right }

def rotateLeft (root : ℕ) : Option (List ReservationNode × ℕ) := do
  let node ← nodes[root]?
  let newRoot ← node.right
  let newNode ← nodes[newRoot]?
  let transferred := newNode.left
  let nodes ← setLeft nodes newRoot (some root)
  let nodes ← setRight nodes root transferred
  let nodes ← recompute nodes root
  let nodes ← recompute nodes newRoot
  return (nodes, newRoot)

def rotateRight (root : ℕ) : Option (List ReservationNode × ℕ) := do
  let node ← nodes[root]?
  let newRoot ← node.left
  let newNode ← nodes[newRoot]?
  let transferred := newNode.right
  let nodes ← setRight nodes newRoot (some root)
  let nodes ← setLeft nodes root transferred
  let nodes ← recompute nodes root
  let nodes ← recompute nodes newRoot
  return (nodes, newRoot)

def rebalance (root : ℕ) : Option (List ReservationNode × ℕ) := do
  let nodes ← recompute nodes root
  let balance ← balanceFactor nodes root
  if 1 < balance then
    let node ← nodes[root]?
    let left ← node.left
    let leftBalance ← balanceFactor nodes left
    if leftBalance < 0 then
      let (nodes, left) ← rotateLeft nodes left
      let nodes ← setLeft nodes root (some left)
      rotateRight nodes root
    else rotateRight nodes root
  else if balance < -1 then
    let node ← nodes[root]?
    let right ← node.right
    let rightBalance ← balanceFactor nodes right
    if 0 < rightBalance then
      let (nodes, right) ← rotateRight nodes right
      let nodes ← setRight nodes root (some right)
      rotateLeft nodes root
    else rotateLeft nodes root
  else return (nodes, root)

end Nodes

def insertNode : ℕ → List ReservationNode → ℕ → ℕ → Option (List ReservationNode × ℕ)
  | 0, _, _, _ => none
  | fuel + 1, nodes, root, inserted => do
    let insertedNode ← nodes[inserted]?
    let insertedReservation ← insertedNode.reservation
    let node ← nodes[root]?
    let rootReservation ← node.reservation
    match compareReservationKey insertedReservation.id insertedReservation.range
        rootReservation.id rootReservation.range with
    | .less =>
      let (nodes, left) ← match node.left with
        | some left => insertNode fuel nodes left inserted
        | none => some (nodes, inserted)
      let nodes ← setLeft nodes root (some left)
      rebalance nodes root
    | .equal | .greater =>
      let (nodes, right) ← match node.right with
        | some right => insertNode fuel nodes right inserted
        | none => some (nodes, inserted)
      let nodes ← setRight nodes root (some right)
      rebalance nodes root

def insert (t : ReservationIntervalTree) (reservation : Reservation) :
    Option (ReservationIntervalTree × Bool) :=
  match t.nodes.findIdx? fun node => node.reservation.isNone with
  | none => some (t, false)
  | some slot => do
    let nodes := t.nodes.set slot (.new reservation)
    match t.root with
    | some root =>
      let (nodes, root) ← insertNode (nodes.length + 1) nodes root slot
      return (⟨some root, nodes⟩, true)
    | none => return (⟨some slot, nodes⟩, true)

def minNode : ℕ → List ReservationNode → ℕ → Option ℕ
  | 0, _, _ => none
  | fuel + 1, nodes, cursor => do
    let node ← nodes[cursor]?
    match node.left with
    | some left => minNode fuel nodes left
    | none => return cursor

abbrev Removal := List ReservationNode × Option ℕ × Option Reservation

/-- `remove_root`; `removeNode` is the removal from the right subtree. -/
def removeRoot (fuel : ℕ)
    (removeNode : List ReservationNode → Option ℕ → ℕ → UserRange → Option Removal)
    (nodes : List ReservationNode) (root : ℕ) : Option (List ReservationNode × Option ℕ) := do
  let node ← nodes[root]?
  match node.left, node.right with
  | none, none => return (nodes.set root .empty, none)
  | some child, none | none, some child => return (nodes.set root .empty, some child)
  | some _, some right =>
    let successor ← minNode fuel nodes right
    let successorNode ← nodes[successor]?
    let successorReservation ← successorNode.reservation
    let nodes := nodes.set root { node with reservation := some successorReservation }
    let (nodes, right, _) ← removeNode nodes (some right) successorReservation.id
      successorReservation.range
    let nodes ← setRight nodes root right
    let (nodes, root) ← rebalance nodes root
    return (nodes, some root)

def removeNode : ℕ → List ReservationNode → Option ℕ → ℕ → UserRange → Option Removal
  | _, nodes, none, _, _ => some (nodes, none, none)
  | 0, _, some _, _, _ => none
  | fuel + 1, nodes, some root, id, range => do
    let node ← nodes[root]?
    let rootReservation ← node.reservation
    match compareReservationKey id range rootReservation.id rootReservation.range with
    | .less =>
      let (nodes, left, removed) ← removeNode fuel nodes node.left id range
      let nodes ← setLeft nodes root left
      let (nodes, root) ← rebalance nodes root
      return (nodes, some root, removed)
    | .greater =>
      let (nodes, right, removed) ← removeNode fuel nodes node.right id range
      let nodes ← setRight nodes root right
      let (nodes, root) ← rebalance nodes root
      return (nodes, some root, removed)
    | .equal =>
      let (nodes, root) ← removeRoot fuel (removeNode fuel) nodes root
      return (nodes, root, some rootReservation)

def remove (t : ReservationIntervalTree) (id : ℕ) (range : UserRange) :
    Option (ReservationIntervalTree × Option Reservation) := do
  let (nodes, root, removed) ← removeNode (t.nodes.length + 1) t.nodes t.root id range
  return (⟨root, nodes⟩, removed)

def subtreeMayOverlap (nodes : List ReservationNode) (root : Option ℕ) (range : UserRange) :
    Option Bool :=
  match root with
  | none => some false
  | some root => do
    let node ← nodes[root]?
    return range.start < node.maxEnd

def anyOverlapFrom (predicate : Reservation → Bool) (range : UserRange) :
    ℕ → List ReservationNode → Option ℕ → Option Bool
  | _, _, none => some false
  | 0, _, some _ => none
  | fuel + 1, nodes, some root => do
    let node ← nodes[root]?
    let reservation ← node.reservation
    let mayOverlap ← subtreeMayOverlap nodes node.left range
    let inLeft ← if mayOverlap then anyOverlapFrom predicate range fuel nodes node.left
      else some false
    if inLeft then return true
    else if reservation.range.overlaps range ∧ predicate reservation then return true
    else if reservation.range.start < range.stop then
      anyOverlapFrom predicate range fuel nodes node.right
    else return false

def anyOverlapWhere (t : ReservationIntervalTree) (range : UserRange)
    (predicate : Reservation → Bool) : Option Bool :=
  anyOverlapFrom predicate range (t.nodes.length + 1) t.nodes t.root

def minOverlapIdFrom (predicate : Reservation → Bool) (range : UserRange) :
    ℕ → List ReservationNode → Option ℕ → Option (Option ℕ)
  | _, _, none => some none
  | 0, _, some _ => none
  | fuel + 1, nodes, some root => do
    let node ← nodes[root]?
    let reservation ← node.reservation
    let mayOverlap ← subtreeMayOverlap nodes node.left range
    let best ← if mayOverlap then minOverlapIdFrom predicate range fuel nodes node.left
      else some none
    let best := if reservation.range.overlaps range ∧ predicate reservation then
        minOptionId best (some reservation.id)
      else best
    if reservation.range.start < range.stop then
      let right ← minOverlapIdFrom predicate range fuel nodes node.right
      return minOptionId best right
    else return best

def minOverlapIdWhere (t : ReservationIntervalTree) (range : UserRange)
    (predicate : Reservation → Bool) : Option (Option ℕ) :=
  minOverlapIdFrom predicate range (t.nodes.length + 1) t.nodes t.root

/-- The reservations in the slots of the array, linked into the tree or not. -/
def stored (t : ReservationIntervalTree) : List Reservation :=
  t.nodes.filterMap (·.reservation)

end ReservationIntervalTree

end TxKernel.Vm
