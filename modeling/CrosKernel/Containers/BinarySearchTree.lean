import CrosKernel.Lib.BinaryTree
import Mathlib.Logic.Function.Basic
import Mathlib.Order.Lattice

/-!
# Binary search trees on the heap

`binary_search_tree` of `src/containers/binary_search_tree.h`. Nodes are heap objects that point
to their parent and children. Following a null pointer or the pointer of a deleted node yields
`none`. `new node` takes its address as an argument. Loops and recursions take a bound on the
number of passes; the bound used is the number of nodes, which is always enough.
-/

namespace CrosKernel.Containers

open BinaryTree (Side)

/-- The address of a heap object. -/
abbrev Addr := Nat

/-- `binary_search_tree::node`. -/
structure Node (K V : Type) where
  key : K
  value : V
  parent : Option Addr
  left : Option Addr
  right : Option Addr
  height : Nat

namespace Node

variable {K V : Type}

/-- The constructor of `node`. -/
def new (key : K) (value : V) : Node K V where
  key := key
  value := value
  parent := none
  left := none
  right := none
  height := 1

/-- The child on one side. -/
def child (n : Node K V) : Side → Option Addr
  | .left => n.left
  | .right => n.right

/-- Assign to the child on one side. -/
def setChild (n : Node K V) (s : Side) (a : Option Addr) : Node K V :=
  match s with
  | .left => { n with left := a }
  | .right => { n with right := a }

end Node

/-- `binary_search_tree`, with the heap of its nodes. -/
structure BinarySearchTree (K V : Type) where
  nodes : Addr → Option (Node K V)
  root : Option Addr
  size : Int

namespace BinarySearchTree

variable {K V : Type}

/-- The tree that the constructor makes. -/
def empty : BinarySearchTree K V where
  nodes _ := none
  root := none
  size := 0

/-- The bound on the number of passes of a loop over the tree. -/
def fuel (t : BinarySearchTree K V) : Nat := t.size.toNat + 1

/-- Assign to the node at `a`. -/
def modify (t : BinarySearchTree K V) (a : Addr) (f : Node K V → Node K V) :
    Option (BinarySearchTree K V) := do
  let n ← t.nodes a
  pure { t with nodes := Function.update t.nodes a (some (f n)) }

/-- Assign to the node at a pointer unless it is null. -/
def modifyNonNull (t : BinarySearchTree K V) (p : Option Addr) (f : Node K V → Node K V) :
    Option (BinarySearchTree K V) :=
  match p with
  | none => some t
  | some a => t.modify a f

/-- `delete` of the node at `a`. -/
def delete (t : BinarySearchTree K V) (a : Addr) : BinarySearchTree K V :=
  { t with nodes := Function.update t.nodes a none }

/-! ## Members of `node` -/

/-- `node::balance`. -/
def balance (t : BinarySearchTree K V) (a : Addr) : Option Int := do
  let n ← t.nodes a
  match n.left, n.right with
  | none, none => some 0
  | none, some right => do
      let r ← t.nodes right
      pure (-(r.height : Int))
  | some left, none => do
      let l ← t.nodes left
      pure (l.height : Int)
  | some left, some right => do
      let l ← t.nodes left
      let r ← t.nodes right
      pure (l.height - r.height)

/-- `node::update_height`. -/
def updateHeight (t : BinarySearchTree K V) (a : Addr) : Option (BinarySearchTree K V) := do
  let n ← t.nodes a
  let height ← match n.left, n.right with
    | none, none => some 1
    | none, some right => do
        let r ← t.nodes right
        pure (1 + r.height)
    | some left, none => do
        let l ← t.nodes left
        pure (1 + l.height)
    | some left, some right => do
        let l ← t.nodes left
        let r ← t.nodes right
        pure (1 + max l.height r.height)
  t.modify a fun n => { n with height := height }

/-- The loop `while (cur->s != nullptr) cur = cur->s`. -/
def walk (t : BinarySearchTree K V) (s : Side) : Nat → Addr → Option Addr
  | 0, _ => none
  | fuel + 1, cur => do
      let n ← t.nodes cur
      match n.child s with
      | none => some cur
      | some next => walk t s fuel next

/-- `node::successor`: the leftmost node of the right subtree, else the rightmost one of the left
subtree. -/
def successor (t : BinarySearchTree K V) (a : Addr) : Option (Option Addr) := do
  let n ← t.nodes a
  match n.right, n.left with
  | some right, _ => do
      let cur ← t.walk .left t.fuel right
      pure (some cur)
  | none, some left => do
      let cur ← t.walk .right t.fuel left
      pure (some cur)
  | none, none => some none

/-- Redirect the pointer of a parent from the child `a` to `b`: the left pointer when it is that
child, and the right one otherwise. -/
def redirect (p : Node K V) (a : Addr) (b : Option Addr) : Node K V :=
  if p.left = some a then { p with left := b } else { p with right := b }

/-- `node::unlink`. -/
def unlink (t : BinarySearchTree K V) (a : Addr) : Option (BinarySearchTree K V) := do
  let n ← t.nodes a
  t.modifyNonNull n.parent fun p => redirect p a none

/-! ## Rotations -/

/-- The assignments to pointers in `rotate_right` and `rotate_left`: raise `b`, the child of `a`
on the side `s`, above `a`. -/
def relink (s : Side) (t : BinarySearchTree K V) (a b : Addr) (parent inner : Option Addr) :
    Option (BinarySearchTree K V) := do
  let t ← t.modify b fun n => n.setChild s.other (some a)
  let t ← t.modify a fun n => n.setChild s inner
  let t ← t.modify b fun n => { n with parent := parent }
  let t ← t.modify a fun n => { n with parent := some b }
  let t ← t.modifyNonNull inner fun n => { n with parent := some a }
  if parent = none then some { t with root := some b }
  else t.modifyNonNull parent fun p => redirect p a (some b)

/-- The common body of `rotate_right` and `rotate_left`, which raise the child on the side `s`. -/
def rotate (s : Side) (t : BinarySearchTree K V) (a : Addr) : Option (BinarySearchTree K V) := do
  let node ← t.nodes a
  let b ← node.child s
  let raised ← t.nodes b
  let t ← relink s t a b node.parent (raised.child s.other)
  let t ← t.updateHeight a
  t.updateHeight b

/-- `rotate_right`. -/
def rotateRight (t : BinarySearchTree K V) (a : Addr) : Option (BinarySearchTree K V) :=
  rotate .left t a

/-- `rotate_left`. -/
def rotateLeft (t : BinarySearchTree K V) (a : Addr) : Option (BinarySearchTree K V) :=
  rotate .right t a

/-- `rebalance`. -/
def rebalance (t : BinarySearchTree K V) (node : Option Addr) : Option (BinarySearchTree K V) := do
  let a ← node
  let t ← t.updateHeight a
  let bal ← t.balance a
  if bal > 1 then do
    let n ← t.nodes a
    let t ← match n.left with
      | none => some t
      | some left => do
          let leftBal ← t.balance left
          if leftBal < 0 then t.rotateLeft left else some t
    t.rotateRight a
  else if bal < -1 then do
    let n ← t.nodes a
    let t ← match n.right with
      | none => some t
      | some right => do
          let rightBal ← t.balance right
          if rightBal > 0 then t.rotateRight right else some t
    t.rotateLeft a
  else some t

/-! ## Search -/

variable [LinearOrder K]

/-- The loop of `search_rec`. -/
def searchLoop (t : BinarySearchTree K V) (key : K) : Nat → Option Addr → Option (Option Addr)
  | _, none => some none
  | 0, some _ => none
  | fuel + 1, some cur => do
      let n ← t.nodes cur
      if n.key > key then
        if n.left = none then some (some cur) else searchLoop t key fuel n.left
      else if n.key < key then
        if n.right = none then some (some cur) else searchLoop t key fuel n.right
      else some (some cur)

/-- `search_rec`. -/
def searchRec (t : BinarySearchTree K V) (key : K) : Option (Option Addr) :=
  t.searchLoop key t.fuel t.root

/-- `contains`. -/
def contains (t : BinarySearchTree K V) (key : K) : Option Bool := do
  match ← t.searchRec key with
  | none => some false
  | some a => do
      let n ← t.nodes a
      pure (n.key = key)

/-- The address of the node whose value `get` returns a reference to. -/
def find (t : BinarySearchTree K V) (key : K) : Option Addr := do
  match ← t.searchRec key with
  | none => t.root
  | some a => do
      let n ← t.nodes a
      if n.key ≠ key then t.root else some a

/-- `get`. -/
def get (t : BinarySearchTree K V) (key : K) : Option V := do
  let a ← t.find key
  let n ← t.nodes a
  pure n.value

/-! ## Insertion -/

/-- The `new node` of `add_rec`, as the child of `cur` on one side. -/
def attach (t : BinarySearchTree K V) (cur : Addr) (s : Side) (key : K) (value : V) (a : Addr) :
    Option (BinarySearchTree K V) := do
  let t := { t with
    nodes := Function.update t.nodes a (some (Node.new key value))
    size := t.size + 1 }
  let t ← t.modify cur fun n => n.setChild s (some a)
  t.modify a fun n => { n with parent := some cur }

/-- `add_rec`. The flag is `node_added`, and `a` is the address that `new` returns. -/
def addRec (key : K) (value : V) (a : Addr) :
    Nat → BinarySearchTree K V → Option Addr → Bool → Option (BinarySearchTree K V × Bool)
  | 0, _, _, _ => none
  | fuel + 1, t, cur, added => do
      if t.root = none then
        let t := { t with
          nodes := Function.update t.nodes a (some (Node.new key value))
          root := some a
          size := t.size + 1 }
        let t ← t.rebalance (some a)
        pure (t, true)
      else
        let c ← cur
        let n ← t.nodes c
        if n.key > key then
          let (t, added) ← match n.left with
            | some left => addRec key value a fuel t (some left) added
            | none => do
                let t ← t.attach c .left key value a
                pure (t, true)
          let t ← t.rebalance cur
          pure (t, added)
        else if n.key < key then
          let (t, added) ← match n.right with
            | some right => addRec key value a fuel t (some right) added
            | none => do
                let t ← t.attach c .right key value a
                pure (t, true)
          let t ← t.rebalance cur
          pure (t, added)
        else if added then some (t, added)
        else
          let (t, added) ← match n.right with
            | some right => addRec key value a fuel t (some right) added
            | none => do
                let t ← t.attach c .right key value a
                pure (t, true)
          let t ← t.rebalance cur
          pure (t, added)

/-- `insert`. -/
def insert (t : BinarySearchTree K V) (key : K) (value : V) (a : Addr) :
    Option (BinarySearchTree K V) := do
  let (t, _) ← addRec key value a t.fuel t t.root false
  pure t

/-! ## Removal -/

omit [LinearOrder K] in
/-- `node::replace`, with `this` and `other` named by their addresses. -/
def replace : Nat → BinarySearchTree K V → Addr → Addr → Option (BinarySearchTree K V)
  | 0, _, _, _ => none
  | fuel + 1, t, this, other => do
      let o ← t.nodes other
      let t ← t.modify this fun n => { n with key := o.key, value := o.value }
      match ← t.successor other with
      | none => do
          let o ← t.nodes other
          let t ← t.unlink other
          (t.delete other).rebalance o.parent
      | some succ => do
          let n ← t.nodes succ
          let t ← replace fuel t other succ
          t.rebalance n.parent

/-- The case of `remove_rec` in which `cur` has the key. -/
def removeNode (t : BinarySearchTree K V) (cur : Addr) : Option (BinarySearchTree K V) := do
  match ← t.successor cur with
  | none => do
      let t := if t.root = some cur then { t with root := none } else t
      let n ← t.nodes cur
      let t ← t.unlink cur
      let t := t.delete cur
      let t ← match n.parent with
        | none => some t
        | some parent => t.rebalance (some parent)
      pure { t with size := t.size - 1 }
  | some succ => do
      let n ← t.nodes succ
      let t ← replace t.fuel t cur succ
      let t ← t.rebalance n.parent
      let t := { t with size := t.size - 1 }
      t.rebalance (some cur)

/-- `remove_rec`. -/
def removeRec (key : K) :
    Nat → BinarySearchTree K V → Option Addr → Option (BinarySearchTree K V)
  | _, t, none => some t
  | 0, _, some _ => none
  | fuel + 1, t, some cur => do
      let n ← t.nodes cur
      if n.key > key then
        let t ← removeRec key fuel t n.left
        t.rebalance (some cur)
      else if n.key < key then
        let t ← removeRec key fuel t n.right
        t.rebalance (some cur)
      else t.removeNode cur

/-- `remove`. -/
def remove (t : BinarySearchTree K V) (key : K) : Option (BinarySearchTree K V) :=
  removeRec key t.fuel t t.root

/-! ## Traversal -/

omit [LinearOrder K] in
/-- The pairs of the subtree at a pointer, in order. -/
def traverse (t : BinarySearchTree K V) : Nat → Option Addr → Option (List (K × V))
  | _, none => some []
  | 0, some _ => none
  | fuel + 1, some a => do
      let n ← t.nodes a
      let before ← traverse t fuel n.left
      let after ← traverse t fuel n.right
      pure (before ++ (n.key, n.value) :: after)

end BinarySearchTree

end CrosKernel.Containers
