import CometOS.ArrayList

/-!
# The trees of `kernel/kernel/array.c`

A `tree_t` with its `tree_node_t` objects, the child lists and their links.  Each kind of object has
its own map from addresses to what is allocated there; freed memory is `none`, and reading or writing
through a pointer to it is a fault.  What `kmalloc` returns has any contents.
-/

namespace CometOS

open LinkedList Loop

/-- `tree_node_t`. -/
structure TreeNode where
  value : UInt32
  children : UInt32
  parent : UInt32

/-- One tree and the allocated objects. -/
structure TreeState where
  treeNodes : UInt32 → Option TreeNode
  arrays : UInt32 → Option ArrayT
  links : UInt32 → Option ArrayNode
  size : UInt32
  root : UInt32

namespace TreeState

/-- The list at `c`, as the functions on lists see it. -/
def list (s : TreeState) (c : UInt32) : Option ArrayState :=
  (s.arrays c).map fun a => { nodes := s.links, array := a }

/-- Put the list back. -/
def setList (c : UInt32) (l : ArrayState) (s : TreeState) : TreeState :=
  { s with links := l.nodes, arrays := Function.update s.arrays c (some l.array) }

def setNode (p : UInt32) (n : TreeNode) (s : TreeState) : TreeState :=
  { s with treeNodes := Function.update s.treeNodes p (some n) }

/-- `kfree(p)`, whatever is there. -/
def kfree (p : UInt32) (s : TreeState) : TreeState :=
  { s with
    treeNodes := Function.update s.treeNodes p none
    arrays := Function.update s.arrays p none
    links := Function.update s.links p none }

/-- Nothing is allocated at `p`. -/
def Free (s : TreeState) (p : UInt32) : Prop :=
  s.treeNodes p = none ∧ s.arrays p = none ∧ s.links p = none

end TreeState

/-- `tree_create`, with none of the tree's objects there yet. -/
def treeCreate : TreeState :=
  { treeNodes := fun _ => none, arrays := fun _ => none, links := fun _ => none, size := 0
    root := 0 }

/-- `((tree_node_t *)child->value)->parent = node->parent` for every child in the list. -/
def treeReparent (node start : UInt32) (s : TreeState) : Option TreeState :=
  (whileLoop (fun p : UInt32 × TreeState => p.1 ≠ 0)
    (fun p => do
      let child ← p.2.links p.1
      let n ← p.2.treeNodes node
      let c ← p.2.treeNodes child.value
      some (child.next, p.2.setNode child.value { c with parent := n.parent }))
    (2 ^ 32) (start, s)).map Prod.snd

/-- `tree_node_delete`. -/
def treeNodeDelete (node : UInt32) (s : TreeState) : Option TreeState :=
  if node = 0 ∨ s.root = 0 then some s
  else do
    let n ← s.treeNodes node
    let s ←
      if n.children = 0 then some s
      else do
        let a ← s.arrays n.children
        if a.size = 0 then do
          let s ← treeReparent node a.startNode s
          let s := if n.value ≠ 0 then s.kfree n.value else s
          let l ← s.list n.children
          let l ← arrayClear l
          some ((s.setList n.children l).kfree n.children)
        else some s
    let s := s.kfree node
    some { s with size := s.size - 1 }

/-- `tree_node_insert`.  `array` and `link` are what `kmalloc` returns for a child list and for a
link, and `garbage` is what is in the link. -/
def treeNodeInsert (node parent array link : UInt32) (garbage : ArrayNode) (s : TreeState) :
    Option TreeState :=
  if node = 0 then some s
  else if parent = 0 then some { s with root := node }
  else do
    let p ← s.treeNodes parent
    let s :=
      if p.children = 0 then
        (s.setNode parent { p with children := array }).setList array (arrayCreate s.links)
      else s
    let s := { s with links := Function.update s.links link (some { garbage with value := node }) }
    let n ← s.treeNodes node
    let s := s.setNode node { n with parent := parent }
    let p ← s.treeNodes parent
    let l ← s.list p.children
    let l ← arrayNodeInsert link l
    let s := s.setList p.children l
    some { s with size := s.size + 1 }

/-! ### What can be reached -/

/-- The links a walk from `start` comes to. -/
inductive InList (s : TreeState) (start : UInt32) : UInt32 → Prop
  | first : start ≠ 0 → InList s start start
  | next {l : UInt32} {n : ArrayNode} : InList s start l → s.links l = some n → n.next ≠ 0 →
      InList s start n.next

/-- The nodes there is a way to from the root. -/
inductive Reach (s : TreeState) : UInt32 → Prop
  | root : s.root ≠ 0 → Reach s s.root
  | child {p l : UInt32} {n : TreeNode} {a : ArrayT} {link : ArrayNode} : Reach s p →
      s.treeNodes p = some n → n.children ≠ 0 → s.arrays n.children = some a →
      InList s a.startNode l → s.links l = some link → Reach s link.value

/-- No node, child list or link that can be reached is freed memory. -/
structure NothingFreed (s : TreeState) : Prop where
  node : ∀ p, Reach s p → s.treeNodes p ≠ none
  list : ∀ p n, Reach s p → s.treeNodes p = some n → n.children ≠ 0 → s.arrays n.children ≠ none
  link : ∀ p n a l, Reach s p → s.treeNodes p = some n → n.children ≠ 0 →
    s.arrays n.children = some a → InList s a.startNode l → s.links l ≠ none

/-! ### Runs -/

inductive TreeOp
  | insert (node parent : UInt32) (fields : TreeNode) (array link : UInt32) (garbage : ArrayNode)
  | delete (node : UInt32)

/-- A node just deleted, its children then and its parent. -/
structure Deleted where
  node : UInt32
  children : List UInt32
  parent : UInt32

/-- A run so far: the machine, `none` after a fault; the nodes inserted and not deleted, each with
its parent, as they should be; and the node just deleted, if that was the last operation. -/
structure TreeRun where
  machine : Option TreeState
  nodes : List (UInt32 × UInt32)
  deleted : Option Deleted

/-- One operation, where its caller may ask for it.  The first node goes in without a parent and
becomes the root; any other goes under a node of the tree.  A node to insert is newly allocated, with
no children, and what `kmalloc` returns is new, too.  A node to delete is in the tree and not the
root. -/
def TreeOp.Allowed (r : TreeRun) (s : TreeState) : TreeOp → Prop
  | .insert node parent fields array link _ =>
    (s.Free node ∧ s.Free array ∧ s.Free link) ∧ (node ≠ 0 ∧ array ≠ 0 ∧ link ≠ 0) ∧
      (node ≠ array ∧ node ≠ link ∧ array ≠ link) ∧ fields.children = 0 ∧
      if r.nodes = [] then parent = 0 else parent ∈ r.nodes.map Prod.fst
  | .delete node => node ∈ r.nodes.map Prod.fst ∧ node ≠ s.root

/-- What the operation is for. -/
def treeNodesAfter (nodes : List (UInt32 × UInt32)) : TreeOp → List (UInt32 × UInt32)
  | .insert node parent _ _ _ _ => (node, parent) :: nodes
  | .delete node =>
    (nodes.filter fun p => p.1 ≠ node).map fun p =>
      if p.2 = node then (p.1, (nodes.lookup node).getD 0) else p

def treeDeleted (nodes : List (UInt32 × UInt32)) : TreeOp → Option Deleted
  | .insert _ _ _ _ _ _ => none
  | .delete node => some
    { node, children := (nodes.filter fun p => p.2 = node).map Prod.fst
      parent := (nodes.lookup node).getD 0 }

/-- The code's part of an operation; a node to insert is allocated and filled in first. -/
def treeMachine (s : TreeState) : TreeOp → Option TreeState
  | .insert node parent fields array link garbage =>
    treeNodeInsert node parent array link garbage (s.setNode node fields)
  | .delete node => treeNodeDelete node s

instance (s : TreeState) (p : UInt32) : Decidable (s.Free p) :=
  inferInstanceAs (Decidable (_ ∧ _))

instance (r : TreeRun) (s : TreeState) : (o : TreeOp) → Decidable (o.Allowed r s)
  | .insert _ _ _ _ _ _ => inferInstanceAs (Decidable (_ ∧ _))
  | .delete _ => inferInstanceAs (Decidable (_ ∧ _))

def treeStep (r : TreeRun) (o : TreeOp) : Option TreeRun :=
  r.machine.bind fun s =>
    if o.Allowed r s then some
      { machine := treeMachine s o, nodes := treeNodesAfter r.nodes o
        deleted := treeDeleted r.nodes o }
    else none

def treeStart : TreeRun := { machine := some treeCreate, nodes := [], deleted := none }

/-- The size is the number of nodes that can be reached. -/
def SizeOk (s : TreeState) : Prop := s.size.toNat = {p | Reach s p}.ncard

/-- The node just deleted cannot be reached any more; its children can, and their parent is now the
one it had. -/
def DeletedOk (s : TreeState) (d : Deleted) : Prop :=
  ¬ Reach s d.node ∧ ∀ c ∈ d.children, Reach s c ∧ (s.treeNodes c).map TreeNode.parent = some d.parent

/-- What the tree operations are for. -/
structure TreeOk (r : TreeRun) : Prop where
  size : ∀ s, r.machine = some s → SizeOk s
  freed : ∃ s, r.machine = some s ∧ NothingFreed s
  deleted : ∀ s d, r.machine = some s → r.deleted = some d → DeletedOk s d

end CometOS
