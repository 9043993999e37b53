/-
The AVL trees of `common/avl.c`, in memory. Functions of the source that treat the two sides of a node in the same way
are one definition over the side here. The number of nodes bounds the rounds of every loop and recursion.
-/
import Olsrd.Lib.BalancedTree

namespace Olsrd.Common

open BalancedTree (Side)

abbrev Ptr := Nat

/-- `struct avl_tree`, and each field of `struct avl_node` for all nodes; `left` and `right` are the children. -/
structure AvlTree (K : Type) where
  root : Option Ptr
  first : Option Ptr
  last : Option Ptr
  count : Nat
  parent : Ptr → Option Ptr
  child : Ptr → Side → Option Ptr
  next : Ptr → Option Ptr
  prev : Ptr → Option Ptr
  key : Ptr → K
  balance : Ptr → Int
  leader : Ptr → Bool

namespace AvlTree

variable {K : Type}

def setParent (t : AvlTree K) (node : Ptr) (parent : Option Ptr) : AvlTree K :=
  { t with parent := Function.update t.parent node parent }

def setChild (t : AvlTree K) (node : Ptr) (s : Side) (child : Option Ptr) : AvlTree K :=
  { t with child := Function.update t.child node (Function.update (t.child node) s child) }

def setBalance (t : AvlTree K) (node : Ptr) (balance : Int) : AvlTree K :=
  { t with balance := Function.update t.balance node balance }

/-- Set the parent of a node unless it is `NULL`. -/
def adopt (t : AvlTree K) (node : Option Ptr) (parent : Option Ptr) : AvlTree K :=
  match node with
  | some p => t.setParent p parent
  | none => t

/-- The side of `parent` on which `node` is, if it is on one. -/
def sideOf (t : AvlTree K) (parent node : Ptr) : Side := if t.child parent .left = some node then .left else .right

/-- Put `new` in the place of `node` under `parent`, or at the root. -/
def replaceChild (t : AvlTree K) (parent : Option Ptr) (node : Ptr) (new : Option Ptr) : AvlTree K :=
  match parent with
  | none => { t with root := new }
  | some parent => t.setChild parent (t.sideOf parent node) new

end AvlTree

variable {K : Type}

/-- `avl_init`, in memory that is arbitrary; the comparison is a parameter of the functions that use it. -/
def avlInit (t : AvlTree K) : AvlTree K := { t with root := none, first := none, last := none, count := 0 }

/-- `ip4cmp` -/
def ip4cmp (a b : UInt32) : Int := if b < a then 1 else if a < b then -1 else 0

/-- `avl_find_rec_ipv4`, which takes the place of `avl_find_rec` in a tree whose comparison is `avl_comp_ipv4` -/
def avlFindRecIpv4 (t : AvlTree UInt32) (key : UInt32) : Nat → Ptr → Option Ptr
  | rounds, node =>
    if key < t.key node then
      match t.child node .left, rounds with
      | none, _ => some node
      | some _, 0 => none
      | some c, rounds + 1 => avlFindRecIpv4 t key rounds c
    else if t.key node < key then
      match t.child node .right, rounds with
      | none, _ => some node
      | some _, 0 => none
      | some c, rounds + 1 => avlFindRecIpv4 t key rounds c
    else some node

/-- `avl_find_rec` -/
def avlFindRec (comp : K → K → Int) (t : AvlTree K) (key : K) : Nat → Ptr → Option Ptr
  | rounds, node =>
    let diff := comp key (t.key node)
    let s : Side := if diff < 0 then .left else .right
    if diff = 0 then some node
    else
      match t.child node s, rounds with
      | none, _ => some node
      | some _, 0 => none
      | some c, rounds + 1 => avlFindRec comp t key rounds c

/-- `avl_find` -/
def avlFind (comp : K → K → Int) (t : AvlTree K) (key : K) : Option (Option Ptr) :=
  match t.root with
  | none => some none
  | some root => do
    let node ← avlFindRec comp t key t.count root
    pure (if comp (t.key node) key ≠ 0 then none else some node)

/-! ## Rotations -/

/-- The new balance of the node that goes down, and of the one that comes up from the side -/
def loweredBalance : Side → Int → Int → Int
  | .left, node, up => node + (1 - min up 0)
  | .right, node, up => node - (1 + max up 0)

def raisedBalance : Side → Int → Int → Int
  | .left, up, node => up + (1 + max node 0)
  | .right, up, node => up - (1 - min node 0)

/-- The child on the side `s` comes up. -/
def avlRotate (s : Side) (t : AvlTree K) (node : Ptr) : Option (AvlTree K) := do
  let up ← t.child node s
  let parent := t.parent node
  let t := t.setParent up parent
  let t := t.setParent node (some up)
  let t := t.replaceChild parent node (some up)
  let t := t.setChild node s (t.child up s.flip)
  let t := t.setChild up s.flip (some node)
  let t := t.adopt (t.child node s) (some node)
  let t := t.setBalance node (loweredBalance s (t.balance node) (t.balance up))
  pure (t.setBalance up (raisedBalance s (t.balance up) (t.balance node)))

/-- `avl_rotate_right` -/
def avlRotateRight (t : AvlTree K) (node : Ptr) : Option (AvlTree K) := avlRotate .left t node

/-- `avl_rotate_left` -/
def avlRotateLeft (t : AvlTree K) (node : Ptr) : Option (AvlTree K) := avlRotate .right t node

/-! ## Insertion -/

/-- `post_insert`; a rotation that lets a side come up is `avl_rotate_right` for the left side. -/
def postInsert : Nat → AvlTree K → Ptr → Option (AvlTree K)
  | rounds, t, node =>
    match t.parent node, rounds with
    | none, _ => some t
    | some _, 0 => none
    | some parent, rounds + 1 =>
      let s := t.sideOf parent node
      let t := t.setBalance parent (t.balance parent + s.sgn)
      if t.balance parent = 0 then some t
      else if t.balance parent = s.sgn then postInsert rounds t parent
      else if t.balance node = s.sgn then avlRotate s t parent
      else do
        let t ← avlRotate s.flip t node
        avlRotate s t (← t.parent (← t.parent node))

/-- `avl_insert_before` -/
def avlInsertBefore (t : AvlTree K) (posNode node : Ptr) : AvlTree K :=
  let t := match t.prev posNode with
    | some prev => { t with next := Function.update t.next prev (some node) }
    | none => { t with first := some node }
  { t with
    prev := Function.update (Function.update t.prev node (t.prev posNode)) posNode (some node)
    next := Function.update t.next node (some posNode)
    count := t.count + 1 }

/-- `avl_insert_after` -/
def avlInsertAfter (t : AvlTree K) (posNode node : Ptr) : AvlTree K :=
  let t := match t.next posNode with
    | some next => { t with prev := Function.update t.prev next (some node) }
    | none => { t with last := some node }
  { t with
    prev := Function.update t.prev node (some posNode)
    next := Function.update (Function.update t.next node (t.next posNode)) posNode (some node)
    count := t.count + 1 }

/-- `avl_remove` -/
def avlRemove (t : AvlTree K) (node : Ptr) : AvlTree K :=
  let t := match t.prev node with
    | some prev => { t with next := Function.update t.next prev (t.next node) }
    | none => { t with first := t.next node }
  let t := match t.next node with
    | some next => { t with prev := Function.update t.prev next (t.prev node) }
    | none => { t with last := t.prev node }
  { t with count := t.count - 1 }

/-- The search for the last node with the key of a leader. -/
def lastOfKey (t : AvlTree K) : Nat → Ptr → Option Ptr
  | rounds, last =>
    match t.next last, rounds with
    | none, _ => some last
    | some next, rounds =>
      if t.leader next then some last
      else match rounds with
        | 0 => none
        | rounds + 1 => lastOfKey t rounds next

/-- The fields of a node that is inserted. -/
def newNode (t : AvlTree K) (new : Ptr) : AvlTree K :=
  { t with
    parent := Function.update t.parent new none
    child := Function.update t.child new fun _ => none
    next := Function.update t.next new none
    prev := Function.update t.prev new none
    balance := Function.update t.balance new 0
    leader := Function.update t.leader new true }

/-- `avl_insert`, with the value it returns -/
def avlInsert (comp : K → K → Int) (t : AvlTree K) (new : Ptr) (allowDuplicates : Bool) : Option (AvlTree K × Int) := do
  let t := newNode t new
  match t.root with
  | none => pure ({ t with root := some new, first := some new, last := some new, count := 1 }, 0)
  | some root => do
    let node ← avlFindRec comp t (t.key new) t.count root
    let last ← lastOfKey t t.count node
    let diff := comp (t.key new) (t.key node)
    if diff = 0 then
      if !allowDuplicates then pure (t, -1)
      else pure (avlInsertAfter { t with leader := Function.update t.leader new false } last new, 0)
    else if t.balance node = 1 then
      let t := (avlInsertBefore t node new).setBalance node 0
      pure ((t.setParent new (some node)).setChild node .left (some new), 0)
    else if t.balance node = -1 then
      let t := (avlInsertAfter t last new).setBalance node 0
      pure ((t.setParent new (some node)).setChild node .right (some new), 0)
    else if diff < 0 then do
      let t := (avlInsertBefore t node new).setBalance node (-1)
      let t ← postInsert t.count ((t.setParent new (some node)).setChild node .left (some new)) node
      pure (t, 0)
    else do
      let t := (avlInsertAfter t last new).setBalance node 1
      let t ← postInsert t.count ((t.setParent new (some node)).setChild node .right (some new)) node
      pure (t, 0)

/-! ## Deletion -/

/-- What `avl_post_delete` and `avl_delete_worker` do when the side `s` of `parent` has become lower. -/
def lowered (postDelete : AvlTree K → Ptr → Option (AvlTree K)) (t : AvlTree K) (parent : Ptr) (s : Side) :
    Option (AvlTree K) :=
  let t := t.setBalance parent (t.balance parent - s.sgn)
  if t.balance parent = 0 then postDelete t parent
  else if t.balance parent = -s.sgn then some t
  else do
    let other ← t.child parent s.flip
    if t.balance other = 0 then avlRotate s.flip t parent
    else if t.balance other = -s.sgn then do
      let t ← avlRotate s.flip t parent
      postDelete t (← t.parent parent)
    else do
      let t ← avlRotate s t other
      let t ← avlRotate s.flip t parent
      postDelete t (← t.parent parent)

/-- `avl_post_delete` -/
def avlPostDelete : Nat → AvlTree K → Ptr → Option (AvlTree K)
  | rounds, t, node =>
    match t.parent node, rounds with
    | none, _ => some t
    | some _, 0 => none
    | some parent, rounds + 1 => lowered (avlPostDelete rounds) t parent (t.sideOf parent node)

/-- `avl_local_min` -/
def avlLocalMin (t : AvlTree K) : Nat → Ptr → Option Ptr
  | rounds, node =>
    match t.child node .left, rounds with
    | none, _ => some node
    | some _, 0 => none
    | some c, rounds + 1 => avlLocalMin t rounds c

/-- Put `new` in the place of `node` in the tree. -/
def takePlace (t : AvlTree K) (node new : Ptr) : AvlTree K :=
  let parent := t.parent node
  let t := t.setBalance new (t.balance node)
  let t := t.setParent new parent
  let t := { t with child := Function.update t.child new (t.child node) }
  let t := t.adopt (t.child new .left) (some new)
  let t := t.adopt (t.child new .right) (some new)
  t.replaceChild parent node (some new)

/-- `avl_delete_worker` for a node that has one child at most -/
def deleteLower (t : AvlTree K) (node : Ptr) : Option (AvlTree K) :=
  match t.child node .left, t.child node .right with
  | none, none =>
    match t.parent node with
    | none => some { t with root := none }
    | some parent =>
      let s := t.sideOf parent node
      lowered (avlPostDelete t.count) (t.setChild parent s none) parent s
  | none, some c | some c, none =>
    match t.parent node with
    | none => some ({ t with root := some c }.setParent c none)
    | some parent => avlPostDelete t.count ((t.setParent c (some parent)).replaceChild (some parent) node (some c)) c
  | some _, some _ => none

/-- `avl_delete_worker`; the lowest node of the right child, which it calls itself for, has no left child. -/
def avlDeleteWorker (t : AvlTree K) (node : Ptr) : Option (AvlTree K) :=
  match t.child node .left, t.child node .right with
  | some _, some right => do
    let min ← avlLocalMin t t.count right
    let t ← deleteLower t min
    pure (takePlace t node min)
  | _, _ => deleteLower t node

/-- `avl_delete` -/
def avlDelete (t : AvlTree K) (node : Ptr) : Option (AvlTree K) := do
  let t ←
    if t.leader node then
      match t.next node with
      | some next =>
        if t.leader next then avlDeleteWorker t node
        else pure (takePlace { t with leader := Function.update t.leader next true } node next)
      | none => avlDeleteWorker t node
    else pure t
  pure (avlRemove t node)

end Olsrd.Common
