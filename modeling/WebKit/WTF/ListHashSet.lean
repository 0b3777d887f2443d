import Mathlib.Logic.Function.Basic

/-!
# List hash sets

A hash table of nodes, which are also in a doubly linked list. The nodes come from the pool of an allocator, as long as
there is room, or from `fastMalloc`. The free nodes of the pool form a list through their `m_next`; the nodes that were
never used are at its end, where `m_next` is 0 and the next free node is the one behind, until the end of the pool has
been reached once (`m_isDoneWithInitialFreeList`).

The hash table is the list of its nodes. A node without a value is not constructed, or was destroyed. The memory of the
nodes is a part of the allocator.
-/

namespace WebKit.WTF

/-- A node of the pool of the allocator, or an address from `fastMalloc`. -/
inductive NodePtr
  | pool (i : Nat)
  | heap (address : Nat)
  deriving DecidableEq

structure ListHashSetNode (α : Type) where
  m_value : Option α
  m_prev : Option NodePtr
  m_next : Option NodePtr

/-- `heap` are the addresses from `fastMalloc` that are in use. -/
structure ListHashSetNodeAllocator (α : Type) where
  m_freeList : Option NodePtr
  m_isDoneWithInitialFreeList : Bool
  nodes : NodePtr → ListHashSetNode α
  heap : List Nat

structure ListHashSet (α : Type) where
  m_impl : List NodePtr
  m_head : Option NodePtr
  m_tail : Option NodePtr
  m_allocator : ListHashSetNodeAllocator α

/-- Why an operation does not return: a null pointer is used, or a node that is not there, or a loop does not end. -/
inductive ListFault
  | null
  | wild
  | endless
  deriving DecidableEq, Repr

variable {α : Type}

/-! ## Nodes and their allocator -/

namespace ListHashSetNodeAllocator

/-- `memset(m_pool.pool, 0, sizeof(m_pool.pool))`. -/
def create : ListHashSetNodeAllocator α :=
  { m_freeList := some (.pool 0), m_isDoneWithInitialFreeList := false,
    nodes := fun _ => { m_value := none, m_prev := none, m_next := none }, heap := [] }

/-- `fastMalloc` gives an address for the ones in use. -/
def allocate (malloc : List Nat → Nat) (inlineCapacity : Nat) (a : ListHashSetNodeAllocator α) :
    Except ListFault (ListHashSetNodeAllocator α × NodePtr) :=
  match a.m_freeList with
  | none => .ok ({ a with heap := malloc a.heap :: a.heap }, .heap (malloc a.heap))
  | some result =>
    let next := (a.nodes result).m_next
    if next.isNone && !a.m_isDoneWithInitialFreeList then
      match result with
      | .pool i =>
        -- `next == pastPool()`
        if i + 1 = inlineCapacity then
          .ok ({ a with m_freeList := none, m_isDoneWithInitialFreeList := true }, result)
        else .ok ({ a with m_freeList := some (.pool (i + 1)) }, result)
      | .heap _ => .error .wild
    else .ok ({ a with m_freeList := next }, result)

def setNode (a : ListHashSetNodeAllocator α) (p : NodePtr) (node : ListHashSetNode α) : ListHashSetNodeAllocator α :=
  { a with nodes := Function.update a.nodes p node }

def deallocate (inlineCapacity : Nat) (a : ListHashSetNodeAllocator α) :
    NodePtr → Except ListFault (ListHashSetNodeAllocator α)
  | .pool i =>
    if i < inlineCapacity then
      .ok { a.setNode (.pool i) { a.nodes (.pool i) with m_next := a.m_freeList } with m_freeList := some (.pool i) }
    else .error .wild
  | .heap address => if address ∈ a.heap then .ok { a with heap := a.heap.erase address } else .error .wild

def readNode (a : ListHashSetNodeAllocator α) (p : NodePtr) : Except ListFault (ListHashSetNode α × α) :=
  match (a.nodes p).m_value with
  | some value => .ok (a.nodes p, value)
  | none => .error .wild

/-- `ListHashSetNode::destroy`. -/
def destroy (inlineCapacity : Nat) (a : ListHashSetNodeAllocator α) (p : NodePtr) :
    Except ListFault (ListHashSetNodeAllocator α) := do
  let (node, _) ← a.readNode p
  (a.setNode p { node with m_value := none }).deallocate inlineCapacity p

end ListHashSetNodeAllocator

namespace ListHashSet

def create : ListHashSet α :=
  { m_impl := [], m_head := none, m_tail := none, m_allocator := ListHashSetNodeAllocator.create }

variable [DecidableEq α] (malloc : List Nat → Nat) (inlineCapacity : Nat) (s : ListHashSet α)

def readNode (p : NodePtr) : Except ListFault (ListHashSetNode α × α) := s.m_allocator.readNode p

/-- `node->m_prev = prev`. -/
def setPrev (p : NodePtr) (prev : Option NodePtr) : Except ListFault (ListHashSet α) := do
  let (node, _) ← s.readNode p
  return { s with m_allocator := s.m_allocator.setNode p { node with m_prev := prev } }

/-- `node->m_next = next`. -/
def setNext (p : NodePtr) (next : Option NodePtr) : Except ListFault (ListHashSet α) := do
  let (node, _) ← s.readNode p
  return { s with m_allocator := s.m_allocator.setNode p { node with m_next := next } }

/-! ## The hash table -/

def findIn (value : α) : List NodePtr → Except ListFault (Option NodePtr)
  | [] => .ok none
  | p :: impl => do
    let (_, v) ← s.readNode p
    if v = value then return some p else findIn value impl

/-- `m_impl.find(value)`. -/
def implFind (value : α) : Except ListFault (Option NodePtr) := s.findIn value s.m_impl

/-- `m_impl.add(value, m_allocator.get())`: the node with the value, and whether it is new. -/
def implAdd (value : α) : Except ListFault (ListHashSet α × NodePtr × Bool) := do
  match ← s.implFind value with
  | some p => return (s, p, false)
  | none => do
    let (a, p) ← s.m_allocator.allocate malloc inlineCapacity
    let a := a.setNode p { m_value := some value, m_prev := none, m_next := none }
    return ({ s with m_impl := p :: s.m_impl, m_allocator := a }, p, true)

/-! ## The list -/

def unlink (node : NodePtr) : Except ListFault (ListHashSet α) := do
  let (n, _) ← s.readNode node
  let s ← match n.m_prev with
    | none => pure { s with m_head := n.m_next }
    | some prev => s.setNext prev n.m_next
  let (n, _) ← s.readNode node
  match n.m_next with
  | none => return { s with m_tail := n.m_prev }
  | some next => s.setPrev next n.m_prev

def unlinkAndDelete (node : NodePtr) : Except ListFault (ListHashSet α) := do
  let s ← s.unlink node
  let a ← s.m_allocator.destroy inlineCapacity node
  return { s with m_allocator := a }

def appendNode (node : NodePtr) : Except ListFault (ListHashSet α) := do
  let s ← s.setPrev node s.m_tail
  let s ← s.setNext node none
  let s ← match s.m_tail with
    | some tail => s.setNext tail (some node)
    | none => pure { s with m_head := some node }
  return { s with m_tail := some node }

def prependNode (node : NodePtr) : Except ListFault (ListHashSet α) := do
  let s ← s.setPrev node none
  let s ← s.setNext node s.m_head
  let s ← match s.m_head with
    | some head => s.setPrev head (some node)
    | none => pure { s with m_tail := some node }
  return { s with m_head := some node }

def insertNodeBefore (beforeNode : Option NodePtr) (newNode : NodePtr) : Except ListFault (ListHashSet α) :=
  match beforeNode with
  | none => s.appendNode newNode
  | some before => do
    let s ← s.setNext newNode (some before)
    let (b, _) ← s.readNode before
    let s ← s.setPrev newNode b.m_prev
    let s ← match b.m_prev with
      | some prev => s.setNext prev (some newNode)
      | none => pure s
    let s ← s.setPrev before (some newNode)
    let (n, _) ← s.readNode newNode
    if n.m_prev.isNone then return { s with m_head := some newNode } else return s

/-- `for (Node* node = m_head, *next = m_head->m_next; node; node = next, next = node ? node->m_next : 0)`, for at most
`fuel` nodes. -/
def deleteLoop : Nat → Option NodePtr → ListHashSetNodeAllocator α → Except ListFault (ListHashSetNodeAllocator α)
  | _, none, a => .ok a
  | 0, some _, _ => .error .endless
  | fuel + 1, some node, a => do
    let (n, _) ← a.readNode node
    let a ← a.destroy inlineCapacity node
    deleteLoop fuel n.m_next a

def deleteAllNodes : Except ListFault (ListHashSet α) := do
  let a ← deleteLoop inlineCapacity s.m_impl.length s.m_head s.m_allocator
  return { s with m_allocator := a }

/-! ## The operations -/

def size : Nat := s.m_impl.length

def contains (value : α) : Except ListFault Bool := do
  let p ← s.implFind value
  return p.isSome

/-- `find`: an iterator is the node that it is at. -/
def find (value : α) : Except ListFault (Option NodePtr) := s.implFind value

def add (value : α) : Except ListFault (ListHashSet α × Bool) := do
  let (s, node, isNewEntry) ← s.implAdd malloc inlineCapacity value
  let s ← if isNewEntry then s.appendNode node else pure s
  return (s, isNewEntry)

def appendOrMoveToLast (value : α) : Except ListFault (ListHashSet α × Bool) := do
  let (s, node, isNewEntry) ← s.implAdd malloc inlineCapacity value
  let s ← if !isNewEntry then s.unlink node else pure s
  let s ← s.appendNode node
  return (s, isNewEntry)

def prependOrMoveToFirst (value : α) : Except ListFault (ListHashSet α × Bool) := do
  let (s, node, isNewEntry) ← s.implAdd malloc inlineCapacity value
  let s ← if !isNewEntry then s.unlink node else pure s
  let s ← s.prependNode node
  return (s, isNewEntry)

/-- `insertBefore(iterator, const ValueType&)`. -/
def insertBeforeIterator (it : Option NodePtr) (newValue : α) : Except ListFault (ListHashSet α × Bool) := do
  let (s, node, isNewEntry) ← s.implAdd malloc inlineCapacity newValue
  let s ← if isNewEntry then s.insertNodeBefore it node else pure s
  return (s, isNewEntry)

def insertBefore (beforeValue newValue : α) : Except ListFault (ListHashSet α × Bool) := do
  let it ← s.find beforeValue
  s.insertBeforeIterator malloc inlineCapacity it newValue

/-- `m_impl.remove(node)`, which looks for the value of the node. -/
def implRemove (node : NodePtr) : Except ListFault (ListHashSet α) := do
  let (_, value) ← s.readNode node
  match ← s.implFind value with
  | some p => return { s with m_impl := s.m_impl.erase p }
  | none => return s

/-- `remove(iterator)`. -/
def removeIterator (it : Option NodePtr) : Except ListFault (ListHashSet α × Bool) := do
  match it with
  | none => return (s, false)
  | some node => do
    let s ← s.implRemove node
    let s ← s.unlinkAndDelete inlineCapacity node
    return (s, true)

def remove (value : α) : Except ListFault (ListHashSet α × Bool) := do
  let it ← s.find value
  s.removeIterator inlineCapacity it

/-- The node is found in the table, its value taken, and the node at the end deleted. -/
def takeNode (node : Option NodePtr) : Except ListFault (ListHashSet α × α) :=
  match node with
  | none => .error .null
  | some node => do
    let (_, value) ← s.readNode node
    match ← s.implFind value with
    | none => .error .wild
    | some p => do
      let (_, result) ← s.readNode p
      let s ← { s with m_impl := s.m_impl.erase p }.unlinkAndDelete inlineCapacity node
      return (s, result)

def takeFirst : Except ListFault (ListHashSet α × α) := s.takeNode inlineCapacity s.m_head

def takeLast : Except ListFault (ListHashSet α × α) := s.takeNode inlineCapacity s.m_tail

def clear : Except ListFault (ListHashSet α) := do
  let s ← s.deleteAllNodes inlineCapacity
  return { s with m_impl := [], m_head := none, m_tail := none }

/-! ## Iterators -/

/-- `for (; it != end(); ++it)`, for at most `fuel` values. -/
def iterateFrom : Nat → Option NodePtr → Except ListFault (List α)
  | _, none => .ok []
  | 0, some _ => .error .endless
  | fuel + 1, some p => do
    let (node, value) ← s.readNode p
    let values ← iterateFrom fuel node.m_next
    return value :: values

def iterate : Except ListFault (List α) := s.iterateFrom s.size s.m_head

/-- `operator--`. -/
def decrement : Option NodePtr → Except ListFault (Option NodePtr)
  | none => .ok s.m_tail
  | some p => do
    let (node, _) ← s.readNode p
    return node.m_prev

/-- `for (; it != rend(); ++it)` for a `reverse_iterator`, whose base is in front of the value. -/
def iterateBackwardsFrom : Nat → Option NodePtr → Except ListFault (List α)
  | fuel, base => do
    if base = s.m_head then return []
    else match fuel with
      | 0 => .error .endless
      | fuel + 1 => do
        match ← s.decrement base with
        | none => .error .null
        | some p => do
          let (_, value) ← s.readNode p
          let values ← iterateBackwardsFrom fuel (some p)
          return value :: values

def iterateBackwards : Except ListFault (List α) := s.iterateBackwardsFrom s.size none

/-- `begin()`, after `k` times `++` or at `end()`. -/
def iteratorAt : Nat → Option NodePtr → Except ListFault (Option NodePtr)
  | _, none => .ok none
  | 0, some p => .ok (some p)
  | k + 1, some p => do
    let (node, _) ← s.readNode p
    iteratorAt k node.m_next

/-- `ListHashSet(const ListHashSet&)`. -/
def copy : Except ListFault (ListHashSet α) := do
  let values ← s.iterate
  values.foldlM (fun set value => do
    let (set, _) ← set.add malloc inlineCapacity value
    return set) create

end ListHashSet

end WebKit.WTF
