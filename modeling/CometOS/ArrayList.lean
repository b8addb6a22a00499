import CometOS.Lib.LinkedList
import CometOS.Lib.Loop
import CometOS.Lib.Run
import CometOS.Lib.Word

/-!
# The linked list of `kernel/kernel/array.c`

An `array_t` with its `array_node_t` objects.  `nodes` gives each address the node allocated there;
no node is at the null pointer.  Reading or writing a field through a pointer without a node behind
it is a fault, and a fault is `none`.
-/

namespace CometOS

open LinkedList Word32

structure ArrayNode where
  next : UInt32
  prev : UInt32
  value : UInt32
  deriving DecidableEq

structure ArrayT where
  startNode : UInt32
  endNode : UInt32
  size : UInt32

/-- One list and the allocated nodes. -/
structure ArrayState where
  nodes : UInt32 → Option ArrayNode
  array : ArrayT

namespace ArrayState

def put (p : UInt32) (n : Option ArrayNode) (s : ArrayState) : ArrayState :=
  { s with nodes := fun a => if a = p then n else s.nodes a }

/-- `p->next = v`. -/
def setNext (p v : UInt32) (s : ArrayState) : Option ArrayState :=
  (s.nodes p).map fun n => s.put p (some { n with next := v })

/-- `p->prev = v`. -/
def setPrev (p v : UInt32) (s : ArrayState) : Option ArrayState :=
  (s.nodes p).map fun n => s.put p (some { n with prev := v })

/-- `kfree(p)`. -/
def free (p : UInt32) (s : ArrayState) : ArrayState := s.put p none

/-- The `next` field at `x`, null where there is no node. -/
def next (s : ArrayState) (x : UInt32) : UInt32 := (s.nodes x).elim 0 ArrayNode.next

def prev (s : ArrayState) (x : UInt32) : UInt32 := (s.nodes x).elim 0 ArrayNode.prev

@[simp] theorem put_nodes (p : UInt32) (n : Option ArrayNode) (s : ArrayState) (a : UInt32) :
    (s.put p n).nodes a = if a = p then n else s.nodes a := rfl

@[simp] theorem put_array (p : UInt32) (n : Option ArrayNode) (s : ArrayState) :
    (s.put p n).array = s.array := rfl

theorem put_next (p : UInt32) (n : ArrayNode) (s : ArrayState) (x : UInt32) :
    (s.put p (some n)).next x = if x = p then n.next else s.next x := by
  by_cases h : x = p <;> simp [next, h]

theorem put_prev (p : UInt32) (n : ArrayNode) (s : ArrayState) (x : UInt32) :
    (s.put p (some n)).prev x = if x = p then n.prev else s.prev x := by
  by_cases h : x = p <;> simp [prev, h]

theorem setNext_eq {p : UInt32} {n : ArrayNode} {s : ArrayState} (h : s.nodes p = some n)
    (v : UInt32) : s.setNext p v = some (s.put p (some { n with next := v })) := by
  rw [setNext, h, Option.map_some]

theorem setPrev_eq {p : UInt32} {n : ArrayNode} {s : ArrayState} (h : s.nodes p = some n)
    (v : UInt32) : s.setPrev p v = some (s.put p (some { n with prev := v })) := by
  rw [setPrev, h, Option.map_some]

/-- Writing to a link of a node leaves the values. -/
theorem put_map_value {p : UInt32} {n v : ArrayNode} (s : ArrayState) (h : s.nodes p = some n)
    (hv : v.value = n.value) (x : UInt32) :
    ((s.put p (some v)).nodes x).map ArrayNode.value = (s.nodes x).map ArrayNode.value := by
  by_cases hx : x = p
  · simp [hx, h, hv]
  · simp [hx]

/-- Writing through a pointer with nothing behind it is a fault. -/
theorem setPrev_none {p : UInt32} {s : ArrayState} (h : s.nodes p = none) (v : UInt32) :
    s.setPrev p v = none := by
  rw [setPrev, h, Option.map_none]

theorem setNext_none {p : UInt32} {s : ArrayState} (h : s.nodes p = none) (v : UInt32) :
    s.setNext p v = none := by
  rw [setNext, h, Option.map_none]

end ArrayState

def arrayCreate (nodes : UInt32 → Option ArrayNode) : ArrayState :=
  { nodes, array := { startNode := 0, endNode := 0, size := 0 } }

/-- First part of `array_node_delete`: the node is the end node. -/
def arrayNodeDeleteEnd (node : UInt32) (s : ArrayState) : Option ArrayState :=
  if node = s.array.endNode then
    if s.array.startNode = node then some { s with array := { s.array with endNode := 0 } }
    else do
      let s ← s.setNext (← s.nodes node).prev 0
      let n ← s.nodes node
      some { s with array := { s.array with endNode := n.prev } }
  else some s

/-- Second part: the node is the start node. -/
def arrayNodeDeleteStart (node : UInt32) (s : ArrayState) : Option ArrayState :=
  if node = s.array.startNode then do
    let n ← s.nodes node
    some { s with array := { s.array with startNode := if n.next ≠ 0 then n.next else 0 } }
  else some s

/-- Third part: the node is not at start or end, as start and end are by now. -/
def arrayNodeDeleteMiddle (node : UInt32) (s : ArrayState) : Option ArrayState :=
  if node ≠ s.array.endNode ∧ node ≠ s.array.startNode then do
    let n ← s.nodes node
    let s ← s.setNext n.prev n.next
    let n ← s.nodes node
    s.setPrev n.next n.prev
  else some s

def arrayNodeDelete (node : UInt32) (s : ArrayState) : Option ArrayState := do
  let s ← arrayNodeDeleteEnd node s
  let s ← arrayNodeDeleteStart node s
  let s ← arrayNodeDeleteMiddle node s
  let s := s.free node
  some { s with array := { s.array with size := s.array.size - 1 } }

def arrayNodeInsert (node : UInt32) (s : ArrayState) : Option ArrayState := do
  let s ← if s.array.endNode = 0 then
      some { s with array := { s.array with startNode := node } }
    else do
      let s ← s.setNext s.array.endNode node
      s.setPrev node s.array.endNode
  some { s with array := { s.array with endNode := node, size := s.array.size + 1 } }

/-- The state after `array_pop` and the node it returns. -/
def arrayPop (s : ArrayState) : Option (ArrayState × UInt32) :=
  if s.array.endNode = 0 then some (s, 0)
  else do
    let node := s.array.endNode
    let s ← arrayNodeDelete s.array.endNode s
    some (s, node)

/-- One turn of the loop of `array_clear`. -/
def arrayClearTurn (x : UInt32 × ArrayState) : Option (UInt32 × ArrayState) := do
  let n ← x.2.nodes x.1
  let s ← arrayNodeDelete x.1 x.2
  some (n.next, s)

/-- Each turn frees a node, so there are no more turns than addresses. -/
def arrayClear (s : ArrayState) : Option ArrayState :=
  (Loop.whileLoop (fun x => decide (x.1 ≠ 0)) arrayClearTurn (2 ^ 32) (s.array.startNode, s)).map
    Prod.snd

/-! ### What a well-formed list looks like -/

/-- The links of `s` thread exactly the nodes of `xs`, in order, each of them allocated. -/
structure ArrayRepr (s : ArrayState) (xs : List UInt32) : Prop where
  linked : Linked s.next s.prev 0 xs 0
  start_eq : s.array.startNode = xs.headD 0
  end_eq : s.array.endNode = xs.getLastD 0
  size_eq : s.array.size.toNat = xs.length
  allocated : ∀ x ∈ xs, s.nodes x ≠ none
  null : s.nodes 0 = none

namespace ArrayRepr

variable {s : ArrayState} {xs : List UInt32}

theorem zero_not_mem (h : ArrayRepr s xs) : 0 ∉ xs := fun h0 => h.allocated 0 h0 h.null

theorem nodup (h : ArrayRepr s xs) : xs.Nodup := h.linked.nodup h.zero_not_mem

/-- A list is the same where its own links are. -/
theorem congr {links links' : UInt32 → Option ArrayNode} {a : ArrayT}
    (h : ArrayRepr { nodes := links, array := a } xs) (hin : ∀ x ∈ xs, links' x = links x)
    (hnull : links' 0 = none) : ArrayRepr { nodes := links', array := a } xs := by
  refine ⟨?_, h.start_eq, h.end_eq, h.size_eq, ?_, hnull⟩
  · refine h.linked.congr (fun x hx => ?_) fun x hx => ?_
    · simp only [ArrayState.next, hin x hx]
    · simp only [ArrayState.prev, hin x hx]
  · intro x hx
    have hx' : links x ≠ none := h.allocated x hx
    rwa [← hin x hx] at hx'

/-- Start and end are null exactly for the empty list. -/
theorem start_eq_zero (h : ArrayRepr s xs) : s.array.startNode = 0 ↔ xs = [] := by
  rw [h.start_eq]
  cases xs with
  | nil => simp
  | cons x xs =>
    have := h.zero_not_mem
    simp only [List.headD_cons, List.mem_cons, not_or] at this ⊢
    exact ⟨fun hx => absurd hx.symm this.1, fun hx => absurd hx (List.cons_ne_nil x xs)⟩

theorem end_eq_zero (h : ArrayRepr s xs) : s.array.endNode = 0 ↔ xs = [] := by
  rw [h.end_eq]
  constructor
  · intro h0
    by_contra hne
    exact h.zero_not_mem (h0 ▸ getLastD_mem hne)
  · rintro rfl
    rfl

end ArrayRepr

theorem arrayCreate_repr (nodes : UInt32 → Option ArrayNode) (h : nodes 0 = none) :
    ArrayRepr (arrayCreate nodes) [] :=
  ⟨trivial, rfl, rfl, rfl, by simp, h⟩

/-! ### Inserting -/

/-- Inserting into the empty list touches no node. -/
theorem arrayNodeInsert_nil {s : ArrayState} {node : UInt32} (h : s.array.endNode = 0) :
    arrayNodeInsert node s = some { s with
      array := { startNode := node, endNode := node, size := s.array.size + 1 } } := by
  simp [arrayNodeInsert, h]

/-- Inserting behind the end node `y` links the two. -/
theorem arrayNodeInsert_cons {s : ArrayState} {node y : UInt32} {n f : ArrayNode}
    (hend : s.array.endNode = y) (hy : y ≠ 0) (hn : s.nodes y = some n) (hne : node ≠ y)
    (hf : s.nodes node = some f) :
    arrayNodeInsert node s = some
      { (s.put y (some { n with next := node })).put node (some { f with prev := y }) with
        array := { s.array with endNode := node, size := s.array.size + 1 } } := by
  have hf' : (s.put y (some { n with next := node })).nodes node = some f := by simp [hne, hf]
  have h1 := ArrayState.setNext_eq hn node
  have h2 := ArrayState.setPrev_eq hf' y
  simp only [arrayNodeInsert, hend, if_neg hy, h1, Option.bind_eq_bind, Option.bind_some]
  rw [ArrayState.put_array, hend, h2]
  rfl

/-- What the new node's own links are afterwards: `next` is never written, and `prev` only when
there is an end node to point back to. -/
theorem arrayNodeInsert_links {s s' : ArrayState} {xs : List UInt32} {node : UInt32} {f : ArrayNode}
    (h : ArrayRepr s xs) (hmem : node ∉ xs) (hf : s.nodes node = some f)
    (hs : arrayNodeInsert node s = some s') :
    s'.next node = f.next ∧ (xs = [] → s'.prev node = f.prev) := by
  by_cases hnil : xs = []
  · rw [arrayNodeInsert_nil (h.end_eq_zero.2 hnil)] at hs
    cases hs
    simp [ArrayState.next, ArrayState.prev, hf]
  · have hy : xs.getLastD 0 ∈ xs := getLastD_mem hnil
    obtain ⟨n, hn⟩ := Option.ne_none_iff_exists'.1 (h.allocated _ hy)
    have hne : node ≠ xs.getLastD 0 := by
      rintro rfl
      exact hmem hy
    rw [arrayNodeInsert_cons h.end_eq (fun h0 => h.zero_not_mem (h0 ▸ hy)) hn hne hf] at hs
    cases hs
    exact ⟨by simp [ArrayState.next], fun h0 => absurd h0 hnil⟩

/-- Inserting writes to no node but the new one and the end node, and to no value. -/
theorem arrayNodeInsert_frame {s s' : ArrayState} {node : UInt32}
    (h : arrayNodeInsert node s = some s') :
    (∀ x, x ≠ node → x ≠ s.array.endNode → s'.nodes x = s.nodes x) ∧
      ∀ x, (s'.nodes x).map ArrayNode.value = (s.nodes x).map ArrayNode.value := by
  by_cases hend : s.array.endNode = 0
  · rw [arrayNodeInsert_nil hend] at h
    cases h
    exact ⟨fun x _ _ => rfl, fun x => rfl⟩
  · have hstep : ((s.setNext s.array.endNode node).bind fun t =>
        (t.setPrev node t.array.endNode).bind fun t => some { t with
          array := { t.array with endNode := node, size := t.array.size + 1 } }) = some s' := by
      rw [← h, arrayNodeInsert, if_neg hend]
      rfl
    obtain ⟨u, hu, hstep⟩ := Option.bind_eq_some_iff.1 hstep
    obtain ⟨t, ht, hs'⟩ := Option.bind_eq_some_iff.1 hstep
    obtain ⟨n, hn, rfl⟩ := Option.map_eq_some_iff.1 hu
    obtain ⟨f, hf, rfl⟩ := Option.map_eq_some_iff.1 ht
    obtain rfl := Option.some.inj hs'
    have hfirst := s.put_map_value hn (v := { n with next := node }) rfl
    constructor
    · intro x hx hxe
      simp [hx, hxe]
    · intro x
      rw [← hfirst x]
      exact ArrayState.put_map_value (v := { f with prev := s.array.endNode }) _ hf rfl x

/-- **Inserting appends**, if the new node comes with a null `next`, and with a null `prev` when it
is the first. -/
theorem arrayNodeInsert_repr {s : ArrayState} {xs : List UInt32} {node : UInt32} {f : ArrayNode}
    (h : ArrayRepr s xs) (hnode : node ≠ 0) (hmem : node ∉ xs) (hf : s.nodes node = some f)
    (hnext : f.next = 0) (hprev : xs = [] → f.prev = 0) :
    ∃ s', arrayNodeInsert node s = some s' ∧ ArrayRepr s' (xs ++ [node]) := by
  have hlen : s.array.size.toNat + (1 : UInt32).toNat < 2 ^ 32 := by
    have hnd : (node :: xs).Nodup := List.nodup_cons.2 ⟨hmem, h.nodup⟩
    have h0 : 0 ∉ node :: xs := by
      simp only [List.mem_cons, not_or]
      exact ⟨hnode.symm, h.zero_not_mem⟩
    have := length_lt_of_nodup hnd h0
    rw [h.size_eq]
    simpa using this
  have hsize : (s.array.size + 1).toNat = (xs ++ [node]).length := by
    rw [toNat_add_of_lt hlen, h.size_eq, List.length_append]
    rfl
  by_cases hnil : xs = []
  · subst hnil
    refine ⟨_, arrayNodeInsert_nil (h.end_eq_zero.2 rfl), ?_, rfl, rfl, hsize, ?_, h.null⟩
    · rw [List.nil_append, linked_singleton]
      simp [ArrayState.next, ArrayState.prev, hf, hnext, hprev]
    · intro x hx
      obtain rfl : x = node := by simpa using hx
      simp [hf]
  · obtain ⟨ys, y, rfl⟩ := List.eq_nil_or_concat xs |>.resolve_left hnil
    rw [List.concat_eq_append] at *
    have hlast : (ys ++ [y]).getLastD 0 = y := by simp
    have hy : y ≠ 0 := fun h0 => h.zero_not_mem (by simp [h0])
    have hne : node ≠ y := fun he => hmem (by simp [he])
    obtain ⟨n, hn⟩ := Option.ne_none_iff_exists'.1 (h.allocated y (by simp))
    have hout : ∀ x ∈ ys ++ [y], x ≠ node := fun x hx he => hmem (he ▸ hx)
    refine ⟨_, arrayNodeInsert_cons (h.end_eq.trans hlast) hy hn hne hf, ?_, ?_, ?_, hsize, ?_, ?_⟩
    · refine h.linked.snoc ?_ ?_ ?_ ?_ ?_
      · simp [ArrayState.next, hnext]
      · simp [ArrayState.prev]
      · intro x hx
        obtain rfl : y = x := by simpa using hx
        simp [ArrayState.next, hne.symm]
      · intro x hx
        rw [List.dropLast_concat] at hx
        have hxy : x ≠ y := by
          rintro rfl
          exact (List.nodup_append.1 h.nodup).2.2 x hx x (by simp) rfl
        simp [ArrayState.next, hout x (by simp [hx]), hxy]
      · intro x hx
        by_cases hxy : x = y
        · simp [ArrayState.prev, hxy, hne.symm, hn]
        · simp [ArrayState.prev, hout x hx, hxy]
    · rw [headD_append]
      have := h.start_eq
      rw [headD_append] at this
      rw [headD_append]
      exact this
    · simp
    · intro x hx
      by_cases hxn : x = node
      · simp [hxn]
      · have hx' : x ∈ ys ++ [y] := by simpa [hxn] using hx
        by_cases hxy : x = y
        · simp [hxy, hne.symm]
        · simpa [hxn, hxy] using h.allocated x hx'
    · simp [hnode.symm, hy.symm, h.null]

/-! ### Deleting -/

/-- A node with neighbours on both sides is unlinked from them. -/
theorem arrayNodeDelete_middle {s : ArrayState} {node y z : UInt32} {n ny nz : ArrayNode}
    (hend : node ≠ s.array.endNode) (hstart : node ≠ s.array.startNode)
    (hn : s.nodes node = some n) (hy : n.prev = y) (hz : n.next = z) (hny : s.nodes y = some ny)
    (hnz : s.nodes z = some nz) (hyn : y ≠ node) (hyz : y ≠ z) : arrayNodeDelete node s = some
      { ((s.put y (some { ny with next := z })).put z (some { nz with prev := y })).free node with
        array := { s.array with size := s.array.size - 1 } } := by
  have hnode : (s.put y (some { ny with next := z })).nodes node = some n := by
    simp [hyn.symm, hn]
  have hz' : (s.put y (some { ny with next := z })).nodes z = some nz := by simp [hyz.symm, hnz]
  have hmid : arrayNodeDeleteMiddle node s =
      some ((s.put y (some { ny with next := z })).put z (some { nz with prev := y })) := by
    simp only [arrayNodeDeleteMiddle, ne_eq, hend, hstart, not_false_eq_true, and_self, if_true, hn,
      Option.bind_eq_bind, Option.bind_some, hy, hz]
    rw [ArrayState.setNext_eq hny, Option.bind_some, hnode, Option.bind_some, hz, hy,
      ArrayState.setPrev_eq hz']
  simp only [arrayNodeDelete, arrayNodeDeleteEnd, arrayNodeDeleteStart, if_neg hend, if_neg hstart,
    Option.bind_eq_bind, Option.bind_some, hmid]
  rfl

/-- **The third part faults** on a node with a null neighbour, unless it is at start or end still. -/
theorem arrayNodeDeleteMiddle_none {s : ArrayState} {node : UInt32} {n : ArrayNode}
    (hend : node ≠ s.array.endNode) (hstart : node ≠ s.array.startNode)
    (hn : s.nodes node = some n) (hnull : s.nodes 0 = none) (h : n.prev = 0 ∨ n.next = 0) :
    arrayNodeDeleteMiddle node s = none := by
  simp only [arrayNodeDeleteMiddle, ne_eq, hend, hstart, not_false_eq_true, and_self, if_true, hn,
    Option.bind_eq_bind, Option.bind_some]
  cases hp : s.nodes n.prev with
  | none => rw [ArrayState.setNext_none hp, Option.bind_none]
  | some ny =>
    rw [ArrayState.setNext_eq hp, Option.bind_some]
    rcases h with h | h
    · rw [h, hnull] at hp
      cases hp
    · cases hm : (s.put n.prev (some { ny with next := n.next })).nodes node with
      | none => rfl
      | some m =>
        have hmn : m.next = 0 := by
          by_cases he : node = n.prev
          · rw [ArrayState.put_nodes, if_pos he] at hm
            cases hm
            exact h
          · rw [ArrayState.put_nodes, if_neg he, hn] at hm
            cases hm
            exact h
        have hz : (0 : UInt32) ≠ n.prev := by
          intro he
          rw [← he, hnull] at hp
          cases hp
        rw [Option.bind_some, hmn, ArrayState.setPrev_none]
        rw [ArrayState.put_nodes, if_neg hz, hnull]

namespace ArrayRepr

variable {s : ArrayState} {xs ys : List UInt32} {node : UInt32}

/-- The node in the middle of a represented list, with its links. -/
theorem node_eq (h : ArrayRepr s (xs ++ node :: ys)) :
    ∃ n, s.nodes node = some n ∧ n.next = ys.headD 0 ∧ n.prev = xs.getLastD 0 := by
  obtain ⟨n, hn⟩ := Option.ne_none_iff_exists'.1 (h.allocated node (by simp))
  have hnext := h.linked.next_eq
  have hprev := h.linked.prev_eq
  simp only [ArrayState.next, ArrayState.prev, hn, Option.elim_some] at hnext hprev
  exact ⟨n, hn, hnext, hprev⟩

/-- Nothing of the list stands at a node twice. -/
theorem not_mem (h : ArrayRepr s (xs ++ node :: ys)) : node ∉ xs ∧ node ∉ ys ∧ node ≠ 0 := by
  have hnd := h.nodup
  have h0 := h.zero_not_mem
  rw [List.nodup_append, List.nodup_cons] at hnd
  refine ⟨fun hm => hnd.2.2 node hm node List.mem_cons_self rfl, hnd.2.1.1, ?_⟩
  rintro rfl
  exact h0 (by simp)

/-- A node with others behind it is not the end node. -/
theorem ne_end (h : ArrayRepr s (xs ++ node :: ys)) (hys : ys ≠ []) : node ≠ s.array.endNode := by
  obtain ⟨z, ys, rfl⟩ := List.exists_cons_of_ne_nil hys
  intro he
  have hm : s.array.endNode ∈ z :: ys := by
    rw [h.end_eq, getLastD_append, getLastD_cons]
    exact getLastD_mem (List.cons_ne_nil z ys)
  exact h.not_mem.2.1 (he ▸ hm)

/-- A node with others before it is not the start node. -/
theorem ne_start (h : ArrayRepr s (xs ++ node :: ys)) (hxs : xs ≠ []) :
    node ≠ s.array.startNode := by
  obtain ⟨x, xs, rfl⟩ := List.exists_cons_of_ne_nil hxs
  intro he
  have hm : s.array.startNode ∈ x :: xs := by
    rw [h.start_eq]
    exact List.mem_cons_self
  exact h.not_mem.1 (he ▸ hm)

end ArrayRepr

section Unlinked

variable {s : ArrayState} {node x y z : UInt32} {ny nz : ArrayNode}

/-- Between `y` and `z` nothing is left. -/
theorem unlinked_next (hnz : s.nodes z = some nz) (hyz : y ≠ z) (hx : x ≠ node) :
    (((s.put y (some { ny with next := z })).put z (some { nz with prev := y })).free node).next x =
      if x = y then z else s.next x := by
  by_cases hxy : x = y
  · simp [ArrayState.next, ArrayState.free, hxy, hyz, hxy ▸ hx]
  · by_cases hxz : x = z
    · simp [ArrayState.next, ArrayState.free, hxz, hxz ▸ hx, hnz, hyz.symm]
    · simp [ArrayState.next, ArrayState.free, hx, hxy, hxz]

theorem unlinked_prev (hny : s.nodes y = some ny) (hyz : y ≠ z) (hx : x ≠ node) :
    (((s.put y (some { ny with next := z })).put z (some { nz with prev := y })).free node).prev x =
      if x = z then y else s.prev x := by
  by_cases hxz : x = z
  · simp [ArrayState.prev, ArrayState.free, hxz, hxz ▸ hx]
  · by_cases hxy : x = y
    · simp [ArrayState.prev, ArrayState.free, hxy, hxy ▸ hx, hyz, hny]
    · simp [ArrayState.prev, ArrayState.free, hx, hxy, hxz]

/-- The other nodes are still allocated. -/
theorem unlinked_allocated (hx : x ≠ node) (hs : s.nodes x ≠ none) :
    (((s.put y (some { ny with next := z })).put z (some { nz with prev := y })).free node).nodes x ≠
      none := by
  by_cases hxz : x = z
  · simp [ArrayState.free, hxz, hxz ▸ hx]
  · by_cases hxy : x = y
    · simp [ArrayState.free, hxy, hxy ▸ hx, hxy ▸ hxz]
    · simpa [ArrayState.free, hx, hxy, hxz] using hs

end Unlinked

/-- **Deleting between two nodes** leaves the other nodes linked. -/
theorem arrayNodeDelete_repr {s : ArrayState} {xs ys : List UInt32} {node : UInt32}
    (h : ArrayRepr s (xs ++ node :: ys)) (hxs : xs ≠ []) (hys : ys ≠ []) :
    ∃ s', arrayNodeDelete node s = some s' ∧ ArrayRepr s' (xs ++ ys) := by
  obtain ⟨n, hn, hnext, hprev⟩ := h.node_eq
  obtain ⟨hnx, hny, hn0⟩ := h.not_mem
  have hend := h.ne_end hys
  have hstart := h.ne_start hxs
  obtain ⟨xs, y, rfl⟩ := List.eq_nil_or_concat xs |>.resolve_left hxs
  obtain ⟨z, ys, rfl⟩ := List.exists_cons_of_ne_nil hys
  rw [List.concat_eq_append] at *
  have hnd := h.nodup
  have hlast : (xs ++ [y]).getLastD 0 = y := by simp
  rw [hlast] at hprev
  rw [List.headD_cons] at hnext
  obtain ⟨vy, hvy⟩ := Option.ne_none_iff_exists'.1 (h.allocated y (by simp))
  obtain ⟨vz, hvz⟩ := Option.ne_none_iff_exists'.1 (h.allocated z (by simp))
  have hyn : y ≠ node := fun he => hnx (by simp [he])
  have hyz : y ≠ z := by
    rintro rfl
    exact (List.nodup_append.1 hnd).2.2 y (by simp) y (by simp) rfl
  have hne : ∀ x ∈ xs ++ [y] ++ z :: ys, x ≠ node := by
    rintro x hx rfl
    exact (List.mem_append.1 hx).elim hnx hny
  have hp : s.prev node = y := by simpa [ArrayState.prev, hn] using hprev
  have hq : s.next node = z := by simpa [ArrayState.next, hn] using hnext
  have hsize : (s.array.size - 1).toNat = (xs ++ [y] ++ z :: ys).length := by
    have hlen : s.array.size.toNat = (xs ++ [y] ++ z :: ys).length + 1 := by
      rw [h.size_eq]
      simp
      omega
    rw [toNat_sub_of_le (by rw [hlen]; simp), hlen]
    rfl
  refine ⟨_, arrayNodeDelete_middle hend hstart hn hprev hnext hvy hvz hyn hyz,
    ?_, ?_, ?_, hsize, ?_, ?_⟩
  · refine h.linked.unlink hnd h.zero_not_mem h.zero_not_mem (fun x hx => ?_) fun x hx => ?_
    · rw [hp, hq]
      exact unlinked_next hvz hyz (hne x hx)
    · rw [hp, hq]
      exact unlinked_prev hvy hyz (hne x hx)
  · have := h.start_eq
    rw [headD_append] at this ⊢
    cases xs <;> simpa using this
  · have := h.end_eq
    simpa [List.getLastD_eq_getLast?] using this
  · refine fun x hx => unlinked_allocated (hne x hx) (h.allocated x ?_)
    rcases List.mem_append.1 hx with hx | hx
    · exact List.mem_append_left _ hx
    · exact List.mem_append_right _ (List.mem_cons_of_mem node hx)
  · have hy0 : y ≠ 0 := fun h0 => h.zero_not_mem (by simp [h0])
    have hz0 : z ≠ 0 := fun h0 => h.zero_not_mem (by simp [h0])
    simp [ArrayState.free, hy0.symm, hz0.symm, h.null]

theorem arrayNodeDelete_none {s : ArrayState} {node : UInt32} (s₁ s₂ : ArrayState)
    (h₁ : arrayNodeDeleteEnd node s = some s₁) (h₂ : arrayNodeDeleteStart node s₁ = some s₂)
    (h₃ : arrayNodeDeleteMiddle node s₂ = none) : arrayNodeDelete node s = none := by
  simp only [arrayNodeDelete, h₁, h₂, h₃, Option.bind_eq_bind, Option.bind_some, Option.bind_none]

/-- **Deleting the first node faults**: the third part no longer sees it at the start. -/
theorem arrayNodeDelete_first {s : ArrayState} {ys : List UInt32} {node : UInt32}
    (h : ArrayRepr s (node :: ys)) : arrayNodeDelete node s = none := by
  have h' : ArrayRepr s ([] ++ node :: ys) := h
  obtain ⟨n, hn, hnext, hprev⟩ := h'.node_eq
  obtain ⟨-, hny, hn0⟩ := h'.not_mem
  have hstart : s.array.startNode = node := by rw [h.start_eq, List.headD_cons]
  rcases ys with _ | ⟨z, ys⟩
  · have hend : s.array.endNode = node := h.end_eq
    refine arrayNodeDelete_none { s with array := { s.array with endNode := 0 } }
      { s with array := { s.array with endNode := 0, startNode := 0 } } ?_ ?_ ?_
    · rw [arrayNodeDeleteEnd, if_pos hend.symm, if_pos hstart]
    · simp [arrayNodeDeleteStart, hstart, hn, hnext]
    · exact arrayNodeDeleteMiddle_none hn0 hn0 hn h.null (Or.inl hprev)
  · have hend : node ≠ s.array.endNode := h'.ne_end (List.cons_ne_nil z ys)
    have hz0 : z ≠ 0 := fun h0 => h.zero_not_mem (by simp [h0])
    refine arrayNodeDelete_none s { s with array := { s.array with startNode := z } } ?_ ?_ ?_
    · rw [arrayNodeDeleteEnd, if_neg hend]
    · simp [arrayNodeDeleteStart, hstart, hn, hnext, hz0]
    · refine arrayNodeDeleteMiddle_none hend ?_ hn h.null (Or.inl hprev)
      rintro rfl
      exact hny (by simp)

/-- **Deleting the last node faults**, for the same reason at the other end. -/
theorem arrayNodeDelete_last {s : ArrayState} {xs : List UInt32} {node : UInt32}
    (h : ArrayRepr s (xs ++ [node])) : arrayNodeDelete node s = none := by
  by_cases hnil : xs = []
  · subst hnil
    exact arrayNodeDelete_first h
  obtain ⟨n, hn, hnext, hprev⟩ := h.node_eq
  obtain ⟨hnx, -, hn0⟩ := h.not_mem
  have hend : s.array.endNode = node := by rw [h.end_eq]; simp
  have hstart : s.array.startNode ≠ node := (h.ne_start hnil).symm
  have hlast : xs.getLastD 0 ∈ xs := getLastD_mem hnil
  rw [← hprev] at hlast
  obtain ⟨vy, hvy⟩ := Option.ne_none_iff_exists'.1 (h.allocated _ (List.mem_append_left _ hlast))
  have hyn : node ≠ n.prev := fun he => hnx (he ▸ hlast)
  have h0y : (0 : UInt32) ≠ n.prev := fun he => h.zero_not_mem (List.mem_append_left _ (he ▸ hlast))
  refine arrayNodeDelete_none
    { s.put n.prev (some { vy with next := 0 }) with
      array := { s.array with endNode := n.prev } }
    { s.put n.prev (some { vy with next := 0 }) with
      array := { s.array with endNode := n.prev } } ?_ ?_ ?_
  · simp [arrayNodeDeleteEnd, hend, hstart, hn, ArrayState.setNext_eq hvy, hyn]
  · rw [arrayNodeDeleteStart, if_neg hstart.symm]
  · refine arrayNodeDeleteMiddle_none (n := n) hyn hstart.symm ?_ ?_ (Or.inr hnext)
    · simp [hyn, hn]
    · simp [h0y, h.null]

/-! ### Popping and clearing -/

theorem arrayPop_nil {s : ArrayState} (h : ArrayRepr s []) : arrayPop s = some (s, 0) := by
  rw [arrayPop, if_pos (h.end_eq_zero.2 rfl)]

theorem arrayPop_none {s : ArrayState} {xs : List UInt32} (h : ArrayRepr s xs) (hne : xs ≠ []) :
    arrayPop s = none := by
  obtain ⟨ys, y, rfl⟩ := List.eq_nil_or_concat xs |>.resolve_left hne
  rw [List.concat_eq_append] at *
  have hend : s.array.endNode = y := by rw [h.end_eq]; simp
  rw [arrayPop, if_neg fun h0 => hne (h.end_eq_zero.1 h0), hend, arrayNodeDelete_last h]
  rfl

theorem arrayClear_nil {s : ArrayState} (h : ArrayRepr s []) : arrayClear s = some s := by
  have h0 : s.array.startNode = 0 := h.start_eq
  show Option.map Prod.snd (Loop.whileLoop _ _ (4294967295 + 1) _) = _
  rw [Loop.whileLoop_succ]
  simp [h0]

theorem arrayClear_none {s : ArrayState} {xs : List UInt32} (h : ArrayRepr s xs) (hne : xs ≠ []) :
    arrayClear s = none := by
  obtain ⟨x, ys, rfl⟩ := List.exists_cons_of_ne_nil hne
  have hstart : s.array.startNode = x := by rw [h.start_eq, List.headD_cons]
  have hx : x ≠ 0 := fun h0 => h.zero_not_mem (by simp [h0])
  obtain ⟨n, hn⟩ := Option.ne_none_iff_exists'.1 (h.allocated x (by simp))
  have hturn : arrayClearTurn (x, s) = none := by
    simp [arrayClearTurn, hn, arrayNodeDelete_first h]
  show Option.map Prod.snd (Loop.whileLoop _ _ (4294967295 + 1) _) = _
  rw [Loop.whileLoop_succ, hstart, hturn]
  simp [hx]

/-! ### Runs -/

inductive ArrayOp
  | insert (node : UInt32) (fields : ArrayNode)
  | delete (node : UInt32)
  | pop
  | clear

/-- A run so far: the machine, `none` after a fault, beside the nodes inserted and not removed, in
order.  Of an `array_pop` just made it keeps the result and the node that was last before. -/
structure ArrayRun where
  machine : Option ArrayState
  list : List UInt32
  returned : Option UInt32
  last : UInt32

/-- One operation, where its caller may ask for it: a node to insert is an allocated node, with any
fields, that is not in the list, and a node to delete is in it. -/
def arrayStep (r : ArrayRun) : ArrayOp → Option ArrayRun
  | .insert node fields => r.machine.bind fun s =>
    if node ≠ 0 ∧ node ∉ r.list then some
      { machine := arrayNodeInsert node (s.put node (some fields)), list := r.list ++ [node]
        returned := none, last := 0 }
    else none
  | .delete node => r.machine.bind fun s =>
    if node ∈ r.list then some
      { machine := arrayNodeDelete node s, list := r.list.erase node, returned := none, last := 0 }
    else none
  | .pop => r.machine.map fun s =>
    { machine := (arrayPop s).map Prod.fst, list := r.list.dropLast
      returned := (arrayPop s).map Prod.snd, last := r.list.getLastD 0 }
  | .clear => r.machine.map fun s =>
    { machine := arrayClear s, list := [], returned := none, last := 0 }

def arrayStart (nodes : UInt32 → Option ArrayNode) : ArrayRun :=
  { machine := some (arrayCreate nodes), list := [], returned := none, last := 0 }

/-- What the list operations are for: no fault, the links thread the right nodes, and `array_pop`
has returned the former last node, still allocated. -/
def ArrayOk (r : ArrayRun) : Prop :=
  ∃ s, r.machine = some s ∧ ArrayRepr s r.list ∧
    ∀ x ∈ r.returned, x = r.last ∧ (r.last ≠ 0 → s.nodes x ≠ none)

/-- The operations the code gets right. -/
def ArrayFits (r : ArrayRun) : ArrayOp → Prop
  | .insert _ fields => fields.next = 0 ∧ (r.list = [] → fields.prev = 0)
  | .delete node => node ≠ r.list.headD 0 ∧ node ≠ r.list.getLastD 0
  | .pop => r.list = []
  | .clear => r.list = []

/-- Fields of a node outside the list may be anything. -/
theorem ArrayRepr.put {s : ArrayState} {xs : List UInt32} {node : UInt32} (h : ArrayRepr s xs)
    (hnode : node ≠ 0) (hmem : node ∉ xs) (fields : ArrayNode) :
    ArrayRepr (s.put node (some fields)) xs := by
  have hne : ∀ x ∈ xs, x ≠ node := fun x hx he => hmem (he ▸ hx)
  refine ⟨h.linked.congr ?_ ?_, h.start_eq, h.end_eq, h.size_eq, ?_, ?_⟩
  · intro x hx
    rw [ArrayState.put_next, if_neg (hne x hx)]
  · intro x hx
    rw [ArrayState.put_prev, if_neg (hne x hx)]
  · intro x hx
    rw [ArrayState.put_nodes, if_neg (hne x hx)]
    exact h.allocated x hx
  · rw [ArrayState.put_nodes, if_neg hnode.symm]
    exact h.null

theorem arrayStep_ok {r r' : ArrayRun} {op : ArrayOp} (h : ArrayOk r) (hfit : ArrayFits r op)
    (hs : arrayStep r op = some r') : ArrayOk r' := by
  obtain ⟨s, hm, hr, -⟩ := h
  cases op with
  | insert node fields =>
    rw [arrayStep, hm, Option.bind_some] at hs
    split at hs
    · rename_i hg
      cases hs
      obtain ⟨s', hs', hr'⟩ := arrayNodeInsert_repr (hr.put hg.1 hg.2 fields) hg.1 hg.2
        (by simp) hfit.1 hfit.2
      exact ⟨s', hs', hr', by simp⟩
    · cases hs
  | delete node =>
    rw [arrayStep, hm, Option.bind_some] at hs
    split at hs
    · rename_i hg
      cases hs
      obtain ⟨hfirst, hlast⟩ := hfit
      obtain ⟨xs, ys, hxy⟩ := List.append_of_mem hg
      rw [hxy] at hr hfirst hlast
      have hxs : xs ≠ [] := by
        rintro rfl
        exact hfirst rfl
      have hys : ys ≠ [] := by
        rintro rfl
        exact hlast (by simp)
      obtain ⟨s', hs', hr'⟩ := arrayNodeDelete_repr hr hxs hys
      refine ⟨s', hs', ?_, by simp⟩
      rw [hxy, List.erase_append_right _ hr.not_mem.1, List.erase_cons_head]
      exact hr'
    · cases hs
  | pop =>
    have hnil : r.list = [] := hfit
    rw [arrayStep, hm, Option.map_some] at hs
    cases hs
    rw [hnil] at hr ⊢
    exact ⟨s, by rw [arrayPop_nil hr]; rfl, hr, by simp [arrayPop_nil hr]⟩
  | clear =>
    have hnil : r.list = [] := hfit
    rw [arrayStep, hm, Option.map_some] at hs
    cases hs
    rw [hnil] at hr
    exact ⟨s, arrayClear_nil hr, hr, by simp⟩

theorem arrayStep_not_ok {r r' : ArrayRun} {op : ArrayOp} (h : ArrayOk r) (hfit : ¬ ArrayFits r op)
    (hs : arrayStep r op = some r') : ¬ ArrayOk r' := by
  obtain ⟨s, hm, hr, -⟩ := h
  rintro ⟨s', hm', hr', -⟩
  cases op with
  | insert node fields =>
    rw [arrayStep, hm, Option.bind_some] at hs
    split at hs
    · rename_i hg
      cases hs
      obtain ⟨hnext, hprev⟩ := arrayNodeInsert_links (f := fields) (hr.put hg.1 hg.2 fields) hg.2
        (by simp) hm'
      refine hfit ⟨?_, fun hnil => ?_⟩
      · rw [← hnext]
        exact hr'.linked.next_eq
      · rw [← hprev hnil]
        have := hr'.linked.prev_eq
        rwa [hnil] at this
    · cases hs
  | delete node =>
    rw [arrayStep, hm, Option.bind_some] at hs
    split at hs
    · rename_i hg
      cases hs
      obtain ⟨xs, ys, hxy⟩ := List.append_of_mem hg
      rw [hxy] at hr
      have hnone : arrayNodeDelete node s = none := by
        rcases xs with _ | ⟨x, xs⟩
        · exact arrayNodeDelete_first hr
        · rcases ys with _ | ⟨y, ys⟩
          · exact arrayNodeDelete_last hr
          · refine absurd ⟨?_, ?_⟩ hfit
            · rintro rfl
              exact hr.not_mem.1 (by rw [hxy]; simp)
            · intro he
              refine hr.not_mem.2.1 ?_
              rw [hxy, getLastD_append, getLastD_cons] at he
              rw [he]
              exact getLastD_mem (List.cons_ne_nil y ys)
      rw [hnone] at hm'
      cases hm'
    · cases hs
  | pop =>
    rw [arrayStep, hm, Option.map_some] at hs
    cases hs
    rw [arrayPop_none hr hfit] at hm'
    cases hm'
  | clear =>
    rw [arrayStep, hm, Option.map_some] at hs
    cases hs
    rw [arrayClear_none hr hfit] at hm'
    cases hm'

theorem arrayStart_ok (nodes : UInt32 → Option ArrayNode) (h : nodes 0 = none) :
    ArrayOk (arrayStart nodes) :=
  ⟨_, rfl, arrayCreate_repr nodes h, by simp [arrayStart]⟩

/-- **The list operations, exactly.**  From `array_create`, over any sequence of operations, all is
well after each of them if and only if every node comes in with null links where the code does not
set them, no first or last node is deleted, and `array_pop` and `array_clear` find the list empty. -/
theorem array_ok_iff (nodes : UInt32 → Option ArrayNode) (h : nodes 0 = none)
    (ops : List ArrayOp) :
    Run.AllStates arrayStep ArrayOk (arrayStart nodes) ops ↔
      Run.AllSteps arrayStep ArrayFits (arrayStart nodes) ops :=
  Run.allStates_iff_allSteps (I := ArrayOk) (fun _ h => h)
    (fun _ _ _ h hc hs => arrayStep_ok h hc hs) (fun _ _ _ h hc hs => arrayStep_not_ok h hc hs) _ _
    (arrayStart_ok nodes h)

/-- Three zeroed nodes appended and the middle one deleted. -/
theorem array_ok_three : Run.AllStates arrayStep ArrayOk (arrayStart fun _ => none)
    [.insert 0x1000 ⟨0, 0, 1⟩, .insert 0x2000 ⟨0, 0, 2⟩, .insert 0x3000 ⟨0, 0, 3⟩,
      .delete 0x2000] := by
  refine (array_ok_iff (fun _ => none) rfl _).2 ?_
  rintro r₁ ⟨⟩
  refine ⟨by simp [ArrayFits], ?_⟩
  rintro r₂ ⟨⟩
  refine ⟨by simp [ArrayFits, arrayStart], ?_⟩
  rintro r₃ ⟨⟩
  refine ⟨by simp [ArrayFits, arrayStart], ?_⟩
  rintro r₄ ⟨⟩
  exact ⟨by simp [ArrayFits, arrayStart], trivial⟩

/-- A zeroed node appended to an empty list and popped again: `array_node_delete` writes through its
null `prev`. -/
theorem array_ok_fails_on_pop : ¬ Run.AllStates arrayStep ArrayOk (arrayStart fun _ => none)
    [.insert 0x1000 ⟨0, 0, 1⟩, .pop] := by
  intro h
  have h₁ := h.2 _ rfl
  refine arrayStep_not_ok h₁.start ?_ (rfl : arrayStep _ .pop = _) (h₁.2 _ rfl)
  exact List.cons_ne_nil 0x1000 []

/-! ### Finding -/

/-- The loop of `array_node_find` at count `i`, for at most the given number of tests. -/
def arrayNodeFindFrom (value : UInt32) (s : ArrayState) : ℕ → UInt32 → UInt32 → Option UInt32
  | 0, _, _ => none
  | n + 1, i, node =>
    if i ≤ s.array.size then do
      let f ← s.nodes node
      if f.value = value then some node else arrayNodeFindFrom value s n (i + 1) f.next
    else some 0

/-- `array_node_find`. -/
def arrayNodeFind (value : UInt32) (s : ArrayState) : Option UInt32 :=
  if s.array.startNode = 0 then some 0
  else arrayNodeFindFrom value s (2 ^ 32) 0 s.array.startNode

/-- The node at `x` has the value. -/
def HasValue (s : ArrayState) (value x : UInt32) : Prop :=
  (s.nodes x).map ArrayNode.value = some value

instance (s : ArrayState) (value x : UInt32) : Decidable (HasValue s value x) :=
  inferInstanceAs (Decidable (_ = _))

/-- The first node of `xs` that has the value, null for none. -/
def firstWith (s : ArrayState) (value : UInt32) (xs : List UInt32) : UInt32 :=
  (xs.find? fun x => HasValue s value x).getD 0

/-- The count and the rest of the list add up to the stored size, so one turn too many is allowed:
without the value the loop comes to the null pointer at the end. -/
theorem arrayNodeFindFrom_eq {s : ArrayState} {value p : UInt32} {xs : List UInt32}
    (hlinked : Linked s.next s.prev p xs 0) (hall : ∀ x ∈ xs, s.nodes x ≠ none)
    (hnull : s.nodes 0 = none) :
    ∀ (n : ℕ) (i : UInt32), i.toNat + xs.length = s.array.size.toNat → xs.length < n →
      arrayNodeFindFrom value s n i (xs.headD 0) = xs.find? fun x => HasValue s value x := by
  induction xs generalizing p with
  | nil =>
    intro n i hi hn
    obtain ⟨n, rfl⟩ : ∃ n', n = n' + 1 := ⟨n - 1, by omega⟩
    rw [List.length_nil, Nat.add_zero] at hi
    have hle : i ≤ s.array.size := by
      rw [UInt32.le_iff_toNat_le]
      omega
    rw [arrayNodeFindFrom, if_pos hle, List.headD_nil, hnull]
    rfl
  | cons x xs ih =>
    intro n i hi hn
    obtain ⟨n, rfl⟩ : ∃ n', n = n' + 1 := ⟨n - 1, by omega⟩
    rw [List.length_cons] at hi hn
    have hsize := s.array.size.toNat_lt
    have hle : i ≤ s.array.size := by
      rw [UInt32.le_iff_toNat_le]
      omega
    have hsucc : (i + 1).toNat = i.toNat + 1 := toNat_add_of_lt (b := 1) (by simp; omega)
    obtain ⟨f, hf⟩ := Option.ne_none_iff_exists'.1 (hall x List.mem_cons_self)
    have hnext : f.next = xs.headD 0 := by
      have := hlinked.2.1
      rwa [ArrayState.next, hf] at this
    have hrest := ih hlinked.2.2 (fun y hy => hall y (List.mem_cons_of_mem x hy)) n (i + 1)
      (by omega) (by omega)
    rw [arrayNodeFindFrom, if_pos hle, List.headD_cons, hf]
    show (if f.value = value then some x else _) = _
    by_cases hv : f.value = value
    · rw [if_pos hv, List.find?_cons_of_pos (by simpa [HasValue, hf] using hv)]
    · rw [if_neg hv, List.find?_cons_of_neg (by simpa [HasValue, hf] using hv), hnext]
      exact hrest

theorem arrayNodeFind_eq {s : ArrayState} {xs : List UInt32} (h : ArrayRepr s xs) (hne : xs ≠ [])
    (value : UInt32) : arrayNodeFind value s = xs.find? fun x => HasValue s value x := by
  have hlen := length_lt_of_nodup h.nodup h.zero_not_mem
  rw [arrayNodeFind, if_neg (fun h0 => hne (h.start_eq_zero.1 h0)), h.start_eq]
  exact arrayNodeFindFrom_eq h.linked h.allocated h.null (2 ^ 32) 0
    (by rw [h.size_eq]; simp) hlen

/-- **Finding a value** gives its first node, or null for none, exactly if the list is empty or has
the value: a value that a list lacks is looked for behind the null pointer at its end. -/
theorem arrayNodeFind_right_iff {s : ArrayState} {xs : List UInt32} (h : ArrayRepr s xs)
    (value : UInt32) :
    arrayNodeFind value s = some (firstWith s value xs) ↔
      xs = [] ∨ ∃ x ∈ xs, HasValue s value x := by
  by_cases hnil : xs = []
  · refine iff_of_true ?_ (Or.inl hnil)
    rw [arrayNodeFind, if_pos (h.start_eq_zero.2 hnil), hnil]
    rfl
  · rw [arrayNodeFind_eq h hnil, or_iff_right hnil, firstWith]
    cases hfind : xs.find? fun x => HasValue s value x with
    | none =>
      refine iff_of_false (Option.some_ne_none _).symm ?_
      rintro ⟨x, hx, hv⟩
      exact List.find?_eq_none.1 hfind x hx (by simpa using hv)
    | some x =>
      refine iff_of_true rfl ⟨x, List.mem_of_find?_eq_some hfind, ?_⟩
      simpa using List.find?_some hfind

/-- Three nodes, at 0x3000, 0x1000 and 0x2000 in this order, with the values 7, 8 and 9. -/
def threeNodes : ArrayState :=
  { nodes := fun a =>
      if a = 0x3000 then some ⟨0x1000, 0, 7⟩
      else if a = 0x1000 then some ⟨0x2000, 0x3000, 8⟩
      else if a = 0x2000 then some ⟨0, 0x1000, 9⟩
      else none
    array := { startNode := 0x3000, endNode := 0x2000, size := 3 } }

theorem threeNodes_repr : ArrayRepr threeNodes [0x3000, 0x1000, 0x2000] :=
  ⟨⟨rfl, rfl, rfl, rfl, rfl, rfl, trivial⟩, rfl, rfl, rfl,
    List.forall_mem_cons.2 ⟨by decide, List.forall_mem_cons.2 ⟨by decide,
      List.forall_mem_singleton.2 (by decide)⟩⟩, rfl⟩

/-- The value 9 is the last one's. -/
theorem arrayNodeFind_present :
    arrayNodeFind 9 threeNodes = some (firstWith threeNodes 9 [0x3000, 0x1000, 0x2000]) :=
  (arrayNodeFind_right_iff threeNodes_repr 9).2
    (Or.inr ⟨0x2000, List.mem_cons_of_mem _ (List.mem_cons_of_mem _ (List.mem_singleton_self _)),
      by decide⟩)

/-- One node at 0x1000 with the value 1. -/
def oneNode : ArrayState :=
  { nodes := fun a => if a = 0x1000 then some ⟨0, 0, 1⟩ else none
    array := { startNode := 0x1000, endNode := 0x1000, size := 1 } }

theorem oneNode_repr : ArrayRepr oneNode [0x1000] :=
  ⟨⟨rfl, rfl, trivial⟩, rfl, rfl, rfl, List.forall_mem_singleton.2 (by decide), rfl⟩

/-- Looking for 2 faults where null should be returned. -/
theorem arrayNodeFind_absent :
    ArrayRepr oneNode [0x1000] ∧ arrayNodeFind 2 oneNode = none ∧
      arrayNodeFind 2 oneNode ≠ some (firstWith oneNode 2 [0x1000]) := by
  have hfault : arrayNodeFind 2 oneNode = none := by
    rw [arrayNodeFind_eq oneNode_repr (List.cons_ne_nil _ _)]
    decide
  exact ⟨oneNode_repr, hfault, by rw [hfault]; exact (Option.some_ne_none _).symm⟩

end CometOS
