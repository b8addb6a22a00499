import CometOS.Tree

/-!
# Trees that only grow

As long as no node is deleted and `kmalloc` returns cleared links, the tree is what it should be but
for the root, which is not counted.  The child lists are the lists of `ArrayRepr`; each node keeps
its own, and the walk from the root comes to exactly the nodes inserted.
-/

namespace CometOS

open LinkedList Run Word32

/-! ### The shape -/

/-- The child list at `c` has the links `xs`; there is none before the first child. -/
def ChildList (s : TreeState) (xs : List UInt32) (c : UInt32) : Prop :=
  (c = 0 ∧ xs = []) ∨
    (c ≠ 0 ∧ xs ≠ [] ∧ ∃ a, s.arrays c = some a ∧ ArrayRepr { nodes := s.links, array := a } xs)

/-- `ns` are the nodes of the tree and `kids` their links.  No address is a node and a list or link
at once, no two nodes share a child list, and every link leads to a node. -/
structure TreeShape (s : TreeState) (ns : List UInt32) (kids : UInt32 → List UInt32) : Prop where
  nodup : ns.Nodup
  root_mem : ns ≠ [] → s.root ∈ ns
  root_zero : ns = [] → s.root = 0
  null : s.links 0 = none
  node : ∀ p ∈ ns, p ≠ 0 ∧ s.arrays p = none ∧ s.links p = none ∧
    ∃ n, s.treeNodes p = some n ∧ ChildList s (kids p) n.children
  children_ne : ∀ p ∈ ns, ∀ q ∈ ns, p ≠ q → ∀ n m, s.treeNodes p = some n →
    s.treeNodes q = some m → n.children ≠ 0 → n.children ≠ m.children
  disjoint : ∀ p ∈ ns, ∀ q ∈ ns, p ≠ q → (kids p).Disjoint (kids q)
  value : ∀ p ∈ ns, ∀ l ∈ kids p, ∃ f, s.links l = some f ∧ f.value ∈ ns

/-- The walk along a child list comes to its links and no others. -/
theorem inList_iff {s : TreeState} {a : ArrayT} {xs : List UInt32}
    (h : ArrayRepr { nodes := s.links, array := a } xs) (l : UInt32) :
    InList s a.startNode l ↔ l ∈ xs := by
  have hnext : ∀ x n, s.links x = some n →
      ArrayState.next { nodes := s.links, array := a } x = n.next := by
    intro x n hx
    simp [ArrayState.next, hx]
  constructor
  · intro hl
    induction hl with
    | first hne =>
      have hxs : xs ≠ [] := fun h0 => hne (h.start_eq_zero.2 h0)
      obtain ⟨y, ys, rfl⟩ := List.exists_cons_of_ne_nil hxs
      rw [show a.startNode = y from h.start_eq]
      exact List.mem_cons_self
    | next _ hn hne ih =>
      rcases h.linked.next_mem ih with h0 | ⟨hmem, _⟩
      · exact absurd ((hnext _ _ hn).symm.trans h0) hne
      · rwa [hnext _ _ hn] at hmem
  · -- along the part of the list before `l`, each next field leads one further
    have hpre : ∀ (as bs : List UInt32) (x : UInt32), xs = as ++ x :: bs →
        InList s a.startNode x := by
      intro as
      induction as using List.reverseRecOn with
      | nil =>
        intro bs x hx
        have hstart : a.startNode = x := by
          have := h.start_eq
          rwa [hx] at this
        rw [← hstart]
        refine InList.first fun h0 => h.zero_not_mem ?_
        rw [hx, ← hstart, h0]
        exact List.mem_cons_self
      | append_singleton as y ih =>
        intro bs x hx
        rw [List.append_assoc, List.singleton_append] at hx
        have hy := ih (x :: bs) y hx
        obtain ⟨n, hn⟩ := Option.ne_none_iff_exists'.1 (h.allocated y (by simp [hx]))
        have hlinked := h.linked
        rw [hx] at hlinked
        have hyx : n.next = x := (hnext y n hn).symm.trans hlinked.next_eq
        rw [← hyx]
        refine hy.next hn fun h0 => h.zero_not_mem ?_
        rw [hx, ← hyx, h0]
        simp
    intro hl
    obtain ⟨as, bs, hx⟩ := List.append_of_mem hl
    exact hpre as bs l hx

namespace TreeShape

variable {s : TreeState} {ns : List UInt32} {kids : UInt32 → List UInt32}

theorem zero_not_mem (h : TreeShape s ns kids) : 0 ∉ ns := fun h0 => (h.node 0 h0).1 rfl

theorem ne_of_free (h : TreeShape s ns kids) {p x : UInt32} (hp : p ∈ ns)
    (hx : s.treeNodes x = none) : p ≠ x := by
  rintro rfl
  obtain ⟨_, _, _, n, hn, _⟩ := h.node p hp
  rw [hx] at hn
  cases hn

theorem childList (h : TreeShape s ns kids) {p : UInt32} {n : TreeNode} (hp : p ∈ ns)
    (hn : s.treeNodes p = some n) : ChildList s (kids p) n.children := by
  obtain ⟨_, _, _, m, hm, hlist⟩ := h.node p hp
  obtain rfl : n = m := Option.some.inj (hn.symm.trans hm)
  exact hlist

theorem link_allocated (h : TreeShape s ns kids) {p x : UInt32} (hp : p ∈ ns) (hx : x ∈ kids p) :
    s.links x ≠ none := by
  obtain ⟨f, hf, _⟩ := h.value p hp x hx
  rw [hf]
  exact Option.some_ne_none f

/-- A node with a child list has it allocated. -/
theorem arrays_ne_none (h : TreeShape s ns kids) {p : UInt32} {n : TreeNode} (hp : p ∈ ns)
    (hn : s.treeNodes p = some n) (hc : n.children ≠ 0) : s.arrays n.children ≠ none := by
  rcases h.childList hp hn with ⟨h0, _⟩ | ⟨_, _, a, ha, _⟩
  · exact absurd h0 hc
  · rw [ha]
    exact Option.some_ne_none a

/-- What a step to a child finds. -/
theorem links_of_child (h : TreeShape s ns kids) {p : UInt32} {n : TreeNode} {a : ArrayT}
    (hp : p ∈ ns) (hn : s.treeNodes p = some n) (hc : n.children ≠ 0)
    (ha : s.arrays n.children = some a) : ArrayRepr { nodes := s.links, array := a } (kids p) := by
  rcases h.childList hp hn with ⟨h0, _⟩ | ⟨_, _, b, hb, hrepr⟩
  · exact absurd h0 hc
  · obtain rfl : a = b := Option.some.inj (ha.symm.trans hb)
    exact hrepr

/-- The way from the root never leaves the nodes of the tree. -/
theorem mem_of_reach (h : TreeShape s ns kids) {p : UInt32} (hp : Reach s p) : p ∈ ns := by
  induction hp with
  | root hne => exact h.root_mem fun h0 => hne (h.root_zero h0)
  | child _ hn hc ha hl hlink ih =>
    have hmem := (inList_iff (h.links_of_child ih hn hc ha) _).1 hl
    obtain ⟨f, hf, hv⟩ := h.value _ ih _ hmem
    obtain rfl := Option.some.inj (hlink.symm.trans hf)
    exact hv

/-- A node whose parent can be reached can be reached. -/
theorem reach_child (h : TreeShape s ns kids) {p l : UInt32} {f : ArrayNode} (hp : Reach s p)
    (hl : l ∈ kids p) (hf : s.links l = some f) : Reach s f.value := by
  obtain ⟨_, _, _, n, hn, hlist⟩ := h.node p (h.mem_of_reach hp)
  rcases hlist with ⟨_, h0⟩ | ⟨hc, _, a, ha, hrepr⟩
  · rw [h0] at hl
    cases hl
  · exact hp.child hn hc ha ((inList_iff hrepr l).2 hl) hf

/-- Nothing on the way from the root is freed. -/
theorem nothingFreed (h : TreeShape s ns kids) : NothingFreed s := by
  refine ⟨?_, ?_, ?_⟩
  · intro p hp
    obtain ⟨_, _, _, n, hn, _⟩ := h.node p (h.mem_of_reach hp)
    rw [hn]
    exact Option.some_ne_none n
  · intro p n hp hn hc
    exact h.arrays_ne_none (h.mem_of_reach hp) hn hc
  · intro p n a l hp hn hc ha hl
    have hrepr := h.links_of_child (h.mem_of_reach hp) hn hc ha
    exact hrepr.allocated l ((inList_iff hrepr l).1 hl)

/-- The same ways lead on in a tree whose nodes keep their links and these their values. -/
theorem reach_mono {t : TreeState} {ns' : List UInt32} {kids' : UInt32 → List UInt32}
    (h : TreeShape s ns kids) (h' : TreeShape t ns' kids') (hroot : t.root = s.root)
    (hkids : ∀ p ∈ ns, kids p ⊆ kids' p)
    (hvalue : ∀ l, s.links l ≠ none →
      (t.links l).map ArrayNode.value = (s.links l).map ArrayNode.value) {p : UInt32}
    (hp : Reach s p) : Reach t p := by
  induction hp with
  | root hne =>
    rw [← hroot] at hne ⊢
    exact Reach.root hne
  | @child q l n a link hq hn hc ha hl hlink ih =>
    have hmem := h.mem_of_reach hq
    have hin := (inList_iff (h.links_of_child hmem hn hc ha) l).1 hl
    have hv := hvalue l (by rw [hlink]; exact Option.some_ne_none link)
    rw [hlink, Option.map_some] at hv
    obtain ⟨f, hf, hfv⟩ := Option.map_eq_some_iff.1 hv
    rw [← hfv]
    exact h'.reach_child ih (hkids q hmem hin) hf

/-- The nodes that can be reached, counted. -/
theorem ncard_reach (h : TreeShape s ns kids) (hreach : ∀ p ∈ ns, Reach s p) :
    {p | Reach s p}.ncard = ns.length := by
  classical
  have hset : {p | Reach s p} = (ns.toFinset : Set UInt32) := by
    ext p
    simp only [Set.mem_ofPred_eq, List.coe_toFinset]
    exact ⟨h.mem_of_reach, hreach p⟩
  rw [hset, Set.ncard_coe_finset, List.toFinset_card_of_nodup h.nodup]

end TreeShape

theorem treeCreate_shape : TreeShape treeCreate [] fun _ => [] :=
  ⟨List.nodup_nil, fun h => absurd rfl h, fun _ => rfl, rfl, by simp, by simp, by simp, by simp⟩

/-! ### Inserting -/

/-- **The first node** becomes the root, and nothing is counted. -/
theorem treeNodeInsert_root {s : TreeState} {node array link : UInt32} {garbage : ArrayNode}
    (hnode : node ≠ 0) :
    treeNodeInsert node 0 array link garbage s = some { s with root := node } := by
  rw [treeNodeInsert, if_neg hnode, if_pos rfl]

/-- The state after a node was put under `parent`, whose child list at `c` is now `l`. -/
def treeInserted (s : TreeState) (node parent c : UInt32) (fields pf : TreeNode) (l : ArrayState) :
    TreeState :=
  { treeNodes := Function.update
      (Function.update s.treeNodes parent (some { pf with children := c })) node
      (some { fields with parent := parent })
    arrays := Function.update s.arrays c (some l.array)
    links := l.nodes
    size := s.size + 1
    root := s.root }

section

variable {s : TreeState} {node parent array link : UInt32} {fields pf : TreeNode}
  {garbage : ArrayNode} {l : ArrayState}

/-- The first child of its parent: the list is made first. -/
theorem treeNodeInsert_first (hnode : node ≠ 0) (hp0 : parent ≠ 0) (hne : node ≠ parent)
    (hpf : s.treeNodes parent = some pf) (hc : pf.children = 0)
    (hl : arrayNodeInsert link (arrayCreate
      (Function.update s.links link (some { garbage with value := node }))) = some l) :
    treeNodeInsert node parent array link garbage (s.setNode node fields) =
      some (treeInserted s node parent array fields pf l) := by
  rw [arrayCreate] at hl
  simp [treeNodeInsert, hnode, hp0, hpf, hc, TreeState.setNode, TreeState.setList, TreeState.list,
    hne, hne.symm, arrayCreate, hl, treeInserted]
  rw [Function.update_comm hne, Function.update_idem]

/-- A further child: the parent has a list. -/
theorem treeNodeInsert_further {a : ArrayT} (hnode : node ≠ 0) (hp0 : parent ≠ 0)
    (hne : node ≠ parent) (hpf : s.treeNodes parent = some pf) (hc : pf.children ≠ 0)
    (ha : s.arrays pf.children = some a)
    (hl : arrayNodeInsert link
      { nodes := Function.update s.links link (some { garbage with value := node }), array := a } =
        some l) :
    treeNodeInsert node parent array link garbage (s.setNode node fields) =
      some (treeInserted s node parent pf.children fields pf l) := by
  simp [treeNodeInsert, hnode, hp0, hpf, hc, ha, TreeState.setNode, TreeState.setList,
    TreeState.list, hne.symm, hl, treeInserted]
  rw [← hpf, Function.update_eq_self]

end

/-- What the list insertion leaves in memory. -/
structure LinkInserted (links : UInt32 → Option ArrayNode) (xs : List UInt32) (node link : UInt32)
    (l : ArrayState) : Prop where
  repr : ArrayRepr l (xs ++ [link])
  frame : ∀ x, x ∉ xs → x ≠ link → l.nodes x = links x
  value : ∀ x, x ≠ link → (l.nodes x).map ArrayNode.value = (links x).map ArrayNode.value
  new : (l.nodes link).map ArrayNode.value = some node

/-- The list insertion at the end of `tree_node_insert`: `links'` has the new link, too. -/
theorem arrayNodeInsert_new {links links' : UInt32 → Option ArrayNode} {a : ArrayT}
    {xs : List UInt32} {node link : UInt32} {garbage : ArrayNode}
    (h : ArrayRepr { nodes := links, array := a } xs) (hlink : link ≠ 0)
    (hfree : links link = none) (hold : ∀ x, x ≠ link → links' x = links x)
    (hnew : links' link = some { garbage with value := node })
    (hnext : garbage.next = 0) (hprev : garbage.prev = 0) :
    ∃ l, arrayNodeInsert link { nodes := links', array := a } = some l ∧
      LinkInserted links xs node link l := by
  have hmem : link ∉ xs := fun hm => h.allocated link hm hfree
  have hrepr : ArrayRepr { nodes := links', array := a } xs :=
    h.congr (fun x hx => hold x fun he => hmem (he ▸ hx)) ((hold 0 hlink.symm).trans h.null)
  obtain ⟨l, hl, hl'⟩ := arrayNodeInsert_repr hrepr hlink hmem hnew hnext fun _ => hprev
  obtain ⟨hframe, hvalue⟩ := arrayNodeInsert_frame hl
  refine ⟨l, hl, hl', ?_, ?_, ?_⟩
  · intro x hx hxl
    by_cases he : x = a.endNode
    · -- only the end of the empty list is not in the list
      have hnil : xs = [] := by
        by_contra hne
        refine hx ?_
        rw [he, show a.endNode = xs.getLastD 0 from h.end_eq]
        exact LinkedList.getLastD_mem hne
      have hx0 : x = 0 := by
        rw [he, show a.endNode = xs.getLastD 0 from h.end_eq, hnil]
        rfl
      rw [hx0, hl'.null]
      exact h.null.symm
    · exact (hframe x hxl he).trans (hold x hxl)
  · intro x hx
    rw [hvalue x]
    exact congrArg _ (hold x hx)
  · rw [hvalue link]
    exact congrArg (Option.map ArrayNode.value) hnew

section

variable {s : TreeState} {ns : List UInt32} {kids kids' : UInt32 → List UInt32}
  {node parent c link : UInt32} {fields pf : TreeNode} {l : ArrayState}

/-- The new node's entry, its parent's and any other's. -/
theorem treeInserted_new : (treeInserted s node parent c fields pf l).treeNodes node =
    some { fields with parent := parent } := Function.update_self _ _ _

theorem treeInserted_parent (h : parent ≠ node) :
    (treeInserted s node parent c fields pf l).treeNodes parent =
      some { pf with children := c } :=
  (Function.update_of_ne h _ _).trans (Function.update_self _ _ _)

theorem treeInserted_other {p : UInt32} (h : p ≠ node) (hp : p ≠ parent) :
    (treeInserted s node parent c fields pf l).treeNodes p = s.treeNodes p :=
  (Function.update_of_ne h _ _).trans (Function.update_of_ne hp _ _)

theorem treeInserted_list :
    (treeInserted s node parent c fields pf l).arrays c = some l.array := Function.update_self _ _ _

theorem treeInserted_lists {x : UInt32} (h : x ≠ c) :
    (treeInserted s node parent c fields pf l).arrays x = s.arrays x := Function.update_of_ne h _ _

/-- What is known when `node` is put under `parent`, whose entry was `pf`: the child list at `c` is
the parent's or, for a first child, new, and `l` is what it becomes. -/
structure Inserting (s : TreeState) (ns : List UInt32) (kids kids' : UInt32 → List UInt32)
    (node parent c link : UInt32) (fields pf : TreeNode) (l : ArrayState) : Prop where
  shape : TreeShape s ns kids
  parent_mem : parent ∈ ns
  entry : s.treeNodes parent = some pf
  node_free : s.Free node
  link_free : s.Free link
  node_ne_zero : node ≠ 0
  node_ne_link : node ≠ link
  node_ne_list : node ≠ c
  childless : fields.children = 0
  list_ne_zero : c ≠ 0
  list : pf.children = c ∨ pf.children = 0 ∧ s.Free c
  inserted : LinkInserted s.links (kids parent) node link l
  kids_node : kids' node = []
  kids_parent : kids' parent = kids parent ++ [link]
  kids_other : ∀ p ∈ ns, p ≠ parent → kids' p = kids p

namespace Inserting

variable (h : Inserting s ns kids kids' node parent c link fields pf l)
include h

theorem parent_ne : parent ≠ node := h.shape.ne_of_free h.parent_mem h.node_free.1

theorem link_ne {p x : UInt32} (hp : p ∈ ns) (hx : x ∈ kids p) : x ≠ link := by
  rintro rfl
  exact h.shape.link_allocated hp hx h.link_free.2.2

/-- The list is nobody else's. -/
theorem children_ne {p : UInt32} {n : TreeNode} (hp : p ∈ ns) (hpp : p ≠ parent)
    (hn : s.treeNodes p = some n) : n.children ≠ c := by
  intro he
  have hn0 : n.children ≠ 0 := fun h0 => h.list_ne_zero (he.symm.trans h0)
  rcases h.list with hc | ⟨_, hfree⟩
  · exact h.shape.children_ne p hp parent h.parent_mem hpp n pf hn h.entry hn0 (he.trans hc.symm)
  · refine h.shape.arrays_ne_none hp hn hn0 ?_
    rw [he]
    exact hfree.2.1

/-- Nor is it a node. -/
theorem ne_list {p : UInt32} (hp : p ∈ ns) : p ≠ c := by
  rcases h.list with hc | ⟨_, hfree⟩
  · rintro rfl
    refine h.shape.arrays_ne_none h.parent_mem h.entry (hc ▸ h.list_ne_zero) ?_
    rw [hc]
    exact (h.shape.node p hp).2.1
  · exact h.shape.ne_of_free hp hfree.1

theorem links_none {x : UInt32} (hx : s.links x = none) (hxl : x ≠ link) : l.nodes x = none := by
  rw [h.inserted.frame x (fun hm => h.shape.link_allocated h.parent_mem hm hx) hxl, hx]

theorem links_other {p x : UInt32} (hp : p ∈ ns) (hpp : p ≠ parent) (hx : x ∈ kids p) :
    l.nodes x = s.links x :=
  h.inserted.frame x (fun hm => h.shape.disjoint p hp parent h.parent_mem hpp hx hm)
    (h.link_ne hp hx)

/-- The links of the old nodes stay and lead to the nodes they led to. -/
theorem value_kept {p x : UInt32} (hp : p ∈ ns) (hx : x ∈ kids p) :
    ∃ f, l.nodes x = some f ∧ f.value ∈ node :: ns := by
  obtain ⟨f, hf, hv⟩ := h.shape.value p hp x hx
  have hval := h.inserted.value x (h.link_ne hp hx)
  rw [hf, Option.map_some] at hval
  obtain ⟨g, hg, hgv⟩ := Option.map_eq_some_iff.1 hval
  exact ⟨g, hg, List.mem_cons_of_mem node (hgv ▸ hv)⟩

/-- The entry of the parent, with its longer list. -/
theorem childList_parent :
    ChildList (treeInserted s node parent c fields pf l) (kids' parent) c := by
  refine Or.inr ⟨h.list_ne_zero, ?_, l.array, treeInserted_list, ?_⟩
  · rw [h.kids_parent]
    exact List.concat_ne_nil link (kids parent)
  · rw [h.kids_parent]
    exact h.inserted.repr

/-- The list of any other node. -/
theorem childList_other {p : UInt32} {n : TreeNode} (hp : p ∈ ns) (hpp : p ≠ parent)
    (hn : s.treeNodes p = some n) :
    ChildList (treeInserted s node parent c fields pf l) (kids' p) n.children := by
  rw [h.kids_other p hp hpp]
  rcases h.shape.childList hp hn with h0 | ⟨hn0, hcons, a, ha, hrepr⟩
  · exact Or.inl h0
  · refine Or.inr ⟨hn0, hcons, a, (treeInserted_lists (h.children_ne hp hpp hn)).trans ha, ?_⟩
    exact hrepr.congr (fun x hx => h.links_other hp hpp hx) h.inserted.repr.null

/-- The old nodes and the new one each have an entry and a list. -/
theorem node_entry {p : UInt32} (hp : p ∈ node :: ns) :
    p ≠ 0 ∧ (treeInserted s node parent c fields pf l).arrays p = none ∧ l.nodes p = none ∧
      ∃ n, (treeInserted s node parent c fields pf l).treeNodes p = some n ∧
        ChildList (treeInserted s node parent c fields pf l) (kids' p) n.children := by
  rcases List.mem_cons.1 hp with rfl | hp
  · exact ⟨h.node_ne_zero, (treeInserted_lists h.node_ne_list).trans h.node_free.2.1,
      h.links_none h.node_free.2.2 h.node_ne_link, _, treeInserted_new,
      Or.inl ⟨h.childless, h.kids_node⟩⟩
  · obtain ⟨hp0, harr, hlink, n, hn, _⟩ := h.shape.node p hp
    refine ⟨hp0, (treeInserted_lists (h.ne_list hp)).trans harr,
      h.links_none hlink (h.shape.ne_of_free hp h.link_free.1), ?_⟩
    by_cases hpp : p = parent
    · rw [hpp]
      exact ⟨_, treeInserted_parent h.parent_ne, h.childList_parent⟩
    · exact ⟨n, (treeInserted_other (h.shape.ne_of_free hp h.node_free.1) hpp).trans hn,
        h.childList_other hp hpp hn⟩

/-- No list is shared: the new node has none, and the parent's is nobody else's. -/
theorem lists_ne {p q : UInt32} {n m : TreeNode} (hp : p ∈ node :: ns) (hq : q ∈ node :: ns)
    (hpq : p ≠ q) (hn : (treeInserted s node parent c fields pf l).treeNodes p = some n)
    (hm : (treeInserted s node parent c fields pf l).treeNodes q = some m)
    (hn0 : n.children ≠ 0) : n.children ≠ m.children := by
  rcases List.mem_cons.1 hp with rfl | hp
  · rw [treeInserted_new] at hn
    obtain rfl := Option.some.inj hn
    exact absurd h.childless hn0
  rcases List.mem_cons.1 hq with rfl | hq
  · rw [treeInserted_new] at hm
    obtain rfl := Option.some.inj hm
    exact fun he => hn0 (he.trans h.childless)
  have hpn := h.shape.ne_of_free hp h.node_free.1
  have hqn := h.shape.ne_of_free hq h.node_free.1
  by_cases hpp : p = parent
  · have hqp : q ≠ parent := fun hqp => hpq (hpp.trans hqp.symm)
    rw [hpp, treeInserted_parent h.parent_ne] at hn
    rw [treeInserted_other hqn hqp] at hm
    obtain rfl := Option.some.inj hn
    exact (h.children_ne hq hqp hm).symm
  · rw [treeInserted_other hpn hpp] at hn
    by_cases hqp : q = parent
    · rw [hqp, treeInserted_parent h.parent_ne] at hm
      obtain rfl := Option.some.inj hm
      exact h.children_ne hp hpp hn
    · rw [treeInserted_other hqn hqp] at hm
      exact h.shape.children_ne p hp q hq hpq n m hn hm hn0

theorem disjoint_parent {p : UInt32} (hp : p ∈ ns) (hpp : p ≠ parent) :
    (kids' parent).Disjoint (kids' p) := by
  rw [h.kids_parent, h.kids_other p hp hpp]
  intro x hx hxp
  rw [List.mem_append, List.mem_singleton] at hx
  rcases hx with hx | hx
  · exact h.shape.disjoint parent h.parent_mem p hp hpp.symm hx hxp
  · exact h.link_ne hp hxp hx

/-- No link is in two lists. -/
theorem disjoint {p q : UInt32} (hp : p ∈ node :: ns) (hq : q ∈ node :: ns) (hpq : p ≠ q) :
    (kids' p).Disjoint (kids' q) := by
  rcases List.mem_cons.1 hp with rfl | hp
  · rw [h.kids_node]
    exact List.disjoint_nil_left _
  rcases List.mem_cons.1 hq with rfl | hq
  · rw [h.kids_node]
    exact List.disjoint_nil_right _
  by_cases hpp : p = parent
  · rw [hpp]
    exact h.disjoint_parent hq fun hqp => hpq (hpp.trans hqp.symm)
  · by_cases hqp : q = parent
    · rw [hqp]
      exact (h.disjoint_parent hp hpp).symm
    · rw [h.kids_other p hp hpp, h.kids_other q hq hqp]
      exact h.shape.disjoint p hp q hq hpq

/-- Every link leads to a node, the new one to the new node. -/
theorem value {p x : UInt32} (hp : p ∈ node :: ns) (hx : x ∈ kids' p) :
    ∃ f, l.nodes x = some f ∧ f.value ∈ node :: ns := by
  rcases List.mem_cons.1 hp with rfl | hp
  · rw [h.kids_node] at hx
    cases hx
  by_cases hpp : p = parent
  · rw [hpp, h.kids_parent, List.mem_append, List.mem_singleton] at hx
    rcases hx with hx | rfl
    · exact h.value_kept h.parent_mem hx
    · obtain ⟨g, hg, hgv⟩ := Option.map_eq_some_iff.1 h.inserted.new
      exact ⟨g, hg, hgv ▸ List.mem_cons_self⟩
  · rw [h.kids_other p hp hpp] at hx
    exact h.value_kept hp hx

/-- **Putting a node under another keeps the shape.** -/
theorem treeShape : TreeShape (treeInserted s node parent c fields pf l) (node :: ns) kids' where
  nodup :=
    List.nodup_cons.2 ⟨fun hm => h.shape.ne_of_free hm h.node_free.1 rfl, h.shape.nodup⟩
  root_mem _ := List.mem_cons_of_mem node (h.shape.root_mem (List.ne_nil_of_mem h.parent_mem))
  root_zero h0 := absurd h0 (List.cons_ne_nil node ns)
  null := h.inserted.repr.null
  node _ hp := h.node_entry hp
  children_ne _ hp _ hq hpq _ _ hn hm hn0 := h.lists_ne hp hq hpq hn hm hn0
  disjoint _ hp _ hq hpq := h.disjoint hp hq hpq
  value _ hp _ hx := h.value hp hx

end Inserting

/-- The code completes, whether the parent has a list of children or is given one. -/
theorem TreeShape.insert_runs (h : TreeShape s ns kids) (fields : TreeNode) {array : UInt32}
    {garbage : ArrayNode} (hparent : parent ∈ ns) (hfree : s.Free node ∧ s.Free array ∧ s.Free link)
    (hne0 : node ≠ 0 ∧ array ≠ 0 ∧ link ≠ 0) (hna : node ≠ array) (hnext : garbage.next = 0)
    (hprev : garbage.prev = 0) : ∃ pf c l, s.treeNodes parent = some pf ∧
      treeNodeInsert node parent array link garbage (s.setNode node fields) =
        some (treeInserted s node parent c fields pf l) ∧
      c ≠ 0 ∧ node ≠ c ∧ (pf.children = c ∨ pf.children = 0 ∧ s.Free c) ∧
      LinkInserted s.links (kids parent) node link l := by
  obtain ⟨hp0, _, _, pf, hpf, hlist⟩ := h.node parent hparent
  have hne : node ≠ parent := (h.ne_of_free hparent hfree.1.1).symm
  have hold : ∀ x, x ≠ link →
      Function.update s.links link (some { garbage with value := node }) x = s.links x :=
    fun x hx => Function.update_of_ne hx _ _
  have hself : Function.update s.links link (some { garbage with value := node }) link =
      some { garbage with value := node } := Function.update_self _ _ _
  rcases hlist with ⟨hc, hnil⟩ | ⟨hc, _, a, ha, hrepr⟩
  · obtain ⟨l, hl, hl'⟩ := arrayNodeInsert_new (arrayCreate_repr s.links h.null) hne0.2.2
      hfree.2.2.2.2 hold hself hnext hprev
    refine ⟨pf, array, l, hpf, treeNodeInsert_first hne0.1 hp0 hne hpf hc hl, hne0.2.1, hna,
      Or.inr ⟨hc, hfree.2.1⟩, ?_⟩
    rw [hnil]
    exact hl'
  · obtain ⟨l, hl, hl'⟩ := arrayNodeInsert_new hrepr hne0.2.2 hfree.2.2.2.2 hold hself hnext hprev
    refine ⟨pf, pf.children, l, hpf, treeNodeInsert_further hne0.1 hp0 hne hpf hc ha hl, hc, ?_,
      Or.inl rfl, hl'⟩
    intro he
    rw [← he, hfree.1.2.1] at ha
    cases ha

/-- **Putting a node under another** completes, and the tree has one node more. -/
theorem treeNodeInsert_under (h : TreeShape s ns kids) {array : UInt32} {garbage : ArrayNode}
    (hparent : parent ∈ ns) (hfree : s.Free node ∧ s.Free array ∧ s.Free link)
    (hne0 : node ≠ 0 ∧ array ≠ 0 ∧ link ≠ 0) (hna : node ≠ array) (hnl : node ≠ link)
    (hfields : fields.children = 0) (hnext : garbage.next = 0) (hprev : garbage.prev = 0) :
    ∃ s' kids', treeNodeInsert node parent array link garbage (s.setNode node fields) = some s' ∧
      TreeShape s' (node :: ns) kids' ∧ s'.size = s.size + 1 ∧
      (∀ p, Reach s p → Reach s' p) ∧ (Reach s parent → Reach s' node) := by
  obtain ⟨pf, c, l, hpf, hrun, hc0, hnc, hc, hl⟩ :=
    h.insert_runs fields hparent hfree hne0 hna hnext hprev
  have hout : ∀ p ∈ ns, p ≠ node := fun p hp => h.ne_of_free hp hfree.1.1
  have hne := (hout parent hparent).symm
  have hkp : Function.update (Function.update kids node []) parent (kids parent ++ [link]) parent =
      kids parent ++ [link] := Function.update_self _ _ _
  have hko : ∀ p ∈ ns, p ≠ parent →
      Function.update (Function.update kids node []) parent (kids parent ++ [link]) p = kids p :=
    fun p hp hpp => (Function.update_of_ne hpp _ _).trans (Function.update_of_ne (hout p hp) _ _)
  have hins : Inserting s ns kids
      (Function.update (Function.update kids node []) parent (kids parent ++ [link]))
      node parent c link fields pf l :=
    { shape := h, parent_mem := hparent, entry := hpf, node_free := hfree.1
      link_free := hfree.2.2, node_ne_zero := hne0.1, node_ne_link := hnl, node_ne_list := hnc
      childless := hfields, list_ne_zero := hc0, list := hc, inserted := hl
      kids_node := (Function.update_of_ne hne _ _).trans (Function.update_self _ _ _)
      kids_parent := hkp, kids_other := hko }
  have hshape := hins.treeShape
  have hmono : ∀ p, Reach s p → Reach (treeInserted s node parent c fields pf l) p := by
    intro p hp
    refine h.reach_mono hshape rfl (fun q hq => ?_) (fun x hx => hl.value x ?_) hp
    · by_cases hqp : q = parent
      · rw [hqp, hkp]
        exact List.subset_append_left _ _
      · rw [hko q hq hqp]
        exact List.Subset.refl _
    · rintro rfl
      exact hx hfree.2.2.2.2
  refine ⟨_, _, hrun, hshape, rfl, hmono, fun hp => ?_⟩
  obtain ⟨g, hg, hgv⟩ := Option.map_eq_some_iff.1 hl.new
  have hin : link ∈
      Function.update (Function.update kids node []) parent (kids parent ++ [link]) parent := by
    rw [hkp]
    exact List.mem_concat_self
  exact hgv ▸ hshape.reach_child (hmono parent hp) hin hg

/-- The first node alone. -/
theorem root_shape (h : TreeShape s [] kids) (hnode : s.Free node) (hne0 : node ≠ 0)
    (hfields : fields.children = 0) :
    TreeShape { s.setNode node fields with root := node } [node] fun _ => [] := by
  refine ⟨List.nodup_singleton node, fun _ => List.mem_cons_self, by simp, h.null, ?_, ?_, ?_, ?_⟩
  · intro p hp
    obtain rfl := List.mem_singleton.1 hp
    exact ⟨hne0, hnode.2.1, hnode.2.2, fields, Function.update_self _ _ _, Or.inl ⟨hfields, rfl⟩⟩
  · intro p hp q hq hpq
    obtain rfl := List.mem_singleton.1 hp
    exact absurd (List.mem_singleton.1 hq).symm hpq
  · intro p _ q _ _
    exact List.disjoint_nil_left _
  · intro p _ l hl
    cases hl

end

/-! ### Deleting -/

/-- Every child list of the tree has a link, so deleting a node leaves the list alone: the node is
freed where it hangs. -/
theorem treeNodeDelete_eq {s : TreeState} {ns : List UInt32} {kids : UInt32 → List UInt32}
    (h : TreeShape s ns kids) {node : UInt32} (hnode : node ∈ ns) :
    treeNodeDelete node s = some { s.kfree node with size := s.size - 1 } := by
  obtain ⟨hne0, _, _, n, hn, hlist⟩ := h.node node hnode
  have hroot : s.root ≠ 0 := fun h0 => h.zero_not_mem (h0 ▸ h.root_mem (List.ne_nil_of_mem hnode))
  rw [treeNodeDelete, if_neg (not_or.2 ⟨hne0, hroot⟩), hn]
  rcases hlist with ⟨hc, _⟩ | ⟨hc, hcons, a, ha, hrepr⟩
  · simp [hc, TreeState.kfree]
  · have hsize : a.size ≠ 0 := by
      intro h0
      have hlen := hrepr.size_eq
      rw [show a.size = 0 from h0] at hlen
      exact hcons (List.length_eq_zero_iff.1 hlen.symm)
    simp [hc, ha, hsize, TreeState.kfree]

/-- The way to the node is the one it was. -/
theorem reach_kfree {s : TreeState} {ns : List UInt32} {kids : UInt32 → List UInt32}
    (h : TreeShape s ns kids) {node : UInt32} (hnode : node ∈ ns) {p : UInt32} (hp : Reach s p) :
    Reach { s.kfree node with size := s.size - 1 } p ∨
      Reach { s.kfree node with size := s.size - 1 } node := by
  obtain ⟨hne0, harr, hlinks, m, hm, _⟩ := h.node node hnode
  induction hp with
  | root hne => exact Or.inl (Reach.root hne)
  | @child q l n a link hq hn hc ha hl hlink ih =>
    rcases ih with ih | ih
    · by_cases hqn : q = node
      · exact Or.inr (hqn ▸ ih)
      · left
        have hrepr := h.links_of_child (h.mem_of_reach hq) hn hc ha
        have hcn : n.children ≠ node := by
          intro he
          rw [he, harr] at ha
          cases ha
        have hxn : ∀ x, s.links x ≠ none → x ≠ node := by
          rintro x hx rfl
          exact hx hlinks
        have hrepr' : ArrayRepr { nodes :=
            ({ s.kfree node with size := s.size - 1 } : TreeState).links, array := a } (kids q) := by
          refine hrepr.congr (fun x hx => ?_) ?_
          · exact Function.update_of_ne (hxn x (hrepr.allocated x hx)) _ _
          · exact (Function.update_of_ne hne0.symm _ _).trans h.null
        have hln : l ≠ node := hxn l (by rw [hlink]; exact Option.some_ne_none link)
        refine ih.child (n := n) (a := a) ?_ hc ?_ ((inList_iff hrepr' l).2
          ((inList_iff hrepr l).1 hl)) ?_
        · exact (Function.update_of_ne hqn _ _).trans hn
        · exact (Function.update_of_ne hcn _ _).trans ha
        · exact (Function.update_of_ne hln _ _).trans hlink
    · exact Or.inr ih

/-! ### Runs -/

/-- What `kmalloc` returned for the link was cleared. -/
def TreeOp.Clean : TreeOp → Prop
  | .insert _ _ _ _ _ garbage => garbage.next = 0 ∧ garbage.prev = 0
  | .delete _ => True

def TreeOp.IsDelete : TreeOp → Prop
  | .insert _ _ _ _ _ _ => False
  | .delete _ => True

/-- What the tree operations are for, with the root left out of the count. -/
structure TreeOkButRoot (r : TreeRun) : Prop where
  size : ∀ s, r.machine = some s → r.nodes ≠ [] → s.size.toNat + 1 = {p | Reach s p}.ncard
  nodes : ∀ s, r.machine = some s → ∀ p, Reach s p ↔ p ∈ r.nodes.map Prod.fst
  freed : ∃ s, r.machine = some s ∧ NothingFreed s
  deleted : ∀ s d, r.machine = some s → r.deleted = some d → DeletedOk s d

/-- The invariant of a run of insertions. -/
def TreeGrown (r : TreeRun) : Prop :=
  ∃ s kids, r.machine = some s ∧ TreeShape s (r.nodes.map Prod.fst) kids ∧
    (∀ p ∈ r.nodes.map Prod.fst, Reach s p) ∧ s.size.toNat = r.nodes.length - 1 ∧ r.deleted = none

theorem treeStart_grown : TreeGrown treeStart :=
  ⟨_, _, rfl, treeCreate_shape, by simp [treeStart], rfl, rfl⟩

theorem TreeGrown.ok {r : TreeRun} (h : TreeGrown r) : TreeOkButRoot r := by
  obtain ⟨s, kids, hs, hshape, hreach, hsize, hdel⟩ := h
  refine ⟨?_, ?_, ⟨s, hs, hshape.nothingFreed⟩, ?_⟩
  · intro t ht hne
    obtain rfl : s = t := Option.some.inj (hs.symm.trans ht)
    have hpos := List.length_pos_iff.2 hne
    rw [hshape.ncard_reach hreach, hsize, List.length_map]
    omega
  · intro t ht p
    obtain rfl : s = t := Option.some.inj (hs.symm.trans ht)
    exact ⟨hshape.mem_of_reach, hreach p⟩
  · intro t d _ hd
    rw [hdel] at hd
    cases hd

theorem treeStep_cases {r r' : TreeRun} {s : TreeState} {o : TreeOp} (hs : r.machine = some s)
    (h : treeStep r o = some r') : o.Allowed r s ∧ r' =
      { machine := treeMachine s o, nodes := treeNodesAfter r.nodes o
        deleted := treeDeleted r.nodes o } := by
  rw [treeStep, hs, Option.bind_some] at h
  by_cases ha : o.Allowed r s
  · rw [if_pos ha] at h
    exact ⟨ha, (Option.some.inj h).symm⟩
  · rw [if_neg ha] at h
    cases h

/-- **An insertion keeps the invariant.** -/
theorem TreeGrown.step {r r' : TreeRun} {o : TreeOp} (h : TreeGrown r) (hclean : o.Clean)
    (hins : ¬ o.IsDelete) (hstep : treeStep r o = some r') : TreeGrown r' := by
  obtain ⟨s, kids, hs, hshape, hreach, hsize, hdel⟩ := h
  obtain ⟨hallowed, rfl⟩ := treeStep_cases hs hstep
  cases o with
  | delete node => exact absurd trivial hins
  | insert node parent fields array link garbage =>
    obtain ⟨hfree, hne0, ⟨hna, hnl, hal⟩, hfields, hwhere⟩ := hallowed
    obtain ⟨hnext, hprev⟩ := hclean
    by_cases hnil : r.nodes = []
    · rw [if_pos hnil] at hwhere
      rw [hnil] at hshape hsize
      subst hwhere
      have hroot := root_shape hshape hfree.1 hne0.1 hfields
      refine ⟨_, fun _ => [], treeNodeInsert_root hne0.1, ?_, ?_, ?_, rfl⟩
      · rw [treeNodesAfter, hnil]
        exact hroot
      · rw [treeNodesAfter, hnil]
        intro p hp
        obtain rfl := List.mem_singleton.1 hp
        exact Reach.root hne0.1
      · rw [treeNodesAfter, hnil]
        exact hsize
    · rw [if_neg hnil] at hwhere
      obtain ⟨s', kids', hrun, hshape', hsize', hmono, hnew⟩ := treeNodeInsert_under hshape hwhere
        hfree hne0 hna hnl hfields hnext hprev
      refine ⟨s', kids', hrun, hshape', ?_, ?_, rfl⟩
      · intro p hp
        rcases List.mem_cons.1 hp with rfl | hp
        · exact hnew (hreach parent hwhere)
        · exact hmono p (hreach p hp)
      · have hpos := List.length_pos_iff.2 hnil
        have hlen := length_lt_of_nodup hshape'.nodup hshape'.zero_not_mem
        rw [List.length_cons, List.length_map] at hlen
        have hone : (1 : UInt32).toNat = 1 := rfl
        rw [hsize', toNat_add_of_lt (by omega), hsize, treeNodesAfter, List.length_cons]
        exact Nat.sub_add_cancel hpos

/-- **A deletion breaks it**: the node freed is still the value of a link of its parent's list. -/
theorem TreeGrown.delete {r r' : TreeRun} {o : TreeOp} (h : TreeGrown r) (hdel : o.IsDelete)
    (hstep : treeStep r o = some r') : ¬ ∃ s, r'.machine = some s ∧ NothingFreed s := by
  obtain ⟨s, kids, hs, hshape, hreach, _, _⟩ := h
  obtain ⟨hallowed, rfl⟩ := treeStep_cases hs hstep
  cases o with
  | insert node parent fields array link garbage => exact absurd hdel id
  | delete node =>
    rintro ⟨s', hs', hfreed⟩
    rw [treeMachine, treeNodeDelete_eq hshape hallowed.1] at hs'
    obtain rfl := Option.some.inj hs'
    have hway := (reach_kfree hshape hallowed.1 (hreach node hallowed.1)).elim id id
    exact hfreed.node node hway (Function.update_self _ _ _)

/-- With cleared links, a run keeps everything but the root's place in the count exactly as long as it
deletes nothing. -/
theorem tree_run_but_root (os : List TreeOp) (hclean : ∀ o ∈ os, o.Clean) :
    AllStates treeStep TreeOkButRoot treeStart os ↔
      AllSteps treeStep (fun _ o => ¬ o.IsDelete) treeStart os :=
  allStates_iff_allSteps_of (fun _ => TreeGrown.ok)
    (fun _ _ _ h hclean hins hstep => h.step hclean hins hstep)
    (fun _ _ _ h _ hdel hstep hok => h.delete (not_not.1 hdel) hstep hok.freed) os treeStart hclean
    treeStart_grown

/-- **Inserting the root breaks the count**: `tree_node_insert` returns before it counts. -/
theorem treeStep_start {r : TreeRun} {o : TreeOp} (h : treeStep treeStart o = some r) :
    ∃ s, r.machine = some s ∧ ¬ SizeOk s := by
  obtain ⟨hallowed, rfl⟩ := treeStep_cases rfl h
  cases o with
  | delete node => exact absurd hallowed.1 (by simp [treeStart])
  | insert node parent fields array link garbage =>
    obtain ⟨hfree, hne0, _, hfields, hwhere⟩ := hallowed
    obtain rfl : parent = 0 := by simpa [treeStart] using hwhere
    refine ⟨_, treeNodeInsert_root hne0.1, fun hsize => ?_⟩
    have hone := (root_shape treeCreate_shape hfree.1 hne0.1 hfields).ncard_reach fun p hp => by
      obtain rfl := List.mem_singleton.1 hp
      exact Reach.root hne0.1
    rw [SizeOk, hone] at hsize
    exact Nat.zero_ne_one hsize

/-- **The tree operations.**  A run does everything that is asked of it exactly as long as it has
done nothing: the root is never counted.  Apart from that, with cleared links, it does exactly as long
as it deletes nothing. -/
theorem tree_run_ok (os : List TreeOp) :
    (AllStates treeStep TreeOk treeStart os ↔ AllSteps treeStep (fun _ _ => False) treeStart os) ∧
      ((∀ o ∈ os, o.Clean) → (AllStates treeStep TreeOkButRoot treeStart os ↔
        AllSteps treeStep (fun _ o => ¬ o.IsDelete) treeStart os)) := by
  refine ⟨?_, tree_run_but_root os⟩
  refine allStates_iff_allSteps (I := fun r => r = treeStart) ?_ ?_ ?_ os treeStart rfl
  · rintro r rfl
    have hnone : ∀ p, ¬ Reach treeCreate p := fun p hp =>
      List.not_mem_nil (treeCreate_shape.mem_of_reach hp)
    refine ⟨?_, ⟨treeCreate, rfl, treeCreate_shape.nothingFreed⟩, ?_⟩
    · intro s hs
      obtain rfl : treeCreate = s := Option.some.inj hs
      rw [SizeOk, treeCreate_shape.ncard_reach (by simp)]
      rfl
    · intro s d _ hd
      cases hd
  · intro r o r' _ hC
    exact absurd hC id
  · rintro r o r' rfl _ hstep hok
    obtain ⟨s, hs, hsize⟩ := treeStep_start hstep
    exact hsize (hok.size s hs)

/-- With the root alone in the tree the size is 0; with a child under it deleted again, the child's
freed node can still be reached. -/
theorem tree_run_ok_root_child_delete :
    ¬ AllStates treeStep TreeOk treeStart
        [.insert 16 0 ⟨1, 0, 0⟩ 32 48 ⟨0, 0, 0⟩] ∧
      ¬ AllStates treeStep TreeOkButRoot treeStart
        [.insert 16 0 ⟨1, 0, 0⟩ 32 48 ⟨0, 0, 0⟩, .insert 64 16 ⟨2, 0, 0⟩ 80 96 ⟨0, 0, 0⟩,
          .delete 64] := by
  constructor
  · intro h
    obtain ⟨r, hr⟩ := Option.isSome_iff_exists.1 (show
      (treeStep treeStart (.insert 16 0 ⟨1, 0, 0⟩ 32 48 ⟨0, 0, 0⟩)).isSome by decide)
    obtain ⟨s, hs, hsize⟩ := treeStep_start hr
    exact hsize ((h.2 r hr).start.size s hs)
  · rw [tree_run_but_root _ (by simp [TreeOp.Clean])]
    intro h
    obtain ⟨r₃, h₃⟩ := Option.isSome_iff_exists.1 (show
      (run treeStep treeStart [.insert 16 0 ⟨1, 0, 0⟩ 32 48 ⟨0, 0, 0⟩,
        .insert 64 16 ⟨2, 0, 0⟩ 80 96 ⟨0, 0, 0⟩, .delete 64]).isSome by decide)
    obtain ⟨r₁, h₁, hrest⟩ := Option.bind_eq_some_iff.1 h₃
    obtain ⟨r₂, h₂, hrest⟩ := Option.bind_eq_some_iff.1 hrest
    obtain ⟨r₄, h₄, _⟩ := Option.bind_eq_some_iff.1 hrest
    exact (((h r₁ h₁).2 r₂ h₂).2 r₄ h₄).1 trivial

/-- With a child under the root, everything but the count is right. -/
theorem tree_run_ok_root_child :
    AllStates treeStep TreeOkButRoot treeStart
      [.insert 16 0 ⟨1, 0, 0⟩ 32 48 ⟨0, 0, 0⟩, .insert 64 16 ⟨2, 0, 0⟩ 80 96 ⟨0, 0, 0⟩] :=
  ((tree_run_ok _).2 (by simp [TreeOp.Clean])).2 fun _ _ => ⟨id, fun _ _ => ⟨id, trivial⟩⟩

end CometOS
