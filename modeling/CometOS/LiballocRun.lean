import CometOS.LiballocFree

/-!
# Runs of the kernel heap

Whatever the clients ask for, free and write, the heap keeps its shape: `liballocStep` completes and
takes one `LiballocOk` state to another, and so does a list of such steps.
-/

namespace CometOS

open ByteMemory LinkedList Loop Record Run Tiling Word32

/-- The clients' results of `malloc` are the places behind the live tags, each with its size. -/
structure ClientsOk (s : Liballoc) (held : List PageRun) (tags : UInt32 → List UInt32)
    (live : List (UInt32 × UInt32)) : Prop where
  sound : ∀ p ∈ live, p.1 ≠ 0 ∧ TagIn held tags (p.1 - 32) ∧ s.index (p.1 - 32) = -1 ∧
    s.get (p.1 - 32) .size = p.2 ∧ p.2.toNat + 32 ≤ (s.get (p.1 - 32) .realSize).toNat
  complete : ∀ t, TagIn held tags t → s.index t = -1 → ∃ n, (t + 32, n) ∈ live
  nodup : (live.map Prod.fst).Nodup

/-- **The heap is in order**: its shape is right, its live tags are those of the clients, the free
tags are in the lists their sizes call for, once each, and no run was given back that was not held
with that base and that number of pages. -/
structure LiballocOk (st : LiballocSystem) (tags : UInt32 → List UInt32) (free : ℤ → List UInt32) :
    Prop where
  shape : HeapShape st.heap st.held tags free
  live : ClientsOk st.heap st.held tags st.live
  index : ∀ t, TagIn st.held tags t → st.heap.index t = -1 ∨
    st.heap.index t = max 8 (getexp (st.heap.get t .realSize - 32))
  nodup : ∀ i, 0 ≤ i → (free i).Nodup
  frees : st.wrongFrees = []

/-- What a run keeps: the shape, the live tags, and that a heap without its arrays has no runs. -/
structure LiballocInv (st : LiballocSystem) (tags : UInt32 → List UInt32) (free : ℤ → List UInt32) :
    Prop where
  shape : HeapShape st.heap st.held tags free
  live : ClientsOk st.heap st.held tags st.live
  frees : st.wrongFrees = []
  clear : st.heap.initialized = false → st.held = []

section Run

variable {s s' : Liballoc} {held held' : List PageRun} {tags tags' : UInt32 → List UInt32}
  {free : ℤ → List UInt32} {live : List (UInt32 × UInt32)} {t ptr size : UInt32}
  {st : LiballocSystem}

theorem max_getexp (x : UInt32) : max 8 (getexp x) = listIndex x.toNat := by
  rw [← atLeastMinexp_getexp, atLeastMinexp]
  split
  · omega
  · omega

theorem LiballocInv.ok (h : LiballocInv st tags free) : LiballocOk st tags free where
  shape := h.shape
  live := h.live
  index t ht := by
    have hheader := h.shape.runs.header t ht
    rw [max_getexp, toNat_sub_of_le (b := 32) hheader]
    exact (h.shape.kind t ht).imp And.left id
  nodup i hi := h.shape.lists.nodup h.shape.runs.separated hi
  frees := h.frees

/-! ### `malloc` -/

theorem ClientsOk.congr (h : ClientsOk s held tags live)
    (hindex : ∀ u, TagIn held tags u → s'.index u = s.index u)
    (hget : ∀ u, TagIn held tags u → ∀ f, s'.get u f = s.get u f) : ClientsOk s' held tags live where
  sound p hp := by
    obtain ⟨h0, hT, hidx, hsize, hreal⟩ := h.sound p hp
    refine ⟨h0, hT, ?_, ?_, ?_⟩
    · rw [hindex _ hT, hidx]
    · rw [hget _ hT, hsize]
    · rw [hget _ hT]
      exact hreal
  complete u hu hidx := by
    rw [hindex u hu] at hidx
    exact h.complete u hu hidx
  nodup := h.nodup

/-- A client's block that stays live stays as it is. -/
theorem ClientsOk.kept (h : ClientsOk s held tags live) {p : UInt32 × UInt32} (hp : p ∈ live)
    {a b : UInt32} (hlive : LiveTag s held tags a (p.1 - 32))
    (hkeep : KeepsLive (LiveTag s held tags a) (LiveTag s' held' tags' b) s s') :
    p.1 ≠ 0 ∧ TagIn held' tags' (p.1 - 32) ∧ s'.index (p.1 - 32) = -1 ∧
      s'.get (p.1 - 32) .size = p.2 ∧
      p.2.toNat + 32 ≤ (s'.get (p.1 - 32) .realSize).toNat := by
  obtain ⟨hp0, _, _, hpsize, hpreal⟩ := h.sound p hp
  obtain ⟨hT', hidx', _⟩ := (hkeep.iff _).2 hlive
  refine ⟨hp0, hT', hidx', ?_, ?_⟩
  · rw [hkeep.size _ hlive, hpsize]
  · rw [hkeep.realSize _ hlive]
    exact hpreal

/-- The clients hold one more. -/
theorem ClientsOk.cons (h : ClientsOk s held tags live) (hruns : RunsOk s held tags) (hptr : ptr = t + 32)
    (h0 : ptr ≠ 0) (ht : TagIn held' tags' t) (hidx : s'.index t = -1)
    (hsize : s'.get t .size = size) (hreal : size.toNat + 32 ≤ (s'.get t .realSize).toNat)
    (hnew : ¬ (TagIn held tags t ∧ s.index t = -1))
    (hkeep : KeepsLive (LiveTag s held tags 0) (LiveTag s' held' tags' t) s s') :
    ClientsOk s' held' tags' ((ptr, size) :: live) where
  sound p hp := by
    rcases List.mem_cons.1 hp with rfl | hp
    · have hsub : ptr - 32 = t := by rw [hptr, UInt32.add_sub_cancel]
      simp only [hsub]
      exact ⟨h0, ht, hidx, hsize, hreal⟩
    · obtain ⟨_, hT, hpidx, _⟩ := h.sound p hp
      exact h.kept hp ⟨hT, hpidx, hruns.ne_zero hT⟩ hkeep
  complete u hu huidx := by
    by_cases hut : u = t
    · exact ⟨size, by rw [hut, ← hptr]; exact List.mem_cons_self⟩
    · obtain ⟨hT, hidx', _⟩ := (hkeep.iff u).1 ⟨hu, huidx, hut⟩
      obtain ⟨n, hn⟩ := h.complete u hT hidx'
      exact ⟨n, List.mem_cons_of_mem _ hn⟩
  nodup := by
    rw [List.map_cons, List.nodup_cons]
    refine ⟨fun hmem => ?_, h.nodup⟩
    obtain ⟨p, hp, hpt⟩ := List.mem_map.1 hmem
    obtain ⟨_, hT, hpidx, _⟩ := h.sound p hp
    rw [hpt, hptr, UInt32.add_sub_cancel] at hT hpidx
    exact hnew ⟨hT, hpidx⟩

theorem LiballocInv.step_malloc (h : LiballocInv st tags free) {liballocAlloc : UInt32 → UInt32}
    (ho : (LiballocOp.malloc size liballocAlloc).Allowed st) :
    ∃ st', liballocStep st (.malloc size liballocAlloc) = some st' ∧
      ∃ tags' free', LiballocInv st' tags' free' := by
  obtain ⟨hsize, halloc⟩ := ho
  obtain ⟨res, hres, hinit, hcase⟩ := malloc_spec h.shape hsize h.clear halloc
  rw [liballocStep, hres]
  refine ⟨_, rfl, ?_⟩
  rcases hcase with ⟨hptr, hob, hheap⟩ |
    ⟨t, tags', free', h', ht, hidx, hptr, h0, hsz, hreal, hnew, hkeep⟩
  · refine ⟨tags, free, ?_⟩
    simp only [hptr, hob, hheap, if_true]
    constructor
    · exact h.shape.congr (fun _ _ _ _ => rfl) rfl rfl
    · exact h.live.congr (fun _ _ => rfl) fun _ _ _ => rfl
    · exact h.frees
    · exact fun hc => by cases hc
  · refine ⟨tags', free', ?_⟩
    simp only [if_neg h0]
    constructor
    · exact h'
    · exact h.live.cons h.shape.runs hptr h0 ht hidx hsz hreal hnew hkeep
    · exact h.frees
    · intro hc
      rw [hinit] at hc
      cases hc

/-! ### `free` -/

/-- The clients hold one less. -/
theorem ClientsOk.filter (h : ClientsOk s held tags live)
    (hkeep : KeepsLive (LiveTag s held tags (ptr - 32)) (LiveTag s' held' tags' 0) s s')
    (hruns' : RunsOk s' held' tags') :
    ClientsOk s' held' tags' (live.filter fun p => p.1 ≠ ptr) where
  sound p hp := by
    obtain ⟨hp, hne⟩ := List.mem_filter.1 hp
    have hne := of_decide_eq_true hne
    obtain ⟨_, hT, hpidx, _⟩ := h.sound p hp
    refine h.kept hp ⟨hT, hpidx, fun hc => hne ?_⟩ hkeep
    rw [← UInt32.sub_add_cancel p.1 32, hc, UInt32.sub_add_cancel]
  complete u hu huidx := by
    obtain ⟨hT, hidx', hne⟩ := (hkeep.iff u).1 ⟨hu, huidx, hruns'.ne_zero hu⟩
    obtain ⟨n, hn⟩ := h.complete u hT hidx'
    refine ⟨n, List.mem_filter.2 ⟨hn, decide_eq_true fun hc => hne ?_⟩⟩
    rw [← hc, UInt32.add_sub_cancel]
  nodup := h.nodup.sublist (List.filter_sublist.map _)

theorem LiballocInv.step_free (h : LiballocInv st tags free) (ho : (LiballocOp.free ptr).Allowed st) :
    ∃ st', liballocStep st (.free ptr) = some st' ∧
      ∃ tags' free', LiballocInv st' tags' free' := by
  rw [liballocStep]
  by_cases h0 : ptr = 0
  · rw [h0, CometOS.free, if_pos rfl, Option.map_some]
    have hlive : (st.live.filter fun p => p.1 ≠ 0) = st.live :=
      List.filter_eq_self.2 fun p hp => decide_eq_true (h.live.sound p hp).1
    refine ⟨_, rfl, tags, free, ?_⟩
    simp only [filter_ne_none, hlive]
    exact ⟨h.shape, h.live, h.frees, h.clear⟩
  · obtain ⟨size, hmem⟩ := ho.resolve_left h0
    obtain ⟨_, hT, hidx, _⟩ := h.live.sound _ hmem
    obtain ⟨s', given, tags', free', hfree, h', hkeep, hgiven, hinit⟩ :=
      free_spec h.shape hT hidx (UInt32.sub_add_cancel ptr 32).symm h0
    rw [hfree, Option.map_some]
    refine ⟨_, rfl, tags', free', ?_⟩
    constructor
    · exact h'
    · exact h.live.filter hkeep h'.runs
    · have hnil : (given.toList.filter fun run => run ∉ st.held) = [] := by
        apply List.filter_eq_nil_iff.2
        intro run hrun
        have := hgiven run (Option.mem_toList.1 hrun)
        simpa using this
      rw [hnil, h.frees, List.append_nil]
    · intro hc
      rw [hinit] at hc
      rw [h.clear hc, List.filter_nil]

/-! ### The clients' stores -/

/-- A byte that clients may write belongs to no tag. -/
theorem LiballocInv.outside (h : LiballocInv st tags free) {addr : UInt32} {value : UInt8}
    (ho : (LiballocOp.write addr value).Allowed st) (ht : TagIn st.held tags t) :
    32 ≤ (addr - t).toNat := by
  have hheader := h.shape.runs.header t ht
  have hle := h.shape.runs.realSize_le ht
  rcases ho with ⟨p, hp, hin⟩ | hout
  · obtain ⟨_, hT, _, _, hreal⟩ := h.live.sound p hp
    have hle' := h.shape.runs.realSize_le hT
    have hdist : (addr - (p.1 - 32)).toNat = (addr - p.1).toNat + 32 := by
      rw [show addr - (p.1 - 32) = addr - p.1 + 32 by grind, toNat_add_of_lt]
      · rfl
      · rw [show (32 : UInt32).toNat = 32 from rfl]
        omega
    by_cases hself : t = p.1 - 32
    · rw [hself, hdist]
      omega
    · -- the byte is inside another tag's piece
      have haddr : addr.toNat = (p.1 - 32).toNat + ((addr - p.1).toNat + 32) := by
        rw [← hdist, ← toNat_add_of_lt (by omega)]
        congr 1
        grind
      apply far_of_outside
      · have := h.shape.runs.disjoint ht hT hself
        omega
      · omega
  · obtain ⟨r, hr, htr⟩ := ht
    have hb := h.shape.runs.bounds hr htr
    have hnot := hout r hr
    unfold PageRun.Holds at hnot
    apply far_of_outside
    · omega
    · omega

theorem LiballocInv.step_write (h : LiballocInv st tags free) {addr : UInt32} {value : UInt8}
    (ho : (LiballocOp.write addr value).Allowed st) :
    ∃ st', liballocStep st (.write addr value) = some st' ∧
      ∃ tags' free', LiballocInv st' tags' free' := by
  have hget : ∀ u, TagIn st.held tags u → ∀ f,
      boundaryTag.get (Function.update st.heap.mem addr value) u f = st.heap.get u f :=
    fun u hu f => boundaryTag.get_update st.heap.mem value (h.outside ho hu) f
  refine ⟨_, rfl, tags, free, ?_⟩
  constructor
  · exact h.shape.congr (fun u hu f _ => hget u hu f) rfl rfl
  · refine h.live.congr (fun u hu => ?_) hget
    exact congrArg (fun v : UInt32 => v.toInt32.toInt) (hget u hu .index)
  · exact h.frees
  · exact h.clear

/-! ### Runs -/

theorem liballocInv_start (mem : Mem) :
    LiballocInv (LiballocSystem.start mem) (fun _ => []) fun _ => [] := by
  have hno : ∀ u, ¬ TagIn (LiballocSystem.start mem).held (fun _ => []) u := by
    rintro u ⟨r, hr, _⟩
    cases hr
  constructor
  · constructor
    · exact ⟨fun r hr => (List.not_mem_nil hr).elim, List.Pairwise.nil,
        fun r hr => (List.not_mem_nil hr).elim, fun u hu => (hno u hu).elim,
        fun r hr => (List.not_mem_nil hr).elim⟩
    · exact ⟨fun _ _ => linked_nil 0 0, fun _ _ => rfl,
        fun _ _ u => ⟨fun hu => (List.not_mem_nil hu).elim, fun hu => (hno u hu.1).elim⟩⟩
    · exact fun u hu => (hno u hu).elim
    · exact fun u hu => (hno u hu).elim
    · exact fun u hu => (hno u hu).elim
    · exact fun _ _ => rfl
    · exact fun _ _ => (by decide : (0 : ℤ) ≤ maxComplete)
  · exact ⟨fun p hp => (List.not_mem_nil hp).elim, fun u hu => (hno u hu).elim, List.nodup_nil⟩
  · rfl
  · exact fun _ => rfl

/-- **Every step** that may be taken completes and keeps the heap in order. -/
theorem LiballocInv.step (h : LiballocInv st tags free) {o : LiballocOp} (ho : o.Allowed st) :
    ∃ st', liballocStep st o = some st' ∧ ∃ tags' free', LiballocInv st' tags' free' := by
  cases o with
  | malloc size liballocAlloc => exact h.step_malloc ho
  | free ptr => exact h.step_free ho
  | write addr value => exact h.step_write ho

/-- **The kernel heap stays in order.**  Every list of operations that may be asked for runs to its
end, and there the tags tile their runs, the lists hold the free tags by the logarithms of their
sizes, the counters count the whole runs, and every run went back as it had come. -/
theorem liballoc_run_ok (mem : Mem) (ops : List LiballocOp)
    (h : Permitted liballocStep (fun st o => o.Allowed st) (LiballocSystem.start mem) ops) :
    (∃ st, run liballocStep (LiballocSystem.start mem) ops = some st ∧
      ∃ tags free, LiballocOk st tags free) ∧
    ∀ x : UInt32, 2 ^ 8 ≤ x.toNat → getexp x = Nat.log2 x.toNat := by
  constructor
  · obtain ⟨st, hrun, tags, free, hinv⟩ :=
      run_total (fun st => ∃ tags free, LiballocInv st tags free)
        (fun st o hI ho => by
          obtain ⟨tags, free, hinv⟩ := hI
          exact hinv.step ho)
        ops _ ⟨_, _, liballocInv_start mem⟩ h
    exact ⟨st, hrun, tags, free, hinv.ok⟩
  · intro x hx
    rw [getexp_eq, if_neg (by omega)]

/-- A page allocator that has one page left. -/
def onePage (pages : UInt32) : UInt32 := if pages = 1 then 0x100000 else 0

theorem liballoc_run_ok_malloc_write_free :
    (∃ st, run liballocStep (LiballocSystem.start fun _ => 0)
        [.malloc 100 onePage, .write 0x100020 7, .free 0x100020] = some st ∧
      ∃ tags free, LiballocOk st tags free) ∧
    ∀ x : UInt32, 2 ^ 8 ≤ x.toNat → getexp x = Nat.log2 x.toNat := by
  apply liballoc_run_ok
  have hlive : (liballocStep (LiballocSystem.start fun _ => 0) (.malloc 100 onePage)).map
      LiballocSystem.live = some [(0x100020, 100)] := rfl
  refine ⟨⟨by decide, fun n hn => ?_⟩, fun st hst => ?_⟩
  · have hone : n = 1 := by
      by_contra hc
      exact hn (if_neg hc)
    subst hone
    exact ⟨by decide, fun r hr => (List.not_mem_nil hr).elim⟩
  · rw [hst, Option.map_some] at hlive
    have hl : st.live = [(0x100020, 100)] := Option.some.inj hlive
    refine ⟨Or.inl ⟨(0x100020, 100), ?_, by decide⟩, fun st' hst' => ⟨Or.inr ⟨100, ?_⟩, fun _ _ => trivial⟩⟩
    · rw [hl]
      exact List.mem_singleton_self _
    · rw [liballocStep] at hst'
      obtain rfl := Option.some.inj hst'
      rw [hl]
      exact List.mem_singleton_self _

end Run

end CometOS
