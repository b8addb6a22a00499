import CometOS.ComputerPaging

/-!
# The mapping that `paging_initialize` leaves

Every frame that booting stands on should be marked, every page below `kernel_pointer` mapped to itself,
and no page to a frame not its own.  The last is missed when the pages take more than one table and do not
fill the last one: the rest of that table is a map of the lowest 4 MiB.
-/

namespace CometOS

open ByteMemory Loop Paged Word32

/-! ### Addresses that are their own -/

/-- An address is translated as its page is. -/
theorem translateIn_page (mem : Mem) (pd a : UInt32) :
    translateIn mem pd a = translateIn mem pd (pageAddr (a.toNat / 0x1000)) := by
  have ha := a.toNat_lt
  have hd : dirGet a = dirGet (pageAddr (a.toNat / 0x1000)) := by
    apply eq_of_toNat
    rw [dirGet_toNat, dirGet_pageAddr (by omega)]
    omega
  have ht : tlbGet a = tlbGet (pageAddr (a.toNat / 0x1000)) := by
    apply eq_of_toNat
    rw [tlbGet_toNat, tlbGet_pageAddr (by omega)]
    omega
  rw [translateIn, translateIn, hd, ht]

section

variable {c : Computer}

theorem Computer.walk_on (h : c.pagingState ≠ 0) (a : UInt32) :
    c.walk a = (c.translate a).map fun frame => frame + (a &&& 0xFFF) := by
  rw [Computer.walk, if_neg h, cpuWalk_eq]
  rfl

/-- **Bytes whose pages are mapped to themselves** are found at their own addresses. -/
theorem Computer.direct_of_identity (h : c.pagingState ≠ 0) {a : UInt32} {n : ℕ}
    (hn : a.toNat + n ≤ 2 ^ 32)
    (hpages : ∀ k, a.toNat / 0x1000 ≤ k → k * 0x1000 < a.toNat + n →
      c.translate (pageAddr k) = some (pageAddr k)) : Direct c.walk a n := by
  intro i hi
  have hai : (a + i).toNat = a.toNat + i.toNat := toNat_add_of_lt (by omega)
  rw [Computer.walk_on h, Computer.translate, translateIn_page]
  have hpage := hpages ((a + i).toNat / 0x1000) (by omega) (by omega)
  rw [Computer.translate] at hpage
  rw [hpage, Option.map_some]
  congr 1
  apply eq_of_toNat
  have hlow : ((a + i) &&& 0xFFF).toNat = (a + i).toNat % 0x1000 := toNat_and_low (a + i) 12 (by decide)
  rw [toNat_add_of_lt] <;> rw [pageAddr_toNat (by omega), hlow] <;> omega

/-- **A bitmap is seen** where its pages are mapped to themselves, by tables that are none of its. -/
theorem BitmapPlace.seen_of_identity (p : BitmapPlace) (h : c.pagingState ≠ 0) (hcr3 : PageAligned c.cr3)
    (hdir : p.Outside c.cr3 0x1000)
    (htables : ∀ e : UInt32, e.toNat < 1024 → Present (pageWord c.mem c.cr3 e) →
      p.Outside (phyGet (pageWord c.mem c.cr3 e)) 0x1000)
    (hpages : ∀ k, p.addr.toNat / 0x1000 ≤ k → k * 0x1000 < p.stop →
      c.translate (pageAddr k) = some (pageAddr k)) : p.Seen c := by
  intro mem hmem
  have hw := p.words
  have hh := p.header
  have hstop := p.stop_eq
  refine Computer.direct_of_identity (c := { c with mem }) h (by omega) fun k hlo hhi => ?_
  rw [← hpages k hlo (by omega)]
  exact p.translateIn_eq hcr3 hmem hdir (htables _ (dirGet_lt _))

end

/-! ### What booting is for -/

/-- The frame at an address is marked used, so that `frame_alloc` does not find it. -/
def Computer.FrameUsed (c : Computer) (addr : UInt32) : Prop :=
  ∃ entry, c.frameTest addr = some entry ∧ entry ≠ 0

/-- The frames that booting stands on are taken, the pages below `kernel_pointer` are mapped to themselves,
and no page to a frame not its own. -/
structure BootMapped (c : Computer) : Prop where
  frames_used : ∀ v, PageAligned v → v < c.kernelPointer → c.FrameUsed v
  directory_used : c.FrameUsed c.cr3
  tables_used : ∀ e : UInt32, e.toNat < 1024 → Present (pageWord c.mem c.cr3 e) →
    c.FrameUsed (phyGet (pageWord c.mem c.cr3 e))
  identity : ∀ v, PageAligned v → v < c.kernelPointer → c.translate v = some v
  nothing_else : ∀ v f, PageAligned v → c.translate v = some f → f = v

/-! ### After booting -/

theorem Started.cr3 {p : BitmapPlace} {n : ℕ} {c₁ c₂ : Computer} {m : Machine} (h : Started p n c₁ c₂ m) :
    c₂.cr3 = pageAddr n := h.sim.cr3_eq.symm.trans h.tables.cr3_eq

section

variable {p : BitmapPlace} {n : ℕ} {c₁ c₂ : Computer} {m : Machine} (h : Started p n c₁ c₂ m)
  (hroom : n + 1 + regions n ≤ 2 ^ 20) (hstop : p.stop ≤ n * 0x1000)

include h hroom hstop

/-- The directory's words. -/
theorem Started.dir {e : UInt32} (he : e.toNat < 1024) :
    pageWord c₂.mem (pageAddr n) e = if e.toNat < regions n then pageAddr (n + 1 + e.toNat) ||| 3 else 2 := by
  rw [← h.tables.dir e he]
  exact (p.outside_page (by omega) hstop).pageWord_eq (fun a ha => (h.sim.mem_eq a ha).symm)
    (pageAddr_aligned (by omega)) he

/-- Which tables there are, and that they are none of the frame bitmap's pages. -/
theorem Started.present {e : UInt32} (he : e.toNat < 1024)
    (hp : Present (pageWord c₂.mem (pageAddr n) e)) : e.toNat < regions n ∧
      phyGet (pageWord c₂.mem (pageAddr n) e) = pageAddr (n + 1 + e.toNat) ∧
      p.Outside (phyGet (pageWord c₂.mem (pageAddr n) e)) 0x1000 := by
  rw [h.dir hroom hstop he] at hp ⊢
  split at hp
  · rename_i hreg
    rw [if_pos hreg, phyGet_three (pageAddr_aligned (by omega))]
    exact ⟨hreg, rfl, p.outside_page (by omega) (hstop.trans (Nat.mul_le_mul_right _ (by omega)))⟩
  · exact absurd hp (by decide)

/-- What the tables make of a page. -/
theorem Started.translate {k : ℕ} (hk : k < 2 ^ 20) :
    Computer.translate { c₂ with pagingState := 1 } (pageAddr k) =
      if k / 1024 < regions n then some (pageAddr (if k < n then k else k % 1024)) else none := by
  rw [← h.tables.translate hroom hk]
  show translateIn c₂.mem c₂.cr3 _ = _
  rw [h.cr3]
  refine (p.translateIn_eq (pageAddr_aligned (by omega)) (fun a ha => h.sim.mem_eq a ha)
    (p.outside_page (by omega) hstop) fun hp => ?_).symm
  exact (h.present hroom hstop (dirGet_lt _) hp).2.2

theorem Started.identity {k : ℕ} (hk : k < n) :
    Computer.translate { c₂ with pagingState := 1 } (pageAddr k) = some (pageAddr k) := by
  rw [h.translate hroom hstop (by omega), if_pos (by simp only [regions]; omega), if_pos hk]

theorem Started.seen : p.Seen { c₂ with pagingState := 1 } := by
  have hcr3 := h.cr3
  refine p.seen_of_identity (c := { c₂ with pagingState := 1 })
    (show (1 : UInt32) ≠ 0 by decide) ?_ ?_ (fun e he hp => ?_)
    fun k _ hk => h.identity hroom hstop (by omega)
  · show PageAligned c₂.cr3
    rw [hcr3]
    exact pageAddr_aligned (by omega)
  · show p.Outside c₂.cr3 0x1000
    rw [hcr3]
    exact p.outside_page (by omega) hstop
  · change Present (pageWord c₂.mem c₂.cr3 e) at hp
    show p.Outside (phyGet (pageWord c₂.mem c₂.cr3 e)) 0x1000
    rw [hcr3] at hp ⊢
    exact (h.present hroom hstop he hp).2.2

/-- The frames of the pages, of the directory and of the tables are taken. -/
theorem Started.frameUsed (hsize : n + 1 + regions n ≤ p.count) {i : ℕ} (hi : i < n + 1 + regions n) :
    Computer.FrameUsed { c₂ with pagingState := 1 } (pageAddr i) := by
  have hdiv := pageAddr_div (i := i) (by omega)
  refine ⟨m.frameBitmap.words (pageAddr i / 0x1000), ?_, fun h0 => ?_⟩
  · have hcheck := BitmapAt.check (c := { c₂ with pagingState := 1 }) h.sim.bitmap (h.seen hroom hstop)
      (i := pageAddr i / 0x1000) (by omega)
    rw [← h.sim.frameBitmap_eq] at hcheck
    exact hcheck
  · have := (h.tables.frames _ (by omega)).1 h0
    omega

/-- **A second table that is not full breaks it**: the first page behind `kernel_pointer` has a frame of
the lowest region. -/
theorem Started.not_mapped (hmany : 1024 < n) (hmod : n % 1024 ≠ 0) :
    ¬ BootMapped { c₂ with pagingState := 1 } := by
  intro hok
  have hn := h.translate hroom hstop (k := n) (by omega)
  rw [if_pos (by simp only [regions]; omega), if_neg (Nat.lt_irrefl n)] at hn
  have hsame := pageAddr_inj (by omega) (by omega)
    (hok.nothing_else (pageAddr n) _ (pageAddr_aligned (by omega)) hn)
  omega

/-- With one table, or with full ones, all is as it should be. -/
theorem Started.mapped (hsize : n + 1 + regions n ≤ p.count)
    (hn : (c₂.kernelPointer.toNat + 0xFFF) / 0x1000 = n) (hcond : n ≤ 1024 ∨ n % 1024 = 0) :
    BootMapped { c₂ with pagingState := 1 } := by
  have hpage : ∀ v : UInt32, v.toNat / 0x1000 < 2 ^ 20 := by
    intro v
    have := v.toNat_lt
    omega
  have hbelow : ∀ v, PageAligned v → v < c₂.kernelPointer → v.toNat / 0x1000 < n := by
    intro v hv hlt
    rw [pageAligned_iff] at hv
    rw [UInt32.lt_iff_toNat_lt] at hlt
    omega
  refine ⟨fun v hv hlt => ?_, ?_, fun e he hp => ?_, fun v hv hlt => ?_, fun v f hv hf => ?_⟩
  · rw [← pageAddr_of_aligned hv]
    have := hbelow v hv hlt
    exact h.frameUsed hroom hstop hsize (by omega)
  · have hused := h.frameUsed hroom hstop hsize (i := n) (by omega)
    rwa [← h.cr3] at hused
  · change Present (pageWord c₂.mem c₂.cr3 e) at hp
    rw [h.cr3] at hp
    obtain ⟨hreg, hphy, -⟩ := h.present hroom hstop he hp
    have hused := h.frameUsed hroom hstop hsize (i := n + 1 + e.toNat) (by omega)
    rwa [← hphy, ← h.cr3] at hused
  · rw [← pageAddr_of_aligned hv]
    exact h.identity hroom hstop (hbelow v hv hlt)
  · rw [← pageAddr_of_aligned hv] at hf ⊢
    rw [h.translate hroom hstop (hpage v)] at hf
    split at hf
    · rename_i hreg
      obtain rfl := Option.some.inj hf
      simp only [regions] at hreg
      split
      · rfl
      · rw [Nat.mod_eq_of_lt (by omega)]
    · cases hf

end

/-! ### Exactly -/

section

variable {c : Computer} (memLower : UInt32) {memUpper : UInt32} (hoff : c.pagingState = 0)
  (hroom : BootRoom memUpper c.kernelPointer)
  (hclear : BootClear memUpper c.kernelPointer (bootFrameCount memUpper c.kernelPointer))

include hoff hroom hclear

/-- The state after booting, with what the two results about it need. -/
theorem pagingInitialize_started : ∃ p n c₁ c₂ m, n = bootPageCount memUpper c.kernelPointer ∧
    c.pagingInitialize memLower memUpper = some { c₂ with pagingState := 1 } ∧
    Started p n c₁ c₂ m ∧ n + 1 + regions n ≤ 2 ^ 20 ∧ p.stop ≤ n * 0x1000 ∧
    n + 1 + regions n ≤ p.count ∧ (c₂.kernelPointer.toNat + 0xFFF) / 0x1000 = n := by
  obtain ⟨c₁, c₂, m, hrun, hmade, hstarted⟩ :=
    pagingInitialize_spec memLower hoff hroom _ le_rfl hroom.frames hclear
  obtain ⟨-, hpe, -⟩ := framePlace_toNat hroom _ hroom.frames
  have hstop := (framePlace hroom _ hroom.frames).stop_eq
  have hkp : c₂.kernelPointer = bootPointer memUpper c.kernelPointer := by
    obtain ⟨mem, hc₂⟩ := hstarted.globals
    rw [hc₂]
    exact hmade.kernelPointer_eq
  refine ⟨_, _, c₁, c₂, m, rfl, hrun, hstarted, hroom.addresses, ?_, le_rfl, ?_⟩
  · rw [hstop, hpe]
    exact hclear.directory
  · rw [hkp, bootPointer_toNat hroom]
    rfl

/-- A second table that is not full breaks it. -/
theorem pagingInitialize_not_mapped (hmany : 1024 < bootPageCount memUpper c.kernelPointer)
    (hmod : bootPageCount memUpper c.kernelPointer % 1024 ≠ 0) :
    ∃ c', c.pagingInitialize memLower memUpper = some c' ∧ ¬ BootMapped c' := by
  obtain ⟨p, n, c₁, c₂, m, rfl, hrun, hstarted, hn, hstop, -, -⟩ :=
    pagingInitialize_started memLower hoff hroom hclear
  exact ⟨_, hrun, hstarted.not_mapped hn hstop hmany hmod⟩

/-- **`paging_initialize`, exactly.**  With room in memory, and the words that are used nobody else's, it
returns, and everything is as it should be if and only if one table is enough, or the pages below
`kernel_pointer` fill the last table. -/
theorem bootMapped_iff : ∃ c', c.pagingInitialize memLower memUpper = some c' ∧
    (BootMapped c' ↔ bootPageCount memUpper c.kernelPointer ≤ 1024 ∨
      bootPageCount memUpper c.kernelPointer % 1024 = 0) := by
  obtain ⟨p, n, c₁, c₂, m, rfl, hrun, hstarted, hn, hstop, hsize, hkp⟩ :=
    pagingInitialize_started memLower hoff hroom hclear
  refine ⟨_, hrun, fun hok => ?_, fun hcond => hstarted.mapped hn hstop hsize hkp hcond⟩
  by_contra hno
  rw [not_or, Nat.not_le] at hno
  exact hstarted.not_mapped hn hstop hno.1 hno.2 hok

end

/-- The computer with paging off, as the kernel finds it, whose image ends at `kernelPointer`. -/
def bareComputer (kernelPointer : UInt32) : Computer :=
  { kernelPointer, frameBitmap := 0, kernelHeap := 0, pagingState := 0, cr3 := 0, mem := fun _ => 0 }

/-- With 31 MiB, a kernel that ends at `0x110000` boots as it should. -/
theorem bootMapped_small : ∃ c', (bareComputer 0x110000).pagingInitialize 0 0x7C00 = some c' ∧
    BootMapped c' := by
  obtain ⟨c', hrun, hiff⟩ := bootMapped_iff (c := bareComputer 0x110000) 0 rfl
    (show BootRoom 0x7C00 0x110000 by decide) (by decide)
  exact ⟨c', hrun, hiff.2 (Or.inl (by decide))⟩

/-- One that ends, with its modules, at `0x450000` boots, and a page behind it is not its own. -/
theorem bootMapped_fails_large : BootRoom 0x7C00 0x450000 ∧
    ∃ c', (bareComputer 0x450000).pagingInitialize 0 0x7C00 = some c' ∧ ¬ BootMapped c' :=
  ⟨by decide, pagingInitialize_not_mapped (c := bareComputer 0x450000) 0 rfl (by decide) (by decide)
    (by decide) (by decide)⟩

end CometOS
