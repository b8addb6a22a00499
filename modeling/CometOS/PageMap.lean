import CometOS.Paging

/-!
# What `page_map` does to a directory

A page directory and its tables are pages of 1024 words.  `page_map` writes one word where there is a
table, and then changes one translation.  Where there is none it makes a table first, and what
`table_create` writes to a table is present from end to end.
-/

namespace CometOS

open ByteMemory Loop Word32

/-! ### Words of a page -/

/-- Word `i` of the page at `base`. -/
def pageWord (mem : Mem) (base i : UInt32) : UInt32 := read32 mem (base + 4 * i)

theorem wordAddr_aligned {base i : UInt32} (hb : PageAligned base) (hi : i.toNat < 1024) :
    (base + 4 * i).toNat % 4 = 0 := by
  rw [entry_toNat hb hi]
  rw [pageAligned_iff] at hb
  omega

theorem wordAddr_inj {base base' i i' : UInt32} (hb : PageAligned base) (hb' : PageAligned base')
    (hi : i.toNat < 1024) (hi' : i'.toNat < 1024) (h : base + 4 * i = base' + 4 * i') :
    base = base' ∧ i = i' := by
  have ha := congrArg UInt32.toNat h
  rw [entry_toNat hb hi, entry_toNat hb' hi'] at ha
  rw [pageAligned_iff] at hb hb'
  exact ⟨eq_of_toNat (by omega), eq_of_toNat (by omega)⟩

/-- **A store to one word of a page**, seen at a word of a page. -/
theorem pageWord_write (mem : Mem) {base base' i i' : UInt32} (w : UInt32) (hb : PageAligned base)
    (hb' : PageAligned base') (hi : i.toNat < 1024) (hi' : i'.toNat < 1024) :
    pageWord (write32 mem (base' + 4 * i') w) base i =
      if base = base' ∧ i = i' then w else pageWord mem base i := by
  rw [pageWord, read32_write32_aligned mem w (wordAddr_aligned hb' hi') (wordAddr_aligned hb hi)]
  by_cases h : base = base' ∧ i = i'
  · rw [if_pos h, if_pos (by rw [h.1, h.2])]
  · rw [if_neg h, if_neg fun he => h (wordAddr_inj hb hb' hi hi' he), pageWord]

/-- The words of the pages after a page was filled word by word. -/
theorem pageWord_fillTable (mem : Mem) {table : UInt32} (entry : UInt32 → UInt32 → UInt32)
    (ht : PageAligned table) {base i : UInt32} (hb : PageAligned base) (hi : i.toNat < 1024) :
    pageWord (fillTable table entry mem) base i =
      if base = table then entry i (pageWord mem base i) else pageWord mem base i := by
  have hinv := @forUp_inv Mem (fun n mem' => ∀ base i : UInt32, PageAligned base → i.toNat < 1024 →
      pageWord mem' base i =
        if base = table ∧ i.toNat < n then entry i (pageWord mem base i) else pageWord mem base i)
    (fun i mem => write32 mem (table + 4 * UInt32.ofNat i)
      (entry (UInt32.ofNat i) (read32 mem (table + 4 * UInt32.ofNat i)))) 1024 0 mem
    (fun base i _ _ => by rw [if_neg (by omega)]) (by
      intro n mem' _ hn ih base i hb hi
      have hnn : (UInt32.ofNat n).toNat = n := toNat_ofNat_of_lt (by omega)
      rw [pageWord_write mem' _ hb ht hi (by omega)]
      by_cases h : base = table ∧ i = UInt32.ofNat n
      · obtain ⟨rfl, rfl⟩ := h
        rw [if_pos ⟨rfl, rfl⟩, if_pos ⟨rfl, by omega⟩, ← pageWord, ih base _ hb hi,
          if_neg (by omega)]
      · rw [if_neg h, ih base i hb hi]
        by_cases hbt : base = table
        · have hne := toNat_ne fun he => h ⟨hbt, he⟩
          have hiff : i.toNat < n + 1 ↔ i.toNat < n := by omega
          simp only [hbt, hiff]
        · rw [if_neg fun hc => hbt hc.1, if_neg fun hc => hbt hc.1])
  have hres := hinv base i hb hi
  have hlt : i.toNat < 0 + 1024 := by omega
  simp only [hlt, and_true] at hres
  exact hres

/-- Filling word by word stays within the page. -/
theorem fillTable_outside (mem : Mem) (entry : UInt32 → UInt32 → UInt32) {table a : UInt32}
    (ha : 0x1000 ≤ (a - table).toNat) : fillTable table entry mem a = mem a := by
  refine @forUp_inv Mem (fun _ mem' => mem' a = mem a)
    (fun i mem => write32 mem (table + 4 * UInt32.ofNat i)
      (entry (UInt32.ofNat i) (read32 mem (table + 4 * UInt32.ofNat i)))) 1024 0 mem rfl ?_
  intro n mem' _ hn ih
  have hofNat : (UInt32.ofNat n).toNat = n := toNat_ofNat_of_lt (by omega)
  have hmul : (4 * UInt32.ofNat n).toNat = 4 * n := by
    rw [toNat_mul_of_lt] <;> rw [hofNat] <;> simp only [UInt32.reduceToNat]
    omega
  rw [write32_of_far, ih]
  rw [show a - (table + 4 * UInt32.ofNat n) = a - table - 4 * UInt32.ofNat n by grind,
    toNat_sub_of_le (by omega)]
  omega

/-! ### Translating in a directory -/

/-- What the directory at `pd` makes of the page at `v`. -/
def translateIn (mem : Mem) (pd v : UInt32) : Option UInt32 :=
  if Present (pageWord mem pd (dirGet v)) ∧
      Present (pageWord mem (phyGet (pageWord mem pd (dirGet v))) (tlbGet v)) then
    some (phyGet (pageWord mem (phyGet (pageWord mem pd (dirGet v))) (tlbGet v)))
  else none

theorem translate_eq (m : Machine) (v : UInt32) : translate m v = translateIn m.mem m.cr3 v := rfl

theorem dirGet_lt (v : UInt32) : (dirGet v).toNat < 1024 := by
  have := v.toNat_lt
  rw [dirGet_toNat]
  omega

theorem tlbGet_lt (v : UInt32) : (tlbGet v).toNat < 1024 := by
  rw [tlbGet_toNat]
  exact Nat.mod_lt _ (by decide)

/-- A page is its place in the directory and its place in the table. -/
theorem page_ext {u v : UInt32} (hu : PageAligned u) (hv : PageAligned v) (hd : dirGet u = dirGet v)
    (ht : tlbGet u = tlbGet v) : u = v := by
  have hd' := congrArg UInt32.toNat hd
  have ht' := congrArg UInt32.toNat ht
  rw [dirGet_toNat, dirGet_toNat] at hd'
  rw [tlbGet_toNat, tlbGet_toNat] at ht'
  rw [pageAligned_iff] at hu hv
  exact eq_of_toNat (by omega)

/-- The directory and the tables it names are different pages. -/
structure DirWf (mem : Mem) (pd : UInt32) : Prop where
  aligned : PageAligned pd
  ne_dir : ∀ e : UInt32, e.toNat < 1024 → Present (pageWord mem pd e) →
    phyGet (pageWord mem pd e) ≠ pd
  inj : ∀ e e' : UInt32, e.toNat < 1024 → e'.toNat < 1024 → Present (pageWord mem pd e) →
    Present (pageWord mem pd e') → phyGet (pageWord mem pd e) = phyGet (pageWord mem pd e') → e = e'

/-- A directory as it should be: its own frame and its tables' are marked used, too. -/
structure DirOk (m : Machine) (pd : UInt32) : Prop extends DirWf m.mem pd where
  used_dir : m.frameBitmap.words (pd / 0x1000) ≠ 0
  used : ∀ e : UInt32, e.toNat < 1024 → Present (pageWord m.mem pd e) →
    m.frameBitmap.words (phyGet (pageWord m.mem pd e) / 0x1000) ≠ 0

/-! ### The word that `page_map` writes -/

theorem phyGet_or_low {f flags : UInt32} (hf : PageAligned f) (hflags : flags < 0x1000) :
    phyGet (f ||| flags ||| 1) = f := by
  have hlow : (flags ||| 1).toNat < 2 ^ 12 := by
    rw [UInt32.toNat_or]
    exact Nat.or_lt_two_pow (UInt32.lt_iff_toNat_lt.1 hflags) (by decide)
  apply eq_of_toNat
  rw [pageAligned_iff] at hf
  rw [UInt32.or_assoc, show (phyGet (f ||| (flags ||| 1))).toNat =
    (f ||| (flags ||| 1)).toNat / 0x1000 * 0x1000 from toNat_and_page _, toNat_or_low 12 hf hlow]
  omega

section

variable {mem : Mem} {pd v p flags : UInt32}

/-- A page is translated as before if its entry in the directory and its word in the table are. -/
theorem translateIn_congr {mem' : Mem} {u : UInt32}
    (hdir : pageWord mem' pd (dirGet u) = pageWord mem pd (dirGet u))
    (hword : Present (pageWord mem pd (dirGet u)) →
      pageWord mem' (phyGet (pageWord mem pd (dirGet u))) (tlbGet u) =
        pageWord mem (phyGet (pageWord mem pd (dirGet u))) (tlbGet u)) :
    translateIn mem' pd u = translateIn mem pd u := by
  rw [translateIn, translateIn, hdir]
  by_cases hu : Present (pageWord mem pd (dirGet u))
  · rw [hword hu]
  · rw [if_neg fun hc => hu hc.1, if_neg fun hc => hu hc.1]

/-- A directory with a table entered that is neither itself nor one of the others. -/
theorem DirWf.enter (h : DirWf mem pd) {mem' : Mem} {e₀ w : UInt32}
    (hself : pageWord mem' pd e₀ = w)
    (hother : ∀ e : UInt32, e.toNat < 1024 → e ≠ e₀ → pageWord mem' pd e = pageWord mem pd e)
    (hpd : phyGet w ≠ pd) (hnew : ∀ e : UInt32, e.toNat < 1024 → Present (pageWord mem pd e) →
      phyGet (pageWord mem pd e) ≠ phyGet w) : DirWf mem' pd := by
  refine ⟨h.aligned, fun e he hp => ?_, fun e e' he he' hp hp' hsame => ?_⟩
  · by_cases hev : e = e₀
    · rw [hev, hself]
      exact hpd
    · rw [hother e he hev] at hp ⊢
      exact h.ne_dir e he hp
  · by_cases hev : e = e₀
    · by_cases hev' : e' = e₀
      · exact hev.trans hev'.symm
      · rw [hother e' he' hev'] at hp' hsame
        rw [hev, hself] at hsame
        exact absurd hsame.symm (hnew e' he' hp')
    · rw [hother e he hev] at hp hsame
      by_cases hev' : e' = e₀
      · rw [hev', hself] at hsame
        exact absurd hsame (hnew e he hp)
      · rw [hother e' he' hev'] at hp' hsame
        exact h.inj e e' he he' hp hp' hsame

/-- **Storing a word for one page** changes what is made of that page and of no other, and leaves the
directory. -/
theorem translateIn_store (h : DirWf mem pd) (hv : PageAligned v)
    (hpres : Present (pageWord mem pd (dirGet v))) (w : UInt32) :
    (∀ e : UInt32, e.toNat < 1024 →
      pageWord (write32 mem (pteAddr mem pd v) w) pd e = pageWord mem pd e) ∧
    translateIn (write32 mem (pteAddr mem pd v) w) pd v =
      (if Present w then some (phyGet w) else none) ∧
    ∀ u, PageAligned u → u ≠ v →
      translateIn (write32 mem (pteAddr mem pd v) w) pd u = translateIn mem pd u := by
  have haddr : pteAddr mem pd v = phyGet (pageWord mem pd (dirGet v)) + 4 * tlbGet v := rfl
  have htable := pageAligned_phyGet (pageWord mem pd (dirGet v))
  have hdir : ∀ e : UInt32, e.toNat < 1024 →
      pageWord (write32 mem (pteAddr mem pd v) w) pd e = pageWord mem pd e := by
    intro e he
    rw [haddr, pageWord_write mem _ h.aligned htable he (tlbGet_lt v), if_neg]
    exact fun hc => h.ne_dir _ (dirGet_lt v) hpres hc.1.symm
  refine ⟨hdir, ?_, fun u hu huv => ?_⟩
  · have hword : pageWord (write32 mem (pteAddr mem pd v) w)
        (phyGet (pageWord mem pd (dirGet v))) (tlbGet v) = w := by
      rw [haddr, pageWord_write mem _ htable htable (tlbGet_lt v) (tlbGet_lt v), if_pos ⟨rfl, rfl⟩]
    rw [translateIn, hdir _ (dirGet_lt v), hword]
    simp only [hpres, true_and]
  · refine translateIn_congr (hdir _ (dirGet_lt u)) fun hu' => ?_
    rw [haddr, pageWord_write mem _ (pageAligned_phyGet _) htable (tlbGet_lt u) (tlbGet_lt v), if_neg]
    rintro ⟨hsame, ht⟩
    exact huv (page_ext hu hv (h.inj _ _ (dirGet_lt u) (dirGet_lt v) hu' hpres hsame) ht)

end

/-! ### Making a table -/

theorem present_or_three (a : UInt32) : Present (a ||| 3) := by
  have h := present_or a 2
  rwa [UInt32.or_assoc] at h

theorem frameAlloc_set {m m₁ : Machine} {frame : UInt32} (h : frameAlloc m = some (frame, m₁)) :
    m₁ = frameSet frame m := by
  obtain ⟨_, _, _, hm₁⟩ := frameAlloc_spec h
  exact hm₁

/-- `table_create` gives back what `frame_alloc` does; where that is null, nothing is filled. -/
theorem tableCreate_eq {m m₁ : Machine} {frame : UInt32} (flags : UInt32)
    (h : frameAlloc m = some (frame, m₁)) :
    tableCreate flags m =
      some (frame, if frame = 0 then frameSet frame m else tableFill frame flags (frameSet frame m)) := by
  rw [tableCreate, h, Option.map_some, frameAlloc_set h]
  by_cases h0 : frame = 0
  · rw [if_pos h0, if_pos h0, h0]
  · rw [if_neg h0, if_neg h0]

theorem pageMap_run {m : Machine} {physaddr v : UInt32} (flags pageDir : UInt32)
    (hp : PageAligned physaddr) (hv : PageAligned v) :
    pageMap physaddr v flags pageDir m = (pageMapTable v (pageDirectory pageDir m) m).map fun m₁ =>
      (v, { m₁ with
        mem := write32 m₁.mem (pteAddr m₁.mem (pageDirectory pageDir m) v)
          (physaddr ||| flags ||| 1) }) := by
  have hcond : ¬ (v &&& 0xFFF ≠ 0 ∨ physaddr &&& 0xFFF ≠ 0) := by
    rintro (h | h)
    · exact h hv
    · exact h hp
  rw [pageMap, if_neg hcond]

theorem pageMapTable_there {m : Machine} {v pd : UInt32}
    (h : Present (pageWord m.mem pd (dirGet v))) : pageMapTable v pd m = some m := by
  change Present (read32 m.mem (pdeAddr pd v)) at h
  rw [pageMapTable, if_neg (not_not.2 h)]

theorem pageMapTable_absent {m : Machine} {v pd : UInt32}
    (h : ¬ Present (pageWord m.mem pd (dirGet v))) :
    pageMapTable v pd m = (tableCreate 3 m).map fun x => tableMap pd (dirGet v) x.1 3 x.2 := by
  change ¬ Present (read32 m.mem (pdeAddr pd v)) at h
  rw [pageMapTable, if_pos h]

theorem pageMapTable_new {m m₁ : Machine} {v pd frame : UInt32}
    (h : ¬ Present (pageWord m.mem pd (dirGet v))) (hf : frameAlloc m = some (frame, m₁)) :
    pageMapTable v pd m = some (tableMap pd (dirGet v) frame 3
      (if frame = 0 then frameSet frame m else tableFill frame 3 (frameSet frame m))) := by
  rw [pageMapTable_absent h, tableCreate_eq 3 hf]
  rfl

/-- The directory entry for a new table. -/
theorem phyGet_three {table : UInt32} (h : PageAligned table) : phyGet (table ||| 3) = table := by
  have := phyGet_or_low h (show (2 : UInt32) < 0x1000 by decide)
  rwa [UInt32.or_assoc] at this

/-! ### Mapping a page -/

/-- The directory is not at address zero while frame zero is free. -/
theorem DirOk.ne_zero {m : Machine} {pd : UInt32} (h : DirOk m pd)
    (h0 : m.frameBitmap.words 0 = 0) : pd ≠ 0 := by
  intro hc
  have := h.used_dir
  rw [hc] at this
  exact this h0

/-- An empty directory in frame 1; the first four of sixteen frames are used. -/
def emptyDirectory (pagingState : UInt32) : Machine :=
  { kernelPointer := 0x4000
    frameBitmap := { addr := 0, entries := 0, size := 16, words := fun i => if i < 4 then 1 else 0 }
    kernelHeap := none, pagingState, cr3 := 0x1000, mem := fun _ => 0 }

theorem pageWord_zero (base i : UInt32) : pageWord (fun _ => 0) base i = 0 := rfl

/-- The same directory with a table, in frame 2, for the lowest region. -/
def oneTable : Machine :=
  { emptyDirectory 1 with mem := write32 (fun _ => 0) (0x1000 + 4 * 0) 0x2003 }

end CometOS
