import CometOS.HeapFrames
import CometOS.PageWalk
import CometOS.TableCreate
import CometOS.Lib.Run

/-!
# Several page directories at once

A run of the functions of `paging.c` on any number of directories.  Its state has, beside the machine,
what each directory ought to map; the two agree all along the run, so what is done to one directory never
shows in another.  A page mapped in a region without a table has the rest of its region mapped as well:
that is how `table_create` fills it.  And `directory_copy` maps nothing in the copy: it copies the
tables to frames that it enters nowhere.

With paging on, a directory or table is read and written where the loaded directory maps its physical
address, which has to be to itself; a call that needs a page of another kind does not come back.
-/

namespace CometOS

open ByteMemory Word32

/-! ### The code -/

def tableUnmap (directory pdindex : UInt32) (m : Machine) : Machine :=
  { m with mem := write32 m.mem (directory + 4 * pdindex) 0 }

def tableRemove (tableAddr : UInt32) (m : Machine) : Machine := frameFree tableAddr m

/-- The 1024 words of a table, one after the other. -/
def copyTable (table copy : UInt32) (mem : Mem) : Mem :=
  Loop.forUp (fun i mem => write32 mem (copy + 4 * UInt32.ofNat i)
    (read32 mem (table + 4 * UInt32.ofNat i))) 0 1024 mem

def tableCopy (table copy : UInt32) (m : Machine) : Machine :=
  { m with mem := copyTable table copy m.mem }

def directoryRemove (directoryAddr : UInt32) (m : Machine) : Machine := frameFree directoryAddr m

/-- One turn of the loop of `directory_copy`. -/
def directoryCopyTurn (directory : UInt32) (i : ℕ) (m : Machine) : Option Machine :=
  let entry := read32 m.mem (directory + 4 * UInt32.ofNat i)
  if Present entry then (frameAlloc m).map fun x => tableCopy (phyGet entry) x.1 x.2 else some m

def directoryCopyFrom (directory : UInt32) : ℕ → ℕ → Machine → Option Machine
  | _, 0, m => some m
  | i, n + 1, m => (directoryCopyTurn directory i m).bind (directoryCopyFrom directory (i + 1) n)

def directoryCopy (directory copy : UInt32) (m : Machine) : Option (UInt32 × Machine) :=
  (directoryCopyFrom directory 0 1024 m).map fun m' => (copy, m')

/-! ### Directories that share nothing -/

/-- A page that is one of the directories or one of their tables. -/
def InUse (mem : Mem) (dirs : List UInt32) (base : UInt32) : Prop :=
  base ∈ dirs ∨ ∃ pd ∈ dirs, ∃ e : UInt32, e.toNat < 1024 ∧ Present (pageWord mem pd e) ∧
    phyGet (pageWord mem pd e) = base

/-- No table is a directory, and no two places in the directories have one table. -/
structure SpacesWf (mem : Mem) (dirs : List UInt32) : Prop where
  aligned : ∀ pd ∈ dirs, PageAligned pd
  ne_dir : ∀ pd ∈ dirs, ∀ pd' ∈ dirs, ∀ e : UInt32, e.toNat < 1024 → Present (pageWord mem pd e) →
    phyGet (pageWord mem pd e) ≠ pd'
  inj : ∀ pd ∈ dirs, ∀ pd' ∈ dirs, ∀ e e' : UInt32, e.toNat < 1024 → e'.toNat < 1024 →
    Present (pageWord mem pd e) → Present (pageWord mem pd' e') →
    phyGet (pageWord mem pd e) = phyGet (pageWord mem pd' e') → pd = pd' ∧ e = e'

/-- And all of them lie in frames marked used. -/
structure SpacesOk (m : Machine) (dirs : List UInt32) : Prop extends SpacesWf m.mem dirs where
  used : ∀ base, InUse m.mem dirs base → m.frameBitmap.words (base / 0x1000) ≠ 0

section Spaces

variable {mem mem' : Mem} {dirs : List UInt32} {pd v w : UInt32}

theorem SpacesWf.dirWf (h : SpacesWf mem dirs) (hpd : pd ∈ dirs) : DirWf mem pd where
  aligned := h.aligned pd hpd
  ne_dir := fun e he hp => h.ne_dir pd hpd pd hpd e he hp
  inj := fun e e' he he' hp hp' hsame => (h.inj pd hpd pd hpd e e' he he' hp hp' hsame).2

/-- It is a matter of the directories' words alone. -/
theorem SpacesWf.congr (h : SpacesWf mem dirs)
    (hsame : ∀ pd ∈ dirs, ∀ e : UInt32, e.toNat < 1024 → pageWord mem' pd e = pageWord mem pd e) :
    SpacesWf mem' dirs where
  aligned := h.aligned
  ne_dir := fun pd hpd pd' hpd' e he => by
    rw [hsame pd hpd e he]
    exact h.ne_dir pd hpd pd' hpd' e he
  inj := fun pd hpd pd' hpd' e e' he he' => by
    rw [hsame pd hpd e he, hsame pd' hpd' e' he']
    exact h.inj pd hpd pd' hpd' e e' he he'

theorem InUse.congr {base : UInt32}
    (hsame : ∀ pd ∈ dirs, ∀ e : UInt32, e.toNat < 1024 → pageWord mem' pd e = pageWord mem pd e)
    (h : InUse mem' dirs base) : InUse mem dirs base := by
  rcases h with hdir | ⟨pd, hpd, e, he, hp, hbase⟩
  · exact Or.inl hdir
  · rw [hsame pd hpd e he] at hp hbase
    exact Or.inr ⟨pd, hpd, e, he, hp, hbase⟩

/-- **Storing the word of one page** changes what one directory makes of that page, and nothing else. -/
theorem SpacesWf.store (h : SpacesWf mem dirs) (hpd : pd ∈ dirs) (hv : PageAligned v)
    (hpres : Present (pageWord mem pd (dirGet v))) (w : UInt32) :
    (∀ pd' ∈ dirs, ∀ e : UInt32, e.toNat < 1024 →
      pageWord (write32 mem (pteAddr mem pd v) w) pd' e = pageWord mem pd' e) ∧
    translateIn (write32 mem (pteAddr mem pd v) w) pd v =
      (if Present w then some (phyGet w) else none) ∧
    ∀ pd' ∈ dirs, ∀ u, PageAligned u → (pd' ≠ pd ∨ u ≠ v) →
      translateIn (write32 mem (pteAddr mem pd v) w) pd' u = translateIn mem pd' u := by
  obtain ⟨-, hself, hother⟩ := translateIn_store (h.dirWf hpd) hv hpres w
  have haddr : pteAddr mem pd v = phyGet (pageWord mem pd (dirGet v)) + 4 * tlbGet v := rfl
  have htable := pageAligned_phyGet (pageWord mem pd (dirGet v))
  have hdir : ∀ pd' ∈ dirs, ∀ e : UInt32, e.toNat < 1024 →
      pageWord (write32 mem (pteAddr mem pd v) w) pd' e = pageWord mem pd' e := by
    intro pd' hpd' e he
    rw [haddr, pageWord_write mem _ (h.aligned pd' hpd') htable he (tlbGet_lt v), if_neg]
    exact fun hc => h.ne_dir pd hpd pd' hpd' _ (dirGet_lt v) hpres hc.1.symm
  refine ⟨hdir, hself, fun pd' hpd' u hu hne => ?_⟩
  by_cases hsame : pd' = pd
  · subst hsame
    exact hother u hu (hne.resolve_left fun hc => hc rfl)
  · refine translateIn_congr (hdir pd' hpd' _ (dirGet_lt u)) fun hu' => ?_
    rw [haddr, pageWord_write mem _ (pageAligned_phyGet _) htable (tlbGet_lt u) (tlbGet_lt v), if_neg]
    exact fun hc => hsame (h.inj pd' hpd' pd hpd _ _ (dirGet_lt u) (dirGet_lt v) hu' hpres hc.1).1

/-- **Entering a table** that nobody has. -/
theorem SpacesWf.enter (h : SpacesWf mem dirs) (hpd : pd ∈ dirs) {e₀ : UInt32}
    (hself : pageWord mem' pd e₀ = w)
    (hother : ∀ pd' ∈ dirs, ∀ e : UInt32, e.toNat < 1024 → (pd' ≠ pd ∨ e ≠ e₀) →
      pageWord mem' pd' e = pageWord mem pd' e)
    (hnew : ¬ InUse mem dirs (phyGet w)) : SpacesWf mem' dirs := by
  have hcase : ∀ pd' ∈ dirs, ∀ e : UInt32, e.toNat < 1024 →
      pd' = pd ∧ e = e₀ ∧ pageWord mem' pd' e = w ∨ pageWord mem' pd' e = pageWord mem pd' e := by
    intro pd' hpd' e he
    by_cases hc : pd' = pd ∧ e = e₀
    · obtain ⟨rfl, rfl⟩ := hc
      exact Or.inl ⟨rfl, rfl, hself⟩
    · exact Or.inr (hother pd' hpd' e he (not_and_or.1 hc))
  refine ⟨h.aligned, fun pd₁ h₁ pd₂ h₂ e he hp => ?_, fun pd₁ h₁ pd₂ h₂ e e' he he' hp hp' hsame => ?_⟩
  · rcases hcase pd₁ h₁ e he with ⟨-, -, hw⟩ | hw
    · rw [hw]
      exact fun hc => hnew (Or.inl (hc ▸ h₂))
    · rw [hw] at hp ⊢
      exact h.ne_dir pd₁ h₁ pd₂ h₂ e he hp
  · rcases hcase pd₁ h₁ e he with ⟨rfl, rfl, hw⟩ | hw <;>
      rcases hcase pd₂ h₂ e' he' with ⟨rfl, rfl, hw'⟩ | hw'
    · exact ⟨rfl, rfl⟩
    · rw [hw, hw'] at hsame
      rw [hw'] at hp'
      exact absurd (Or.inr ⟨pd₂, h₂, e', he', hp', hsame.symm⟩) hnew
    · rw [hw, hw'] at hsame
      rw [hw] at hp
      exact absurd (Or.inr ⟨pd₁, h₁, e, he, hp, hsame⟩) hnew
    · rw [hw] at hp hsame
      rw [hw'] at hp' hsame
      exact h.inj pd₁ h₁ pd₂ h₂ e e' he he' hp hp' hsame

end Spaces

/-! ### Mapping a page -/

/-- The frame that a page has in a table just made: its own number at boot, and later frame zero. -/
def newPage (m : Machine) (u : UInt32) : UInt32 := if m.pagingState = 0 then tlbGet u * 0x1000 else 0

/-- What a directory maps once `v` is mapped to `p`. -/
def mapped (m : Machine) (p v pd : UInt32) (old : UInt32 → Option UInt32) : UInt32 → Option UInt32 :=
  fun u =>
    if u = v then some p
    else if ¬ Present (pageWord m.mem pd (dirGet v)) ∧ dirGet u = dirGet v then some (newPage m u)
    else old u

/-- There is a frame for a directory or a table. -/
structure FrameRoom (m : Machine) (frame : UInt32) : Prop where
  alloc : frameAlloc m = some (frame, frameSet frame m)
  ne_zero : frame ≠ 0
  free : m.frameBitmap.words (frame / 0x1000) = 0

/-- There is one for a table, and what `table_create` clears with it is none of the directories and
tables. -/
structure TableRoom (m : Machine) (dirs : List UInt32) (frame : UInt32) : Prop
    extends FrameRoom m frame where
  spares : m.pagingState ≠ 0 → frame.toNat + 0x4000 < 2 ^ 32 ∧
    ∀ base, InUse m.mem dirs base → Apart frame (frame + 0x4000).toNat base 0x1000

section Map

variable {m : Machine} {dirs : List UInt32} {p v flags pageDir frame : UInt32}

theorem FrameRoom.aligned (h : FrameRoom m frame) : PageAligned frame := (frameAlloc_maps h.alloc).2

theorem FrameRoom.not_inUse (h : FrameRoom m frame) (hok : SpacesOk m dirs) :
    ¬ InUse m.mem dirs frame :=
  fun hin => hok.used frame hin h.free

/-- A word of a page, as a place in it. -/
theorem pageWord_offset {base i : UInt32} (hb : PageAligned base) (hi : i.toNat < 1024) :
    (base + 4 * i - base).toNat = 4 * i.toNat := by
  rw [toNat_sub_of_le (by rw [entry_toNat hb hi]; omega), entry_toNat hb hi]
  omega

/-- A page cleared, and one out of its reach. -/
theorem pageWord_fill_self (mem : Mem) {base i : UInt32} {n : ℕ} (hb : PageAligned base)
    (hi : i.toNat < 1024) (hn : 0x1000 ≤ n) : pageWord (fill mem base 0 n) base i = 0 := by
  refine (read32_congr fun k hk => ?_).trans (pageWord_zero base i)
  have hoff := pageWord_offset hb hi
  refine if_pos ?_
  rw [show base + 4 * i + k - base = base + 4 * i - base + k by grind,
    toNat_add_of_lt (by omega), hoff]
  omega

theorem pageWord_fill_other (mem : Mem) {base base' i : UInt32} {n : ℕ} (hb : PageAligned base)
    (hi : i.toNat < 1024) (hapart : Apart base' n base 0x1000) :
    pageWord (fill mem base' 0 n) base i = pageWord mem base i := by
  refine read32_of_apart (fun x hx => fill_of_far mem 0 hx) (hapart.symm.within (by decide) ?_).symm
  rw [pageWord_offset hb hi]
  omega

/-- The words of the new table, and those of the directories and tables that are there. -/
theorem TableRoom.words (h : TableRoom m dirs frame) (hok : SpacesOk m dirs) {i : UInt32}
    (hi : i.toNat < 1024) :
    pageWord (tableFill frame 3 (frameSet frame m)).mem frame i =
      (if m.pagingState = 0 then i * 0x1000 else 0) ||| 3 ∧
    ∀ base, InUse m.mem dirs base → PageAligned base →
      pageWord (tableFill frame 3 (frameSet frame m)).mem base i = pageWord m.mem base i := by
  have hal := h.aligned
  have hne : ∀ base, InUse m.mem dirs base → base ≠ frame :=
    fun base hin hc => h.not_inUse hok (hc ▸ hin)
  by_cases hboot : m.pagingState = 0
  · have hfill : tableFill frame 3 (frameSet frame m) = { frameSet frame m with
        mem := fillTable frame (fun i _ => i * 0x1000 ||| 3) m.mem } := if_pos hboot
    rw [hfill, if_pos hboot]
    refine ⟨?_, fun base hin hb => ?_⟩
    · rw [pageWord_fillTable _ _ hal hal hi, if_pos rfl]
    · rw [pageWord_fillTable _ _ hal hb hi, if_neg (hne base hin)]
  · obtain ⟨hlt, hspares⟩ := h.spares hboot
    have hlater : (frameSet frame m).pagingState ≠ 0 := hboot
    have hlen : 0x1000 ≤ (frame + 0x4000).toNat := by
      simp only [UInt32.toNat_add, UInt32.reduceToNat]
      omega
    rw [if_neg hboot]
    refine ⟨?_, fun base hin hb => ?_⟩
    · rw [tableFill_words hlater hal hi]
      exact congrArg (· ||| 3) (pageWord_fill_self m.mem hal hi hlen)
    · rw [tableFill_mem hlater, if_pos (by decide), pageWord_fillTable _ _ hal hb hi,
        if_neg (hne base hin)]
      exact pageWord_fill_other m.mem hb hi (hspares base hin)

/-- What `page_map` does to the directories. -/
structure Remaps (m m' : Machine) (dirs : List UInt32) (p v pd : UInt32) : Prop where
  ok : SpacesOk m' dirs
  cr3 : m'.cr3 = m.cr3
  maps : ∀ pd' ∈ dirs, ∀ u, PageAligned u → translateIn m'.mem pd' u =
    if pd' = pd then mapped m p v pd (translateIn m.mem pd) u else translateIn m.mem pd' u

theorem SpacesOk.store (h : SpacesOk m dirs) {pd : UInt32} (hpd : pd ∈ dirs) (hv : PageAligned v)
    (hpres : Present (pageWord m.mem pd (dirGet v))) (w : UInt32) :
    SpacesOk { m with mem := write32 m.mem (pteAddr m.mem pd v) w } dirs := by
  obtain ⟨hdir, -, -⟩ := h.toSpacesWf.store hpd hv hpres w
  exact ⟨h.toSpacesWf.congr hdir, fun base hin => h.used base (hin.congr hdir)⟩

/-- Where there is a table. -/
theorem pageMap_there (h : SpacesOk m dirs) (hpd : pageDirectory pageDir m ∈ dirs)
    (hp : PageAligned p) (hv : PageAligned v) (hflags : flags < 0x1000)
    (hpres : Present (pageWord m.mem (pageDirectory pageDir m) (dirGet v))) :
    ∃ m', pageMap p v flags pageDir m = some (v, m') ∧
      Remaps m m' dirs p v (pageDirectory pageDir m) := by
  obtain ⟨-, hself, hother⟩ := h.toSpacesWf.store hpd hv hpres (p ||| flags ||| 1)
  rw [if_pos (present_or p flags), phyGet_or_low hp hflags] at hself
  refine ⟨_, ?_, h.store hpd hv hpres (p ||| flags ||| 1), rfl, fun pd' hpd' u hu => ?_⟩
  · rw [pageMap_run flags pageDir hp hv, pageMapTable_there hpres]
    rfl
  · by_cases hsame : pd' = pageDirectory pageDir m
    · rw [if_pos hsame, hsame, mapped]
      by_cases huv : u = v
      · rw [if_pos huv, huv]
        exact hself
      · rw [if_neg huv, if_neg fun hc => hc.1 hpres]
        exact hother _ hpd u hu (Or.inr huv)
    · rw [if_neg hsame]
      exact hother pd' hpd' u hu (Or.inl hsame)

/-- **Where there is none**, once it is entered. -/
theorem SpacesOk.enter (h : SpacesOk m dirs) {pd : UInt32} (hpd : pd ∈ dirs)
    (habsent : ¬ Present (pageWord m.mem pd (dirGet v))) (hroom : TableRoom m dirs frame) :
    let m' := tableMap pd (dirGet v) frame 3 (tableFill frame 3 (frameSet frame m))
    SpacesOk m' dirs ∧ m'.cr3 = m.cr3 ∧ Present (pageWord m'.mem pd (dirGet v)) ∧
      ∀ pd' ∈ dirs, ∀ u, PageAligned u → translateIn m'.mem pd' u =
        if pd' = pd ∧ dirGet u = dirGet v then some (newPage m u) else translateIn m.mem pd' u := by
  have hal := hroom.aligned
  have hpage := h.toSpacesWf.aligned
  have hdirne : ∀ pd' ∈ dirs, pd' ≠ frame :=
    fun pd' hpd' hc => hroom.not_inUse h (hc ▸ Or.inl hpd')
  -- the words of the directories
  have hself : pageWord (write32 (tableFill frame 3 (frameSet frame m)).mem (pd + 4 * dirGet v)
      (frame ||| 3)) pd (dirGet v) = frame ||| 3 := by
    rw [pageWord_write _ _ (hpage pd hpd) (hpage pd hpd) (dirGet_lt v) (dirGet_lt v), if_pos ⟨rfl, rfl⟩]
  have hother : ∀ pd' ∈ dirs, ∀ e : UInt32, e.toNat < 1024 → (pd' ≠ pd ∨ e ≠ dirGet v) →
      pageWord (write32 (tableFill frame 3 (frameSet frame m)).mem (pd + 4 * dirGet v) (frame ||| 3))
        pd' e = pageWord m.mem pd' e := by
    intro pd' hpd' e he hne
    rw [pageWord_write _ _ (hpage pd' hpd') (hpage pd hpd) he (dirGet_lt v),
      if_neg (not_and_or.2 hne)]
    exact (hroom.words h he).2 pd' (Or.inl hpd') (hpage pd' hpd')
  -- and those of the tables
  have htable : ∀ base, base ∉ dirs → PageAligned base → ∀ i : UInt32, i.toNat < 1024 →
      pageWord (write32 (tableFill frame 3 (frameSet frame m)).mem (pd + 4 * dirGet v) (frame ||| 3))
        base i = pageWord (tableFill frame 3 (frameSet frame m)).mem base i := by
    intro base hbase hb i hi
    have hne : base ≠ pd := fun hc => hbase (hc ▸ hpd)
    rw [pageWord_write _ _ hb (hpage pd hpd) hi (dirGet_lt v), if_neg (not_and_of_not_left _ hne)]
  have hwf : SpacesWf (write32 (tableFill frame 3 (frameSet frame m)).mem (pd + 4 * dirGet v)
      (frame ||| 3)) dirs := by
    refine h.toSpacesWf.enter hpd hself hother ?_
    rw [phyGet_three hal]
    exact hroom.not_inUse h
  refine ⟨⟨hwf, fun base hin => ?_⟩, ?_, ?_, fun pd' hpd' u hu => ?_⟩
  · show (tableFill frame 3 (frameSet frame m)).frameBitmap.words (base / 0x1000) ≠ 0
    rw [tableFill_frames]
    rcases hin with hdir | ⟨pd', hpd', e, he, hp, rfl⟩
    · exact (frameSet_maps frame m).used _ (h.used base (Or.inl hdir))
    · change Present (pageWord (write32 _ (pd + 4 * dirGet v) (frame ||| 3)) pd' e) at hp
      change (frameSet frame m).frameBitmap.words (phyGet (pageWord (write32 _ (pd + 4 * dirGet v)
        (frame ||| 3)) pd' e) / 0x1000) ≠ 0
      by_cases hc : pd' = pd ∧ e = dirGet v
      · rw [hc.1, hc.2, hself, phyGet_three hal]
        exact frameSet_used frame m
      · rw [hother pd' hpd' e he (not_and_or.1 hc)] at hp ⊢
        exact (frameSet_maps frame m).used _ (h.used _ (Or.inr ⟨pd', hpd', e, he, hp, rfl⟩))
  · exact ((frameSet_maps frame m).trans (tableFill_maps frame 3 _)).cr3_eq
  · show Present (pageWord (write32 _ (pd + 4 * dirGet v) (frame ||| 3)) pd (dirGet v))
    rw [hself]
    exact present_or_three frame
  · show translateIn (write32 _ (pd + 4 * dirGet v) (frame ||| 3)) pd' u = _
    by_cases hc : pd' = pd ∧ dirGet u = dirGet v
    · obtain ⟨rfl, hregion⟩ := hc
      have hword := htable frame (fun hin => hdirne frame hin rfl) hal (tlbGet u) (tlbGet_lt u)
      rw [(hroom.words h (tlbGet_lt u)).1] at hword
      rw [if_pos ⟨rfl, hregion⟩, translateIn, hregion, hself, phyGet_three hal, hword,
        if_pos ⟨present_or_three _, present_or_three _⟩, newPage]
      split
      · rw [phyGet_three (pageAligned_mul _)]
      · rw [phyGet_three (by decide)]
    · rw [if_neg hc]
      refine translateIn_congr (hother pd' hpd' _ (dirGet_lt u) (not_and_or.1 hc)) fun hu' => ?_
      have hbase : InUse m.mem dirs (phyGet (pageWord m.mem pd' (dirGet u))) :=
        Or.inr ⟨pd', hpd', dirGet u, dirGet_lt u, hu', rfl⟩
      rw [htable _ (fun hin => h.ne_dir pd' hpd' _ hin _ (dirGet_lt u) hu' rfl)
        (pageAligned_phyGet _) _ (tlbGet_lt u)]
      exact (hroom.words h (tlbGet_lt u)).2 _ hbase (pageAligned_phyGet _)

theorem pageMap_new (h : SpacesOk m dirs) (hpd : pageDirectory pageDir m ∈ dirs)
    (hp : PageAligned p) (hv : PageAligned v) (hflags : flags < 0x1000)
    (habsent : ¬ Present (pageWord m.mem (pageDirectory pageDir m) (dirGet v)))
    (hroom : TableRoom m dirs frame) :
    ∃ m', pageMap p v flags pageDir m = some (v, m') ∧
      Remaps m m' dirs p v (pageDirectory pageDir m) := by
  obtain ⟨hok, hcr3, hpres, hmaps⟩ := h.enter hpd habsent hroom
  generalize hm' : tableMap (pageDirectory pageDir m) (dirGet v) frame 3
    (tableFill frame 3 (frameSet frame m)) = m' at *
  obtain ⟨-, hself, hother⟩ := hok.toSpacesWf.store hpd hv hpres (p ||| flags ||| 1)
  rw [if_pos (present_or p flags), phyGet_or_low hp hflags] at hself
  refine ⟨_, ?_, hok.store hpd hv hpres (p ||| flags ||| 1), hcr3, fun pd' hpd' u hu => ?_⟩
  · rw [pageMap_run flags pageDir hp hv, pageMapTable_new habsent hroom.alloc, if_neg hroom.ne_zero, hm']
    rfl
  · by_cases hsame : pd' = pageDirectory pageDir m
    · rw [if_pos hsame, hsame, mapped]
      by_cases huv : u = v
      · rw [if_pos huv, huv]
        exact hself
      · rw [if_neg huv]
        refine (hother _ hpd u hu (Or.inr huv)).trans ?_
        rw [hmaps _ hpd u hu]
        simp only [true_and, habsent, not_false_eq_true]
    · rw [if_neg hsame]
      refine (hother pd' hpd' u hu (Or.inl hsame)).trans ?_
      rw [hmaps pd' hpd' u hu, if_neg fun hc => hsame hc.1]

end Map

/-! ### The other operations -/

section Others

variable {m : Machine} {dirs : List UInt32} {v pageDir pd frame : UInt32}

theorem pageUnmap_spaces (h : SpacesOk m dirs) (hpd : pageDirectory pageDir m ∈ dirs)
    (hv : PageAligned v) : SpacesOk (pageUnmap v pageDir m) dirs ∧
      ∀ pd' ∈ dirs, ∀ u, PageAligned u → translateIn (pageUnmap v pageDir m).mem pd' u =
        if pd' = pageDirectory pageDir m ∧ u = v then none else translateIn m.mem pd' u := by
  by_cases hpres : Present (pageWord m.mem (pageDirectory pageDir m) (dirGet v))
  · rw [pageUnmap_present hv hpres]
    obtain ⟨-, hself, hother⟩ := h.toSpacesWf.store hpd hv hpres 0
    refine ⟨h.store hpd hv hpres 0, fun pd' hpd' u hu => ?_⟩
    by_cases hc : pd' = pageDirectory pageDir m ∧ u = v
    · rw [if_pos hc, hc.1, hc.2]
      exact hself
    · rw [if_neg hc]
      exact hother pd' hpd' u hu (not_and_or.1 hc)
  · rw [pageUnmap_absent hv hpres]
    refine ⟨h, fun pd' hpd' u hu => ?_⟩
    by_cases hc : pd' = pageDirectory pageDir m ∧ u = v
    · rw [if_pos hc, hc.1, hc.2]
      exact if_neg fun hp => hpres hp.1
    · rw [if_neg hc]

theorem directoryCreate_room (hroom : FrameRoom m frame) : ∃ m', directoryCreate 2 m = some (frame, m') ∧
    m'.frameBitmap = (frameSet frame m).frameBitmap ∧
      m'.mem = fillTable frame (fun _ _ => 2) m.mem := by
  refine ⟨{ frameSet frame m with mem := fillTable frame (fun _ _ => 2) (frameSet frame m).mem },
    ?_, rfl, by rw [frameSet]⟩
  rw [directoryCreate, hroom.alloc, Option.map_some, if_neg hroom.ne_zero]

/-- A new directory is empty. -/
theorem SpacesOk.create (h : SpacesOk m dirs) (hroom : FrameRoom m frame) {m' : Machine}
    (hframes : m'.frameBitmap = (frameSet frame m).frameBitmap)
    (hmem : m'.mem = fillTable frame (fun _ _ => 2) m.mem) : SpacesOk m' (frame :: dirs) ∧
      ∀ pd' ∈ frame :: dirs, ∀ u, PageAligned u →
        translateIn m'.mem pd' u = if pd' = frame then none else translateIn m.mem pd' u := by
  have hal := hroom.aligned
  have hnew := hroom.not_inUse h
  have habsent : ¬ Present 2 := by decide
  have hself : ∀ e : UInt32, e.toNat < 1024 → pageWord m'.mem frame e = 2 := by
    intro e he
    rw [hmem, pageWord_fillTable _ _ hal hal he, if_pos rfl]
  have hother : ∀ base, InUse m.mem dirs base → PageAligned base → ∀ e : UInt32, e.toNat < 1024 →
      pageWord m'.mem base e = pageWord m.mem base e := by
    intro base hin hb e he
    have hne : base ≠ frame := fun hc => hnew (hc ▸ hin)
    rw [hmem, pageWord_fillTable _ _ hal hb he, if_neg hne]
  have hdir : ∀ pd' ∈ dirs, ∀ e : UInt32, e.toNat < 1024 →
      pageWord m'.mem pd' e = pageWord m.mem pd' e :=
    fun pd' hpd' => hother pd' (Or.inl hpd') (h.aligned pd' hpd')
  -- a present entry is one of the old directories'
  have hold : ∀ pd' ∈ frame :: dirs, ∀ e : UInt32, e.toNat < 1024 →
      Present (pageWord m'.mem pd' e) → pd' ∈ dirs ∧ Present (pageWord m.mem pd' e) := by
    intro pd' hpd' e he hp
    rcases List.mem_cons.1 hpd' with rfl | hpd'
    · rw [hself e he] at hp
      exact absurd hp habsent
    · rw [hdir pd' hpd' e he] at hp
      exact ⟨hpd', hp⟩
  refine ⟨⟨⟨fun pd' hpd' => ?_, fun pd₁ h₁ pd₂ h₂ e he hp => ?_,
    fun pd₁ h₁ pd₂ h₂ e e' he he' hp hp' hsame => ?_⟩, fun base hin => ?_⟩, fun pd' hpd' u hu => ?_⟩
  · rcases List.mem_cons.1 hpd' with rfl | hpd'
    · exact hal
    · exact h.aligned pd' hpd'
  · obtain ⟨h₁', hp'⟩ := hold pd₁ h₁ e he hp
    rw [hdir pd₁ h₁' e he]
    rcases List.mem_cons.1 h₂ with rfl | h₂
    · exact fun hc => hnew (Or.inr ⟨pd₁, h₁', e, he, hp', hc⟩)
    · exact h.ne_dir pd₁ h₁' pd₂ h₂ e he hp'
  · obtain ⟨h₁', hp₁⟩ := hold pd₁ h₁ e he hp
    obtain ⟨h₂', hp₂⟩ := hold pd₂ h₂ e' he' hp'
    rw [hdir pd₁ h₁' e he, hdir pd₂ h₂' e' he'] at hsame
    exact h.inj pd₁ h₁' pd₂ h₂' e e' he he' hp₁ hp₂ hsame
  · rw [hframes]
    rcases hin with hbase | ⟨pd', hpd', e, he, hp, rfl⟩
    · rcases List.mem_cons.1 hbase with rfl | hbase
      · exact frameSet_used base m
      · exact (frameSet_maps frame m).used _ (h.used base (Or.inl hbase))
    · obtain ⟨hpd, hp'⟩ := hold pd' hpd' e he hp
      rw [hdir pd' hpd e he]
      exact (frameSet_maps frame m).used _ (h.used _ (Or.inr ⟨pd', hpd, e, he, hp', rfl⟩))
  · rcases List.mem_cons.1 hpd' with rfl | hpd'
    · rw [if_pos rfl, translateIn, hself _ (dirGet_lt u), if_neg fun hc => habsent hc.1]
    · have hne : pd' ≠ frame := fun hc => hnew (Or.inl (hc ▸ hpd'))
      rw [if_neg hne]
      refine translateIn_congr (hdir pd' hpd' _ (dirGet_lt u)) fun hp => ?_
      exact hother _ (Or.inr ⟨pd', hpd', _, dirGet_lt u, hp, rfl⟩) (pageAligned_phyGet _) _ (tlbGet_lt u)

/-! ### Copying a directory -/

theorem copyTable_other (table : UInt32) (mem : Mem) {copy base i : UInt32} (hc : PageAligned copy)
    (hb : PageAligned base) (hne : base ≠ copy) (hi : i.toNat < 1024) :
    pageWord (copyTable table copy mem) base i = pageWord mem base i :=
  @Loop.forUp_inv Mem (fun _ mem' => pageWord mem' base i = pageWord mem base i)
    (fun i mem => write32 mem (copy + 4 * UInt32.ofNat i) (read32 mem (table + 4 * UInt32.ofNat i)))
    1024 0 mem rfl (by
      intro k mem' _ hk hsame
      have hk' : (UInt32.ofNat k).toNat < 1024 := by
        rw [toNat_ofNat_of_lt (by omega)]
        omega
      rw [pageWord_write mem' _ hb hc hi hk', if_neg fun h => hne h.1]
      exact hsame)

/-- The entries of a directory, from the `i`th on, that are present. -/
def presentFrom (mem : Mem) (directory : UInt32) (i n : ℕ) : ℕ :=
  (List.range' i n).countP fun e => Present (pageWord mem directory (UInt32.ofNat e))

/-- Enough frames for `k` tables, and the search for them comes to an end. -/
structure FramesLeft (m : Machine) (k : ℕ) : Prop where
  size : m.frameBitmap.size ≠ 0xFFFFFFFF
  zero : m.frameBitmap.words 0 ≠ 0
  enough : k ≤ (freeFrames m).card

/-- What copying does: frames are taken, one for each table copied, and nothing in use changes. -/
structure CopiesOnly (m m' : Machine) (dirs : List UInt32) (k : ℕ) : Prop where
  ok : SpacesOk m' dirs
  keeps : Maps m m'
  frames : (freeFrames m').card + k = (freeFrames m).card
  words : ∀ base, InUse m.mem dirs base → PageAligned base → ∀ i : UInt32, i.toNat < 1024 →
    pageWord m'.mem base i = pageWord m.mem base i

theorem FramesLeft.room {k : ℕ} (h : FramesLeft m (k + 1)) : ∃ frame, FrameRoom m frame ∧
    FramesLeft (frameSet frame m) k ∧ (freeFrames (frameSet frame m)).card + 1 = (freeFrames m).card := by
  obtain ⟨i, hi, halloc, herase, -⟩ := frameAlloc_least h.size
    (Finset.card_pos.1 (lt_of_lt_of_le (Nat.succ_pos k) h.enough))
  have hcard := Finset.card_erase_add_one hi
  rw [← herase] at hcard
  obtain ⟨-, hi20, hfree⟩ := mem_freeFrames.1 hi
  have hdiv : (pageAddr i / 0x1000) = UInt32.ofNat i := by
    rw [← ofNat_toNat (pageAddr i / 0x1000), pageAddr_div hi20]
  have hzero : pageAddr i ≠ 0 := by
    intro hc
    rw [hc] at hdiv
    rw [← hdiv] at hfree
    exact h.zero hfree
  refine ⟨pageAddr i, ⟨halloc, hzero, by rw [hdiv]; exact hfree⟩,
    ⟨h.size, (frameSet_maps _ m).used 0 h.zero, ?_⟩, hcard⟩
  have henough := h.enough
  omega

theorem copyTurn_absent {directory : UInt32} {i : ℕ}
    (habsent : ¬ Present (pageWord m.mem directory (UInt32.ofNat i))) :
    directoryCopyTurn directory i m = some m := by
  unfold directoryCopyTurn
  exact if_neg habsent

/-- A turn that copies a table. -/
theorem copyTurn_present (h : SpacesOk m dirs) {directory : UInt32} {i k : ℕ}
    (hpres : Present (pageWord m.mem directory (UInt32.ofNat i))) (hleft : FramesLeft m (k + 1)) :
    ∃ m', directoryCopyTurn directory i m = some m' ∧ FramesLeft m' k ∧ CopiesOnly m m' dirs 1 := by
  obtain ⟨frame, hroom, hleft', hcard⟩ := hleft.room
  have hal := hroom.aligned
  have hnew := hroom.not_inUse h
  have hturn : directoryCopyTurn directory i m = some (tableCopy
      (phyGet (pageWord m.mem directory (UInt32.ofNat i))) frame (frameSet frame m)) := by
    unfold directoryCopyTurn
    refine (if_pos hpres).trans ?_
    rw [hroom.alloc]
    rfl
  obtain ⟨m', hm'⟩ : ∃ m', m' = tableCopy (phyGet (pageWord m.mem directory (UInt32.ofNat i))) frame
    (frameSet frame m) := ⟨_, rfl⟩
  rw [← hm'] at hturn
  have hkeeps : Maps (frameSet frame m) m' := by
    rw [hm']
    exact maps_mem _ _
  have hframes : m'.frameBitmap = (frameSet frame m).frameBitmap := by rw [hm', tableCopy]
  have hmem : m'.mem = copyTable (phyGet (pageWord m.mem directory (UInt32.ofNat i))) frame m.mem := by
    rw [hm', tableCopy, frameSet]
  have hwords : ∀ base, InUse m.mem dirs base → PageAligned base → ∀ j : UInt32, j.toNat < 1024 →
      pageWord m'.mem base j = pageWord m.mem base j := by
    intro base hin hb j hj
    have hne : base ≠ frame := fun hc => hnew (hc ▸ hin)
    rw [hmem, copyTable_other _ _ hal hb hne hj]
  have hdir : ∀ pd ∈ dirs, ∀ e : UInt32, e.toNat < 1024 → pageWord m'.mem pd e = pageWord m.mem pd e :=
    fun pd hpd => hwords pd (Or.inl hpd) (h.aligned pd hpd)
  rw [← freeFrames_congr hframes] at hcard
  refine ⟨m', hturn, ⟨?_, ?_, ?_⟩, ⟨h.toSpacesWf.congr hdir, fun base hin => ?_⟩,
    (frameSet_maps frame m).trans hkeeps, hcard, hwords⟩
  · rw [hframes]
    exact hleft'.size
  · rw [hframes]
    exact hleft'.zero
  · rw [freeFrames_congr hframes]
    exact hleft'.enough
  · rw [hframes]
    exact (frameSet_maps frame m).used _ (h.used base (hin.congr hdir))

theorem directoryCopyFrom_spec {directory : UInt32} (hdir : directory ∈ dirs) :
    ∀ (n i : ℕ) (m : Machine), i + n ≤ 1024 → SpacesOk m dirs →
      FramesLeft m (presentFrom m.mem directory i n) →
      ∃ m', directoryCopyFrom directory i n m = some m' ∧
        CopiesOnly m m' dirs (presentFrom m.mem directory i n) := by
  intro n
  induction n with
  | zero =>
    intro i m _ h _
    exact ⟨m, rfl, h, Maps.refl m, rfl, fun _ _ _ _ _ => rfl⟩
  | succ n ih =>
    intro i m hi h hleft
    have hiw : (UInt32.ofNat i).toNat < 1024 := by
      rw [toNat_ofNat_of_lt (by omega)]
      omega
    have hcount : presentFrom m.mem directory i (n + 1) = presentFrom m.mem directory (i + 1) n +
        if Present (pageWord m.mem directory (UInt32.ofNat i)) then 1 else 0 := by
      rw [presentFrom, List.range'_succ, List.countP_cons, presentFrom]
      simp only [decide_eq_true_eq]
    rw [hcount] at hleft ⊢
    by_cases hpres : Present (pageWord m.mem directory (UInt32.ofNat i))
    · rw [if_pos hpres] at hleft ⊢
      obtain ⟨m₁, hturn, hleft₁, hone⟩ := copyTurn_present h hpres hleft
      -- the entries still to come are as they were
      have hsame : presentFrom m₁.mem directory (i + 1) n = presentFrom m.mem directory (i + 1) n := by
        refine List.countP_congr fun e he => ?_
        have he' := List.mem_range'.1 he
        rw [hone.words directory (Or.inl hdir) (h.aligned directory hdir) _ (by
          rw [toNat_ofNat_of_lt (by omega)]
          omega)]
      rw [← hsame] at hleft₁ ⊢
      obtain ⟨m', hrest, hcopied⟩ := ih (i + 1) m₁ (by omega) hone.ok hleft₁
      refine ⟨m', ?_, hcopied.ok, hone.keeps.trans hcopied.keeps, ?_, fun base hin hb j hj => ?_⟩
      · rw [directoryCopyFrom, hturn]
        exact hrest
      · have h1 := hone.frames
        have h2 := hcopied.frames
        omega
      · have hin' : InUse m₁.mem dirs base := hin.congr fun pd hpd e he =>
          (hone.words pd (Or.inl hpd) (h.aligned pd hpd) e he).symm
        rw [hcopied.words base hin' hb j hj]
        exact hone.words base hin hb j hj
    · rw [if_neg hpres, Nat.add_zero] at hleft ⊢
      obtain ⟨m', hrest, hcopied⟩ := ih (i + 1) m (by omega) h hleft
      refine ⟨m', ?_, hcopied⟩
      rw [directoryCopyFrom, copyTurn_absent hpres]
      exact hrest

/-- A page that nothing refers to is given back. -/
theorem SpacesOk.free (h : SpacesOk m dirs) {addr : UInt32} (haddr : PageAligned addr)
    (hnew : ¬ InUse m.mem dirs addr) : SpacesOk (frameFree addr m) dirs := by
  refine ⟨h.toSpacesWf, fun base hin => ?_⟩
  have hb : PageAligned base := by
    rcases hin with hbase | ⟨pd', hpd', e, he, hp, rfl⟩
    · exact h.aligned base hbase
    · exact pageAligned_phyGet _
  have hframes : base / 0x1000 ≠ addr / 0x1000 := by
    intro hc
    have hc' := congrArg UInt32.toNat hc
    rw [pageAligned_iff] at hb haddr
    simp only [UInt32.toNat_div, UInt32.reduceToNat] at hc'
    have hsame : base = addr := eq_of_toNat (by omega)
    exact hnew (hsame ▸ hin)
  show (if base / 0x1000 = addr / 0x1000 then 0 else m.frameBitmap.words (base / 0x1000)) ≠ 0
  rw [if_neg hframes]
  exact h.used base hin

/-- A directory is forgotten; its tables' frames stay used. -/
theorem SpacesOk.drop (h : SpacesOk m dirs) (pd : UInt32) : SpacesOk m (dirs.filter (· ≠ pd)) := by
  have hsub : ∀ pd' ∈ dirs.filter (· ≠ pd), pd' ∈ dirs := fun pd' hpd' => List.mem_of_mem_filter hpd'
  refine ⟨⟨fun pd' hpd' => h.aligned pd' (hsub pd' hpd'), fun pd₁ h₁ pd₂ h₂ =>
    h.ne_dir pd₁ (hsub pd₁ h₁) pd₂ (hsub pd₂ h₂), fun pd₁ h₁ pd₂ h₂ =>
      h.inj pd₁ (hsub pd₁ h₁) pd₂ (hsub pd₂ h₂)⟩, fun base hin => h.used base ?_⟩
  rcases hin with hbase | ⟨pd', hpd', e, he, hp, rfl⟩
  · exact Or.inl (hsub base hbase)
  · exact Or.inr ⟨pd', hsub pd' hpd', e, he, hp, rfl⟩

theorem SpacesOk.remove (h : SpacesOk m dirs) (hpd : pd ∈ dirs) :
    SpacesOk (directoryRemove pd m) (dirs.filter (· ≠ pd)) := by
  refine (h.drop pd).free (h.aligned pd hpd) ?_
  rintro (hbase | ⟨pd', hpd', e, he, hp, hsame⟩)
  · have hne := (List.mem_filter.1 hbase).2
    simp at hne
  · exact h.ne_dir pd' (List.mem_of_mem_filter hpd') pd hpd e he hp hsame

/-- An entry of a directory is cleared. -/
theorem SpacesOk.unmapTable (h : SpacesOk m dirs) (hpd : pd ∈ dirs) {e₀ : UInt32}
    (he₀ : e₀.toNat < 1024) : SpacesOk (tableUnmap pd e₀ m) dirs ∧
      ∀ pd' ∈ dirs, ∀ u, PageAligned u → translateIn (tableUnmap pd e₀ m).mem pd' u =
        if pd' = pd ∧ dirGet u = e₀ then none else translateIn m.mem pd' u := by
  have habsent : ¬ Present 0 := by decide
  have hword : ∀ base e : UInt32, PageAligned base → e.toNat < 1024 →
      pageWord (tableUnmap pd e₀ m).mem base e =
        if base = pd ∧ e = e₀ then 0 else pageWord m.mem base e :=
    fun base e hb he => pageWord_write m.mem 0 hb (h.aligned pd hpd) he he₀
  have hold : ∀ pd' ∈ dirs, ∀ e : UInt32, e.toNat < 1024 →
      Present (pageWord (tableUnmap pd e₀ m).mem pd' e) →
        pageWord (tableUnmap pd e₀ m).mem pd' e = pageWord m.mem pd' e := by
    intro pd' hpd' e he hp
    rw [hword pd' e (h.aligned pd' hpd') he] at hp ⊢
    by_cases hc : pd' = pd ∧ e = e₀
    · rw [if_pos hc] at hp
      exact absurd hp habsent
    · rw [if_neg hc]
  refine ⟨⟨⟨h.aligned, fun pd₁ h₁ pd₂ h₂ e he hp => ?_, fun pd₁ h₁ pd₂ h₂ e e' he he' hp hp' hsame => ?_⟩,
    fun base hin => h.used base ?_⟩, fun pd' hpd' u hu => ?_⟩
  · have hw := hold pd₁ h₁ e he hp
    rw [hw] at hp ⊢
    exact h.ne_dir pd₁ h₁ pd₂ h₂ e he hp
  · have hw := hold pd₁ h₁ e he hp
    have hw' := hold pd₂ h₂ e' he' hp'
    rw [hw] at hp hsame
    rw [hw'] at hp' hsame
    exact h.inj pd₁ h₁ pd₂ h₂ e e' he he' hp hp' hsame
  · rcases hin with hbase | ⟨pd', hpd', e, he, hp, rfl⟩
    · exact Or.inl hbase
    · have hw := hold pd' hpd' e he hp
      rw [hw] at hp ⊢
      exact Or.inr ⟨pd', hpd', e, he, hp, rfl⟩
  · by_cases hc : pd' = pd ∧ dirGet u = e₀
    · rw [if_pos hc, translateIn, hword pd' _ (h.aligned pd' hpd') (dirGet_lt u), if_pos hc,
        if_neg fun hp => habsent hp.1]
    · rw [if_neg hc]
      refine translateIn_congr ?_ fun hp => ?_
      · rw [hword pd' _ (h.aligned pd' hpd') (dirGet_lt u), if_neg hc]
      · rw [hword _ _ (pageAligned_phyGet _) (tlbGet_lt u),
          if_neg fun hc' => h.ne_dir pd' hpd' pd hpd _ (dirGet_lt u) hp hc'.1]

end Others

/-! ### Runs -/

/-- With paging on, the processor finds each of the pages at its physical address. -/
def Reached (m : Machine) (bases : List UInt32) : Prop :=
  m.pagingState ≠ 0 → ∀ base ∈ bases, translate m base = some base

instance (m : Machine) (bases : List UInt32) : Decidable (Reached m bases) :=
  inferInstanceAs (Decidable (_ → _))

/-- The pages in which a directory's entries for `v` are. -/
def walkPages (m : Machine) (pd v : UInt32) : List UInt32 :=
  pd :: if Present (pageWord m.mem pd (dirGet v)) then [phyGet (pageWord m.mem pd (dirGet v))] else []

/-- The pages that `table_create` stores to: with paging on it clears as many bytes as its last argument
makes, and that is an address. -/
def newTablePages (m : Machine) : List UInt32 :=
  (frameFind m).toList.flatMap fun frame =>
    (List.range ((frame + 0x4000).toNat / 0x1000)).map fun i => frame + UInt32.ofNat i * 0x1000

/-- The tables that `directory_copy` reads and the frames it copies them to. -/
def copyPages (directory : UInt32) : ℕ → ℕ → Machine → List UInt32
  | _, 0, _ => []
  | i, n + 1, m =>
    let entry := pageWord m.mem directory (UInt32.ofNat i)
    let here := if Present entry then phyGet entry :: (frameFind m).toList else []
    here ++ ((directoryCopyTurn directory i m).map (copyPages directory (i + 1) n)).getD []

/-- The machine, its directories, and what each is to map. -/
structure Spaces where
  machine : Machine
  dirs : List UInt32
  maps : UInt32 → UInt32 → Option UInt32

inductive SpaceOp
  | frame
  | unframe (addr : UInt32)
  | create
  | remove (pd : UInt32)
  | load (pd : UInt32)
  | copy (directory copy : UInt32)
  | unmapTable (directory pdindex : UInt32)
  | removeTable (tableAddr : UInt32)
  | map (physaddr virtualaddr flags pageDir : UInt32)
  | unmap (virtualaddr pageDir : UInt32)

/-- The pages of directories and tables that an operation needs. -/
def touchedPages (s : Spaces) : SpaceOp → List UInt32
  | .create => (frameFind s.machine).toList
  | .copy directory _ => directory :: copyPages directory 0 1024 s.machine
  | .unmapTable directory _ => [directory]
  | .map _ v _ pageDir => walkPages s.machine (pageDirectory pageDir s.machine) v ++
      if Present (pageWord s.machine.mem (pageDirectory pageDir s.machine) (dirGet v)) then []
      else newTablePages s.machine
  | .unmap v pageDir => walkPages s.machine (pageDirectory pageDir s.machine) v
  | .frame | .unframe _ | .remove _ | .load _ | .removeTable _ => []

def spaceCall (s : Spaces) : SpaceOp → Option Spaces
  | .frame => (frameAlloc s.machine).map fun x => { s with machine := x.2 }
  | .unframe addr => some { s with machine := frameFree addr s.machine }
  | .create => (directoryCreate 2 s.machine).map fun x =>
      { machine := x.2, dirs := x.1 :: s.dirs, maps := Function.update s.maps x.1 fun _ => none }
  | .remove pd => some
      { s with machine := directoryRemove pd s.machine, dirs := s.dirs.filter (· ≠ pd) }
  | .load pd => some { s with machine := directoryLoad pd s.machine }
  | .copy directory copy => (directoryCopy directory copy s.machine).map fun x =>
      { s with machine := x.2 }
  | .unmapTable directory pdindex => some
      { s with
        machine := tableUnmap directory pdindex s.machine
        maps := Function.update s.maps directory fun u =>
          if dirGet u = pdindex then none else s.maps directory u }
  | .removeTable tableAddr => some { s with machine := tableRemove tableAddr s.machine }
  | .map p v flags pageDir => (pageMap p v flags pageDir s.machine).map fun x =>
      { s with
        machine := x.2
        maps := Function.update s.maps (pageDirectory pageDir s.machine)
          (mapped s.machine p v (pageDirectory pageDir s.machine)
            (s.maps (pageDirectory pageDir s.machine))) }
  | .unmap v pageDir => some
      { s with
        machine := pageUnmap v pageDir s.machine
        maps := Function.update s.maps (pageDirectory pageDir s.machine)
          (Function.update (s.maps (pageDirectory pageDir s.machine)) v none) }

/-- An operation, or a page fault. -/
def spaceStep (s : Spaces) (o : SpaceOp) : Option Spaces :=
  if Reached s.machine (touchedPages s o) then spaceCall s o else none

/-- Operations are on directories there are, with page addresses; no frame or table is given back that is
still entered; and where frames are needed there are as many. -/
def SpaceOpOk (s : Spaces) : SpaceOp → Prop
  | .frame => True
  | .unframe addr => PageAligned addr ∧ ¬ InUse s.machine.mem s.dirs addr
  | .create => ∃ frame, FrameRoom s.machine frame
  | .remove pd => pd ∈ s.dirs
  | .load pd => pd ∈ s.dirs
  | .copy directory _ => directory ∈ s.dirs ∧
      FramesLeft s.machine (presentFrom s.machine.mem directory 0 1024)
  | .unmapTable directory pdindex => directory ∈ s.dirs ∧ pdindex.toNat < 1024
  | .removeTable tableAddr => PageAligned tableAddr ∧ ¬ InUse s.machine.mem s.dirs tableAddr
  | .map p v flags pageDir => pageDirectory pageDir s.machine ∈ s.dirs ∧ PageAligned p ∧
      PageAligned v ∧ flags < 0x1000 ∧
        (Present (pageWord s.machine.mem (pageDirectory pageDir s.machine) (dirGet v)) ∨
          ∃ frame, TableRoom s.machine s.dirs frame)
  | .unmap v pageDir => pageDirectory pageDir s.machine ∈ s.dirs ∧ PageAligned v

/-- With paging on, the directory that is loaded is one of them, so that nobody writes over it. -/
def SpaceAllowed (s : Spaces) (o : SpaceOp) : Prop :=
  (s.machine.pagingState ≠ 0 → s.machine.cr3 ∈ s.dirs) ∧ SpaceOpOk s o

section Run

variable {s s' : Spaces}

/-- The directories share nothing, and each maps the pages it is to map. -/
structure SpacesInv (s : Spaces) : Prop where
  ok : SpacesOk s.machine s.dirs
  maps : ∀ pd ∈ s.dirs, ∀ u, PageAligned u → translateIn s.machine.mem pd u = s.maps pd u

/-- A frame for something else. -/
theorem SpacesOk.frame {m m' : Machine} {dirs : List UInt32} {frame : UInt32} (h : SpacesOk m dirs)
    (halloc : frameAlloc m = some (frame, m')) : SpacesOk m' dirs ∧ m'.mem = m.mem := by
  obtain ⟨hkeeps, -⟩ := frameAlloc_maps halloc
  have hmem : m'.mem = m.mem := by
    obtain ⟨found, -, hfound⟩ := Option.map_eq_some_iff.1 halloc
    split at hfound <;> cases hfound <;> rfl
  refine ⟨⟨h.toSpacesWf.congr fun pd _ e _ => by rw [hmem], fun base hin => ?_⟩, hmem⟩
  rw [hmem] at hin
  exact hkeeps.used _ (h.used base hin)

/-- **The step.** -/
theorem SpacesInv.call (h : SpacesInv s) {o : SpaceOp} (ho : SpaceOpOk s o)
    (hstep : spaceCall s o = some s') : SpacesInv s' := by
  cases o with
  | frame =>
    obtain ⟨⟨frame, m'⟩, halloc, hs'⟩ := Option.map_eq_some_iff.1 hstep
    cases hs'
    obtain ⟨hok, hmem⟩ := h.ok.frame halloc
    refine ⟨hok, fun pd hpd u hu => ?_⟩
    show translateIn m'.mem pd u = _
    rw [hmem]
    exact h.maps pd hpd u hu
  | unframe addr =>
    cases hstep
    exact ⟨h.ok.free ho.1 ho.2, h.maps⟩
  | create =>
    obtain ⟨frame, hroom⟩ := ho
    obtain ⟨m', hrun, hframes, hmem⟩ := directoryCreate_room hroom
    obtain ⟨hok, hmaps⟩ := h.ok.create hroom hframes hmem
    rw [spaceCall, hrun] at hstep
    cases hstep
    refine ⟨hok, fun pd hpd u hu => (hmaps pd hpd u hu).trans ?_⟩
    show _ = Function.update s.maps frame (fun _ => none) pd u
    by_cases hpf : pd = frame
    · rw [if_pos hpf, hpf, Function.update_self]
    · rw [if_neg hpf, Function.update_of_ne hpf]
      exact h.maps pd ((List.mem_cons.1 hpd).resolve_left hpf) u hu
  | remove pd =>
    cases hstep
    exact ⟨h.ok.remove ho, fun pd' hpd' u hu => h.maps pd' (List.mem_of_mem_filter hpd') u hu⟩
  | load pd =>
    cases hstep
    exact ⟨⟨h.ok.toSpacesWf, h.ok.used⟩, h.maps⟩
  | copy directory copy =>
    obtain ⟨hdir, hleft⟩ := ho
    obtain ⟨m', hrun, hcopied⟩ := directoryCopyFrom_spec hdir 1024 0 s.machine le_rfl h.ok hleft
    rw [spaceCall, directoryCopy, hrun] at hstep
    cases hstep
    refine ⟨hcopied.ok, fun pd hpd u hu => ?_⟩
    rw [← h.maps pd hpd u hu]
    refine translateIn_congr ?_ fun hp => ?_
    · exact hcopied.words pd (Or.inl hpd) (h.ok.aligned pd hpd) _ (dirGet_lt u)
    · exact hcopied.words _ (Or.inr ⟨pd, hpd, _, dirGet_lt u, hp, rfl⟩) (pageAligned_phyGet _) _
        (tlbGet_lt u)
  | unmapTable directory pdindex =>
    obtain ⟨hdir, hlt⟩ := ho
    obtain ⟨hok, hmaps⟩ := h.ok.unmapTable hdir hlt
    cases hstep
    refine ⟨hok, fun pd hpd u hu => (hmaps pd hpd u hu).trans ?_⟩
    show _ = Function.update s.maps _ _ pd u
    by_cases hsame : pd = directory
    · subst hsame
      rw [Function.update_self, h.maps pd hpd u hu]
      simp only [true_and]
    · rw [if_neg fun hc => hsame hc.1, Function.update_of_ne hsame]
      exact h.maps pd hpd u hu
  | removeTable tableAddr =>
    cases hstep
    exact ⟨h.ok.free ho.1 ho.2, h.maps⟩
  | map p v flags pageDir =>
    obtain ⟨hpd, hp, hv, hflags, htable⟩ := ho
    have hmap : ∃ m', pageMap p v flags pageDir s.machine = some (v, m') ∧
        Remaps s.machine m' s.dirs p v (pageDirectory pageDir s.machine) := by
      by_cases hpres : Present (pageWord s.machine.mem (pageDirectory pageDir s.machine) (dirGet v))
      · exact pageMap_there h.ok hpd hp hv hflags hpres
      · obtain ⟨frame, hroom⟩ := htable.resolve_left hpres
        exact pageMap_new h.ok hpd hp hv hflags hpres hroom
    obtain ⟨m', hrun, hremaps⟩ := hmap
    rw [spaceCall, hrun] at hstep
    cases hstep
    refine ⟨hremaps.ok, fun pd' hpd' u hu => (hremaps.maps pd' hpd' u hu).trans ?_⟩
    show _ = Function.update s.maps _ _ pd' u
    by_cases hsame : pd' = pageDirectory pageDir s.machine
    · rw [if_pos hsame, hsame, Function.update_self, mapped, mapped, h.maps _ hpd u hu]
    · rw [if_neg hsame, Function.update_of_ne hsame]
      exact h.maps pd' hpd' u hu
  | unmap v pageDir =>
    obtain ⟨hpd, hv⟩ := ho
    obtain ⟨hok, hmaps⟩ := pageUnmap_spaces h.ok hpd hv
    cases hstep
    refine ⟨hok, fun pd' hpd' u hu => (hmaps pd' hpd' u hu).trans ?_⟩
    show _ = Function.update s.maps _ _ pd' u
    by_cases hsame : pd' = pageDirectory pageDir s.machine
    · rw [hsame, Function.update_self]
      by_cases huv : u = v
      · rw [if_pos ⟨rfl, huv⟩, huv, Function.update_self]
      · rw [if_neg fun hc => huv hc.2, Function.update_of_ne huv, h.maps _ hpd u hu]
    · rw [if_neg fun hc => hsame hc.1, Function.update_of_ne hsame]
      exact h.maps pd' hpd' u hu

theorem SpacesInv.step (h : SpacesInv s) {o : SpaceOp} (ho : SpaceAllowed s o)
    (hstep : spaceStep s o = some s') : SpacesInv s' := by
  by_cases hreach : Reached s.machine (touchedPages s o)
  · rw [spaceStep, if_pos hreach] at hstep
    exact h.call ho.2 hstep
  · rw [spaceStep, if_neg hreach] at hstep
    cases hstep

end Run

end CometOS
