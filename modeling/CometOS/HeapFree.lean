import CometOS.HeapRanges

/-!
# What `heap_free` takes away

The loop of `heap_free` starts at the block's first page and goes down, to page zero, while the
block's other pages lie above.  Here the effect of the whole loop is worked out for every state, and
with it the states in which `heap_free` undoes an allocation and nothing else.
-/

namespace CometOS

open ByteMemory Run Word32

/-! ### Clearing one word of the tables -/

/-- Whether the translation of `v` goes through the word at `w`. -/
def ReadsWord (m : Machine) (w v : UInt32) : Prop :=
  pdeAddr m.cr3 v = w ∨ pteAddr m.mem m.cr3 v = w

/-- A cleared word takes away the translations that go through it. -/
theorem translate_clear {m : Machine} {w : UInt32} (hcr3 : PageAligned m.cr3)
    (hw : w.toNat % 4 = 0) (v : UInt32) :
    (ReadsWord m w v → translate { m with mem := write32 m.mem w 0 } v = none) ∧
      (¬ ReadsWord m w v → translate { m with mem := write32 m.mem w 0 } v = translate m v) := by
  have hpd := read32_write32_aligned m.mem 0 hw (pdeAddr_aligned hcr3 v)
  have hpt := read32_write32_aligned m.mem 0 hw (pteAddr_aligned m.mem m.cr3 v)
  have hnot : ¬ Present 0 := by decide
  by_cases h₁ : pdeAddr m.cr3 v = w
  · rw [if_pos h₁] at hpd
    refine ⟨fun _ => ?_, fun h => absurd (Or.inl h₁) h⟩
    unfold translate
    rw [hpd, if_neg fun hc => hnot hc.1]
  · rw [if_neg h₁] at hpd
    have haddr : pteAddr (write32 m.mem w 0) m.cr3 v = pteAddr m.mem m.cr3 v := by
      rw [pteAddr, hpd, ← pteAddr]
    unfold translate
    rw [hpd, haddr, hpt]
    by_cases h₂ : pteAddr m.mem m.cr3 v = w
    · rw [if_pos h₂]
      exact ⟨fun _ => if_neg fun hc => hnot hc.2, fun h => absurd (Or.inr h₂) h⟩
    · rw [if_neg h₂]
      exact ⟨fun h => absurd h (not_or.2 ⟨h₁, h₂⟩), fun _ => rfl⟩

/-- The word that `page_unmap` clears for `u`, where it clears one. -/
def Unmaps (m : Machine) (u v : UInt32) : Prop :=
  Present (read32 m.mem (pdeAddr m.cr3 u)) ∧ ReadsWord m (pteAddr m.mem m.cr3 u) v

/-- **`page_unmap`** takes away the translations that go through the page's table word. -/
theorem pageUnmap_translate {m : Machine} {u : UInt32} (hcr3 : PageAligned m.cr3)
    (hu : PageAligned u) (v : UInt32) :
    (Unmaps m u v → translate (pageUnmap u 0 m) v = none) ∧
      (¬ Unmaps m u v → translate (pageUnmap u 0 m) v = translate m v) := by
  have hcond : ¬ u &&& 0xFFF ≠ 0 := not_not.2 hu
  have hclear := translate_clear hcr3 (pteAddr_aligned m.mem m.cr3 u) v
  by_cases hp : Present (read32 m.mem (pdeAddr m.cr3 u))
  · have heq : pageUnmap u 0 m = { m with mem := write32 m.mem (pteAddr m.mem m.cr3 u) 0 } := by
      unfold pageUnmap
      simp only [pageDirectory, ne_eq, not_true_eq_false, if_false, if_neg hcond, hp,
        UInt32.and_zero]
    rw [heq]
    exact ⟨fun h => hclear.1 h.2, fun h => hclear.2 fun hr => h ⟨hp, hr⟩⟩
  · have heq : pageUnmap u 0 m = m := by
      unfold pageUnmap
      simp only [pageDirectory, ne_eq, not_true_eq_false, if_false, if_neg hcond, hp,
        not_false_eq_true, if_true]
    rw [heq]
    exact ⟨fun h => absurd h.1 hp, fun _ => rfl⟩

/-- The page itself has no translation afterwards. -/
theorem pageUnmap_self {m : Machine} {u : UInt32} (hcr3 : PageAligned m.cr3) (hu : PageAligned u) :
    translate (pageUnmap u 0 m) u = none := by
  obtain ⟨hyes, hno⟩ := pageUnmap_translate hcr3 hu u
  by_cases hp : Present (read32 m.mem (pdeAddr m.cr3 u))
  · exact hyes ⟨hp, Or.inr rfl⟩
  · rw [hno fun h => hp h.1, translate, if_neg fun hc => hp hc.1]

/-- Unmapping gives no page a translation. -/
theorem pageUnmap_none {m : Machine} {u v : UInt32} (hcr3 : PageAligned m.cr3) (hu : PageAligned u)
    (h : translate m v = none) : translate (pageUnmap u 0 m) v = none := by
  obtain ⟨hyes, hno⟩ := pageUnmap_translate hcr3 hu v
  by_cases hc : Unmaps m u v
  · exact hyes hc
  · rw [hno hc, h]

/-! ### One turn of the loop -/

theorem frameFree_words (addr : UInt32) (m : Machine) (i : UInt32) :
    (frameFree addr m).frameBitmap.words i =
      if i = addr / 0x1000 then 0 else m.frameBitmap.words i := rfl

theorem pageUnmap_frames (v pageDir : UInt32) (m : Machine) :
    (pageUnmap v pageDir m).frameBitmap = m.frameBitmap := by
  unfold pageUnmap
  simp only
  split
  · rfl
  · split
    · rfl
    · rfl

/-! ### The whole loop -/

/-- The last page of the address space, where the loop ends up. -/
def topPage : UInt32 := 0xFFFFF000

theorem le_topPage {a : UInt32} (h : PageAligned a) : a.toNat ≤ topPage.toNat := by
  rw [pageAligned_iff] at h
  have := a.toNat_lt
  rw [show topPage.toNat = 0xFFFFF000 from rfl]
  omega

/-- One page down from a page that is not the first, or round to the top. -/
theorem page_below {u : UInt32} (hu : PageAligned u) :
    if u = 0 then u - 0x1000 = topPage else (u - 0x1000).toNat + 0x1000 = u.toNat := by
  split
  · rename_i h
    rw [h]
    rfl
  · rename_i h
    have hpos := toNat_pos h
    rw [pageAligned_iff] at hu
    have hle : (0x1000 : UInt32).toNat ≤ u.toNat := by
      simp only [UInt32.reduceToNat]
      omega
    rw [toNat_sub_of_le hle]
    simp only [UInt32.reduceToNat] at hle ⊢
    omega

/-- A loop that is entered goes over every page from `addr` down, and these have no translation. -/
structure Swept (addr cr3 : UInt32) (x : UInt32 × Machine) : Prop where
  cr3_eq : x.2.cr3 = cr3
  place : x.1 ≤ addr ∨ x.1 = topPage
  swept : ∀ v, PageAligned v → v ≤ addr → x.1 < v ∨ x.1 = topPage → translate x.2 v = none

theorem Swept.step {addr cr3 : UInt32} (hcr3 : PageAligned cr3) {x : UInt32 × Machine}
    (h : Swept addr cr3 x) (hu : PageAligned x.1) (hne : x.1 ≠ topPage) :
    Swept addr cr3 (unmapTurn x) := by
  obtain ⟨u, m⟩ := x
  change PageAligned u at hu
  have hm : PageAligned (frameFree (pagePhysaddr u 0 m) m).cr3 := by
    rw [show (frameFree (pagePhysaddr u 0 m) m).cr3 = cr3 from h.cr3_eq]
    exact hcr3
  have hbelow := page_below hu
  have hle : u.toNat ≤ addr.toNat := by
    rcases h.place with hle | he
    · exact UInt32.le_iff_toNat_le.1 hle
    · exact absurd he hne
  refine ⟨(unmapTurn_keeps (u, m)).cr3_eq.trans h.cr3_eq, ?_, fun v hv hva hplace => ?_⟩
  · show u - 0x1000 ≤ addr ∨ u - 0x1000 = topPage
    by_cases h0 : u = 0
    · rw [if_pos h0] at hbelow
      exact Or.inr hbelow
    · rw [if_neg h0] at hbelow
      left
      rw [UInt32.le_iff_toNat_le]
      omega
  · by_cases huv : v = u
    · rw [huv]
      exact pageUnmap_self hm hu
    · refine pageUnmap_none hm hu (h.swept v hv hva (Or.inl ?_))
      change u - 0x1000 < v ∨ u - 0x1000 = topPage at hplace
      show u < v
      have hne' := toNat_ne huv
      rw [pageAligned_iff] at hv hu
      rw [UInt32.lt_iff_toNat_lt] at hplace ⊢
      by_cases h0 : u = 0
      · rw [h0, UInt32.toNat_zero] at hne' ⊢
        omega
      · rw [if_neg h0] at hbelow
        rcases hplace with hlt | htop
        · omega
        · have := le_topPage ((pageAligned_iff u).2 hu)
          rw [← htop] at this
          omega

/-- **Every page from the block's first down** is unmapped by a loop that is entered. -/
theorem heapUnmap_swept {addr stop : UInt32} {m m' : Machine} (hcr3 : PageAligned m.cr3)
    (haddr : PageAligned addr) (hstop : PageAligned stop) (hlt : addr < stop)
    (h : heapUnmap addr stop m = some m') :
    ∀ v, PageAligned v → v ≤ addr → translate m' v = none := by
  have htop := le_topPage hstop
  rw [UInt32.lt_iff_toNat_lt] at hlt
  have h0 : Swept addr m.cr3 (addr, m) := by
    refine ⟨rfl, Or.inl (UInt32.le_refl addr), fun v _ hva hp => ?_⟩
    rw [UInt32.le_iff_toNat_le] at hva
    rcases hp with hp | hp
    · exact absurd (UInt32.lt_iff_toNat_lt.1 hp) (Nat.not_lt.2 hva)
    · change addr = topPage at hp
      rw [hp] at hlt
      omega
  obtain ⟨x, hx, hswept, -, hge⟩ := heapUnmap_spec (Swept addr m.cr3) hstop haddr h0
    fun x hI hxlt hu => hI.step hcr3 hu (by
      rintro he
      rw [UInt32.lt_iff_toNat_lt, he] at hxlt
      omega)
  obtain rfl : m' = x.2 := Option.some.inj (h.symm.trans hx)
  have hend : x.1 = topPage := by
    rcases hswept.place with hle | he
    · rw [UInt32.le_iff_toNat_le] at hle hge
      omega
    · exact he
  exact fun v hv hva => hswept.swept v hv hva (Or.inr hend)

end CometOS
