import CometOS.Fdc
import Mathlib.Data.List.DropRight

/-!
# The command that reads a sector (`floppy_read`)

A byte that the controller is not ready for is dropped by `floppy_send_command`, which returns nothing.
So whether the nine bytes of the command have arrived is read off the ports: they should be the first
that are accepted after the DMA controller has been loaded.
-/

namespace CometOS

open Word32

/-- The bytes accepted by the floppy controller since another controller was last written. -/
def commandBytes (ws : List PortWrite) : List UInt8 :=
  ((ws.rtakeWhile fun w => w.1 = floppyFifo ∨ w.1 = floppyDor).filter
    fun w => w.1 = floppyFifo).map Prod.snd

/-- The nine bytes have been accepted in order, and their cylinder, head and sector are `lba`. -/
def ReadAccepted (drive : UInt8) (lba : Int32) (ws : List PortWrite) : Prop :=
  ∃ head track sector : UInt8, readCommand drive head track sector <+: commandBytes ws ∧
    ((track.toNat * 2 + head.toNat) * 18 + (sector.toNat - 1) : ℤ) = lba.toInt ∧
    1 ≤ sector.toNat ∧ sector.toNat ≤ 18

/-- The controller gets ready for each of nine bytes that are sent from read `n` on. -/
def CommandReady (answers : ℕ → UInt8) (n : ℕ) : Prop :=
  ∀ k < 9, DataReady answers ((pollEnd answers)^[k] n)

instance (answers : ℕ → UInt8) (n : ℕ) : Decidable (CommandReady answers n) :=
  inferInstanceAs (Decidable (∀ k < 9, DataReady answers ((pollEnd answers)^[k] n)))

section Accepted

variable {answers : ℕ → UInt8}

theorem accepted_sublist (cmds : List UInt8) (n : ℕ) : (accepted answers cmds n).Sublist cmds := by
  induction cmds generalizing n with
  | nil => exact List.Sublist.refl []
  | cons cmd cmds ih =>
    rw [accepted]
    split
    · exact (ih _).cons_cons cmd
    · exact (ih _).cons cmd

/-- All bytes are accepted exactly if the controller gets ready for each. -/
theorem accepted_eq_iff (cmds : List UInt8) (n : ℕ) :
    accepted answers cmds n = cmds ↔
      ∀ k < cmds.length, DataReady answers ((pollEnd answers)^[k] n) := by
  induction cmds generalizing n with
  | nil => simp [accepted]
  | cons cmd cmds ih =>
    rw [accepted]
    by_cases hready : DataReady answers n
    · rw [if_pos hready, List.cons.injEq, ih]
      constructor
      · rintro ⟨_, hrest⟩ k hk
        cases k with
        | zero => exact hready
        | succ k => exact hrest k (Nat.lt_of_succ_lt_succ hk)
      · exact fun h => ⟨rfl, fun k hk => h (k + 1) (Nat.succ_lt_succ hk)⟩
    · rw [if_neg hready]
      refine iff_of_false (fun h => ?_) fun h => hready (h 0 (Nat.succ_pos _))
      have hle := (@accepted_sublist answers cmds (pollEnd answers n)).length_le
      rw [h, List.length_cons] at hle
      omega

/-- If a byte of the command is lost, no such command has been accepted: the byte that asks for the
result is not its last one. -/
theorem accepted_eq_of_starts {drive head track sector head' track' sector' : UInt8} {n m : ℕ}
    (h : readCommand drive head track sector <+:
      accepted answers (readCommand drive head' track' sector') n ++ accepted answers [0x08] m) :
    accepted answers (readCommand drive head' track' sector') n =
      readCommand drive head' track' sector' := by
  have hsub := @accepted_sublist answers (readCommand drive head' track' sector') n
  refine hsub.eq_of_length_le ?_
  have hlen := h.length_le
  rw [List.length_append] at hlen
  by_contra hc
  have hlast := @accepted_sublist answers [0x08] m
  have hle := hlast.length_le
  have h9 : ∀ head track sector, (readCommand drive head track sector).length = 9 := fun _ _ _ => rfl
  rw [h9] at hc hlen
  rw [List.length_singleton] at hle
  rw [hlast.eq_of_length_le (by rw [List.length_singleton]; omega)] at h
  have heq := h.eq_of_length_le (by rw [List.length_append, List.length_singleton, h9]; omega)
  have hbad : some (0xFF : UInt8) = some 0x08 := by
    have hends := congrArg List.getLast? heq
    rwa [List.getLast?_append] at hends
  exact absurd hbad (by decide)

theorem answeredAt_unique {cyl : UInt32} {n i j : ℕ} (hi : AnsweredAt answers cyl n i)
    (hj : AnsweredAt answers cyl n j) : i = j := by
  by_contra hne
  rcases Nat.lt_or_gt_of_ne hne with hlt | hlt
  · exact hj.2 i hlt hi.1
  · exact hi.2 j hlt hj.1

end Accepted

/-- What follows the last write of the DMA controller is the floppy controller's. -/
theorem commandBytes_after (ws : List PortWrite) (cmds : List UInt8) (v : UInt8) :
    commandBytes (ws ++ (dmaSetRead fdcDmaChannel ++ fifoWrites cmds) ++ [(floppyDor, v)]) = cmds := by
  have hlast : dmaSetRead fdcDmaChannel = [(0x0A, 2), (0x0B, 0x46)] ++ [((0xDC, 0xFF) : PortWrite)] := rfl
  have htake : (ws ++ (dmaSetRead fdcDmaChannel ++ fifoWrites cmds)).rtakeWhile
      (fun w => w.1 = floppyFifo ∨ w.1 = floppyDor) = fifoWrites cmds := by
    induction cmds using List.reverseRecOn with
    | nil =>
      rw [fifoWrites, List.map_nil, List.append_nil, hlast, ← List.append_assoc]
      exact List.rtakeWhile_concat_neg _ _ _ (by decide)
    | append_singleton cmds cmd ih =>
      rw [fifoWrites, List.map_append, ← List.append_assoc, ← List.append_assoc, List.map_singleton,
        List.rtakeWhile_concat_pos _ _ _ (by simp)]
      rw [List.append_assoc]
      exact congrArg (· ++ _) ih
  have hall : ∀ x ∈ fifoWrites cmds, decide (x.1 = floppyFifo) = true := by
    intro x hx
    obtain ⟨cmd, _, rfl⟩ := List.mem_map.1 hx
    exact decide_eq_true rfl
  rw [commandBytes, List.rtakeWhile_concat_pos _ _ _ (by simp), htake, List.filter_append,
    List.filter_eq_self.2 hall, List.map_append, fifoWrites, List.map_map]
  simp [floppyDor, floppyFifo]

/-! ### The sector's address -/

/-- A value that fits in a byte, narrowed to one. -/
theorem toNat_toUInt8_of_lt {x : Int32} (h : 0 ≤ x.toInt) :
    (x.toUInt32.toNat : ℤ) = x.toInt ∧ (x.toInt < 256 → (x.toUInt32.toUInt8.toNat : ℤ) = x.toInt) := by
  have hnat : (x.toUInt32.toNat : ℤ) = x.toInt := by
    rw [Int32.toNat_toUInt32_of_le (Int32.le_iff_toInt_le.2 h)]
    exact Int.toNat_of_nonneg h
  refine ⟨hnat, fun hlt => ?_⟩
  rw [UInt32.toNat_toUInt8]
  omega

theorem floppyConvert_of_nonneg {lba : Int32} (h : 0 ≤ lba) :
    (floppyConvert lba).1.toInt = lba.toInt % 36 / 18 ∧
      (floppyConvert lba).2.1.toInt = lba.toInt / 36 ∧
      (floppyConvert lba).2.2.toInt = lba.toInt % 18 + 1 := by
  have h0 : 0 ≤ lba.toInt := Int32.le_iff_toInt_le.1 h
  have h18 : (18 : Int32).toInt = 18 := rfl
  have h36 : (18 * 2 : Int32).toInt = 36 := by decide
  have hone : (1 : Int32).toInt = 1 := rfl
  refine ⟨?_, ?_, ?_⟩
  · rw [floppyConvert, Int32.toInt_div_of_ne_right _ _ (by decide), Int32.toInt_mod, h18, h36,
      Int.tmod_eq_emod_of_nonneg h0, Int.tdiv_eq_ediv_of_nonneg (by omega)]
  · rw [floppyConvert, Int32.toInt_div_of_ne_right _ _ (by decide), h36,
      Int.tdiv_eq_ediv_of_nonneg h0]
  · rw [floppyConvert, Int32.toInt_add, Int32.toInt_mod, h18, hone, Int.tmod_eq_emod_of_nonneg h0,
      bmod_word]
    omega

/-- Narrowed to bytes the three parts still make up the sector, once the cylinder has been reported. -/
theorem floppyConvert_bytes {lba : Int32} (h : 0 ≤ lba) {cyl : UInt8}
    (hcyl : cyl.toUInt32 = (floppyConvert lba).2.1.toUInt32) :
    let head := (floppyConvert lba).1.toUInt32.toUInt8
    let track := (floppyConvert lba).2.1.toUInt32.toUInt8
    let sector := (floppyConvert lba).2.2.toUInt32.toUInt8
    ((track.toNat * 2 + head.toNat) * 18 + (sector.toNat - 1) : ℤ) = lba.toInt ∧
      1 ≤ sector.toNat ∧ sector.toNat ≤ 18 := by
  intro head track sector
  obtain ⟨hhead, htrack, hsector⟩ := floppyConvert_of_nonneg h
  have h0 : 0 ≤ lba.toInt := Int32.le_iff_toInt_le.1 h
  obtain ⟨_, hheadByte⟩ := toNat_toUInt8_of_lt (x := (floppyConvert lba).1) (by omega)
  obtain ⟨hcylinder, htrackByte⟩ := toNat_toUInt8_of_lt (x := (floppyConvert lba).2.1) (by omega)
  obtain ⟨_, hsectorByte⟩ := toNat_toUInt8_of_lt (x := (floppyConvert lba).2.2) (by omega)
  have hlt := cyl.toNat_lt
  rw [← hcyl, UInt8.toNat_toUInt32] at hcylinder
  have hh : (head.toNat : ℤ) = _ := hheadByte (by omega)
  have ht : (track.toNat : ℤ) = _ := htrackByte (by omega)
  have hs : (sector.toNat : ℤ) = _ := hsectorByte (by omega)
  omega

section Read

variable {w : FdcWorld} {fuel : ℕ} {s s' : Fdc} {lba : Int32} {r : UInt32}

/-- The ports show the command exactly if the controller got ready for each of its bytes. -/
theorem readAccepted_iff {cyl : UInt8} (hlba : 0 ≤ lba)
    (hcyl : cyl.toUInt32 = (floppyConvert lba).2.1.toUInt32) (answers : ℕ → UInt8) (drive off : UInt8)
    (ws : List PortWrite) (n m : ℕ) :
    ReadAccepted drive lba (ws ++ (dmaSetRead fdcDmaChannel ++ fifoWrites (accepted answers
      (readCommand drive (floppyConvert lba).1.toUInt32.toUInt8
        (floppyConvert lba).2.1.toUInt32.toUInt8 (floppyConvert lba).2.2.toUInt32.toUInt8) n ++
        accepted answers [0x08] m)) ++ [(floppyDor, off)]) ↔ CommandReady answers n := by
  have hready := @accepted_eq_iff answers (readCommand drive (floppyConvert lba).1.toUInt32.toUInt8
    (floppyConvert lba).2.1.toUInt32.toUInt8 (floppyConvert lba).2.2.toUInt32.toUInt8) n
  rw [ReadAccepted, commandBytes_after]
  constructor
  · rintro ⟨head, track, sector, hprefix, _⟩
    exact hready.1 (accepted_eq_of_starts hprefix)
  · intro hn
    rw [hready.2 hn]
    exact ⟨_, _, _, List.prefix_append _ _, floppyConvert_bytes hlba hcyl⟩

/-- After an attempt that reports the cylinder the buffer is returned, and the command has arrived
exactly if the controller got ready for each of its bytes. -/
theorem floppyRead_answered (hdrive : s.currentDrive < 4) (h : floppyRead w fuel lba s = some (r, s'))
    (hlba : 0 ≤ lba) {i : ℕ} (hi : i < 10)
    (hat : AnsweredAt w.answers (floppyConvert lba).2.1.toUInt32 s.reads i) :
    r = s.dmaBuffer.toUInt32 ∧ (ReadAccepted s.currentDrive lba s'.writes ↔
      CommandReady w.answers (attemptStart w.answers s.reads (i + 1))) := by
  obtain ⟨on, n, cmds, _, ⟨_, hnone, _⟩ | ⟨hr, j, _, hat', m, off, _, hwent⟩⟩ := went_read hdrive h
  · exact absurd ⟨i, hi, hat.1⟩ hnone
  · obtain rfl := answeredAt_unique hat hat'
    have hwrites := readAccepted_iff hlba hat.1 w.answers s.currentDrive off
      (s.writes ++ ([(floppyDor, on)] ++ fifoWrites cmds ++
        (floppyDmaInitialize s.dmaBuffer.toUInt32 512).2)) (attemptStart w.answers s.reads (i + 1)) m
    simp only [List.append_assoc] at hwrites
    refine ⟨hr, ?_⟩
    rw [hwent.writes]
    simpa only [List.append_assoc] using hwrites

/-- Nothing is returned when no attempt reports the cylinder. -/
theorem floppyRead_unanswered (hdrive : s.currentDrive < 4) (h : floppyRead w fuel lba s = some (r, s'))
    (hnone : ¬ ∃ i < 10, AnsweredAt w.answers (floppyConvert lba).2.1.toUInt32 s.reads i) : r = 0 := by
  obtain ⟨on, n, cmds, _, ⟨hr, _⟩ | ⟨_, i, hi, hat, _⟩⟩ := went_read hdrive h
  · exact hr
  · exact absurd ⟨i, hi, hat⟩ hnone

/-- **When the command has arrived.**  A buffer is returned only with the nine bytes accepted, exactly
if, once an attempt has reported the cylinder, the controller gets ready for each of them. -/
theorem floppyRead_accepted_iff (h : floppyRead w fuel lba s = some (r, s')) (hlba : 0 ≤ lba) :
    (r ≠ 0 → ReadAccepted s.currentDrive lba s'.writes) ↔
      (s.currentDrive < 4 → s.dmaBuffer ≠ 0 → ∀ i < 10,
        AnsweredAt w.answers (floppyConvert lba).2.1.toUInt32 s.reads i →
          CommandReady w.answers (attemptStart w.answers s.reads (i + 1))) := by
  by_cases hdrive : s.currentDrive < 4
  · by_cases hanswer : ∃ i < 10, AnsweredAt w.answers (floppyConvert lba).2.1.toUInt32 s.reads i
    · obtain ⟨i, hi, hat⟩ := hanswer
      obtain ⟨hr, haccepted⟩ := floppyRead_answered hdrive h hlba hi hat
      have hbuffer : r ≠ 0 ↔ s.dmaBuffer ≠ 0 := by
        rw [hr, not_iff_not]
        exact ⟨fun h0 => Int32.toBitVec_inj.1 (UInt32.toBitVec_inj.2 h0), fun h0 => by rw [h0]; rfl⟩
      rw [hbuffer, haccepted]
      constructor
      · intro hready _ hne j _ hj
        rw [answeredAt_unique hj hat]
        exact hready hne
      · exact fun hready hne => hready hdrive hne i hi hat
    · refine iff_of_true (fun hne => absurd (floppyRead_unanswered hdrive h hanswer) hne) ?_
      exact fun _ _ i hi hat => absurd ⟨i, hi, hat⟩ hanswer
  · rw [floppyRead, if_pos (UInt8.not_lt.1 hdrive)] at h
    obtain ⟨rfl, rfl⟩ := Prod.mk.inj (Option.some.inj h)
    exact iff_of_true (fun hne => absurd rfl hne) fun hd => absurd hd hdrive

end Read

/-- The first attempt is answered, if a cylinder is reported for it. -/
theorem answeredAt_zero {answers : ℕ → UInt8} {cyl : UInt32} {n : ℕ}
    (h : (reported answers n).1.toUInt32 = cyl) : AnsweredAt answers cyl n 0 :=
  ⟨h, fun _ hj => absurd hj (Nat.not_lt_zero _)⟩

/-- The first sector, read from a controller that is always ready. -/
theorem floppyRead_accepted_first : ∃ s', floppyRead (promptWorld 0) 1 0 firstDrive = some (0x8000, s') ∧
    ReadAccepted 0 0 s'.writes := by
  have hat := @answeredAt_zero (promptWorld 0).answers 0 0 (by decide +kernel)
  obtain ⟨r, s', hread⟩ := (promptWorld_prompt 0).read 0 firstDrive
  obtain ⟨rfl, _⟩ := floppyRead_answered (by decide) hread (by decide) (by decide) hat
  refine ⟨s', hread, (floppyRead_accepted_iff hread (by decide)).2 (fun _ _ i _ hi => ?_) (by decide)⟩
  obtain rfl := answeredAt_unique hi hat
  decide +kernel

/-- A controller that reports cylinder 0 in read 7, and is busy for the 500 tests that follow. -/
def busyWorld : FdcWorld where
  answers := fun n => if 7 ≤ n ∧ n < 508 then 0 else 0x80
  irqs := fun _ => true
  arrivals := fun _ => 20

/-- **A lost byte**: with a controller that is busy before the first byte of the command this byte is
dropped, and the buffer is returned all the same. -/
theorem floppyRead_loses_byte :
    ¬ ∀ (w : FdcWorld) (fuel : ℕ) (lba : Int32) (s : Fdc) (r : UInt32) (s' : Fdc),
      floppyRead w fuel lba s = some (r, s') → 0 ≤ lba → r ≠ 0 →
        ReadAccepted s.currentDrive lba s'.writes := by
  intro h
  have hprompt : busyWorld.Prompt := ⟨fun _ => rfl, fun _ => rfl⟩
  have hat := @answeredAt_zero busyWorld.answers 0 0 (by decide +kernel)
  obtain ⟨r, s', hread⟩ := hprompt.read 0 firstDrive
  obtain ⟨rfl, haccepted⟩ := floppyRead_answered (by decide) hread (by decide) (by decide) hat
  -- the poll for the first byte is over before the controller gets ready again
  have hready : DataReady busyWorld.answers 8 :=
    haccepted.1 (h _ _ _ _ _ _ hread (by decide) (by decide)) 0 (by decide)
  obtain ⟨k, hk, hbit⟩ := hready
  have hbusy : busyWorld.answers (8 + k) = 0 := if_pos ⟨by omega, by omega⟩
  exact hbit (by rw [hbusy]; rfl)

end CometOS
