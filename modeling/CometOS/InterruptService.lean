import CometOS.InterruptRun
import CometOS.Pit

/-!
# What the interrupt discipline gives (`arch/i386/irq/interrupt.c`)

The handlers of this kernel leave the interrupt flag alone.  Then activations are not nested, and every
spurious interrupt is told from a real one.  From any state of a disciplined run the handlers that are
due can run to their ends, nothing being held back by an interrupt that was not ended.  And the timer's
counter tells how often its line has been served.
-/

namespace CometOS

open Pic8259 Run

variable {σ : Type}

/-! ### Handlers that leave the flag alone -/

/-- Interrupts are switched on by the code outside the handlers only. -/
def LeavesFlag (s : System σ) (e : Event σ) : Prop := e = .sti → s.stack = []

/-- One activation at most, with interrupts off while it lasts. -/
structure InTurn (s : System σ) : Prop extends Disciplined s where
  single : s.stack = [] ∨ ∃ a, s.stack = [a] ∧ s.interrupts = false

section InTurn

variable {s s' : System σ} {e : Event σ}

theorem advance_stack {a : Activation} (hstack : s.stack = [a]) (hs : s.advance = some s') :
    s'.stack = [] ∨ ∃ b, s'.stack = [b] ∧ s'.interrupts = s.interrupts := by
  unfold System.advance at hs
  rw [hstack] at hs
  obtain ⟨irq, ctx, next⟩ := a
  cases next with
  | handler => cases hs; exact Or.inr ⟨_, rfl, rfl⟩
  | eoiSlave => cases hs; exact Or.inr ⟨_, rfl, rfl⟩
  | eoiMaster => cases hs; exact Or.inr ⟨_, rfl, rfl⟩
  | done => cases hs; exact Or.inl rfl

theorem enter_stack {gone : Bool} {ctx : UInt32} (hs : s.enter gone ctx = some s') :
    (∃ a, s'.stack = a :: s.stack) ∧ s'.interrupts = false := by
  by_cases hv : (s.kernel.pics.acknowledge gone).1 < 32 ∨
      32 + 16 ≤ (s.kernel.pics.acknowledge gone).1
  · simp only [System.enter, hv, if_true] at hs
    cases hs
  · simp only [System.enter, hv, if_false, Option.some.injEq] at hs
    subst hs
    exact ⟨⟨_, rfl⟩, rfl⟩

/-- A spurious interrupt finds no real one in service, since it finds no activation at all. -/
theorem InTurn.told (h : InTurn s) (hs : s.step e = some s') : SpuriousTold s e := by
  rintro gone ctx rfl -
  rw [System.step] at hs
  split at hs
  · rename_i hon
    rcases h.single with hstack | ⟨a, _, hoff⟩
    · have hserves := h.master
      rw [hstack] at hserves
      rw [Serves.nil_iff.1 hserves]
      rfl
    · rw [hoff] at hon
      cases hon
  · cases hs

theorem InTurn.step (h : InTurn s) (hleave : LeavesFlag s e) (hs : s.step e = some s') :
    InTurn s' := by
  refine ⟨h.toDisciplined.step (h.told hs) hs, ?_⟩
  have hsingle := h.single
  cases e with
  | request irq =>
    rw [System.step] at hs
    split at hs <;> cases hs
    exact hsingle
  | withdraw irq =>
    rw [System.step] at hs
    split at hs <;> cases hs
    exact hsingle
  | interrupt gone ctx =>
    rw [System.step] at hs
    split at hs
    · rename_i hon
      obtain ⟨⟨a, hstack⟩, hoff⟩ := enter_stack hs
      rcases hsingle with hempty | ⟨b, _, hoff'⟩
      · rw [hempty] at hstack
        exact Or.inr ⟨a, hstack, hoff⟩
      · rw [hoff'] at hon
        cases hon
    · cases hs
  | advance =>
    rcases hsingle with hempty | ⟨b, hb, hoff⟩
    · rw [System.step, System.advance, hempty] at hs
      cases hs
    · rcases advance_stack hb hs with hempty | ⟨c, hc, hsame⟩
      · exact Or.inl hempty
      · exact Or.inr ⟨c, hc, hsame.trans hoff⟩
  | cli =>
    cases hs
    rcases hsingle with hempty | ⟨a, ha, -⟩
    · exact Or.inl hempty
    · exact Or.inr ⟨a, ha, rfl⟩
  | sti =>
    cases hs
    exact Or.inl (hleave rfl)
  | install irq handler => cases hs; exact hsingle
  | uninstall irq => cases hs; exact hsingle

/-- **Interrupts in turn.**  If the handlers leave the flag alone, then all along a run from
`pic_initialize` the discipline holds, whatever spurious interrupts come, and no handler is
interrupted by another. -/
theorem inTurn_run (k : Kernel σ) (es : List (Event σ))
    (h : Permitted System.step LeavesFlag (System.start k) es) :
    AllStates System.step InTurn (System.start k) es :=
  allStates_of_permitted (fun _ _ _ h hleave hs => h.step hleave hs) es _
    ⟨disciplined_start k, Or.inl rfl⟩ h

/-- The kernel with no handler but the timer's, on a machine that has just been switched on. -/
def timerKernel : Kernel Int32 where
  pics := ⟨⟨0, 0, 0, 0, 0, false, false, false, false, .ocw1⟩,
    ⟨0, 0, 0, 0, 0, false, false, false, false, .ocw1⟩⟩
  irqRoutines := fun irq => if irq = 0 then some fun _ => pitHandler else none
  isrRoutines := fun _ => none
  world := 0
  printed := []
  halted := false

/-- A tick, and its handler's call. -/
theorem inTurn_run_timer : AllStates System.step InTurn (System.start timerKernel)
    [.sti, .request 0, .interrupt false 0, .advance] :=
  inTurn_run timerKernel _ ⟨fun _ => rfl, fun _ _ => ⟨nofun, fun _ _ => ⟨nofun, fun _ _ =>
    ⟨nofun, fun _ _ => trivial⟩⟩⟩⟩

end InTurn

/-! ### Nothing is held back -/

/-- The steps an activation has still to take. -/
def Point.left : Point → ℕ
  | .handler => 4
  | .eoiSlave => 3
  | .eoiMaster => 2
  | .done => 1

/-- The requests that are latched. -/
def requests (p : Pair) : ℕ := ∑ irq, (requested p irq).toNat

def stepsLeft (l : List Activation) : ℕ := (l.map fun a => a.next.left).sum

/-- What is left to do for the requests and the activations there are. -/
def work (s : System σ) : ℕ := 5 * requests s.kernel.pics + stepsLeft s.stack

section Progress

variable {s s' : System σ}

theorem stepsLeft_cons (irq : Fin 16) (ctx : UInt32) (next : Point) (l : List Activation) :
    stepsLeft (⟨irq, ctx, next⟩ :: l) = next.left + stepsLeft l := rfl

/-- The handlers go on to their ends by themselves. -/
theorem advance_work (hstack : s.stack ≠ []) : ∃ s', s.advance = some s' ∧
    s'.latched = s.latched ∧ s'.withdrawn = s.withdrawn ∧ work s' < work s := by
  obtain ⟨⟨irq, ctx, next⟩, rest, hcons⟩ := List.exists_cons_of_ne_nil hstack
  have hwork : work s = 5 * requests s.kernel.pics + (next.left + stepsLeft rest) := by
    rw [work, hcons]
    rfl
  unfold System.advance
  rw [hcons]
  cases next with
  | handler =>
    refine ⟨_, rfl, rfl, rfl, ?_⟩
    have hleft : (if 8 ≤ irq then Point.eoiSlave else Point.eoiMaster).left < Point.handler.left := by
      split <;> decide
    rw [hwork, work, callHandler_pics, stepsLeft_cons]
    omega
  | eoiSlave =>
    refine ⟨_, rfl, rfl, rfl, ?_⟩
    have hleft : Point.eoiMaster.left < Point.eoiSlave.left := by decide
    rw [hwork]
    exact Nat.add_lt_add_left (Nat.add_lt_add_right hleft _) _
  | eoiMaster =>
    refine ⟨_, rfl, rfl, rfl, ?_⟩
    have hleft : Point.done.left < Point.eoiMaster.left := by decide
    rw [hwork]
    exact Nat.add_lt_add_left (Nat.add_lt_add_right hleft _) _
  | done =>
    refine ⟨_, rfl, rfl, rfl, ?_⟩
    have hleft : 0 < Point.done.left := by decide
    rw [hwork]
    exact Nat.add_lt_add_left (Nat.lt_add_of_pos_left hleft) _

theorem sum_waiting_cons (irq : Fin 16) (ctx : UInt32) (l : List Activation) :
    ∑ j, waiting j (⟨irq, ctx, .handler⟩ :: l) = ∑ j, waiting j l + 1 := by
  simp only [waiting_cons, and_true, Finset.sum_add_distrib, Finset.sum_ite_eq, Finset.mem_univ,
    if_true]

/-- What has been counted, over all lines. -/
theorem Disciplined.sum_conserved (h : Disciplined s) :
    ∑ j, s.latched j = ∑ j, s.withdrawn j + ∑ j, s.started j + ∑ j, waiting j s.stack +
      requests s.kernel.pics := by
  rw [requests, ← Finset.sum_add_distrib, ← Finset.sum_add_distrib, ← Finset.sum_add_distrib]
  exact Finset.sum_congr rfl fun j _ => h.conserved j

theorem pending_isSome {c : Chip} {base icw3 : UInt8} (hc : ChipReady base icw3 c) (hisr : c.isr = 0)
    {i : Fin 8} (hi : Has c.irr i = true) : ∃ j, c.pending = some j := by
  rcases hfirst : firstLine c.irr with _ | j
  · rw [firstLine_eq_none.1 hfirst i] at hi
    cases hi
  · obtain ⟨hj, hbefore⟩ := firstLine_eq_some.1 hfirst
    refine ⟨j, Chip.pending_eq_some.2 ⟨⟨hj, ?_⟩, fun k hk hon => ?_, fun k _ => ?_⟩⟩
    · rw [hc.imr]
      exact has_zero j
    · rw [hbefore k hk] at hon
      cases hon
    · rw [hisr]
      exact has_zero k

/-- With no activation left, a latched request is offered to the CPU. -/
theorem Disciplined.offered (h : Disciplined s) (hstack : s.stack = []) {irq : Fin 16}
    (hon : requested s.kernel.pics irq = true) : ∃ i, s.kernel.pics.linked.pending = some i := by
  have hmaster := h.master
  have hslave := h.slave
  rw [hstack] at hmaster hslave
  have hready : ChipReady 32 4 s.kernel.pics.linked := by
    unfold Pair.linked
    split
    · exact h.ready.master.request link
    · exact h.ready.master.withdraw link
  have hisr : s.kernel.pics.linked.isr = 0 := by
    rw [Pair.linked_isr]
    exact Serves.nil_iff.1 hmaster
  by_cases h8 : irq < 8
  · rw [requested, if_pos h8] at hon
    refine pending_isSome hready hisr (i := line irq) ?_
    have hne : line irq ≠ link := by
      intro hl
      rw [hl, h.noDevice] at hon
      cases hon
    rw [Pair.has_linked_irr, if_neg hne]
    exact hon
  · rw [requested, if_neg h8] at hon
    obtain ⟨k, hk⟩ := pending_isSome h.ready.slave (Serves.nil_iff.1 hslave) hon
    refine pending_isSome hready hisr (i := link) ?_
    rw [Pair.has_linked_irr, if_pos rfl, hk]
    rfl

theorem Disciplined.enters (h : Disciplined s) (ctx : UInt32) : ∃ s', s.enter false ctx = some s' := by
  have hm := h.ready.master
  have hs := h.ready.slave
  have hanswer := Pair.acknowledge_cases false s.kernel.pics
  have hin : ¬ ((s.kernel.pics.acknowledge false).1 < 32 ∨
      32 + 16 ≤ (s.kernel.pics.acknowledge false).1) := by
    generalize s.kernel.pics.acknowledge false = answer at hanswer
    cases hanswer with
    | nothing => rw [hm.base]; exact vector_master 7
    | own i => rw [hm.base]; exact vector_master i
    | gone => rw [hs.base]; exact vector_slave 7
    | slave k => rw [hs.base]; exact vector_slave k
  exact ⟨_, if_neg hin⟩

/-- The request that the CPU takes is one less. -/
theorem Disciplined.entered_work (h : Disciplined s) (hstack : s.stack = []) {irq : Fin 16}
    (hon : requested s.kernel.pics irq = true) {ctx : UInt32} (hs : s.enter false ctx = some s') :
    Disciplined s' ∧ s'.latched = s.latched ∧ s'.withdrawn = s.withdrawn ∧ work s' < work s := by
  obtain ⟨i₀, hi₀⟩ := h.offered hstack hon
  have key : ∀ (irq : Fin 16) (q : Pair), Disciplined { s.setPics q with
      interrupts := false, stack := ⟨irq, ctx, .handler⟩ :: s.stack } →
      5 * requests q + 4 < work s := by
    intro irq q h'
    have hsum : ∑ j, s.latched j = ∑ j, s.withdrawn j + ∑ j, s.started j +
      ∑ j, waiting j (⟨irq, ctx, .handler⟩ :: s.stack) + requests q := h'.sum_conserved
    have hbefore := h.sum_conserved
    rw [sum_waiting_cons] at hsum
    rw [work]
    omega
  cases h.entered hs with
  | spurious hp => rw [hi₀] at hp; cases hp
  | mistaken hp => rw [hi₀] at hp; cases hp
  | own i q hp hi hq =>
    have h' : Disciplined { s.setPics q with
        interrupts := false, stack := ⟨masterIrq i, ctx, .handler⟩ :: s.stack } := h.own hp hi hq
    refine ⟨h', rfl, rfl, ?_⟩
    have hlt := key _ q h'
    rw [work]
    show 5 * requests q + stepsLeft (_ :: s.stack) < _
    rw [hstack]
    exact hlt
  | second k q hp hk hq =>
    have h' : Disciplined { s.setPics q with
        interrupts := false, stack := ⟨slaveIrq k, ctx, .handler⟩ :: s.stack } := h.second_taken hp hk hq
    refine ⟨h', rfl, rfl, ?_⟩
    have hlt := key _ q h'
    rw [work]
    show 5 * requests q + stepsLeft (_ :: s.stack) < _
    rw [hstack]
    exact hlt
  | vanished q hgone => cases hgone

/-- What the CPU and the handlers do by themselves, with interrupts on. -/
def Serving : Event σ → Prop
  | .interrupt gone _ => gone = false
  | .advance => True
  | .sti => True
  | _ => False

/-- Nothing is requested, in service or active. -/
def Settled (s : System σ) : Prop :=
  s.stack = [] ∧ s.kernel.pics.master.isr = 0 ∧ s.kernel.pics.slave.isr = 0 ∧
    ∀ irq, requested s.kernel.pics irq = false

/-- While there is something left to do, some of it can be done. -/
theorem serving_step {latched withdrawn : Fin 16 → ℕ} (s : System σ)
    (h : Disciplined s ∧ s.latched = latched ∧ s.withdrawn = withdrawn)
    (hleft : ¬ (s.stack = [] ∧ ∀ irq, requested s.kernel.pics irq = false)) :
    ∃ es s', (∀ e ∈ es, Serving e) ∧ run System.step s es = some s' ∧
      (Disciplined s' ∧ s'.latched = latched ∧ s'.withdrawn = withdrawn) ∧ work s' < work s ∧
      Permitted System.step SpuriousTold s es := by
  obtain ⟨hs, rfl, rfl⟩ := h
  by_cases hstack : s.stack = []
  · obtain ⟨irq, hirq⟩ : ∃ irq, requested s.kernel.pics irq = true := by
      by_contra hno
      exact hleft ⟨hstack, fun irq => by simpa using not_exists.1 hno irq⟩
    -- interrupts on, and the CPU takes one
    have hon : Disciplined { s with interrupts := true } :=
      ⟨hs.ready, hs.master, hs.slave, hs.second, hs.noDevice, hs.conserved⟩
    obtain ⟨s', hs'⟩ := hon.enters 0
    obtain ⟨h', hlatched, hwithdrawn, hwork⟩ := hon.entered_work hstack hirq hs'
    refine ⟨[.sti, .interrupt false 0], s', ?_, ?_, ⟨h', hlatched, hwithdrawn⟩, hwork, nofun, ?_⟩
    · simp [Serving]
    · show (System.enter false 0 { s with interrupts := true }).bind _ = _
      rw [hs']
      rfl
    · rintro t ⟨⟩
      refine ⟨fun gone ctx _ hp => ?_, fun _ _ => trivial⟩
      obtain ⟨i, hi⟩ := hon.offered hstack hirq
      rw [hi] at hp
      cases hp
  · obtain ⟨s', hs', hlatched, hwithdrawn, hwork⟩ := advance_work hstack
    refine ⟨[.advance], s', ?_, ?_, ⟨hs.advance hs', hlatched, hwithdrawn⟩, hwork, nofun,
      fun _ _ => trivial⟩
    · simp [Serving]
    · rw [run_cons, System.step, hs']
      rfl

/-- **Every request is served.**  From any state of a disciplined run, the CPU and the handlers come by
themselves to a state with nothing left to do, and there each line's handler has been called for every
request that was latched and not taken back. -/
theorem run_settles (k : Kernel σ) (es : List (Event σ)) (s : System σ)
    (htold : AllSteps System.step SpuriousTold (System.start k) es)
    (hrun : run System.step (System.start k) es = some s) :
    ∃ es' s', (∀ e ∈ es', Serving e) ∧ run System.step s es' = some s' ∧ Settled s' ∧
      ∀ irq, s'.started irq + s.withdrawn irq = s.latched irq := by
  have hs : Disciplined s :=
    AllStates.of_run es [] (by rw [List.append_nil]; exact ((disciplined_start k).allStates_iff es).2 htold)
      hrun
  obtain ⟨es', s', hes', hrun', ⟨h', hlatched, hwithdrawn⟩, hstack, hnone⟩ :
      ∃ es' s', (∀ e ∈ es', Serving e) ∧ run System.step s es' = some s' ∧
        (Disciplined s' ∧ s'.latched = s.latched ∧ s'.withdrawn = s.withdrawn) ∧
        s'.stack = [] ∧ ∀ irq, requested s'.kernel.pics irq = false :=
    run_progress (G := fun t => t.stack = [] ∧ ∀ irq, requested t.kernel.pics irq = false)
      (I := fun t => Disciplined t ∧ t.latched = s.latched ∧ t.withdrawn = s.withdrawn) work
      (fun t ht hleft => by
        obtain ⟨es', t', hserving, hrun', ht', hless, -⟩ := serving_step t ht hleft
        exact ⟨es', t', hserving, hrun', ht', hless⟩) s ⟨hs, rfl, rfl⟩
  have hmaster := h'.master
  have hslave := h'.slave
  rw [hstack] at hmaster hslave
  refine ⟨es', s', hes', hrun',
    ⟨hstack, Serves.nil_iff.1 hmaster, Serves.nil_iff.1 hslave, hnone⟩, fun irq => ?_⟩
  have hirq := h'.conserved irq
  rw [hlatched, hwithdrawn, hstack, hnone irq] at hirq
  rw [hirq]
  exact Nat.add_comm _ _

/-- A tick is requested, and served. -/
theorem run_settles_timer : ∃ (es' : List (Event Int32)) (s' : System Int32),
    (∀ e ∈ es', Serving e) ∧
    run System.step (System.start timerKernel) (.sti :: .request 0 :: es') = some s' ∧
    Settled s' ∧ s'.started 0 = 1 := by
  obtain ⟨es', s', hserving, hrun, hsettled, hserved⟩ :=
    run_settles timerKernel [.sti, .request 0] _ (fun _ _ => ⟨nofun, fun _ _ => ⟨nofun, trivial⟩⟩) rfl
  exact ⟨es', s', hserving, hrun, hsettled, hserved 0⟩

end Progress

/-! ### A call that is not interrupted -/

section Call

variable {s t : System σ} {gone : Bool} {ctx : UInt32}

/-- The steps of an activation, all taken. -/
def finish (a : Activation) (k : Kernel σ) : Kernel σ :=
  match a.next with
  | .handler =>
    let k := callHandler (k.irqRoutines a.irq) a.intCtx k
    let k := if 8 ≤ a.irq then { k with pics := picEoiSlave k.pics } else k
    { k with pics := picEoiMaster k.pics }
  | .eoiSlave => { k with pics := picEoiMaster (picEoiSlave k.pics) }
  | .eoiMaster => { k with pics := picEoiMaster k.pics }
  | .done => k

/-- The activation `a`, on top of `rest`, runs to its end. -/
def RunsToEnd (a : Activation) (rest : List Activation) : Prop :=
  ∀ t : System σ, t.stack = a :: rest →
    ∃ n t', run System.step t (List.replicate n .advance) = some t' ∧
      t'.kernel = finish a t.kernel ∧ t'.stack = rest ∧ t'.interrupts = true

variable {irq : Fin 16} {a b : Activation} {rest : List Activation}

theorem RunsToEnd.of_advance (hb : @RunsToEnd σ b rest)
    (h : ∀ t : System σ, t.stack = a :: rest → ∃ u, t.advance = some u ∧ u.stack = b :: rest ∧
      finish b u.kernel = finish a t.kernel) : @RunsToEnd σ a rest := by
  intro t ht
  obtain ⟨u, hu, hstack, hfinish⟩ := h t ht
  obtain ⟨n, t', hrun, hkernel, hrest⟩ := hb u hstack
  refine ⟨n + 1, t', ?_, hkernel.trans hfinish, hrest⟩
  rw [List.replicate_succ, run_cons, System.step, hu]
  exact hrun

theorem finishes_done : @RunsToEnd σ ⟨irq, ctx, .done⟩ rest := by
  intro t ht
  refine ⟨1, { t with stack := rest, interrupts := true }, ?_, rfl, rfl, rfl⟩
  show (t.advance).bind _ = _
  rw [System.advance, ht]
  rfl

theorem finishes_eoiMaster : @RunsToEnd σ ⟨irq, ctx, .eoiMaster⟩ rest := by
  refine finishes_done.of_advance fun t ht => ⟨{ t.setPics (picEoiMaster t.kernel.pics) with
    stack := ⟨irq, ctx, .done⟩ :: rest }, ?_, rfl, rfl⟩
  rw [System.advance, ht]

theorem finishes_eoiSlave : @RunsToEnd σ ⟨irq, ctx, .eoiSlave⟩ rest := by
  refine finishes_eoiMaster.of_advance fun t ht => ⟨{ t.setPics (picEoiSlave t.kernel.pics) with
    stack := ⟨irq, ctx, .eoiMaster⟩ :: rest }, ?_, rfl, rfl⟩
  rw [System.advance, ht]

theorem finishes_handler : @RunsToEnd σ ⟨irq, ctx, .handler⟩ rest := by
  by_cases h8 : 8 ≤ irq
  · refine finishes_eoiSlave.of_advance fun t ht => ⟨{ t with
      kernel := callHandler (t.kernel.irqRoutines irq) ctx t.kernel
      stack := ⟨irq, ctx, .eoiSlave⟩ :: rest
      started := System.count irq t.started }, ?_, rfl, ?_⟩
    · rw [System.advance, ht]
      simp only [if_pos h8]
    · simp only [finish, if_pos h8]
  · refine finishes_eoiMaster.of_advance fun t ht => ⟨{ t with
      kernel := callHandler (t.kernel.irqRoutines irq) ctx t.kernel
      stack := ⟨irq, ctx, .eoiMaster⟩ :: rest
      started := System.count irq t.started }, ?_, rfl, ?_⟩
    · rw [System.advance, ht]
      simp only [if_neg h8]
    · simp only [finish, if_neg h8]

theorem finishes (a : Activation) (rest : List Activation) : @RunsToEnd σ a rest := by
  obtain ⟨irq, ictx, next⟩ := a
  cases next with
  | handler => exact finishes_handler
  | eoiSlave => exact finishes_eoiSlave
  | eoiMaster => exact finishes_eoiMaster
  | done => exact finishes_done

/-- The vectors that `interrupt_handler` hands to `irq_handler`. -/
theorem vector_irq {v : UInt8} (hv : ¬ (v < 32 ∨ 32 + 16 ≤ v)) :
    ∃ irq : Fin 16, v = 32 + UInt8.ofNat irq := by
  rw [not_or, UInt8.not_lt, UInt8.not_le, UInt8.le_iff_toNat_le, UInt8.lt_iff_toNat_lt] at hv
  obtain ⟨hlo, hhi⟩ : 32 ≤ v.toNat ∧ v.toNat < 48 := hv
  refine ⟨⟨v.toNat - 32, by omega⟩, UInt8.toNat_inj.1 ?_⟩
  rw [UInt8.toNat_add, UInt8.toNat_ofNat']
  show v.toNat = (32 + (v.toNat - 32) % 2 ^ 8) % 2 ^ 8
  omega

theorem vector_word : ∀ irq : Fin 16, (32 + UInt8.ofNat irq).toUInt32 - 32 = UInt32.ofNat irq ∧
    ¬ (32 + UInt8.ofNat irq).toUInt32 < 32 ∧
    (32 ≤ (32 + UInt8.ofNat irq).toUInt32 ∧ (32 + UInt8.ofNat irq).toUInt32 < 32 + 16) := by
  decide

theorem irq_word : ∀ irq : Fin 16, (UInt32.ofNat irq).toUInt8 = UInt8.ofNat irq ∧
    Fin.ofNat 16 (UInt32.ofNat irq).toNat = irq ∧
    (32 : UInt8) + UInt8.ofNat irq - 32 = UInt8.ofNat irq ∧
    (8 ≤ UInt8.ofNat irq ↔ 8 ≤ irq) := by
  decide

/-- **One call.**  An interrupt that the CPU takes, and whose activation then runs to its end without
being interrupted itself, does what `interrupt_handler` does with the vector as the number. -/
theorem run_interruptHandler (errCode : UInt32)
    (h : s.step (.interrupt gone ctx) = some t) :
    ∃ n t', run System.step t (List.replicate n .advance) = some t' ∧
      t'.kernel = interruptHandler (s.kernel.pics.acknowledge gone).1.toUInt32 errCode ctx
        { s.kernel with pics := (s.kernel.pics.acknowledge gone).2 } ∧
      t'.stack = s.stack ∧ t'.interrupts = s.interrupts := by
  rw [System.step] at h
  split at h
  case isFalse => cases h
  rename_i hon
  rw [hon]
  rcases ha : s.kernel.pics.acknowledge gone with ⟨v, q⟩
  by_cases hv : v < 32 ∨ 32 + 16 ≤ v
  · simp only [System.enter, ha, hv, if_true] at h
    cases h
  obtain ⟨irq, rfl⟩ := vector_irq hv
  obtain ⟨hbyte, hindex, hirq, hle⟩ := irq_word irq
  obtain ⟨hword, hlt, hin⟩ := vector_word irq
  rcases hb : irqSpurious (UInt8.ofNat irq) q with ⟨b, q'⟩
  rw [enter_eq ha hv hirq hb, Option.some.injEq] at h
  subst h
  obtain ⟨n, t', hrun, hkernel, hstack, hflag⟩ :=
    finishes ⟨irq, ctx, if b then .done else .handler⟩ s.stack { s.setPics q' with
      interrupts := false
      stack := ⟨irq, ctx, if b then .done else .handler⟩ :: s.stack
      withdrawn := if gone then System.countLost s.kernel.pics q s.withdrawn else s.withdrawn } rfl
  refine ⟨n, t', hrun, hkernel.trans ?_, hstack, hflag⟩
  rw [interruptHandler, if_neg hlt, if_pos hin]
  simp only [irqHandler, hword, hbyte, hindex, hb]
  cases b with
  | true => rfl
  | false =>
    simp only [Bool.false_eq_true, if_false, finish, hle]
    rfl

/-- The kernel with a tick requested. -/
def tickRequested : System Int32 := { System.start timerKernel with
  kernel := { timerKernel with pics := onLine Chip.request 0 (picInitialize timerKernel.pics) }
  interrupts := true }

/-- The call for one tick. -/
theorem run_interruptHandler_timer : ∃ (s t t' : System Int32) (n : ℕ),
    s.step (.interrupt false 0) = some t ∧
    run System.step t (List.replicate n .advance) = some t' ∧ t'.kernel.world = 1 := by
  obtain ⟨t, ht⟩ := Option.isSome_iff_exists.1
    (show (tickRequested.step (.interrupt false 0)).isSome = true by decide)
  obtain ⟨n, t', hrun, hkernel, -⟩ := run_interruptHandler 0 ht
  refine ⟨_, t, t', n, ht, hrun, ?_⟩
  rw [hkernel]
  decide

end Call

/-! ### The table and what the handlers work on -/

section Table

variable {s s' : System σ} {e : Event σ}

/-- The table is changed to entries that `E` allows only. -/
def TableKeeps (E : Fin 16 → Option (Handler σ) → Prop) : Event σ → Prop
  | .install irq handler => E irq (some handler)
  | .uninstall irq => E irq none
  | _ => True

theorem callHandler_irqRoutines (handler : Option (Handler σ)) (word : UInt32) (k : Kernel σ) :
    (callHandler handler word k).irqRoutines = k.irqRoutines := by
  cases handler with
  | none => rfl
  | some f => rfl

theorem update_entries {E : Fin 16 → Option (Handler σ) → Prop}
    {routines : Fin 16 → Option (Handler σ)} (h : ∀ j, E j (routines j)) {irq : Fin 16}
    {handler : Option (Handler σ)} (hnew : E irq handler) (j : Fin 16) :
    E j (Function.update routines irq handler j) := by
  by_cases hj : j = irq
  · rw [hj, Function.update_self]
    exact hnew
  · rw [Function.update_of_ne hj]
    exact h j

/-- Taking an interrupt changes the controllers and the counts of the second one's requests. -/
theorem enter_frame {gone : Bool} {ctx : UInt32} (hs : s.enter gone ctx = some s') :
    ∃ q, s'.kernel = { s.kernel with pics := q } ∧ s'.started = s.started ∧ s'.latched = s.latched ∧
      ∀ irq < 8, s'.withdrawn irq = s.withdrawn irq := by
  by_cases hv : (s.kernel.pics.acknowledge gone).1 < 32 ∨
      32 + 16 ≤ (s.kernel.pics.acknowledge gone).1
  · simp only [System.enter, hv, if_true] at hs
    cases hs
  · simp only [System.enter, hv, if_false, Option.some.injEq] at hs
    subst hs
    refine ⟨_, rfl, rfl, rfl, fun irq hirq => ?_⟩
    show (if gone = true then System.countLost _ _ s.withdrawn else s.withdrawn) irq = s.withdrawn irq
    split
    · exact if_neg fun h => absurd h.1 (not_le.2 hirq)
    · rfl

theorem entries_step {E : Fin 16 → Option (Handler σ) → Prop}
    (h : ∀ irq, E irq (s.kernel.irqRoutines irq)) (hkeeps : TableKeeps E e)
    (hs : s.step e = some s') : ∀ irq, E irq (s'.kernel.irqRoutines irq) := by
  cases e with
  | request irq =>
    rw [System.step] at hs
    split at hs <;> cases hs
    exact h
  | withdraw irq =>
    rw [System.step] at hs
    split at hs <;> cases hs
    exact h
  | interrupt gone ctx =>
    rw [System.step] at hs
    split at hs
    case isFalse => cases hs
    obtain ⟨q, hkernel, -⟩ := enter_frame hs
    rw [hkernel]
    exact h
  | advance =>
    rw [System.step, System.advance] at hs
    split at hs <;> cases hs
    · rw [callHandler_irqRoutines]
      exact h
    · exact h
    · exact h
    · exact h
  | cli => cases hs; exact h
  | sti => cases hs; exact h
  | install irq handler => cases hs; exact update_entries h hkeeps
  | uninstall irq => cases hs; exact update_entries h hkeeps

/-- **What a step does to the world**: nothing, or it is the call of a handler, and counted as one. -/
theorem step_world (hs : s.step e = some s') :
    (s'.kernel.world = s.kernel.world ∧ s'.started = s.started) ∨
    ∃ irq ctx rest, e = .advance ∧ s.stack = ⟨irq, ctx, .handler⟩ :: rest ∧
      s'.kernel.world = (callHandler (s.kernel.irqRoutines irq) ctx s.kernel).world ∧
      s'.started = System.count irq s.started := by
  cases e with
  | request irq =>
    rw [System.step] at hs
    split at hs <;> cases hs
    exact Or.inl ⟨rfl, rfl⟩
  | withdraw irq =>
    rw [System.step] at hs
    split at hs <;> cases hs
    exact Or.inl ⟨rfl, rfl⟩
  | interrupt gone ctx =>
    rw [System.step] at hs
    split at hs
    case isFalse => cases hs
    obtain ⟨q, hkernel, hstarted, -⟩ := enter_frame hs
    rw [hkernel]
    exact Or.inl ⟨rfl, hstarted⟩
  | advance =>
    rw [System.step, System.advance] at hs
    split at hs
    · cases hs
    · rename_i irq ctx rest hstack
      cases hs
      exact Or.inr ⟨irq, ctx, rest, rfl, hstack, rfl, rfl⟩
    · cases hs
      exact Or.inl ⟨rfl, rfl⟩
    · cases hs
      exact Or.inl ⟨rfl, rfl⟩
    · cases hs
      exact Or.inl ⟨rfl, rfl⟩
  | cli => cases hs; exact Or.inl ⟨rfl, rfl⟩
  | sti => cases hs; exact Or.inl ⟨rfl, rfl⟩
  | install irq handler => cases hs; exact Or.inl ⟨rfl, rfl⟩
  | uninstall irq => cases hs; exact Or.inl ⟨rfl, rfl⟩

/-- Only the line's own requests and withdrawals count for a line of the first controller. -/
theorem counts_step (hs : s.step e = some s') {irq : Fin 16} (hirq : irq < 8)
    (hrequest : e ≠ .request irq) (hwithdraw : e ≠ .withdraw irq) :
    s'.latched irq = s.latched irq ∧ s'.withdrawn irq = s.withdrawn irq := by
  cases e with
  | request j =>
    have hj : irq ≠ j := fun h => hrequest (by rw [h])
    rw [System.step] at hs
    split at hs <;> cases hs
    refine ⟨?_, rfl⟩
    show (if requested s.kernel.pics j = true then s.latched else System.count j s.latched) irq = _
    split
    · rfl
    · exact Function.update_of_ne hj _ _
  | withdraw j =>
    have hj : irq ≠ j := fun h => hwithdraw (by rw [h])
    rw [System.step] at hs
    split at hs <;> cases hs
    exact ⟨rfl, Function.update_of_ne hj _ _⟩
  | interrupt gone ctx =>
    rw [System.step] at hs
    split at hs
    case isFalse => cases hs
    obtain ⟨q, -, -, hlatched, hwithdrawn⟩ := enter_frame hs
    exact ⟨by rw [hlatched], hwithdrawn irq hirq⟩
  | advance =>
    rw [System.step, System.advance] at hs
    split at hs <;> cases hs
    · exact ⟨rfl, rfl⟩
    · exact ⟨rfl, rfl⟩
    · exact ⟨rfl, rfl⟩
    · exact ⟨rfl, rfl⟩
  | cli => cases hs; exact ⟨rfl, rfl⟩
  | sti => cases hs; exact ⟨rfl, rfl⟩
  | install j handler => cases hs; exact ⟨rfl, rfl⟩
  | uninstall j => cases hs; exact ⟨rfl, rfl⟩

end Table

/-! ### One line's requests -/

section Counted

variable {s s' : System σ} {e : Event σ} {p q : Pair} {j irq : Fin 16}

/-- The requests of one line are accounted for.  For a line whose interrupts are never tested this does
not take the discipline: a spurious interrupt that passes for a real one is not its own. -/
structure Counted (j : Fin 16) (s : System σ) : Prop where
  ready : PicsReady s.kernel.pics
  noDevice : Has s.kernel.pics.master.irr link = false
  conserved : s.latched j = s.withdrawn j + s.started j + waiting j s.stack +
    (requested s.kernel.pics j).toNat

theorem Disciplined.counted (h : Disciplined s) (j : Fin 16) : Counted j s :=
  ⟨h.ready, h.noDevice, h.conserved j⟩

/-- The tests for spurious interrupts change no request. -/
theorem irqSpurious_keeps (irq : UInt8) (q : Pair) (hq : PicsReady q) :
    PicsReady (irqSpurious irq q).2 ∧ (irqSpurious irq q).2.master.irr = q.master.irr ∧
      (irqSpurious irq q).2.slave.irr = q.slave.irr := by
  by_cases h7 : irq = 7
  · subst h7
    rw [irqSpurious_seven]
    exact ⟨hq.showIsr, rfl, rfl⟩
  · by_cases h15 : irq = 15
    · subst h15
      rw [irqSpurious_fifteen]
      split
      · exact ⟨hq.showIsr, rfl, rfl⟩
      · exact ⟨hq.showIsr.eoiMaster, rfl, rfl⟩
    · rw [irqSpurious_other h7 h15]
      exact ⟨hq, rfl, rfl⟩

/-- What taking an interrupt is to a line: it is another's, or its own, whose request is then no longer
latched. -/
def TakesLine (j irq : Fin 16) (p q : Pair) : Prop :=
  (irq ≠ j ∧ requested q j = requested p j) ∨
    irq = j ∧ requested p j = true ∧ requested q j = false

theorem Counted.entered (h : Counted j s) (hj : j < 7) {gone : Bool} {ctx : UInt32} {v : UInt8}
    (ha : s.kernel.pics.acknowledge gone = (v, q)) (hv : ¬ (v < 32 ∨ 32 + 16 ≤ v))
    (hirq : v - 32 = UInt8.ofNat irq) (hready : PicsReady q)
    (hdevice : Has q.master.irr link = false) (htakes : TakesLine j irq s.kernel.pics q)
    (hs : s.enter gone ctx = some s') : Counted j s' := by
  obtain ⟨hready', hmaster, hslave⟩ := irqSpurious_keeps (UInt8.ofNat irq) q hready
  rw [enter_eq ha hv hirq (b := (irqSpurious (UInt8.ofNat irq) q).1) rfl, Option.some.injEq] at hs
  subst hs
  refine ⟨hready', ?_, ?_⟩
  · show Has (irqSpurious (UInt8.ofNat irq) q).2.master.irr link = false
    rw [hmaster]
    exact hdevice
  · have hcount := h.conserved
    show s.latched j = (if gone = true then System.countLost s.kernel.pics q s.withdrawn
      else s.withdrawn) j + s.started j + waiting j (_ :: s.stack) +
      (requested (irqSpurious (UInt8.ofNat irq) q).2 j).toNat
    have hwithdrawn : (if gone = true then System.countLost s.kernel.pics q s.withdrawn
        else s.withdrawn) j = s.withdrawn j := by
      split
      · exact if_neg fun hlost => absurd (hj.trans (by decide)) (not_lt.2 hlost.1)
      · rfl
    rw [hwithdrawn, requested_congr hmaster hslave, waiting_cons]
    rcases htakes with ⟨hne, hsame⟩ | ⟨rfl, hon, hoff⟩
    · rw [if_neg fun hc => hne hc.1, hsame]
      exact hcount
    · -- an interrupt of the line itself is not tested
      have hreal : (irqSpurious (UInt8.ofNat irq) q).1 = false := by
        rw [irqSpurious_other (ofNat_irq_ne irq 7 hj.ne)
          (ofNat_irq_ne irq 15 (hj.trans (by decide)).ne)]
      rw [hon, Bool.toNat_true] at hcount
      rw [hreal, if_pos ⟨rfl, rfl⟩, hoff, Bool.toNat_false]
      omega

theorem Counted.enter (h : Counted j s) (hj : j < 7) {gone : Bool} {ctx : UInt32}
    (hs : s.enter gone ctx = some s') : Counted j s' := by
  have hm := h.ready.master
  have hsl := h.ready.slave
  have hdevice : ∀ i, Has (s.kernel.pics.master.take i).irr link = false := by
    intro i
    show Has (clearLine i s.kernel.pics.master.irr) link = false
    rw [has_clearLine, h.noDevice]
    rfl
  have h8 : j < 8 := hj.trans (by decide)
  -- the second controller's lines are not this one
  have hsecond : ∀ (k : Fin 8) (c : Chip), TakesLine j (slaveIrq k) s.kernel.pics
      ⟨s.kernel.pics.master.take link, c⟩ := by
    intro k c
    refine Or.inl ⟨fun hk => absurd (le_slaveIrq k) (not_le.2 (hk ▸ h8)), ?_⟩
    rw [requested_take_link h.noDevice, requested, requested, if_pos h8, if_pos h8]
  have hanswer := Pair.acknowledge_cases gone s.kernel.pics
  generalize ha : s.kernel.pics.acknowledge gone = answer at hanswer
  cases hanswer with
  | nothing hp =>
    rw [hm.base] at ha
    exact h.entered hj ha (by decide) (by decide) h.ready h.noDevice
      (show TakesLine j 7 _ _ from Or.inl ⟨hj.ne', rfl⟩) hs
  | own i hp hi =>
    have hne : i ≠ link := fun hl => hi ⟨hl, h.ready.cascaded⟩
    obtain ⟨⟨hline, -⟩, -, -⟩ := Pair.linked_pending_eq_some.1 hp
    rw [Pair.has_linked_irr, if_neg hne] at hline
    have hon : requested s.kernel.pics (masterIrq i) = true := by
      rw [requested, if_pos (masterIrq_lt i), line_masterIrq]
      exact hline
    have hclear := requested_clear (f := Chip.take) (fun _ _ => rfl) s.kernel.pics (masterIrq i) j
    rw [onLine_masterIrq] at hclear
    rw [hm.base] at ha
    refine h.entered hj ha (vector_master i) (irqOf_master i) ⟨hm.take i, hsl⟩ (hdevice i) ?_ hs
    by_cases hij : masterIrq i = j
    · rw [hij] at hon hclear
      exact Or.inr ⟨hij, hon, by rw [hclear, hon, decide_eq_true rfl]; rfl⟩
    · exact Or.inl ⟨hij, by rw [hclear, decide_eq_false hij, Bool.not_false, Bool.and_true]⟩
  | gone hgone hp hc =>
    rw [hsl.base] at ha
    exact h.entered hj ha (by decide) (by decide)
      ⟨hm.take link, hsl.of_eq rfl rfl rfl rfl rfl⟩ (hdevice link) (hsecond 7 _) hs
  | slave k hgone hp hc hk =>
    rw [hsl.base] at ha
    exact h.entered hj ha (vector_slave k) (irqOf_slave k) ⟨hm.take link, hsl.take k⟩ (hdevice link)
      (hsecond k _) hs

theorem Counted.advance (h : Counted j s) (hs : s.advance = some s') : Counted j s' := by
  have hcount := h.conserved
  unfold System.advance at hs
  split at hs
  · cases hs
  · rename_i irq ctx rest hstack
    cases hs
    rw [hstack, waiting_cons] at hcount
    refine ⟨?_, ?_, ?_⟩
    · show PicsReady (callHandler _ _ _).pics
      rw [callHandler_pics]
      exact h.ready
    · show Has (callHandler _ _ _).pics.master.irr link = false
      rw [callHandler_pics]
      exact h.noDevice
    · show s.latched j = s.withdrawn j + System.count irq s.started j + waiting j (_ :: rest) +
        (requested (callHandler _ _ _).pics j).toNat
      rw [callHandler_pics, waiting_cons, if_neg (by split <;> simp), System.count]
      by_cases hij : irq = j
      · subst hij
        rw [if_pos ⟨rfl, rfl⟩] at hcount
        rw [Function.update_self]
        omega
      · rw [if_neg fun hc => hij hc.1] at hcount
        rw [Function.update_of_ne (Ne.symm hij)]
        omega
  · rename_i irq ctx rest hstack
    cases hs
    rw [hstack, waiting_cons, if_neg (by simp)] at hcount
    refine ⟨h.ready.eoiSlave, h.noDevice, ?_⟩
    rw [waiting_cons, if_neg (by simp)]
    exact hcount
  · rename_i irq ctx rest hstack
    cases hs
    rw [hstack, waiting_cons, if_neg (by simp)] at hcount
    refine ⟨h.ready.eoiMaster, h.noDevice, ?_⟩
    rw [waiting_cons, if_neg (by simp)]
    exact hcount
  · rename_i irq ctx rest hstack
    cases hs
    rw [hstack, waiting_cons, if_neg (by simp)] at hcount
    exact ⟨h.ready, h.noDevice, hcount⟩

/-- A change of what is requested, and of nothing else. -/
theorem Counted.of_request (h : Counted j s) {f : Fin 8 → Chip → Chip} {latched withdrawn : Fin 16 → ℕ}
    (hready : ∀ base icw3 i c, ChipReady base icw3 c → ChipReady base icw3 (f i c))
    (hdevice : requested (onLine f irq s.kernel.pics) 2 = requested s.kernel.pics 2)
    (hcount : latched j + s.withdrawn j + (requested s.kernel.pics j).toNat =
      s.latched j + withdrawn j + (requested (onLine f irq s.kernel.pics) j).toNat) :
    Counted j { s.setPics (onLine f irq s.kernel.pics) with
      latched := latched, withdrawn := withdrawn } := by
  have hr := h.ready
  refine ⟨?_, hdevice.trans h.noDevice, ?_⟩
  · show PicsReady (onLine f irq s.kernel.pics)
    unfold onLine
    split
    · exact ⟨hready _ _ _ _ hr.master, hr.slave⟩
    · exact ⟨hr.master, hready _ _ _ _ hr.slave⟩
  · have hj := h.conserved
    show latched j = withdrawn j + s.started j + waiting j s.stack +
      (requested (onLine f irq s.kernel.pics) j).toNat
    omega

/-- **Step lemma** for one line, whatever spurious interrupts come. -/
theorem Counted.step (h : Counted j s) (hj : j < 7) (hs : s.step e = some s') : Counted j s' := by
  cases e with
  | request irq =>
    rw [System.step] at hs
    split at hs
    · cases hs
    rename_i h2
    cases hs
    refine h.of_request (f := Chip.request) (fun _ _ i _ hc => hc.request i) ?_ ?_
    · rw [requested_request, decide_eq_false h2, Bool.or_false]
    · exact request_count s irq j
  | withdraw irq =>
    rw [System.step] at hs
    split at hs
    case isFalse => cases hs
    rename_i hon
    cases hs
    refine h.of_request (f := Chip.withdraw) (fun _ _ i _ hc => hc.withdraw i) ?_ ?_
    · have hdevice : requested s.kernel.pics 2 = false := h.noDevice
      rw [requested_clear (f := Chip.withdraw) (fun _ _ => rfl), hdevice]
      rfl
    · exact withdraw_count hon j
  | interrupt gone ctx =>
    rw [System.step] at hs
    split at hs
    · exact h.enter hj hs
    · cases hs
  | advance => exact h.advance hs
  | cli => cases hs; exact ⟨h.ready, h.noDevice, h.conserved⟩
  | sti => cases hs; exact ⟨h.ready, h.noDevice, h.conserved⟩
  | install irq handler => cases hs; exact ⟨h.ready, h.noDevice, h.conserved⟩
  | uninstall irq => cases hs; exact ⟨h.ready, h.noDevice, h.conserved⟩

end Counted

/-! ### The timer's counter -/

section Ticks

variable {ticks : σ → Int32} {s s' : System σ} {e : Event σ}

/-- The entry of line 0 counts a tick, as `pit_handler` does, and the others leave the counter alone. -/
def CountsTicks (ticks : σ → Int32) (irq : Fin 16) (handler : Option (Handler σ)) : Prop :=
  if irq = 0 then ∃ f, handler = some f ∧ ∀ word x, ticks (f word x) = pitHandler (ticks x)
  else ∀ f, handler = some f → ∀ word x, ticks (f word x) = ticks x

/-- The counter has gone up once for each time the line's handler was called, and a request that has
not been counted was taken back, waits in an activation, or is still latched. -/
structure TicksCounted (ticks : σ → Int32) (t₀ : Int32) (s : System σ) : Prop where
  entries : ∀ irq, CountsTicks ticks irq (s.kernel.irqRoutines irq)
  counter : ticks s.kernel.world = pitHandler^[s.started 0] t₀
  requests : s.latched 0 = s.withdrawn 0 + s.started 0 + waiting 0 s.stack +
    (requested s.kernel.pics 0).toNat

theorem CountsTicks.call {irq : Fin 16} {k : Kernel σ}
    (h : CountsTicks ticks irq (k.irqRoutines irq)) (word : UInt32) :
    ticks (callHandler (k.irqRoutines irq) word k).world =
      if irq = 0 then pitHandler (ticks k.world) else ticks k.world := by
  unfold CountsTicks at h
  by_cases h0 : irq = 0
  · rw [if_pos h0] at h ⊢
    obtain ⟨f, hf, hcount⟩ := h
    rw [hf]
    exact hcount word k.world
  · rw [if_neg h0] at h ⊢
    cases hf : k.irqRoutines irq with
    | none => rfl
    | some f => exact h f hf word k.world

/-- The counter and the count of calls change only together. -/
theorem counter_step {t₀ : Int32} (hentries : ∀ irq, CountsTicks ticks irq (s.kernel.irqRoutines irq))
    (hcounter : ticks s.kernel.world = pitHandler^[s.started 0] t₀) (hs : s.step e = some s') :
    ticks s'.kernel.world = pitHandler^[s'.started 0] t₀ := by
  rcases step_world hs with ⟨hworld, hstarted⟩ | ⟨irq, ctx, rest, -, -, hworld, hstarted⟩
  · rw [hworld, hstarted, hcounter]
  · rw [hworld, hstarted, (hentries irq).call, System.count]
    split
    · rename_i h0
      rw [h0, Function.update_self, Function.iterate_succ_apply', hcounter]
    · rename_i h0
      rw [Function.update_of_ne (Ne.symm h0), hcounter]

/-- **The counter counts.**  Through any interleaving, nested handlers and spurious interrupts included,
`timer_ticks` has gone up by the number of the line's requests, less those that were taken back or are
still to be served. -/
theorem ticks_run (ticks : σ → Int32) (k : Kernel σ)
    (hk : ∀ irq, CountsTicks ticks irq (k.irqRoutines irq)) (es : List (Event σ))
    (h : Permitted System.step (fun _ e => TableKeeps (CountsTicks ticks) e) (System.start k) es) :
    AllStates System.step (TicksCounted ticks (ticks k.world)) (System.start k) es := by
  have hrun := allStates_of_permitted (I := fun s : System σ => Counted 0 s ∧
    TicksCounted ticks (ticks k.world) s) (fun s e s' hI hkeeps hs => ?_) es _
      ⟨(disciplined_start k).counted 0, hk, rfl, (disciplined_start k).conserved 0⟩ h
  · exact AllStates.imp (fun _ h => h.2) hrun
  · have h' := hI.1.step (by decide) hs
    exact ⟨h', entries_step hI.2.entries hkeeps hs, counter_step hI.2.entries hI.2.counter hs,
      h'.conserved⟩

/-- One tick is counted, once its handler has been called. -/
theorem ticks_run_timer : AllStates System.step (TicksCounted id 0) (System.start timerKernel)
    [.sti, .request 0, .interrupt false 0, .advance] := by
  refine ticks_run id timerKernel (fun irq => ?_) _ ⟨trivial, ?_⟩
  · unfold CountsTicks timerKernel
    by_cases h0 : irq = 0
    · simp only [h0, if_true]
      exact ⟨_, rfl, fun _ _ => rfl⟩
    · simp only [h0, if_false]
      exact nofun
  · exact fun _ _ => ⟨trivial, fun _ _ => ⟨trivial, fun _ _ => ⟨trivial, fun _ _ => trivial⟩⟩⟩

end Ticks

end CometOS
