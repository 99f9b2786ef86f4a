import FlameOS.Interrupts
import Mathlib

/-!
Runs of the system with its interrupts, from `init_idt` on, which turns them on: they come between
any two statements of `init_timer`, and then at any time.

The one gate that `init_timer` stores to is that of the timer, field by field. While its line is
masked no interrupt finds it half written, so the statements have the effect that they have alone.
-/

namespace FlameOS.InterruptRuns

open FlameOS.Runs FlameOS.ByteMem FlameOS.Records FlameOS.Descriptors FlameOS.Gdt FlameOS.Idt
open FlameOS.Devices FlameOS.Pic FlameOS.Timer FlameOS.Interrupts

/-! ### The start -/

inductive Statement
  | outb (port : ℕ) (v : UInt8)
  | store (addr : ℕ) (l : List UInt8)
  | unmaskirq (irq : UInt8)

def Statement.exec : Statement → Sys → Option Sys
  | .outb port v, s => some { s with board := board.outb port v s.board }
  | .store addr l, s => some { s with mem := put s.mem addr l }
  | .unmaskirq irq, s => (Pic.unmaskirq board irq s.board).map fun b => { s with board := b }

variable (img : Image)

/-- The statements in front of `unmaskirq`. -/
def settings : List Statement :=
  [.outb CMD 0x36, .outb CHAN0 (div &&& 0xFF).toUInt8, .outb CHAN0 (div >>> 8).toUInt8] ++
    (Irq.idtEntry ⟨0x20, img.code .pitirq, 0x8E⟩).stores.map fun f =>
      .store (img.IDT + 16 * 0x20 + f.1) f.2

/-- What happens in a run: `init_idt` has turned interrupts on. -/
def Reach (s₀ : Sys) (es : List Event) (t : Sys) : Prop :=
  ∃ ws s fs, es = ws ++ fs ∧
    Interleave (fun s e t => Step img s e t ∧ ∀ on irq, e ≠ .mask on irq) Statement.exec
      (settings img ++ [.unmaskirq 0])
      (initIdt img.IDT img.code ⟨(initGdt img.GDT ⟨s₀.mem, 0⟩).mem, s₀.board⟩) ws s ∧
    Run (Step img) (fun _ => True) s fs t

def execs (cs : List Statement) (s : Sys) : Option Sys := cs.foldlM (fun s c => c.exec s) s

variable {img} {s s' t u u' : Sys} {m₀ : Mem} {e : Event} {c : Statement}

lemma execs_stores (fs : List (ℕ × List UInt8)) (a : ℕ) (cs : List Statement) (s : Sys) :
    execs (fs.map (fun f => .store (a + f.1) f.2) ++ cs) s =
      execs cs { s with mem := fs.foldl (fun m f => put m (a + f.1) f.2) s.mem } := by
  induction fs generalizing s with
  | nil => rfl
  | cons f fs ih => exact ih _

/-- Without interrupts, the statements are `init_timer`. -/
lemma execs_settings (img : Image) (s : Sys) :
    execs (settings img ++ [.unmaskirq 0]) s = initTimer img.IDT img.code s := by
  have hthree : execs (settings img ++ [.unmaskirq 0]) s =
      execs ((Irq.idtEntry ⟨0x20, img.code .pitirq, 0x8E⟩).stores.map
        (fun f => .store (img.IDT + 16 * 0x20 + f.1) f.2) ++ [.unmaskirq 0])
          { s with board := program board s.board } := rfl
  rw [hthree, execs_stores, foldl_stores]
  simp only [execs, List.foldlM_cons, List.foldlM_nil, Statement.exec, initTimer]
  rcases Pic.unmaskirq board 0 (program board s.board) with _ | b
  · rfl
  · rfl

/-- What holds before `unmaskirq`: no interrupt leads to the gate that is stored to. -/
structure Quiet (img : Image) (m₀ : Mem) (s : Sys) : Prop where
  mem : ∀ x, ¬(img.IDT + 16 * 0x20 ≤ x ∧ x < img.IDT + 16 * 0x20 + 16) →
    s.mem x = tables img.GDT img.IDT img.code m₀ x
  idle : Idle s.board
  masked : s.board.masked 0 = true

/-- A state of a run next to one without interrupts: some requests may be there. -/
structure Beside (s u : Sys) : Prop where
  mem : u.mem = s.mem
  channel : u.board.channel = s.board.channel
  chip : ∀ slave, ∃ irr, u.board.chip slave = { s.board.chip slave with irr }

lemma Beside.masked (h : Beside s u) (i : ℕ) : u.board.masked i = s.board.masked i := by
  obtain ⟨irr, hirr⟩ := h.chip (decide (8 ≤ i))
  unfold Board.masked
  rw [hirr]
  rfl

lemma Beside.idle (h : Beside s u) (hs : Idle s.board) : Idle u.board := by
  refine hs.congr fun slave => ?_
  obtain ⟨irr, hirr⟩ := h.chip slave
  exact ⟨_, irr, hirr⟩

/-- The line of the timer is not the next one while it is masked. -/
lemma Quiet.leads (hs : Quiet img m₀ s) (h : Beside s u) {line : ℕ}
    (hnext : Arbiter.next order (lines u.board) = some line) :
    line ≠ 0 ∧ Leads img u.mem line := by
  have h0 : line ≠ 0 := by
    rintro rfl
    have henabled := List.find?_some hnext
    simp [lines, h.masked, hs.masked] at henabled
  have hline := lt_of_next hnext
  have hmem : ∀ x, _ → u.mem x = tables img.GDT img.IDT img.code m₀ x := fun x hx => by
    rw [h.mem]
    exact hs.mem x hx
  refine ⟨h0, Interrupts.leads hline (fun x hx => hmem x ?_) fun k hk => hmem _ ?_⟩
  · have hapart := img.gdt_idt
    unfold INTS at hapart
    omega
  · omega

/-- An event before `unmaskirq` changes nothing but requests. -/
lemma Quiet.event (hs : Quiet img m₀ s) (h : Beside s u) (hstep : Step img u e u')
    (hmask : ∀ on irq, e ≠ .mask on irq) :
    Beside s u' ∧ e.ticks = 0 ∧
      ∃ l, Matches e l ∧ Arbiter.Step order (lines u.board) l (lines u'.board) := by
  have hchip : ∀ {b : Board}, (∀ slave, ∃ irr, b.chip slave = { u.board.chip slave with irr }) →
      ∀ slave, ∃ irr, b.chip slave = { s.board.chip slave with irr } := by
    intro b hb slave
    obtain ⟨irr, hirr⟩ := h.chip slave
    obtain ⟨irr', hirr'⟩ := hb slave
    exact ⟨irr', by rw [hirr', hirr]⟩
  cases e with
  | raise line =>
    cases hstep with
    | raise hline h2 =>
      refine ⟨⟨h.mem, h.channel, hchip fun slave => ?_⟩, rfl, _, .raise line, ?_⟩
      · by_cases hslave : slave = decide (8 ≤ line)
        · subst hslave
          exact ⟨_, Board.chip_setChip_self ..⟩
        · exact ⟨_, Board.chip_setChip_of_ne _ hslave _⟩
      · rw [lines_raise hline h2]
        exact .raise _ line
  | deliver line h' =>
    obtain ⟨hnext, rfl, rfl⟩ :=
      (deliver_iff (h.idle hs.idle) fun _ hnext => (hs.leads h hnext).2).mp hstep
    have h0 := (hs.leads h hnext).1
    refine ⟨⟨?_, ?_, hchip (chip_served u.board line)⟩, if_neg h0, _, .deliver line, ?_⟩
    · rw [if_neg h0]
      exact h.mem
    · rw [channel_served]
      exact h.channel
    · rw [lines_served (lt_of_next hnext)]
      exact .serve hnext
  | mask on irq => exact absurd rfl (hmask on irq)

/-- A statement changes a state as it does the one without requests. -/
lemma Quiet.exec (hs : Quiet img m₀ s) (h : Beside s u) (hc : c ∈ settings img) :
    ∃ s' u', c.exec s = some s' ∧ c.exec u = some u' ∧ Quiet img m₀ s' ∧ Beside s' u' ∧
      lines u'.board = lines u.board := by
  have hout : ∀ port v, (∃ f : Channel → Channel, ∀ b : Board,
      board.outb port v b = b.setChannel 0 (f (b.channel 0))) →
      ∃ s' u', (Statement.outb port v).exec s = some s' ∧
        (Statement.outb port v).exec u = some u' ∧ Quiet img m₀ s' ∧ Beside s' u' ∧
        lines u'.board = lines u.board := by
    rintro port v ⟨f, hf⟩
    refine ⟨_, _, rfl, rfl, ⟨hs.mem, ?_, ?_⟩, ⟨h.mem, ?_, ?_⟩, ?_⟩
    · rw [hf]
      exact hs.idle.congr fun slave => ⟨_, _, rfl⟩
    · rw [hf]
      exact hs.masked
    · rw [hf, hf, h.channel]
      exact congrArg (fun g => Function.update g 0 (f (s.board.channel 0))) h.channel
    · rw [hf, hf]
      exact h.chip
    · rw [hf]
      rfl
  unfold settings at hc
  rw [List.mem_append] at hc
  rcases hc with hc | hc
  · simp only [List.mem_cons, List.not_mem_nil, or_false] at hc
    rcases hc with rfl | rfl | rfl
    · exact hout _ _ ⟨fun c => c.control 0x36, fun b => outb_cmd b⟩
    · exact hout _ _ ⟨fun c => c.data _, fun b => outb_chan0 _ b⟩
    · exact hout _ _ ⟨fun c => c.data _, fun b => outb_chan0 _ b⟩
  · obtain ⟨f, hf, rfl⟩ := List.mem_map.mp hc
    have hinside : f.1 + f.2.length ≤ 16 := by
      have hall : ∀ e : IdtEntry, ∀ f ∈ e.stores, f.1 + f.2.length ≤ 16 := by
        intro e
        simp [IdtEntry.stores]
      exact hall _ f hf
    refine ⟨_, _, rfl, rfl, ⟨fun x hx => ?_, hs.idle, hs.masked⟩, ⟨?_, h.channel, h.chip⟩, rfl⟩
    · rw [← hs.mem x hx]
      exact put_of_notMem (by omega)
    · simp only [h.mem]

lemma Beside.unmaskirq (h : Beside s u) (hidle : Idle s.board) :
    ∃ s' u', (Statement.unmaskirq 0).exec s = some s' ∧ (Statement.unmaskirq 0).exec u = some u' ∧
      Beside s' u' ∧ (lines u'.board).requested = (lines u.board).requested := by
  have hexec : ∀ s : Sys, Idle s.board → (Statement.unmaskirq 0).exec s =
      some ⟨s.mem, s.board.setChip false { s.board.chip false with
        imr := (s.board.chip false).imr &&& ~~~(1 <<< 0 : ℕ).toUInt8 }⟩ := by
    intro s hs
    rw [← Chip.data_of_ready hs.master.phase]
    rfl
  obtain ⟨irr, hirr⟩ := h.chip false
  refine ⟨_, _, hexec s hidle, hexec u (h.idle hidle), ⟨h.mem, h.channel, fun slave => ?_⟩, ?_⟩
  · cases slave
    · exact ⟨irr, by simp [hirr]⟩
    · obtain ⟨irr', hirr'⟩ := h.chip true
      exact ⟨irr', by simp [hirr']⟩
  · ext1 i
    have hreq : ∀ c : Chip, c.irr = (u.board.chip false).irr →
        (u.board.setChip false c).requested i = u.board.requested i := by
      intro c hc
      unfold Board.requested
      cases hi : decide (8 ≤ i)
      · rw [Board.chip_setChip_self, hc]
      · rw [Board.chip_setChip_of_ne _ (by decide)]
    exact congrArg (fun r => decide (i < 16 ∧ i ≠ 2) && r) (hreq _ rfl)

/-- A line after events, when it was requested or not before them. -/
def asks (line : ℕ) (es : List Event) (b : Bool) : Bool :=
  es.foldl (fun b e => (e.sets line).getD b) b

/-- **The start with interrupts.** It ends as without them, apart from requests. -/
lemma interleave_spec {cs : List Statement} {ws : List Event}
    (h : Interleave (fun s e t => Step img s e t ∧ ∀ on irq, e ≠ .mask on irq) Statement.exec
      (cs ++ [.unmaskirq 0]) u ws t)
    (hcs : ∀ c ∈ cs, c ∈ settings img) (hs : Quiet img m₀ s) (hb : Beside s u) :
    ∃ s', execs (cs ++ [.unmaskirq 0]) s = some s' ∧ Beside s' t ∧
      (∀ line, (lines t.board).requested line = asks line ws ((lines u.board).requested line)) ∧
      (ws.map Event.ticks).sum = 0 := by
  obtain ⟨as, has⟩ : ∃ as, as = cs ++ [.unmaskirq 0] := ⟨_, rfl⟩
  rw [← has] at h ⊢
  induction h generalizing cs s with
  | done u => simp at has
  | @exec c as u u₁ t ws hc hrest ih =>
    cases cs with
    | nil =>
      obtain ⟨rfl, rfl⟩ := List.cons.inj has
      obtain ⟨s', u', hs', hu', hb', hlines⟩ := hb.unmaskirq hs.idle
      rw [hc] at hu'
      obtain rfl := Option.some.inj hu'
      cases hrest
      refine ⟨s', ?_, hb', fun line => congrFun hlines line, rfl⟩
      rw [execs, List.foldlM_cons, hs']
      rfl
    | cons d cs =>
      obtain ⟨rfl, rfl⟩ := List.cons.inj has
      obtain ⟨s', u', hs', hu', hquiet, hb', hlines⟩ := hs.exec hb (hcs c List.mem_cons_self)
      rw [hc] at hu'
      obtain rfl := Option.some.inj hu'
      obtain ⟨s'', hexecs, hb'', hreq, hticks⟩ :=
        ih (fun d hd => hcs d (List.mem_cons_of_mem _ hd)) hquiet hb' rfl
      refine ⟨s'', ?_, hb'', ?_, hticks⟩
      · rw [execs, List.foldlM_cons, hs']
        exact hexecs
      · rwa [hlines] at hreq
  | @step c as u u₁ t e ws hstep hrest ih =>
    obtain ⟨hb', hticks, l, hl, hlines⟩ := hs.event hb hstep.1 hstep.2
    obtain ⟨s', hexecs, hb'', hreq, hsum⟩ := ih hcs hs hb' has
    refine ⟨s', hexecs, hb'', fun line => ?_, ?_⟩
    · rw [hreq line, hlines.requested line, hl.sets line]
      rfl
    · rw [List.map_cons, List.sum_cons, hticks, hsum]

/-- What `init_idt` leaves: nothing is requested, and the gates are there but that of the timer. -/
lemma initIdt_spec (img : Image) {s : Sys} (hisr : ∀ slave i, (s.board.chip slave).isr i = false)
    (hmasked : s.board.masked 0 = true) :
    Quiet img s.mem (initIdt img.IDT img.code ⟨(initGdt img.GDT ⟨s.mem, 0⟩).mem, s.board⟩) ∧
      ∀ line, (lines (remappic board 0x20 0x28 s.board)).requested line = false := by
  have hchip : ∀ slave, (remappic board 0x20 0x28 s.board).chip slave =
      setUp (s.board.chip slave) (if slave then 0x28 else 0x20) (if slave then 2 else 4) := by
    intro slave
    rw [remappic_eq]
    cases slave
    · simp
    · simp
  refine ⟨⟨fun x hx => ?_, ⟨?_, ?_, fun slave i => ?_⟩, ?_⟩, fun line => ?_⟩
  · simp only [initIdt, tables, addirqs, List.map_append, List.foldl_append]
    symm
    exact put_of_notMem (by rwa [length_bytes_idtEntry])
  · rw [initIdt, hchip, setUp_eq]
    exact ⟨rfl, rfl, rfl, rfl⟩
  · rw [initIdt, hchip, setUp_eq]
    exact ⟨rfl, rfl, rfl, rfl⟩
  · rw [initIdt, hchip, setUp_eq]
    exact hisr slave i
  · rw [initIdt, Board.masked, hchip, setUp_eq]
    exact hmasked
  · simp [lines, Board.requested, hchip, setUp_eq]

lemma Quiet.initTimer (hs : Quiet img m₀ s)
    (hmem : addirqs img.IDT (timer.map (Setup.irq img.code)) s.mem =
      tables img.GDT img.IDT img.code m₀) :
    ∃ s', initTimer img.IDT img.code s = some s' ∧ Live img m₀ s' ∧
      ticks img s' = load m₀ img.timerticks := by
  have hready : ∀ slave, ((program board s.board).chip slave).phase = .ready := by
    intro slave
    rw [program_eq]
    exact hs.idle.ready slave
  have hzero : (0 : UInt8).toNat < 39 := by decide
  obtain ⟨b, hb, hsame, -⟩ := changeMask_spec sets_and_not hzero hready
  refine ⟨⟨tables img.GDT img.IDT img.code m₀, b⟩, ?_, ⟨fun _ _ => rfl, ?_, ?_⟩, ?_⟩
  · rw [Timer.initTimer, unmaskirq, hb, hmem]
    rfl
  · refine Idle.sameLines (hs.idle.congr fun slave => ?_) hsame
    rw [program_eq]
    exact ⟨_, _, rfl⟩
  · rw [hsame.channel, program_eq]
    rfl
  · have hrecord : record img.timerticks 8 (tables img.GDT img.IDT img.code m₀) 0 =
        record img.timerticks 8 m₀ 0 := by
      have hgdt := img.ticks_gdt
      have hidt := img.ticks_idt
      exact record_congr fun k hk => tables_of_notMem img.code (by omega) (by omega)
    rw [ticks, load, hrecord]
    rfl

lemma Beside.live (h : Beside s u) (hs : Live img m₀ s) : Live img m₀ u := by
  refine ⟨fun x hx => ?_, h.idle hs.idle, ?_⟩
  · rw [h.mem]
    exact hs.mem x hx
  · rw [h.channel]
    exact hs.timer

/-! ### Runs -/

lemma run_lines {P : Arbiter.State ℕ → Prop} {es : List Event} (hs : Live img m₀ s)
    (h : Run (Step img) (fun s => P (lines s.board)) s es t) :
    Live img m₀ t ∧ ∃ ls, List.Forall₂ Matches es ls ∧
      Run (Arbiter.Step order) P (lines s.board) ls (lines t.board) := by
  obtain ⟨ht, hrun⟩ := h.invariant (I := fun s => Live img m₀ s)
    (fun _ _ _ hs h => (Step.spec hs h).1) hs
  refine ⟨ht, hrun.simulate (fun s => lines s.board) Matches ?_ fun s hs => hs.1⟩
  exact fun _ _ _ hs h => (Step.spec hs.2 h).2.1

lemma asks_of_forall₂ {es : List Event} {ls : List (Arbiter.Label ℕ)}
    (h : List.Forall₂ Matches es ls) (line : ℕ) (b : Bool) :
    ls.foldl (fun b l => (l.sets line).getD b) b = asks line es b := by
  unfold asks
  induction h generalizing b with
  | nil => rfl
  | cons hmatch _ ih => rw [List.foldl_cons, List.foldl_cons, hmatch.sets, ih]

lemma run_requested {es : List Event} (hs : Live img m₀ s)
    (h : Run (Step img) (fun _ => True) s es t) (line : ℕ) :
    (lines t.board).requested line = asks line es ((lines s.board).requested line) := by
  obtain ⟨-, ls, hls, hrun⟩ := run_lines (P := fun _ => True) hs h
  rw [Arbiter.requested_of_run hrun, asks_of_forall₂ hls]

lemma run_ticks {es : List Event} (hs : Live img m₀ s)
    (h : Run (Step img) (fun _ => True) s es t) :
    ticks img t = ticks img s + (es.map Event.ticks).sum.toUInt64 := by
  induction h with
  | refl s => exact (UInt64.add_zero _).symm
  | @step s u t e es _ hstep _ ih =>
    obtain ⟨hu, -, hticks⟩ := Step.spec hs hstep
    have hadd : ∀ a b : ℕ, (a + b).toUInt64 = a.toUInt64 + b.toUInt64 := UInt64.ofNat_add
    rw [ih hu, hticks, List.map_cons, List.sum_cons, UInt64.add_assoc, hadd]

/-- **What is reached.** -/
lemma reach_spec {s₀ : Sys} {es : List Event}
    (hisr : ∀ slave i, (s₀.board.chip slave).isr i = false) (hmasked : s₀.board.masked 0 = true)
    (h : Reach img s₀ es t) :
    Live img s₀.mem t ∧ (∀ line, (lines t.board).requested line = asks line es false) ∧
      ticks img t = load s₀.mem img.timerticks + (es.map Event.ticks).sum.toUInt64 := by
  obtain ⟨ws, u, fs, rfl, hinit, hrun⟩ := h
  obtain ⟨hquiet, hnone⟩ := initIdt_spec img hisr hmasked
  have hself : ∀ s : Sys, Beside s s := fun s => ⟨rfl, rfl, fun _ => ⟨_, rfl⟩⟩
  obtain ⟨s, hexecs, hbeside, hreq, hsum⟩ :=
    interleave_spec hinit (fun _ h => h) hquiet (hself _)
  obtain ⟨s', hs', hlive, hticks⟩ := hquiet.initTimer
    (by simp only [initIdt, tables, addirqs, List.map_append, List.foldl_append])
  rw [execs_settings, hs'] at hexecs
  obtain rfl := Option.some.inj hexecs
  have hu := hbeside.live hlive
  refine ⟨(run_lines (P := fun _ => True) hu hrun).1, fun line => ?_, ?_⟩
  · rw [run_requested hu hrun, hreq]
    have hfalse : (lines (initIdt img.IDT img.code
        ⟨(initGdt img.GDT ⟨s₀.mem, 0⟩).mem, s₀.board⟩).board).requested line = false := hnone line
    rw [hfalse, asks, asks, asks, List.foldl_append]
  · have hsame : ticks img u = ticks img s' := by rw [ticks, ticks, hbeside.mem]
    rw [run_ticks hu hrun, hsame, hticks, List.map_append, List.sum_append, hsum, Nat.zero_add]

/-! ### Results -/

lemma exists_reach (img : Image) {s₀ : Sys} (hisr : ∀ slave i, (s₀.board.chip slave).isr i = false)
    (hmasked : s₀.board.masked 0 = true) : ∃ s, start img s₀ = some s ∧ Reach img s₀ [] s := by
  obtain ⟨s, hs, -, -⟩ := (initIdt_spec img hisr hmasked).1.initTimer
    (by simp only [initIdt, tables, addirqs, List.map_append, List.foldl_append])
  have hexecs := (execs_settings img _).trans hs
  exact ⟨s, hs, [], s, [], rfl, .of_foldlM hexecs, .refl s⟩

lemma Reach.run {s₀ : Sys} {fs : List Event} (h : Reach img s₀ [] s)
    (hrun : Run (Step img) (fun _ => True) s fs t) : Reach img s₀ fs t := by
  obtain ⟨ws, u, fs, hnil, hinit, hnone⟩ := h
  obtain ⟨rfl, rfl⟩ := List.append_eq_nil_iff.mp hnil.symm
  cases hnone
  exact ⟨[], s, _, rfl, hinit, hrun⟩

/-- The timer gets its interrupts while its line is enabled, since no other line comes first. -/
lemma exists_timer (hs : Live img m₀ s) (hen : (lines s.board).enabled 0 = true) :
    ∃ t, Run (Step img) (fun _ => True) s [.raise 0, .deliver 0 .pitirq] t ∧ Live img m₀ t ∧
      (lines t.board).enabled 0 = true := by
  have hraise : Step img s (.raise 0) { s with board := s.board.raise 0 } :=
    .raise (by decide) (by decide)
  have hlive := (Step.spec hs hraise).1
  have hlines := @lines_raise s.board 0 (by decide) (by decide)
  have hnext : Arbiter.next order (lines (s.board.raise 0)) = some 0 := by
    rw [Arbiter.next, hlines]
    exact List.find?_cons_of_pos (by simp [hen])
  have hdeliver := hlive.deliver_iff.mpr ⟨hnext, rfl, rfl⟩
  refine ⟨_, .step trivial hraise (.step trivial hdeliver (.refl _)), (Step.spec hlive hdeliver).1,
    ?_⟩
  rw [lines_served (by decide), hlines]
  exact hen

def image : Image where
  GDT := 0x1000
  IDT := 0x2000
  timerticks := 0x3000
  code := address
  code_injective := by
    intro h h' heq
    have hidx : ∀ h, (address h).toNat = 0x100000 + 16 * h.ctorIdx := by
      intro h
      cases h <;> rfl
    have hnat := congrArg UInt64.toNat heq
    rw [hidx, hidx] at hnat
    rw [← Handler.ofNat_ctorIdx h, ← Handler.ofNat_ctorIdx h', show h.ctorIdx = h'.ctorIdx by omega]
  gdt_idt := by decide
  ticks_gdt := by decide
  ticks_idt := by decide

def powerOn : Sys :=
  ⟨fun _ => 0, (default : Board).setChip false { (default : Chip) with imr := 0xFF }⟩

lemma isr_powerOn (slave : Bool) (i : ℕ) : (powerOn.board.chip slave).isr i = false := by
  cases slave
  · rfl
  · rfl

lemma masked_powerOn : powerOn.board.masked 0 = true := rfl

lemma enabled_start {s : Sys} (h : start image powerOn = some s) :
    (lines s.board).enabled 0 = true := by
  have hsome : (start image powerOn).map (fun s => (lines s.board).enabled 0) = some true := by
    decide
  rw [h] at hsome
  exact Option.some.inj hsome

/-- **The interrupts of the kernel.** If the line of the timer is masked and nothing is in service
when the kernel starts, `init` gets through; and in whatever order requests, interrupts and changes
of the masks come from `init_idt` on, every state reached has nothing left in service, the timer
programmed and each line leading to its own handler in ring 0. An interrupt is possible exactly for
the line that comes first of those requested and enabled, and all that happens is what happens to
lines served in a fixed order. -/
theorem reach_refines (img : Image) (s₀ : Sys)
    (hisr : ∀ slave i, (s₀.board.chip slave).isr i = false) (hmasked : s₀.board.masked 0 = true) :
    (∃ s, start img s₀ = some s ∧ Reach img s₀ [] s) ∧
      ∀ (es : List Event) (t : Sys), Reach img s₀ es t →
        Idle t.board ∧ t.board.channel 0 = ⟨3, 3, false, none, 1193⟩ ∧
        (∀ line < 16, Leads img t.mem line) ∧
        (∀ (line : ℕ) (h : Handler), (∃ u, Step img t (.deliver line h) u) ↔
          Arbiter.next order (lines t.board) = some line ∧ h = handlerOf (0x20 + line)) ∧
        ∀ (fs : List Event) (u : Sys), Run (Step img) (fun _ => True) t fs u →
          ∃ ls, List.Forall₂ Matches fs ls ∧
            Run (Arbiter.Step order) (fun _ => True) (lines t.board) ls (lines u.board) := by
  refine ⟨exists_reach img hisr hmasked, fun es t h => ?_⟩
  obtain ⟨ht, -, -⟩ := reach_spec hisr hmasked h
  refine ⟨ht.idle, ht.timer, fun line hline => ht.leads hline, fun line h => ?_, fun fs u hrun =>
    (run_lines (P := fun _ => True) ht hrun).2⟩
  constructor
  · rintro ⟨u, hu⟩
    obtain ⟨hnext, hh, -⟩ := ht.deliver_iff.mp hu
    exact ⟨hnext, hh⟩
  · exact fun hnext => ⟨_, ht.deliver_iff.mpr ⟨hnext.1, hnext.2, rfl⟩⟩

theorem reach_refines_image :
    (∃ s, start image powerOn = some s ∧ Reach image powerOn [] s) ∧
      ∀ (es : List Event) (t : Sys), Reach image powerOn es t →
        Idle t.board ∧ t.board.channel 0 = ⟨3, 3, false, none, 1193⟩ ∧
        (∀ line < 16, Leads image t.mem line) ∧
        (∀ (line : ℕ) (h : Handler), (∃ u, Step image t (.deliver line h) u) ↔
          Arbiter.next order (lines t.board) = some line ∧ h = handlerOf (0x20 + line)) ∧
        ∀ (fs : List Event) (u : Sys), Run (Step image) (fun _ => True) t fs u →
          ∃ ls, List.Forall₂ Matches fs ls ∧
            Run (Arbiter.Step order) (fun _ => True) (lines t.board) ls (lines u.board) :=
  reach_refines image powerOn isr_powerOn masked_powerOn

/-- **No request is lost, and the timer counts.** In every state reached, a line is requested if
the last event for it was a request; `timerticks` has gone up by one for each interrupt of the
timer, and no other memory outside the two tables has changed. -/
theorem reach_counts (img : Image) (s₀ : Sys)
    (hisr : ∀ slave i, (s₀.board.chip slave).isr i = false) (hmasked : s₀.board.masked 0 = true)
    (es : List Event) (t : Sys) (h : Reach img s₀ es t) :
    (∀ line < 16, line ≠ 2 →
        t.board.requested line = (es.reverse.findSome? (Event.sets line)).getD false) ∧
      ticks img t = ticks img s₀ + (es.map Event.ticks).sum.toUInt64 ∧
      ∀ x, ¬(img.GDT ≤ x ∧ x < img.GDT + 8 * ENTRIES) → ¬(img.IDT ≤ x ∧ x < img.IDT + 16 * INTS) →
        ¬(img.timerticks ≤ x ∧ x < img.timerticks + 8) → t.mem x = s₀.mem x := by
  obtain ⟨ht, hreq, hticks⟩ := reach_spec hisr hmasked h
  refine ⟨fun line hline h2 => ?_, hticks, fun x hgdt hidt hx => ?_⟩
  · have hlast := hreq line
    rw [asks, Arbiter.foldl_getD] at hlast
    rw [← hlast]
    simp [lines, hline, h2]
  · rw [ht.mem x hx, tables_of_notMem img.code hgdt hidt]

/-- The timer is counted, and a request that comes in behind its interrupt stays. -/
theorem reach_counts_image :
    ∃ t, Reach image powerOn [.raise 0, .deliver 0 .pitirq, .raise 5] t ∧
      t.board.requested 0 = false ∧ t.board.requested 5 = true ∧
      ticks image t = ticks image powerOn + 1 := by
  obtain ⟨s, hstart, hs⟩ := exists_reach image isr_powerOn masked_powerOn
  obtain ⟨hlive, -, -⟩ := reach_spec isr_powerOn masked_powerOn hs
  obtain ⟨u, hrun, -, -⟩ := exists_timer hlive (enabled_start hstart)
  have hraise : Run (Step image) (fun _ => True) u [.raise 5] { u with board := u.board.raise 5 } :=
    .step trivial (.raise (by decide) (by decide)) (.refl _)
  have ht := hs.run (hrun.append hraise)
  obtain ⟨hreq, hticks, -⟩ := reach_counts image powerOn isr_powerOn masked_powerOn _ _ ht
  exact ⟨_, ht, hreq 0 (by decide) (by decide), hreq 5 (by decide) (by decide), hticks⟩

end FlameOS.InterruptRuns
