import FlameOS.InterruptRuns
import Mathlib

/-!
What waits for interrupts: the lines for their turn, and `sleep` of `PIT.c` for the timer.

A line that is requested and enabled lets only those before it go first, and once no requests come
in all lines that are enabled get their turn. `sleep` ends with the first test that sees enough
interrupts of the timer, unless the sum with the counter does not fit.
-/

namespace FlameOS.Waiting

open FlameOS.Runs FlameOS.Arbiter FlameOS.Devices FlameOS.Idt FlameOS.Timer FlameOS.Interrupts
open FlameOS.InterruptRuns

variable {img : Image} {s t u : Sys} {m₀ : ByteMem.Mem} {e : Event} {line : ℕ}

/-! ### Lines -/

/-- The interrupts among the events, and the requests for some lines. -/
def isDeliver : Event → Bool
  | .deliver _ _ => true
  | _ => false

def raises (is : List ℕ) : Event → Bool
  | .raise i => decide (i ∈ is)
  | _ => false

lemma countP_of_forall₂ {α β : Type*} {R : α → β → Prop} {p : α → Bool} {q : β → Bool} {as : List α}
    {bs : List β} (hpq : ∀ a b, R a b → p a = q b) (h : List.Forall₂ R as bs) :
    as.countP p = bs.countP q := by
  induction h with
  | nil => rfl
  | cons hab _ ih => rw [List.countP_cons, List.countP_cons, ih, hpq _ _ hab]

lemma isDeliver_of_matches {l : Label ℕ} (h : Matches e l) : isDeliver e = l.isServe := by
  cases h
  · rfl
  · rfl
  · rfl

lemma raises_of_matches {l : Label ℕ} (is : List ℕ) (h : Matches e l) :
    raises is e = l.raises is := by
  cases h
  · rfl
  · rfl
  · rfl

lemma serve_notMem {es : List Event} {ls : List (Label ℕ)} (h : List.Forall₂ Matches es ls)
    (hes : ∀ h, Event.deliver line h ∉ es) : Label.serve line ∉ ls := by
  induction h with
  | nil => exact List.not_mem_nil
  | cons hmatch _ ih =>
    rw [List.mem_cons, not_or]
    refine ⟨?_, ih fun h hmem => hes h (List.mem_cons_of_mem _ hmem)⟩
    rintro rfl
    cases hmatch
    exact hes _ List.mem_cons_self

lemma nodup_order : order.Nodup := by decide

lemma exists_run_deliver {is : List ℕ} {a : Arbiter.State ℕ} (hs : Live img m₀ s)
    (h : Run (Arbiter.Step order) (fun _ => True) (lines s.board) (is.map .serve) a) :
    ∃ t, Run (Interrupts.Step img) (fun _ => True) s
      (is.map fun line => .deliver line (handlerOf (0x20 + line))) t ∧ lines t.board = a ∧
      Live img m₀ t := by
  induction is generalizing s with
  | nil =>
    cases h
    exact ⟨s, .refl s, rfl, hs⟩
  | cons line is ih =>
    cases h with
    | step _ hstep hrest =>
      cases hstep with
      | serve hnext =>
        have hdeliver := hs.deliver_iff.mpr ⟨hnext, rfl, rfl⟩
        rw [← lines_served (lt_of_next hnext)] at hrest
        obtain ⟨t, hrun, ha, ht⟩ := ih (Step.spec hs hdeliver).1 hrest
        exact ⟨t, .step trivial hdeliver hrun, ha, ht⟩

/-- **Every line gets its turn.** From every state reached, as long as a line is requested and
enabled and gets no interrupt, the others get no more than were requested before it, counting those
that come in. And if none comes in, all that are requested and enabled get their interrupts, in
their order, until there is nothing left for the processor. -/
theorem reach_waits (img : Image) (s₀ : Sys)
    (hisr : ∀ slave i, (s₀.board.chip slave).isr i = false) (hmasked : s₀.board.masked 0 = true)
    (es : List Event) (t : Sys) (h : Reach img s₀ es t) :
    (∀ line ∈ order, ∀ (fs : List Event) (u : Sys),
        Run (Interrupts.Step img)
          (fun s => (lines s.board).requested line = true ∧ (lines s.board).enabled line = true)
          t fs u →
        (∀ h, Event.deliver line h ∉ fs) →
        fs.countP isDeliver + ahead order (lines u.board) line ≤
          ahead order (lines t.board) line + fs.countP (raises (before order line))) ∧
      ∃ u, Run (Interrupts.Step img) (fun _ => True) t
          ((waiting order (lines t.board)).map fun line =>
            .deliver line (handlerOf (0x20 + line))) u ∧ u.board.inta = none := by
  obtain ⟨ht, -, -⟩ := reach_spec hisr hmasked h
  constructor
  · intro line hline fs u hrun hnot
    obtain ⟨-, ls, hls, hlines⟩ :=
      run_lines (P := fun s => s.requested line = true ∧ s.enabled line = true) ht hrun
    rw [countP_of_forall₂ (fun _ _ h => isDeliver_of_matches h) hls,
      countP_of_forall₂ (fun _ _ h => raises_of_matches _ h) hls]
    exact waiting_of_run hlines nodup_order hline (serve_notMem hls hnot)
  · obtain ⟨a, hserve, hnone, -⟩ := exists_run_waiting nodup_order (lines t.board)
    obtain ⟨u, hrun, rfl, hu⟩ := exists_run_deliver ht hserve
    refine ⟨u, hrun, ?_⟩
    rw [inta_eq hu.idle, hnone]
    rfl

/-- Line 5 waits while the timer is served, which came in behind it. -/
theorem reach_waits_image :
    ∃ t u v, Reach image powerOn [.mask false 5, .raise 5, .raise 0] t ∧
      Run (Interrupts.Step image)
        (fun s => (lines s.board).requested 5 = true ∧ (lines s.board).enabled 5 = true)
        t [.deliver 0 .pitirq] u ∧
      1 + ahead order (lines u.board) 5 ≤ ahead order (lines t.board) 5 ∧
      Run (Interrupts.Step image) (fun _ => True) t [.deliver 0 .pitirq, .deliver 5 .nop_master] v ∧
      v.board.inta = none := by
  obtain ⟨s, hstart, hs⟩ := exists_reach image isr_powerOn masked_powerOn
  have hsome : (start image powerOn).bind (fun s => (Pic.unmaskirq board 5 s.board).map
      fun b => waiting order (lines ((b.raise 5).raise 0))) = some [0, 5] := by decide
  rw [hstart, Option.bind_some, Option.map_eq_some_iff] at hsome
  obtain ⟨b, hb, hwait⟩ := hsome
  have hmask : Interrupts.Step image s (.mask false 5) { s with board := b } := .mask hb
  have ht := hs.run (.step trivial hmask
    (.step trivial (.raise (show 5 < 16 by decide) (by decide))
      (.step trivial (.raise (show 0 < 16 by decide) (by decide)) (.refl _))))
  obtain ⟨hlive, -, -⟩ := reach_spec isr_powerOn masked_powerOn ht
  obtain ⟨hbound, v, hrun, hnone⟩ := reach_waits image powerOn isr_powerOn masked_powerOn _ _ ht
  have hmem : 5 ∈ waiting order (lines ((b.raise 5).raise 0)) := by
    rw [hwait]
    decide
  have hfive := (List.mem_filter.mp hmem).2
  rw [Bool.and_eq_true] at hfive
  have hnext : next order (lines ((b.raise 5).raise 0)) = some 0 := by
    rw [next_eq_head?, hwait]
    rfl
  have hdeliver := hlive.deliver_iff.mpr ⟨hnext, rfl, rfl⟩
  have hserved := Run.step (P := fun s : Sys => (lines s.board).requested 5 = true ∧
    (lines s.board).enabled 5 = true) hfive hdeliver (.refl _)
  rw [hwait] at hrun
  exact ⟨_, _, v, ht, hserved, hbound 5 (by decide) _ _ hserved (by simp), hrun, hnone⟩

/-! ### Sleep -/

variable (img)

/-- The loop of `sleep`: between its tests there are events. -/
inductive Loop (exit : UInt64) : Sys → List (List Event) → Sys → Prop
  | done {s : Sys} (h : ¬ticks img s < exit) : Loop exit s [] s
  | again {s t u : Sys} {es : List Event} {ess : List (List Event)} (h : ticks img s < exit)
      (hrun : Run (Interrupts.Step img) (fun _ => True) s es t) (hrest : Loop exit t ess u) :
      Loop exit s (es :: ess) u

/-- `sleep` returns, with these events between its tests. -/
def sleep (n : UInt64) (s : Sys) (ess : List (List Event)) (u : Sys) : Prop :=
  Loop img (ticks img s + n) s ess u

/-- Events in several parts. -/
inductive Parts : Sys → List (List Event) → Sys → Prop
  | nil (s : Sys) : Parts s [] s
  | cons {s t u : Sys} {es : List Event} {ess : List (List Event)}
      (hrun : Run (Interrupts.Step img) (fun _ => True) s es t) (hrest : Parts t ess u) :
      Parts s (es :: ess) u

def timers (ess : List (List Event)) : ℕ := (ess.flatten.map Event.ticks).sum

variable {img}

lemma timers_cons (es : List Event) (ess : List (List Event)) :
    timers (es :: ess) = (es.map Event.ticks).sum + timers ess := by
  rw [timers, timers, List.flatten_cons, List.map_append, List.sum_append]

lemma ticks_run {es : List Event} (hs : Live img m₀ s)
    (h : Run (Interrupts.Step img) (fun _ => True) s es t)
    (hfit : (ticks img s).toNat + (es.map Event.ticks).sum < 2 ^ 64) :
    (ticks img t).toNat = (ticks img s).toNat + (es.map Event.ticks).sum := by
  rw [run_ticks hs h, UInt64.toNat_add, Nat.toUInt64_eq, UInt64.toNat_ofNat', Nat.add_mod_mod,
    Nat.mod_eq_of_lt hfit]

lemma loop_iff {ess : List (List Event)} (hs : Live img m₀ s)
    (hfit : (ticks img s).toNat + timers ess < 2 ^ 64) (exit : UInt64) :
    Loop img exit s ess u ↔ Parts img s ess u ∧ exit.toNat ≤ (ticks img s).toNat + timers ess ∧
      ∀ k < ess.length, (ticks img s).toNat + timers (ess.take k) < exit.toNat := by
  have hnil : timers [] = 0 := rfl
  constructor
  · intro h
    induction h with
    | @done s h =>
      rw [UInt64.lt_iff_toNat_lt] at h
      exact ⟨.nil s, by omega, fun k hk => absurd hk (Nat.not_lt_zero k)⟩
    | @again s t u es ess h hrun hrest ih =>
      rw [timers_cons] at hfit ⊢
      have hticks := ticks_run hs hrun (by omega)
      obtain ⟨hparts, hle, hlt⟩ := ih (run_lines (P := fun _ => True) hs hrun).1 (by omega)
      refine ⟨.cons hrun hparts, by omega, fun k hk => ?_⟩
      cases k with
      | zero =>
        rw [List.take_zero, hnil, Nat.add_zero]
        exact UInt64.lt_iff_toNat_lt.mp h
      | succ k =>
        have hk' := hlt k (Nat.lt_of_succ_lt_succ hk)
        rw [List.take_succ_cons, timers_cons]
        omega
  · rintro ⟨h, hle, hlt⟩
    induction h with
    | nil s =>
      refine .done ?_
      rw [UInt64.lt_iff_toNat_lt]
      omega
    | @cons s t u es ess hrun hrest ih =>
      rw [timers_cons] at hfit hle
      have hticks := ticks_run hs hrun (by omega)
      have hfirst := hlt 0 (Nat.succ_pos _)
      rw [List.take_zero, hnil, Nat.add_zero] at hfirst
      refine .again (UInt64.lt_iff_toNat_lt.mpr hfirst) hrun
        (ih (run_lines (P := fun _ => True) hs hrun).1 (by omega) (by omega) fun k hk => ?_)
      have hk' := hlt (k + 1) (Nat.succ_lt_succ hk)
      rw [List.take_succ_cons, timers_cons] at hk'
      omega

/-- **How long `sleep` takes.** Called in a state that is reached, and while the counter does not
wrap around, it returns with the first of its tests that comes behind as many interrupts of the
timer as it was asked for. But if the counter and that number do not fit into a word together, it
returns at once. -/
theorem reach_sleep (img : Image) (s₀ : Sys)
    (hisr : ∀ slave i, (s₀.board.chip slave).isr i = false) (hmasked : s₀.board.masked 0 = true)
    (es : List Event) (s : Sys) (h : Reach img s₀ es s) (ess : List (List Event))
    (hfit : (ticks img s).toNat + timers ess < 2 ^ 64) (n : UInt64) (u : Sys) :
    sleep img n s ess u ↔
      if (ticks img s).toNat + n.toNat < 2 ^ 64 then
        Parts img s ess u ∧ n.toNat ≤ timers ess ∧
          ∀ k < ess.length, timers (ess.take k) < n.toNat
      else ess = [] ∧ u = s := by
  obtain ⟨hs, -, -⟩ := reach_spec hisr hmasked h
  have hexit : (ticks img s + n).toNat = ((ticks img s).toNat + n.toNat) % 2 ^ 64 :=
    UInt64.toNat_add ..
  have hn := n.toNat_lt
  have hticks := (ticks img s).toNat_lt
  rw [sleep, loop_iff hs hfit, hexit]
  by_cases hsum : (ticks img s).toNat + n.toNat < 2 ^ 64
  · rw [if_pos hsum, Nat.mod_eq_of_lt hsum]
    simp only [Nat.add_le_add_iff_left, Nat.add_lt_add_iff_left]
  · have hmod : ((ticks img s).toNat + n.toNat) % 2 ^ 64 =
        (ticks img s).toNat + n.toNat - 2 ^ 64 := by omega
    rw [if_neg hsum, hmod]
    constructor
    · rintro ⟨hparts, -, hlt⟩
      cases hparts with
      | nil => exact ⟨rfl, rfl⟩
      | cons hrun hrest =>
        have hfirst := hlt 0 (Nat.succ_pos _)
        have hnil : timers [] = 0 := rfl
        rw [List.take_zero, hnil] at hfirst
        omega
    · rintro ⟨rfl, rfl⟩
      exact ⟨.nil u, by omega, fun k hk => absurd hk (Nat.not_lt_zero k)⟩

/-- Two interrupts of the timer end `sleep(2)`, each between two of its tests. -/
theorem reach_sleep_image :
    ∃ s u, Reach image powerOn [] s ∧
      sleep image 2 s [[.raise 0, .deliver 0 .pitirq], [.raise 0, .deliver 0 .pitirq]] u := by
  obtain ⟨s, hstart, hs⟩ := exists_reach image isr_powerOn masked_powerOn
  obtain ⟨hlive, -, hticks⟩ := reach_spec isr_powerOn masked_powerOn hs
  obtain ⟨t, hst, ht, hen⟩ := exists_timer hlive (enabled_start hstart)
  obtain ⟨u, htu, -, -⟩ := exists_timer ht hen
  have hzero : (ticks image s).toNat = 0 := by
    rw [hticks]
    decide
  have h := reach_sleep image powerOn isr_powerOn masked_powerOn [] s hs
    [[.raise 0, .deliver 0 .pitirq], [.raise 0, .deliver 0 .pitirq]]
    (by rw [hzero]; decide) 2 u
  rw [hzero, if_pos (by decide)] at h
  refine ⟨s, u, hs, h.mpr ⟨.cons hst (.cons htu (.nil u)), by decide, by decide⟩⟩

end FlameOS.Waiting
