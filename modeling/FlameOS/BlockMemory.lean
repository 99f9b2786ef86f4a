import FlameOS.HeapSafety
import FlameOS.Runs
import Mathlib

/-!
The blocks of the kernel heap as memory: what is stored to a byte of a block is there until
something else is stored to it or the block is freed, whatever happens to the other blocks.

Stores go through the page tables into physical memory, in which the frames of the tables lie as
well. A call of `malloc` or `free` may write to all of these, so the bytes of a block stay only
because no table is among their frames, none of them is moved, and no two blocks share one.
-/

namespace FlameOS.BlockMemory

open FlameOS.Word FlameOS.FrameAlloc FlameOS.PageTable FlameOS.MapSpec FlameOS.HeapTable
open FlameOS.Heap FlameOS.Backing FlameOS.Aliasing FlameOS.HeapSafety FlameOS.MapPage
open FlameOS.MapRun FlameOS.Boot FlameOS.Runs

/-- The heap, the pages whose frames have been released, and the physical memory. -/
structure World where
  st : State
  released : Set ℕ
  ram : ℕ → UInt8

/-- A call of `malloc` or `free`, or a store to an address. -/
inductive Op
  | call (c : Call)
  | store (a : ℕ) (v : UInt8)

/-- A call writes to page tables, and outside the frames of the freemap. A store is to a mapped
byte of a block. -/
inductive Step (M : Machine) : World → Op → World → Prop
  | call {w : World} {c : Call} {ram : ℕ → UInt8} (hc : KernelCall c)
      (hsp : Spares M w.released c w.st)
      (hram : ∀ f ∈ M.fm.pages, ¬IsPageTable M (call M c w.st).paging f →
        ∀ x, f ≤ x → x < f + PAGE_SIZE → ram x = w.ram x) :
      Step M w (.call c) ⟨call M c w.st, w.released ∪ releasedBy M c w.st, ram⟩
  | store {w : World} {a : ℕ} (ha : a ∈ liveBytes w.st.tables) (hmap : Backed M w.st.paging a)
      (v : UInt8) :
      Step M w (.store a v)
        { w with ram := Function.update w.ram (findPhysaddr M w.st.paging a) v }

open Classical in
/-- What has been stored to the bytes of blocks. A block that is new or freed has nothing. -/
noncomputable def contents (M : Machine) : List Op → State → (ℕ → Option UInt8) → ℕ → Option UInt8
  | [], _, m => m
  | .call c :: ops, st, m =>
    contents M ops (call M c st) fun a =>
      if a ∈ liveBytes st.tables ∧ a ∈ liveBytes (call M c st).tables then m a else none
  | .store a v :: ops, st, m => contents M ops st (Function.update m a (some v))

/-- The kernel heap has been used with care, and the memory holds what has been stored. -/
structure Holds (M : Machine) (w : World) (m : ℕ → Option UInt8) : Prop where
  sound : Heap.Sound w.st.tables
  untouched : Untouched 1 w.st.tables
  framed : Framed M w.st.paging
  inv : Inv M kernelAddrs w.released (liveBytes w.st.tables) w.st.paging
  stored : ∀ a v, m a = some v → a ∈ liveBytes w.st.tables ∧ Backed M w.st.paging a ∧
    w.ram (findPhysaddr M w.st.paging a) = v

variable {M : Machine} {w w' : World} {m : ℕ → Option UInt8} {c : Call} {st : State} {R : Set ℕ}
  {a b f : ℕ}

section calls

variable (hM : FramesOk M) (h0 : 0 ∉ M.fm.pages)

include hM h0

/-- A turn of the mapping loop does not move a byte that is mapped to a frame. -/
lemma lookup_turn {L : Set ℕ} {s : Paging} {virt : ℕ} (h : Inv M kernelAddrs R L s)
    (hno : ∀ e ∈ (mapMissing M virt s).2, ¬RanOut M.fm e) (ha : a ∈ L) (hf : f ∈ M.fm.pages)
    (hl : lookup M s a = some f) : lookup M (mapMissing M virt s).1 a = some f := by
  by_cases hp : page a = page virt
  · have hne : findPhysaddr M s virt ≠ 0 := by
      rw [lookup_congr hp] at hl
      exact backed_of_lookup hl fun hz => h0 (hz ▸ hf)
    rw [mapMissing_mapped hne]
    exact hl
  · rw [((h.turn hM hno).2 a ha).2 hp]
    exact hl

/-- A call does not move a byte of a block that lives before and after it. -/
lemma lookup_call (h : Inv M kernelAddrs R (liveBytes st.tables) st.paging) (hsp : Spares M R c st)
    (hap : Apart M c st) (hsub : liveBytes (call M c st).tables ⊆ kernelAddrs)
    (ha : a ∈ liveBytes st.tables) (hf : f ∈ M.fm.pages) (hl : lookup M st.paging a = some f) :
    lookup M (call M c st).paging a = some f := by
  cases c with
  | malloc size heap =>
    have hno := hsp.1
    rw [Heap.call] at hsub ⊢
    rw [tables_mallocHeap] at hsub
    rcases ht : takeBlock size heap st.tables with ⟨_ | addr, t⟩
    · rw [mallocHeap_none ht]
      exact hl
    · rw [ht] at hsub
      rw [mallocHeap_some ht, trace_block] at hno
      rw [mallocHeap_some ht, paging_block]
      have hlive : a ∈ liveBytes t := by
        rw [liveBytes_of_some ht]
        exact Or.inl ha
      have hkeeps := mapEach_keeps
        (P := fun s => Inv M kernelAddrs R (liveBytes t) s ∧ lookup M s a = some f)
        (fun _ _ h hno => ⟨(h.1.turn hM hno).1, lookup_turn hM h0 h.1 hno hlive hf h.2⟩) hno
        ⟨inv_claim h ht hsp hap hsub, hl⟩
      exact hkeeps.2
  | free addr =>
    rw [Heap.call, free_eq, lookup_releaseEach]
    exact hl

end calls

lemma Holds.byte (h : Holds M w m) (ha : a ∈ liveBytes w.st.tables)
    (hmap : Backed M w.st.paging a) :
    ∃ f ∈ M.fm.pages, lookup M w.st.paging a = some f ∧
      findPhysaddr M w.st.paging a = f + a % 4096 ∧ f % 4096 = 0 :=
  h.framed.byte (h.inv.live a ha).1 hmap

lemma Holds.injective (h : Holds M w m) (ha : a ∈ liveBytes w.st.tables)
    (hb : b ∈ liveBytes w.st.tables) (hmapa : Backed M w.st.paging a)
    (hmapb : Backed M w.st.paging b)
    (heq : findPhysaddr M w.st.paging a = findPhysaddr M w.st.paging b) : a = b := by
  obtain ⟨f, hfm, hla, hfa, hal⟩ := h.byte ha hmapa
  obtain ⟨g, hgm, hlb, hfb, hbl⟩ := h.byte hb hmapb
  rw [hfa, hfb] at heq
  obtain rfl : f = g := by omega
  have hkernel : ∀ {a}, a ∈ liveBytes w.st.tables → a < 0x2000000000 := fun ha =>
    (h.inv.live _ ha).1.2
  have hp := h.inv.unique a (h.inv.live a ha).1 b (h.inv.live b hb).1 (h.inv.settled ha)
    (h.inv.settled hb) f hfm hla hlb
  have hlta := hkernel ha
  have hltb := hkernel hb
  unfold page at hp
  omega

/-- **One operation** keeps what has been stored. -/
lemma Holds.step (hM : FramesOk M) (h0 : 0 ∉ M.fm.pages)
    (hlt : ∀ a ∈ M.fm.pages, a < 0x1000000000) (h : Holds M w m) {op : Op}
    (hstep : Step M w op w') :
    ∃ m', Holds M w' m' ∧ ∀ ops, contents M (op :: ops) w.st m = contents M ops w'.st m' := by
  cases hstep with
  | @call c ram hc hsp hram =>
    have hsound : Heap.Sound (call M c w.st).tables := h.sound.call c
    have huntouched : Untouched 1 (call M c w.st).tables := h.untouched.call fun size he => by
      rw [he] at hc
      exact absurd hc (by decide : (1 : ℕ) ≠ 0)
    have hap := apart_kernel hlt h.sound h.untouched hc
    have hsub := liveBytes_kernel hsound huntouched
    have hinv := inv_call hM h.inv hsp hap hsub
    refine ⟨_, ⟨hsound, huntouched, h.framed.call hM h.inv.wf hsp, hinv, fun a v hv => ?_⟩,
      fun ops => rfl⟩
    simp only at hv ⊢
    split at hv
    · rename_i hlive
      obtain ⟨-, hmap, hval⟩ := h.stored a v hv
      obtain ⟨f, hfm, hl, hfa, hal⟩ := h.byte hlive.1 hmap
      have hl' := lookup_call hM h0 h.inv hsp hap hsub hlive.1 hfm hl
      have hfind : findPhysaddr M (call M c w.st).paging a = findPhysaddr M w.st.paging a :=
        findPhysaddr_congr (hl'.trans hl.symm)
      have hnot := (hinv.back a (hinv.live a hlive.2).1 (hinv.settled hlive.2) f hl').1
      refine ⟨hlive.2, ?_, ?_⟩
      · rw [Backed, hfind]
        exact hmap
      · rw [hfind, ← hval]
        refine hram f hfm hnot _ ?_ ?_
        · omega
        · unfold PAGE_SIZE
          omega
    · cases hv
  | @store a ha hmap v =>
    refine ⟨_, ⟨h.sound, h.untouched, h.framed, h.inv, fun b u hu => ?_⟩, fun ops => rfl⟩
    by_cases hb : b = a
    · subst hb
      rw [Function.update_self, Option.some_inj] at hu
      subst hu
      exact ⟨ha, hmap, Function.update_self ..⟩
    · rw [Function.update_of_ne hb] at hu
      obtain ⟨hlive, hmapb, hval⟩ := h.stored b u hu
      refine ⟨hlive, hmapb, ?_⟩
      have hne : findPhysaddr M w.st.paging b ≠ findPhysaddr M w.st.paging a := fun heq =>
        hb (h.injective hlive ha hmapb hmap heq)
      exact (Function.update_of_ne hne ..).trans hval

lemma Holds.run (hM : FramesOk M) (h0 : 0 ∉ M.fm.pages)
    (hlt : ∀ a ∈ M.fm.pages, a < 0x1000000000) (h : Holds M w m) {ops : List Op}
    (hrun : Run (Step M) (fun _ => True) w ops w') : Holds M w' (contents M ops w.st m) := by
  induction hrun generalizing m with
  | refl w => exact h
  | step _ hstep _ ih =>
    obtain ⟨m', hm', hcontents⟩ := h.step hM h0 hlt hstep
    rw [hcontents]
    exact ih hm'

/-- `p = malloc(size); *p = v; q = malloc(size'); *q = u;`. -/
lemma exists_run {ram : ℕ → UInt8} {size size' p q : ℕ} (v u : UInt8)
    (h : Spares M R (.malloc size 0) st) (hp : p ∈ liveBytes (call M (.malloc size 0) st).tables)
    (hmap : Backed M (call M (.malloc size 0) st).paging p)
    (h' : Spares M (R ∪ releasedBy M (.malloc size 0) st) (.malloc size' 0)
      (call M (.malloc size 0) st))
    (hq : q ∈ liveBytes (call M (.malloc size' 0) (call M (.malloc size 0) st)).tables)
    (hmap' : Backed M (call M (.malloc size' 0) (call M (.malloc size 0) st)).paging q) :
    ∃ w, Run (Step M) (fun _ => True) ⟨st, R, ram⟩
      [.call (.malloc size 0), .store p v, .call (.malloc size' 0), .store q u] w := by
  have hcall : ∀ (w : World) (size : ℕ), Spares M w.released (.malloc size 0) w.st →
      Step M w (.call (.malloc size 0)) ⟨call M (.malloc size 0) w.st,
        w.released ∪ releasedBy M (.malloc size 0) w.st, w.ram⟩ := fun w size h =>
    .call rfl h fun _ _ _ _ _ _ => rfl
  have hstore : ∀ (w : World) (a : ℕ) (v : UInt8), a ∈ liveBytes w.st.tables →
      Backed M w.st.paging a → Step M w (.store a v)
        ⟨w.st, w.released, Function.update w.ram (findPhysaddr M w.st.paging a) v⟩ :=
    fun w a v ha hmap => .store ha hmap v
  exact ⟨_, .step trivial (hcall ⟨st, R, ram⟩ size h) (.step trivial (hstore _ p v hp hmap)
    (.step trivial (hcall _ size' h') (.step trivial (hstore _ q u hq hmap') (.refl _))))⟩

end FlameOS.BlockMemory
