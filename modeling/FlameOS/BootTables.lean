import FlameOS.AddressSpace
import FlameOS.Bootloader

/-!
The page tables of the bootloader. Its `map_page` does what the kernel's does with a freemap
that lists the pages in the order in which the firmware grants them. So what is known of the
kernel's tables holds of the bootloader's.
-/

namespace FlameOS.BootTables

open FlameOS.Word FlameOS.FrameAlloc FlameOS.Trie FlameOS.PageTable FlameOS.MapPage
open FlameOS.MapSpec FlameOS.MapRun FlameOS.BootPaging FlameOS.Bootloader

variable {σ : Type} {F : Firmware σ} {M : Machine}

/-- Where the tables below `pml4` map an address. -/
def physaddr (pml4 : ℕ) (s : BootState σ) (v : ℕ) : Option ℕ :=
  (walk (next ⟨s.frame, fun _ => 0⟩) pml4 (path v)).map (· + v % 4096)

/-- The first pages of the grants, in the order in which they were made. -/
def granted (l : List Grant) : List ℕ := (l.map Grant.addr).reverse

lemma granted_le {s s' : BootState σ} (h : Granted F s s') :
    granted s.log <+: granted s'.log := by
  obtain ⟨gs, hl, -⟩ := h
  rw [granted, granted, hl, List.map_append, List.reverse_append]
  exact List.prefix_append _ _

/-! ### The simulation -/

/-- The tables agree, and the pages in use are those that were granted. -/
structure Sim (s : BootState σ) (t : Paging) : Prop where
  frame : t.frame = s.frame
  bits : ∀ j, used t.bmap j = decide (j < s.log.length)

/-- The page that the firmware grants is the one that the kernel's allocator takes. -/
lemma Sim.alloc {s : BootState σ} {t : Paging} (h : Sim s t) {g : Grant}
    (hp : granted (g :: s.log) <+: M.fm.pages) :
    ¬ AllUsed M.fm t.bmap ∧ (physPageAlloc M.fm t.bmap).1 = g.addr ∧
      ∀ j, used (physPageAlloc M.fm t.bmap).2 j = decide (j < s.log.length + 1) := by
  have hget : M.fm.pages[s.log.length]? = some g.addr := by
    have hlt : s.log.length < (granted (g :: s.log)).length := by simp [granted]
    obtain ⟨l, hl⟩ := hp
    rw [← hl, List.getElem?_append_left hlt, List.getElem?_eq_getElem hlt]
    simp [granted]
  have hfirst : firstFree t.bmap M.fm.pages 0 = some (g.addr, s.log.length) := by
    have hbefore : ∀ i < s.log.length, used t.bmap (0 + i) = true := by
      intro i hi
      rw [h.bits]
      simpa using hi
    have hfree : used t.bmap (0 + s.log.length) = false := by
      rw [h.bits]
      simp
    rw [firstFree_eq hget hbefore hfree, Nat.zero_add]
  have halloc : physPageAlloc M.fm t.bmap = (g.addr, WordSet.insert 32 t.bmap s.log.length) := by
    rw [physPageAlloc_eq, hfirst]
  refine ⟨fun hall => ?_, by rw [halloc], fun j => ?_⟩
  · rw [physPageAlloc_full hall] at halloc
    have hb := congrFun (congrArg (fun p => used p.2) halloc) s.log.length
    dsimp only at hb
    rw [used_insert, h.bits] at hb
    simp at hb
  · rw [halloc, used_insert, h.bits, Bool.eq_iff_iff]
    simp only [Bool.or_eq_true, decide_eq_true_eq]
    omega

lemma Sim.inUse {s : BootState σ} {t : Paging} (h : Sim s t) (hp : granted s.log <+: M.fm.pages)
    {g : Grant} (hg : g ∈ s.log) : InUse M.fm t.bmap g.addr := by
  have hmem : g.addr ∈ granted s.log := List.mem_reverse.mpr (List.mem_map_of_mem hg)
  obtain ⟨j, hj, he⟩ := List.getElem_of_mem hmem
  obtain ⟨l, hl⟩ := hp
  refine ⟨j, ?_, ?_⟩
  · rw [← hl, List.getElem?_append_left hj, List.getElem?_eq_getElem hj, he]
  · rw [h.bits]
    simpa [granted] using hj

/-- What the bootloader's call does, the kernel's does. -/
def Simulated (M : Machine) (rec : ℕ → ℕ → BootState σ → Option (BootState σ))
    (recK : ℕ → ℕ → Paging → Option (Paging × List Event)) : Prop :=
  ∀ phys virt s s' t, rec phys virt s = some s' → phys % PAGE_SIZE = 0 →
    granted s'.log <+: M.fm.pages → Sim s t →
    ∃ r, recK phys virt t = some r ∧ Sim s' r.1 ∧ ∀ e ∈ r.2, ¬ RanOut M.fm e

lemma newTable_sim (hal : ∀ a ∈ M.fm.pages, a % PAGE_SIZE = 0)
    {rec : ℕ → ℕ → BootState σ → Option (BootState σ)}
    {recK : ℕ → ℕ → Paging → Option (Paging × List Event)} (hrec : Simulated M rec recK)
    (hg : ∀ {phys virt s s'}, rec phys virt s = some s' → Granted F s s')
    {touch : Paging → List Event} (htouch : ∀ s, ∀ e ∈ touch s, ¬ RanOut M.fm e) {t i : ℕ}
    {s s' : BootState σ} {p : Paging} (h : BootPaging.newTable F rec t i s = some s')
    (hp : granted s'.log <+: M.fm.pages) (hs : Sim s p) :
    ∃ r, MapPage.newTable M recK touch t i p = some r ∧ Sim s' r.1 ∧
      ∀ e ∈ r.2, ¬ RanOut M.fm e := by
  unfold BootPaging.newTable at h
  unfold MapPage.newTable
  rw [← hs.frame] at h
  split at h
  · rename_i hpr
    obtain rfl := Option.some.inj h
    rw [if_pos hpr]
    exact ⟨_, rfl, hs, htouch p⟩
  · rename_i hpr
    rw [if_neg hpr]
    obtain ⟨⟨page, s₁⟩, hq, h⟩ := Option.bind_eq_some_iff.mp h
    obtain ⟨u, hu, hs₁⟩ := Option.map_eq_some_iff.mp hq
    obtain ⟨rfl, rfl⟩ := Prod.mk.inj hs₁
    have hp₁ : granted (⟨u.1, 1⟩ :: s.log) <+: M.fm.pages := (granted_le (hg h)).trans hp
    obtain ⟨hfree, hpage, hbits⟩ := hs.alloc hp₁
    dsimp only at hpage h
    have hmem : u.1 ∈ M.fm.pages := by
      rw [← hpage]
      exact alloc_mem hfree
    rw [hpage]
    have hlink : ((Paging.memset { p with bmap := (physPageAlloc M.fm p.bmap).2 } u.1).write t i
        (mkEntry u.1)).frame =
        ((BootState.memzero ⟨s.frame, u.2, ⟨u.1, 1⟩ :: s.log⟩ u.1).write t i (mkEntry u.1)).frame := by
      simp only [Paging.write, Paging.memset, BootState.write, BootState.memzero, hs.frame]
    obtain ⟨q, hq, hsim, hno⟩ := hrec u.1 u.1 _ s' _ h (hal u.1 hmem) hp ⟨hlink, hbits⟩
    dsimp only
    rw [hq]
    refine ⟨_, rfl, hsim, fun e he => ?_⟩
    simp only [List.mem_append, List.mem_cons] at he
    rcases he with (he | rfl | rfl | he) | he
    · exact htouch _ e he
    · exact hfree
    · exact not_false
    · exact htouch _ e he
    · exact hno e he

/-- By induction on the fuel of the bootloader's call. -/
lemma mapPage_sim (hal : ∀ a ∈ M.fm.pages, a % PAGE_SIZE = 0) (fuel : ℕ) :
    Simulated M (BootPaging.mapPage F M.pml4 fuel) (mapPageFuel M fuel) := by
  induction fuel with
  | zero =>
    intro phys virt s s' t h
    cases h
  | succ fuel ih =>
    intro phys virt s s' t h hphys hp hs
    rcases BootPaging.mapPage_cases h with ⟨hv, rfl⟩ | ⟨hv, s₁, s₂, s₃, h₁, h₂, h₃, rfl⟩
    · refine ⟨(t, []), ?_, hs, fun e he => absurd he List.not_mem_nil⟩
      rw [mapPageFuel, if_pos (Or.inr hv)]
    · -- the log only grows, so each block has its pages in the freemap
      have hg : ∀ {phys virt} {s s' : BootState σ},
          BootPaging.mapPage F M.pml4 fuel phys virt s = some s' → Granted F s s' :=
        granted_mapPage
      have hp₂ : granted s₂.log <+: M.fm.pages := (granted_le (granted_newTable hg h₃)).trans hp
      have hp₁ : granted s₁.log <+: M.fm.pages := (granted_le (granted_newTable hg h₂)).trans hp₂
      obtain ⟨r₁, e₁, hs₁, hno₁⟩ := newTable_sim hal ih hg
        (fun _ e he => absurd he List.not_mem_nil) h₁ hp₁ hs
      have htouch : ∀ x j (s : Paging), ∀ e ∈ touchEntry x j s, ¬ RanOut M.fm e := by
        intro x j s e he
        rw [List.mem_singleton.mp he]
        exact not_false
      obtain ⟨r₂, e₂, hs₂, hno₂⟩ := newTable_sim hal ih hg (htouch _ _) h₂ hp₂ hs₁
      obtain ⟨r₃, e₃, hs₃, hno₃⟩ := newTable_sim hal ih hg (htouch _ _) h₃ hp hs₂
      refine ⟨_, mapPageFuel_walk hphys hv e₁ (by rw [hs₁.frame]) e₂ (by rw [hs₂.frame]) e₃,
        ⟨?_, hs₃.bits⟩, fun e he => ?_⟩
      · simp only [Paging.write, BootState.write, hs₃.frame]
      · simp only [List.mem_append] at he
        rcases he with ((((he | he) | he) | he) | he) | he
        · exact hno₁ e he
        · exact hno₂ e he
        · exact htouch _ _ _ e he
        · exact hno₃ e he
        · exact htouch _ _ _ e he
        · exact htouch _ _ _ e he

lemma mapCalls_sim (hal : ∀ a ∈ M.fm.pages, a % PAGE_SIZE = 0) {fuel : ℕ} {cs : List (ℕ × ℕ)}
    (hcs : ∀ c ∈ cs, c.2 % PAGE_SIZE = 0 → c.1 % PAGE_SIZE = 0) {s s' : BootState σ} {t : Paging}
    (h : mapCalls F M.pml4 fuel cs s = some s') (hp : granted s'.log <+: M.fm.pages)
    (hs : Sim s t) :
    Sim s' (runCalls M cs t).1 ∧ ∀ e ∈ (runCalls M cs t).2, ¬ RanOut M.fm e := by
  induction cs generalizing s t with
  | nil =>
    obtain rfl := Option.some.inj h
    exact ⟨hs, fun e he => absurd he List.not_mem_nil⟩
  | cons c cs ih =>
    obtain ⟨p, v⟩ := c
    obtain ⟨s₁, h₁, h⟩ := Option.bind_eq_some_iff.mp h
    have hstep : Sim s₁ (MapPage.mapPage M p v t).1 ∧
        ∀ e ∈ (MapPage.mapPage M p v t).2, ¬ RanOut M.fm e := by
      by_cases hv : v % PAGE_SIZE = 0
      · have hp₁ := (granted_le (granted_mapCalls h)).trans hp
        obtain ⟨r, hr, hsim, hno⟩ := mapPage_sim hal fuel p v s s₁ t h₁
          (hcs (p, v) List.mem_cons_self hv) hp₁ hs
        rw [mapPage_eq_of_fuel hr]
        exact ⟨hsim, hno⟩
      · rw [mapPage_unaligned (Or.inr hv)]
        cases fuel with
        | zero => cases h₁
        | succ fuel =>
          rw [BootPaging.mapPage, if_pos hv] at h₁
          obtain rfl := Option.some.inj h₁
          exact ⟨hs, fun e he => absurd he List.not_mem_nil⟩
    obtain ⟨hsim, hno⟩ := ih (fun c hc => hcs c (List.mem_cons_of_mem _ hc)) h hstep.1
    refine ⟨hsim, fun e he => ?_⟩
    rcases List.mem_append.mp he with he | he
    · exact hstep.2 e he
    · exact hno e he

/-- A page that is granted for something else counts as in use. -/
lemma pagealloc_sim {type pages : ℕ} {s : BootState σ} {q : ℕ × BootState σ}
    (h : pagealloc F type pages s = some q) {t : Paging} (hs : Sim s t) :
    Sim q.2 { t with bmap := WordSet.insert 32 t.bmap s.log.length } := by
  obtain ⟨r, -, rfl⟩ := Option.map_eq_some_iff.mp h
  refine ⟨hs.frame, fun j => ?_⟩
  dsimp only
  rw [used_insert, hs.bits, List.length_cons, Bool.eq_iff_iff]
  simp only [Bool.or_eq_true, decide_eq_true_eq]
  omega

/-! ### The freemap of the grants -/

/-- A freemap that lists the first pages of the grants. -/
def grantFreemap (l : List Grant) : Freemap where
  freemap i := ⟨(granted l).getD i 0, 1⟩
  fmDescs := l.length
  mmDescs := l.length

lemma regions_grantFreemap (l : List Grant) :
    (grantFreemap l).regions l.length = (granted l).map fun a => ⟨a, 1⟩ := by
  have hlen : (granted l).length = l.length := by simp [granted]
  refine List.ext_getElem (by simp [Freemap.regions, hlen]) fun i hi hi' => ?_
  have hlt : i < (granted l).length := by simpa using hi'
  simp only [Freemap.regions, grantFreemap, List.getElem_map, List.getElem_range,
    List.getD_eq_getElem _ _ hlt]

lemma pages_grantFreemap (l : List Grant) : (grantFreemap l).pages = granted l := by
  have hfm : (grantFreemap l).fmDescs = l.length := rfl
  rw [Freemap.pages, hfm, regions_grantFreemap, List.flatMap_map]
  exact List.flatMap_singleton' (granted l)

lemma framesOk_grantFreemap {l : List Grant} (hM : M.fm = grantFreemap l)
    (hal : ∀ a ∈ granted l, a % PAGE_SIZE = 0 ∧ a < 2 ^ 48) (hnd : (granted l).Nodup) :
    FramesOk M := by
  have hmem : ∀ r ∈ M.fm.regions M.fm.fmDescs, ∃ a ∈ granted l, r = ⟨a, 1⟩ := by
    intro r hr
    rw [hM, show (grantFreemap l).fmDescs = l.length from rfl, regions_grantFreemap] at hr
    obtain ⟨a, ha, rfl⟩ := List.mem_map.mp hr
    exact ⟨a, ha, rfl⟩
  refine ⟨⟨fun r hr => ?_, fun r hr => ?_, ?_, ?_⟩, fun a ha => ?_⟩
  · obtain ⟨a, ha, rfl⟩ := hmem r hr
    exact (hal a ha).1
  · obtain ⟨a, ha, rfl⟩ := hmem r hr
    have := (hal a ha).2
    unfold PAGE_SIZE
    dsimp only
    omega
  · rw [hM, show (grantFreemap l).fmDescs = l.length from rfl, regions_grantFreemap,
      List.pairwise_map]
    refine hnd.imp fun {a b} hab x hx hx' => hab ?_
    have ha : x = a := List.mem_singleton.mp hx
    have hb : x = b := List.mem_singleton.mp hx'
    rw [← ha, ← hb]
  · rw [hM]
    exact le_refl _
  · rw [hM, pages_grantFreemap] at ha
    have := (hal a ha).2
    omega

lemma pages_newTable {rec : ℕ → ℕ → BootState σ → Option (BootState σ)}
    (hrec : ∀ {phys virt s s'}, rec phys virt s = some s' → ∀ g ∈ s'.log, g ∈ s.log ∨ g.pages = 1)
    {t i : ℕ} {s s' : BootState σ} (h : BootPaging.newTable F rec t i s = some s') :
    ∀ g ∈ s'.log, g ∈ s.log ∨ g.pages = 1 := by
  intro g hg
  unfold BootPaging.newTable at h
  split at h
  · obtain rfl := Option.some.inj h
    exact Or.inl hg
  · obtain ⟨r, hr, h⟩ := Option.bind_eq_some_iff.mp h
    rcases hrec h g hg with hg | hg
    · have hl : g ∈ r.2.log := hg
      rw [(pagealloc_eq hr).1] at hl
      rcases List.mem_cons.mp hl with rfl | hl
      · exact Or.inr rfl
      · exact Or.inl hl
    · exact Or.inr hg

lemma pages_mapPage {pml4 fuel phys virt : ℕ} {s s' : BootState σ}
    (h : BootPaging.mapPage F pml4 fuel phys virt s = some s') :
    ∀ g ∈ s'.log, g ∈ s.log ∨ g.pages = 1 := by
  induction fuel generalizing phys virt s s' with
  | zero => cases h
  | succ fuel ih =>
    rcases BootPaging.mapPage_cases h with ⟨-, rfl⟩ | ⟨-, s₁, s₂, s₃, h₁, h₂, h₃, rfl⟩
    · exact fun g hg => Or.inl hg
    · intro g hg
      rcases pages_newTable ih h₃ g hg with hg | hg
      · rcases pages_newTable ih h₂ g hg with hg | hg
        · exact pages_newTable ih h₁ g hg
        · exact Or.inr hg
      · exact Or.inr hg

lemma pages_mapCalls {pml4 fuel : ℕ} {cs : List (ℕ × ℕ)} {s s' : BootState σ}
    (h : mapCalls F pml4 fuel cs s = some s') : ∀ g ∈ s'.log, g ∈ s.log ∨ g.pages = 1 := by
  induction cs generalizing s with
  | nil =>
    obtain rfl := Option.some.inj h
    exact fun g hg => Or.inl hg
  | cons c cs ih =>
    obtain ⟨s₁, h₁, h⟩ := Option.bind_eq_some_iff.mp h
    intro g hg
    rcases ih h g hg with hg | hg
    · exact pages_mapPage h₁ g hg
    · exact Or.inr hg

lemma nodup_granted {l : List Grant} (hpos : ∀ g ∈ l, 0 < g.pages)
    (h : l.Pairwise fun g g' => Disjoint (grantBytes g) (grantBytes g')) : (granted l).Nodup := by
  have hmem : ∀ g ∈ l, g.addr ∈ grantBytes g := fun g hg =>
    ⟨le_refl _, Nat.lt_add_of_pos_right (Nat.mul_pos (hpos g hg) (by decide))⟩
  refine List.nodup_reverse.mpr (List.pairwise_map.mpr ?_)
  refine h.imp_of_mem fun {g g'} hg hg' hd he => ?_
  exact Set.disjoint_left.mp hd (hmem g hg) (he ▸ hmem g' hg')

/-! ### Runs -/

/-- A page that is put aside stays out of the tables. -/
lemma wf_insert {t : Paging} (h : Wf M t) (k : ℕ) :
    Wf M { t with bmap := WordSet.insert 32 t.bmap k } := by
  refine ⟨h.shaped, fun x hx => (h.inUse x hx).imp_right ?_⟩
  rintro ⟨j, hj, hu⟩
  exact ⟨j, hj, by rw [used_insert, hu, Bool.true_or]⟩

section runs

variable (hM : FramesOk M) (h48 : ∀ a ∈ M.fm.pages, a < 2 ^ 48) {s s' : BootState σ} {t : Paging}
  {fuel : ℕ} {cs : List (ℕ × ℕ)}
  (hcs : ∀ c ∈ cs, c.2 % PAGE_SIZE = 0 → c.1 % PAGE_SIZE = 0)
  (h : mapCalls F M.pml4 fuel cs s = some s') (hp : granted s'.log <+: M.fm.pages)
  (hs : Sim s t) (hwf : Wf M t)

include hM hcs h hp hs hwf

lemma mapCalls_wf : Sim s' (runCalls M cs t).1 ∧ Wf M (runCalls M cs t).1 ∧
    (∀ e ∈ (runCalls M cs t).2, ¬ RanOut M.fm e) ∧
    ∀ a, InUse M.fm t.bmap a → InUse M.fm (runCalls M cs t).1.bmap a := by
  obtain ⟨hsim, hno⟩ := mapCalls_sim (fun a ha => (hM.fm.mem_pages ha).1) hcs h hp hs
  have hext := runCalls_ext hM hwf hno
  exact ⟨hsim, hext.wf, hno, fun a ha => (hext.inUse a).mpr (Or.inl ha)⟩

include h48

/-- No new table is numbered like a page in use. -/
lemma page_ne_taken {v : ℕ} (hv : InUse M.fm t.bmap v) :
    ∀ u ∈ taken (runCalls M cs t).2, page v ≠ page u := by
  intro u hu he
  have hno := (mapCalls_wf hM hcs h hp hs hwf).2.2.1
  obtain ⟨hmem, hfresh⟩ := (runCalls_ext hM hwf hno).fresh u hu
  obtain rfl := page_inj hM h48 (mem_of_inUse hv) hmem he
  exact hfresh hv

end runs

end FlameOS.BootTables
