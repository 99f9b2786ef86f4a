import FlameOS.MapSpec

/-!
Runs of `map_page` calls from a cleared `pml4`: the laws of the translation, and the shape
of the tables.
-/

namespace FlameOS.MapRun

open FlameOS.Word FlameOS.FrameAlloc FlameOS.Trie FlameOS.PageTable FlameOS.MapPage
open FlameOS.MapSpec

def runCalls (M : Machine) : List (ℕ × ℕ) → Paging → Paging × List Event
  | [], s => (s, [])
  | (phys, virt) :: cs, s =>
    ((runCalls M cs (mapPage M phys virt s).1).1,
      (mapPage M phys virt s).2 ++ (runCalls M cs (mapPage M phys virt s).1).2)

/-- The memory in which the calls start: `pml4` and the bitmap are clear. -/
structure Cleared (M : Machine) (s : Paging) : Prop where
  pml4 : ∀ i, s.frame M.pml4 i = 0
  bmap : ∀ h, s.bmap h = 0

variable {M : Machine} {s : Paging}

lemma runCalls_ext (hM : FramesOk M) (hs : Wf M s) {calls : List (ℕ × ℕ)}
    (hno : ∀ e ∈ (runCalls M calls s).2, ¬ RanOut M.fm e) :
    Ext M s (runCalls M calls s).1 (taken (runCalls M calls s).2) := by
  induction calls generalizing s with
  | nil => exact Ext.refl hs
  | cons c cs ih =>
    obtain ⟨phys, virt⟩ := c
    simp only [runCalls, List.forall_mem_append] at hno
    have h : Ext M s (mapPage M phys virt s).1 (taken (mapPage M phys virt s).2) :=
      mapPage_ext hM hs hno.1
    have h' := ih h.wf hno.2
    simp only [runCalls, taken_append]
    exact h.trans h'

def threeFrames : Machine where
  pml4 := 0x90000
  fm := ⟨fun _ => ⟨0x100000, 3⟩, 1, 1⟩
  pml4_ne_zero := by decide
  pml4_notMem := by decide

lemma framesOk_threeFrames : FramesOk threeFrames :=
  ⟨⟨by decide, by decide, by decide, by decide⟩, by decide⟩

def zeroed : Paging := ⟨fun _ _ => 0, fun _ => 0⟩

lemma cleared_zeroed (M : Machine) : Cleared M zeroed := ⟨fun _ => rfl, fun _ => rfl⟩

/-- **Get, put and frame.** Among calls that do not run out of frames: the page just mapped
translates to its frame, and no translation changes but that of the page and those of the
table frames the call takes. -/
theorem find_after_map (M : Machine) (hM : FramesOk M) (s₀ : Paging) (hs₀ : Cleared M s₀)
    (calls : List (ℕ × ℕ)) (hno₀ : ∀ e ∈ (runCalls M calls s₀).2, ¬ RanOut M.fm e)
    (phys virt : ℕ) (hp : phys % PAGE_SIZE = 0) (hlt : phys < 2 ^ 52) (hv : virt % PAGE_SIZE = 0)
    (hno : ∀ e ∈ (mapPage M phys virt (runCalls M calls s₀).1).2, ¬ RanOut M.fm e) :
    let s := (runCalls M calls s₀).1
    let r := mapPage M phys virt s
    (∀ o < 4096, findPhysaddr M r.1 (virt + o) = phys + o) ∧
      ∀ w, page w ≠ page virt → (∀ t ∈ taken r.2, page w ≠ page t) →
        findPhysaddr M r.1 w = findPhysaddr M s w := by
  intro s r
  have hs : Wf M s := (runCalls_ext hM (wf_of_clear hs₀.pml4) hno₀).wf
  have h := mapPage_mapped hM hs hp hv hno
  refine ⟨fun o ho => ?_, fun w hw hwt => ?_⟩
  · have hpage : page (virt + o) = page virt := by
      unfold page PAGE_SIZE at *; omega
    have hoff : (virt + o) % 4096 = o := by unfold PAGE_SIZE at hv; omega
    have hl : lookup M r.1 (virt + o) = some phys :=
      calc lookup M r.1 (virt + o) = lookup M r.1 virt := lookup_congr hpage
        _ = some (phys &&& ADDR_MASK) := h.self
        _ = some phys := by rw [and_mask_of_aligned hp hlt]
    rw [findPhysaddr_of_lookup hl, hoff]
  · rcases h.lookups w hw with hl | ⟨t, ht, hpage, -⟩
    · exact findPhysaddr_congr hl
    · exact absurd hpage (hwt t ht)

theorem find_after_map_threeFrames :
    let r := mapPage threeFrames 0x5000 0x4000 (runCalls threeFrames [(0x200000, 0x3000)] zeroed).1
    (∀ o < 4096, findPhysaddr threeFrames r.1 (0x4000 + o) = 0x5000 + o) ∧
      findPhysaddr threeFrames r.1 0x3008 = 0x200008 := by
  have h := find_after_map threeFrames framesOk_threeFrames zeroed (cleared_zeroed _)
    [(0x200000, 0x3000)] (by decide +kernel) 0x5000 0x4000 (by decide) (by decide) (by decide)
    (by decide +kernel)
  have hw := h.2 0x3008 (by decide) (by decide +kernel)
  have h₀ : findPhysaddr threeFrames (runCalls threeFrames [(0x200000, 0x3000)] zeroed).1 0x3008 =
      0x200008 := by decide +kernel
  exact ⟨h.1, hw.trans h₀⟩

def exhausted : Paging :=
  (runCalls threeFrames [(0x200000, 0x3000), (0x300000, 0x40005000)] zeroed).1

/-- Once a call ran out, frame 0 is a PD and a PT at the same time, and a later call that
needs no frame changes the translation of a second page. -/
theorem find_after_map_exhausted :
    let r := mapPage threeFrames 0x100000 0x40007000 exhausted
    FramesOk threeFrames ∧ (∀ a ∈ threeFrames.fm.pages, a < 2 ^ 48) ∧ Cleared threeFrames zeroed ∧
      (∀ v ∈ [0x3000, 0x40005000, 0x40007000], ∀ a ∈ threeFrames.fm.pages, page v ≠ page a) ∧
      (∀ e ∈ r.2, ¬ RanOut threeFrames.fm e) ∧ taken r.2 = [] ∧
      page 0x40E00000 ≠ page 0x40007000 ∧
      findPhysaddr threeFrames exhausted 0x40E00000 = 0 ∧
      findPhysaddr threeFrames r.1 0x40E00000 = 0x101000 :=
  ⟨framesOk_threeFrames, by decide, cleared_zeroed _, by decide, by decide +kernel,
    by decide +kernel, by decide, by decide +kernel, by decide +kernel⟩

/-! ### The shape of the tables -/

def IdMapped (M : Machine) (s : Paging) : Prop :=
  ∀ t, IsTable M s t → t ≠ M.pml4 → lookup M s t = some t

lemma page_inj (hM : FramesOk M) (h48 : ∀ a ∈ M.fm.pages, a < 2 ^ 48) {a b : ℕ}
    (ha : a ∈ M.fm.pages) (hb : b ∈ M.fm.pages) (h : page a = page b) : a = b := by
  have h₁ := (hM.fm.mem_pages ha).1
  have h₂ := (hM.fm.mem_pages hb).1
  have h₃ := h48 a ha
  have h₄ := h48 b hb
  unfold page PAGE_SIZE at *
  omega

/-- A call keeps the tables mapped to themselves, unless it maps something else to the page
of a table or of a frame that it may take for one. -/
lemma mapPage_idMapped (hM : FramesOk M) (h48 : ∀ a ∈ M.fm.pages, a < 2 ^ 48) (hs : Wf M s)
    (hid : IdMapped M s) {phys virt : ℕ}
    (hav : ∀ t ∈ M.fm.pages, page t = page virt →
      phys = t ∨ (InUse M.fm s.bmap t ∧ ¬ IsTable M s t))
    (hno : ∀ e ∈ (mapPage M phys virt s).2, ¬ RanOut M.fm e) :
    IdMapped M (mapPage M phys virt s).1 := by
  by_cases hal : phys % PAGE_SIZE ≠ 0 ∨ virt % PAGE_SIZE ≠ 0
  · rw [mapPage_unaligned hal]
    exact hid
  · have h := mapPage_mapped hM hs (by omega) (by omega) hno
    intro t ht h4
    have hmem : t ∈ M.fm.pages := mem_of_inUse ((h.wf.inUse t ht).resolve_left h4)
    by_cases hpt : page t = page virt
    · rcases hav t hmem hpt with rfl | ⟨hin, hnt⟩
      · rw [lookup_congr hpt, h.self,
          and_mask_of_aligned (hM.fm.mem_pages hmem).1 (hM.lt _ hmem)]
      · rcases (h.tables t).mp ht with hold | hnew
        · exact absurd hold hnt
        · exact absurd hin (h.fresh t hnew).2
    · rcases (h.tables t).mp ht with hold | hnew
      · rcases h.lookups t hpt with hl | ⟨u, hu, hpage, hl⟩
        · rw [hl]
          exact hid t hold h4
        · rw [hl, page_inj hM h48 hmem (h.fresh u hu).1 hpage]
      · obtain ⟨u, hu, hpage, hl⟩ := h.mapped t hnew hpt
        rw [hl, page_inj hM h48 hmem (h.fresh u hu).1 hpage]

lemma idMapped_of_clear (h : ∀ i, s.frame M.pml4 i = 0) : IdMapped M s := by
  rintro t ⟨π, -, hπ⟩ h4
  cases π with
  | nil => exact absurd (by simpa using hπ.symm) h4
  | cons i π => simp [walk, List.foldlM_cons, next, h] at hπ

lemma runCalls_idMapped (hM : FramesOk M) (h48 : ∀ a ∈ M.fm.pages, a < 2 ^ 48) (hs : Wf M s)
    (hid : IdMapped M s) {calls : List (ℕ × ℕ)}
    (hav : ∀ c ∈ calls, ∀ a ∈ M.fm.pages, page c.2 ≠ page a)
    (hno : ∀ e ∈ (runCalls M calls s).2, ¬ RanOut M.fm e) :
    IdMapped M (runCalls M calls s).1 := by
  induction calls generalizing s with
  | nil => exact hid
  | cons c cs ih =>
    obtain ⟨phys, virt⟩ := c
    simp only [runCalls, List.forall_mem_append] at hno
    obtain ⟨hno₁, hno₂⟩ := hno
    have hav₁ := hav (phys, virt) List.mem_cons_self
    exact ih (mapPage_ext hM hs hno₁).wf
      (mapPage_idMapped hM h48 hs hid (fun t ht hp => absurd hp.symm (hav₁ t ht)) hno₁)
      (fun c hc => hav c (List.mem_cons_of_mem _ hc)) hno₂

/-- Entry `i` of the table `t` is a present non-leaf entry of the tree and names `u`. -/
def Names (M : Machine) (s : Paging) (t i u : ℕ) : Prop :=
  Reached (next s) M.pml4 2 t ∧ next s t i = some u

/-- A table other than `pml4` is named by exactly one entry. -/
lemma existsUnique_names (hs : Wf M s) {u : ℕ} (hu : IsTable M s u) (h4 : u ≠ M.pml4) :
    ∃! e : ℕ × ℕ, Names M s e.1 e.2 u := by
  obtain ⟨π, hπ, hwalk⟩ := hu
  rcases List.eq_nil_or_concat π with rfl | ⟨σ, i, rfl⟩
  · exact absurd (by simpa using hwalk.symm) h4
  rw [List.concat_eq_append] at hπ hwalk
  rw [List.length_append, List.length_singleton] at hπ
  obtain ⟨t, ht, hn⟩ := walk_snoc_eq_some.mp hwalk
  refine ⟨(t, i), ⟨⟨σ, by omega, ht⟩, hn⟩, ?_⟩
  rintro ⟨t', i'⟩ ⟨⟨σ', hσ', ht'⟩, hn'⟩
  have hwalk' : walk (next s) M.pml4 (σ' ++ [i']) = some u := walk_snoc_eq_some.mpr ⟨t', ht', hn'⟩
  have heq := hs.shaped _ _ (by simp; omega) (by simpa using hπ) u hwalk' hwalk
  obtain ⟨rfl, hi⟩ := List.append_inj' heq rfl
  rw [ht] at ht'
  exact Prod.ext (Option.some.inj ht').symm (by simpa using hi)

/-- **The tables form a tree of frames in use that are mapped to themselves**, after every
run of calls that do not run out of frames. -/
theorem taken_tree (M : Machine) (hM : FramesOk M) (h48 : ∀ a ∈ M.fm.pages, a < 2 ^ 48)
    (s₀ : Paging) (hs₀ : Cleared M s₀) (calls : List (ℕ × ℕ))
    (hav : ∀ c ∈ calls, ∀ a ∈ M.fm.pages, page c.2 ≠ page a)
    (hno : ∀ e ∈ (runCalls M calls s₀).2, ¬ RanOut M.fm e) :
    let r := runCalls M calls s₀
    ∀ t ∈ taken r.2, (∃! e : ℕ × ℕ, Names M r.1 e.1 e.2 t) ∧ InUse M.fm r.1.bmap t ∧
      findPhysaddr M r.1 t = t := by
  intro r t ht
  have hw : Wf M s₀ := wf_of_clear hs₀.pml4
  have h := runCalls_ext hM hw hno
  have hid := runCalls_idMapped hM h48 hw (idMapped_of_clear hs₀.pml4) hav hno
  have htab : IsTable M r.1 t := (h.tables t).mpr (Or.inr ht)
  have hmem := (h.fresh t ht).1
  have h4 : t ≠ M.pml4 := fun he => M.pml4_notMem (he ▸ hmem)
  refine ⟨existsUnique_names h.wf htab h4, (h.inUse t).mpr (Or.inr ht), ?_⟩
  rw [findPhysaddr_of_lookup (hid t htab h4)]
  have := (hM.fm.mem_pages hmem).1
  unfold PAGE_SIZE at this
  omega

theorem taken_tree_threeFrames :
    let r := runCalls threeFrames [(0x200000, 0x3000)] zeroed
    taken r.2 = [0x100000, 0x101000, 0x102000] ∧
      ∀ t ∈ taken r.2, (∃! e : ℕ × ℕ, Names threeFrames r.1 e.1 e.2 t) ∧
        InUse threeFrames.fm r.1.bmap t ∧ findPhysaddr threeFrames r.1 t = t :=
  ⟨by decide +kernel, taken_tree threeFrames framesOk_threeFrames (by decide) zeroed
    (cleared_zeroed _) [(0x200000, 0x3000)] (by decide) (by decide +kernel)⟩

end FlameOS.MapRun
