import FlameOS.Backing

/-!
Which frames the bytes of the blocks lie in.

`malloc_heap` takes a page that translates for a page it may use, and `free` releases
frames without unmapping them. So the invariant is about the heap pages whose frame no
`free` has released: they lie in frames of their own, in use and not page tables, unless
the page bears the number of a page table and is therefore mapped to it. A call keeps the
invariant when its block avoids the other pages.
-/

namespace FlameOS.Aliasing

open FlameOS.Word FlameOS.FrameAlloc FlameOS.Trie FlameOS.PageTable FlameOS.MapPage
open FlameOS.MapSpec FlameOS.HeapTable FlameOS.HeapArena FlameOS.Heap FlameOS.Boot
open FlameOS.Backing

/-- The frame of the freemap is in use, and not as a page table. -/
def DataFrame (M : Machine) (s : Paging) (t : ℕ) : Prop :=
  InUse M.fm s.bmap t ∧ ¬ IsPageTable M s t

/-- The page of the address is not among `R`, and no page table is mapped there. -/
structure Settled (M : Machine) (s : Paging) (R : Set ℕ) (a : ℕ) : Prop where
  kept : page a ∉ R
  noTable : ∀ t, IsPageTable M s t → page t ≠ page a

/-- The addresses `H` of the heaps, the pages `R` whose frames have been released, and the
addresses `L` of the live blocks. -/
structure Inv (M : Machine) (H R L : Set ℕ) (s : Paging) : Prop where
  wf : Wf M s
  back : ∀ a ∈ H, Settled M s R a → ∀ f, lookup M s a = some f →
    ¬ IsPageTable M s f ∧ (f ∈ M.fm.pages → InUse M.fm s.bmap f)
  unique : ∀ a ∈ H, ∀ b ∈ H, Settled M s R a → Settled M s R b → ∀ f ∈ M.fm.pages,
    lookup M s a = some f → lookup M s b = some f → page a = page b
  live : ∀ a ∈ L, a ∈ H ∧ page a ∉ R ∧ ∀ t ∈ M.fm.pages, page t = page a → DataFrame M s t

variable {M : Machine} {H R L : Set ℕ} {s : Paging}

lemma mem_of_isPageTable (hs : Wf M s) {t : ℕ} (ht : IsPageTable M s t) : t ∈ M.fm.pages :=
  mem_of_inUse (inUse_of_isPageTable hs ht)

lemma Inv.settled (h : Inv M H R L s) {a : ℕ} (ha : a ∈ L) : Settled M s R a :=
  ⟨(h.live a ha).2.1, fun t ht hp =>
    ((h.live a ha).2.2 t (mem_of_isPageTable h.wf ht) hp).2 ht⟩

/-! ### Mapping a page of a block -/

lemma Inv.alloc (h : Inv M H R L s) : Inv M H R L (afterAlloc M s) := by
  have hu : ∀ x, InUse M.fm s.bmap x → InUse M.fm (afterAlloc M s).bmap x := by
    rintro x ⟨k, hk, hu⟩
    exact ⟨k, hk, used_alloc hu⟩
  have hset : ∀ a, Settled M (afterAlloc M s) R a → Settled M s R a :=
    fun a ha => ⟨ha.kept, ha.noTable⟩
  refine ⟨wf_afterAlloc h.wf, fun a ha hsa f hf => ?_, fun a ha b hb hsa hsb => ?_,
    fun a ha => ?_⟩
  · exact (h.back a ha (hset a hsa) f hf).imp_right fun hi hm => hu f (hi hm)
  · exact h.unique a ha b hb (hset a hsa) (hset b hsb)
  · obtain ⟨h₁, h₂, h₃⟩ := h.live a ha
    exact ⟨h₁, h₂, fun t ht hp => (h₃ t ht hp).imp_left (hu t)⟩

section mapped

variable {u virt : ℕ} {s' : Paging} {new : List ℕ} (hf : ¬ AllUsed M.fm s.bmap)
  (hu : u = (physPageAlloc M.fm s.bmap).1) (hm : Mapped M u virt (afterAlloc M s) s' new)

include hf hu hm

lemma inUse_mapped (x : ℕ) : InUse M.fm s'.bmap x ↔ InUse M.fm s.bmap x ∨ x = u ∨ x ∈ new := by
  rw [hm.inUse, hu, ← or_assoc]
  exact or_congr_left (inUse_alloc hf x)

lemma fresh_mapped {t : ℕ} (ht : t ∈ new) : t ∈ M.fm.pages ∧ ¬ InUse M.fm s.bmap t ∧ t ≠ u := by
  obtain ⟨hmem, hnot⟩ := hm.fresh t ht
  refine ⟨hmem, fun h => hnot ((inUse_alloc hf t).mpr (Or.inl h)), fun h => ?_⟩
  exact hnot ((inUse_alloc hf t).mpr (Or.inr (h.trans hu)))

lemma isPageTable_mapped (t : ℕ) : IsPageTable M s' t ↔ IsPageTable M s t ∨ t ∈ new := by
  unfold IsPageTable
  rw [hm.tables, isTable_afterAlloc]
  constructor
  · rintro ⟨h | h, h4⟩
    · exact Or.inl ⟨h, h4⟩
    · exact Or.inr h
  · rintro (⟨h, h4⟩ | h)
    · exact ⟨Or.inl h, h4⟩
    · refine ⟨Or.inr h, ?_⟩
      rintro rfl
      exact M.pml4_notMem (fresh_mapped hf hu hm h).1

/-- No new table bears the number of a live page. -/
lemma page_ne_new (h : Inv M H R L s) {a t : ℕ} (ha : a ∈ L) (ht : t ∈ new) : page a ≠ page t := by
  intro hp
  obtain ⟨hmem, hnot, -⟩ := fresh_mapped hf hu hm ht
  exact hnot ((h.live a ha).2.2 t hmem hp.symm).1

lemma lookup_live (h : Inv M H R L s) {a : ℕ} (ha : a ∈ L) (hp : page a ≠ page virt) :
    lookup M s' a = lookup M s a := by
  rcases hm.lookups a hp with hl | ⟨t, ht, hpt, -⟩
  · exact hl
  · exact absurd hpt (page_ne_new hf hu hm h ha ht)

/-- A settled page translates as before or is the one just mapped. -/
lemma lookup_settled {a : ℕ} (ha : Settled M s' R a) :
    Settled M s R a ∧ (page a ≠ page virt → lookup M s' a = lookup M s a) := by
  refine ⟨⟨ha.kept, fun t ht => ha.noTable t ((isPageTable_mapped hf hu hm t).mpr (Or.inl ht))⟩,
    fun hp => ?_⟩
  rcases hm.lookups a hp with hl | ⟨t, ht, hpt, -⟩
  · exact hl
  · exact absurd hpt.symm (ha.noTable t ((isPageTable_mapped hf hu hm t).mpr (Or.inr ht)))

lemma Inv.mapped (hM : FramesOk M) (h : Inv M H R L s) : Inv M H R L s' := by
  have hself : ∀ a, page a = page virt → lookup M s' a = some u := by
    intro a ha
    calc lookup M s' a = lookup M s' virt := lookup_congr ha
      _ = some (u &&& ADDR_MASK) := hm.self
      _ = some u := by rw [hu, alloc_and_mask hM hf]
  have humem : u ∈ M.fm.pages := hu ▸ alloc_mem hf
  have hunot : ¬ InUse M.fm s.bmap u := hu ▸ not_inUse_alloc hM.fm hf
  refine ⟨hm.wf, fun a ha hsa f hf' => ?_, fun a ha b hb hsa hsb f hfm hfa hfb => ?_,
    fun a ha => ?_⟩
  · obtain ⟨hsa', hl⟩ := lookup_settled hf hu hm hsa
    rw [isPageTable_mapped hf hu hm, inUse_mapped hf hu hm]
    by_cases hp : page a = page virt
    · obtain rfl : u = f := Option.some.inj ((hself a hp).symm.trans hf')
      refine ⟨?_, fun _ => Or.inr (Or.inl rfl)⟩
      rintro (ht | ht)
      · exact hunot (inUse_of_isPageTable h.wf ht)
      · exact (fresh_mapped hf hu hm ht).2.2 rfl
    · rw [hl hp] at hf'
      obtain ⟨hnt, hin⟩ := h.back a ha hsa' f hf'
      refine ⟨?_, fun hfm => Or.inl (hin hfm)⟩
      rintro (ht | ht)
      · exact hnt ht
      · obtain ⟨hmem, hnot, -⟩ := fresh_mapped hf hu hm ht
        exact hnot (hin hmem)
  · obtain ⟨hsa', hla⟩ := lookup_settled hf hu hm hsa
    obtain ⟨hsb', hlb⟩ := lookup_settled hf hu hm hsb
    -- The frame just taken was not in use, so no page that kept its frame has it.
    have hother : ∀ c ∈ H, Settled M s R c → lookup M s c = some f → f ≠ u := by
      rintro c hc hsc hfc rfl
      exact hunot ((h.back c hc hsc f hfc).2 hfm)
    by_cases hpa : page a = page virt <;> by_cases hpb : page b = page virt
    · rw [hpa, hpb]
    · rw [hlb hpb] at hfb
      exact absurd (Option.some.inj (hfa.symm.trans (hself a hpa))) (hother b hb hsb' hfb)
    · rw [hla hpa] at hfa
      exact absurd (Option.some.inj (hfb.symm.trans (hself b hpb))) (hother a ha hsa' hfa)
    · rw [hla hpa] at hfa
      rw [hlb hpb] at hfb
      exact h.unique a ha b hb hsa' hsb' f hfm hfa hfb
  · obtain ⟨h₁, h₂, h₃⟩ := h.live a ha
    refine ⟨h₁, h₂, fun t ht hp => ?_⟩
    obtain ⟨hin, hnt⟩ := h₃ t ht hp
    refine ⟨(inUse_mapped hf hu hm t).mpr (Or.inl hin), fun hpt => ?_⟩
    rcases (isPageTable_mapped hf hu hm t).mp hpt with hpt | hpt
    · exact hnt hpt
    · exact (fresh_mapped hf hu hm hpt).2.1 hin

end mapped

/-- A turn of the mapping loop keeps the invariant and every live page but its own. -/
lemma Inv.turn (hM : FramesOk M) (h : Inv M H R L s) {virt : ℕ}
    (hno : ∀ e ∈ (mapMissing M virt s).2, ¬ RanOut M.fm e) :
    Inv M H R L (mapMissing M virt s).1 ∧ ∀ a ∈ L,
      (∀ t ∈ taken (mapMissing M virt s).2, page a ≠ page t) ∧
      (page a ≠ page virt → lookup M (mapMissing M virt s).1 a = lookup M s a) := by
  rcases mapMissing_cases hM h.wf hno with ⟨-, he⟩ | ⟨-, hf, ⟨-, he, htk⟩ | ⟨-, hm⟩⟩
  · rw [he]
    exact ⟨h, fun a _ => ⟨by simp [taken], fun _ => rfl⟩⟩
  · rw [he, htk]
    exact ⟨h.alloc, fun a _ => ⟨by simp, fun _ => rfl⟩⟩
  · exact ⟨Inv.mapped hf rfl hm hM h, fun a ha => ⟨fun t ht => page_ne_new hf rfl hm h ha ht,
      fun hp => lookup_live hf rfl hm h ha hp⟩⟩

lemma Inv.loop (hM : FramesOk M) {vs : List ℕ} (h : Inv M H R L s)
    (hno : ∀ e ∈ (mapEach M vs s).2, ¬ RanOut M.fm e) : Inv M H R L (mapEach M vs s).1 :=
  mapEach_keeps (fun _ _ h hno => (h.turn hM hno).1) hno h

/-! ### Releasing the pages of a block -/

/-- The pages whose frames go back to the allocator: all that are mapped to one of them. -/
def releasedPages (M : Machine) (vs : List ℕ) (s : Paging) : Set ℕ :=
  {p | ∃ a, page a = p ∧ ∃ v ∈ vs, findPhysaddr M s v ∈ M.fm.pages ∧
    lookup M s a = some (findPhysaddr M s v)}

lemma lookup_aligned {v f : ℕ} (h : lookup M s v = some f) : f % PAGE_SIZE = 0 := by
  rw [lookup, path_eq, walk_snoc_eq_some] at h
  obtain ⟨t, -, hn⟩ := h
  unfold next at hn
  split at hn
  · obtain rfl := Option.some.inj hn
    unfold addrOf
    rw [and_mask]
    exact Nat.mul_mod_left _ _
  · cases hn

/-- What translates to a page of the freemap is a page mapped to it. -/
lemma lookup_of_find (hM : FramesOk M) (h0 : 0 ∉ M.fm.pages) {v : ℕ}
    (h : findPhysaddr M s v ∈ M.fm.pages) : lookup M s v = some (findPhysaddr M s v) := by
  rcases hl : lookup M s v with _ | f
  · rw [findPhysaddr_of_none hl] at h
    exact absurd h h0
  · have hal := (hM.fm.mem_pages h).1
    have hfal := lookup_aligned hl
    rw [findPhysaddr_of_lookup hl] at hal ⊢
    unfold PAGE_SIZE at hal hfal
    congr 1
    omega

/-- Frames that are no page tables and back no other block may go back. -/
lemma Inv.release (hM : FramesOk M) (h : Inv M H R L s) {vs : List ℕ} {L' : Set ℕ} (hsub : L' ⊆ L)
    (htables : ∀ v ∈ vs, ¬ IsPageTable M s (findPhysaddr M s v))
    (hspare : ∀ v ∈ vs, findPhysaddr M s v ∈ M.fm.pages → ∀ b ∈ L',
      lookup M s b ≠ some (findPhysaddr M s v))
    (hapart : ∀ v ∈ vs, findPhysaddr M s v ∈ M.fm.pages → ∀ b ∈ L',
      page (findPhysaddr M s v) ≠ page b) :
    Inv M H (R ∪ releasedPages M vs s) L' (releaseEach M vs s) := by
  have htab : ∀ t, IsPageTable M (releaseEach M vs s) t ↔ IsPageTable M s t := fun t =>
    and_congr_left fun _ => isTable_releaseEach vs s t
  have hset : ∀ a, Settled M (releaseEach M vs s) (R ∪ releasedPages M vs s) a →
      Settled M s R a ∧ page a ∉ releasedPages M vs s := fun a ha =>
    ⟨⟨fun hr => ha.kept (Or.inl hr), fun t ht => ha.noTable t ((htab t).mpr ht)⟩,
      fun hr => ha.kept (Or.inr hr)⟩
  refine ⟨wf_releaseEach hM h.wf htables, fun a ha hsa f hf => ?_,
    fun a ha b hb hsa hsb f hfm hfa hfb => ?_, fun a ha => ?_⟩
  · obtain ⟨hsa', hnr⟩ := hset a hsa
    rw [lookup_releaseEach] at hf
    obtain ⟨hnt, hin⟩ := h.back a ha hsa' f hf
    refine ⟨fun ht => hnt ((htab f).mp ht), fun hfm => ?_⟩
    refine (inUse_releaseEach hM).mpr ⟨hin hfm, fun v hv hvf => ?_⟩
    subst hvf
    exact hnr ⟨a, rfl, v, hv, hfm, hf⟩
  · rw [lookup_releaseEach] at hfa hfb
    exact h.unique a ha b hb (hset a hsa).1 (hset b hsb).1 f hfm hfa hfb
  · obtain ⟨h₁, h₂, h₃⟩ := h.live a (hsub ha)
    refine ⟨h₁, ?_, fun t ht hp => ?_⟩
    · rintro (hr | ⟨b, hp, v, hv, hf, hl⟩)
      · exact h₂ hr
      · exact hspare v hv hf a ha ((lookup_congr hp).symm.trans hl)
    · obtain ⟨hin, hnt⟩ := h₃ t ht hp
      refine ⟨(inUse_releaseEach hM).mpr ⟨hin, fun v hv hvt => ?_⟩, fun hpt => hnt ((htab t).mp hpt)⟩
      subst hvt
      exact hapart v hv ht a ha hp

end FlameOS.Aliasing
