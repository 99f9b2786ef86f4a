import FlameOS.MapPage
import FlameOS.FrameRun

/-!
What `map_page` does to a well-formed address space, as long as frames do not run out.

The tables form a tree below `pml4` and every table frame is marked in the bitmap. A block
of the walk hangs a fresh empty frame into the tree, which changes no translation, and then
maps that frame to itself; the last store rewrites one value of the trie.
-/

namespace FlameOS.MapSpec

open FlameOS.Word FlameOS.FrameAlloc FlameOS.FrameRun FlameOS.Trie FlameOS.PageTable FlameOS.MapPage

/-- The firmware's promises on the frames: the freemap is well formed and lies within the
52 bits of a physical address. -/
structure FramesOk (M : Machine) : Prop where
  fm : M.fm.Ok
  lt : ∀ a ∈ M.fm.pages, a < 2 ^ 52

/-- The frame serves as `pml4`, PDPT, PD or PT. -/
def IsTable (M : Machine) (s : Paging) (t : ℕ) : Prop := Reached (next s) M.pml4 3 t

def InUse (f : Freemap) (bmap : ℕ → ℕ) (a : ℕ) : Prop :=
  ∃ k, f.pages[k]? = some a ∧ used bmap k = true

lemma mem_of_inUse {f : Freemap} {bmap : ℕ → ℕ} {a : ℕ} (h : InUse f bmap a) : a ∈ f.pages := by
  obtain ⟨k, hk, -⟩ := h
  exact List.mem_of_getElem? hk

/-- The tables form a tree of frames that are in use. -/
structure Wf (M : Machine) (s : Paging) : Prop where
  shaped : Shaped (next s) M.pml4 3
  inUse : ∀ t, IsTable M s t → t = M.pml4 ∨ InUse M.fm s.bmap t

variable {M : Machine}

/-- The lookup of an address of a well-formed space, from the table that holds its value. -/
lemma path_eq (v : ℕ) : path v = [pml4Idx v, pdptIdx v, pdIdx v] ++ [ptIdx v] := rfl

lemma wf_of_clear {s : Paging} (h : ∀ i, s.frame M.pml4 i = 0) : Wf M s := by
  have hn : ∀ i, next s M.pml4 i = none := fun i => by simp [next, h]
  refine ⟨shaped_of_empty hn, ?_⟩
  rintro t ⟨π, -, hπ⟩
  cases π with
  | nil => exact Or.inl (by simpa using hπ.symm)
  | cons i π => simp [walk, List.foldlM_cons, hn] at hπ

lemma lookup_of_clear {s : Paging} (h : ∀ i, s.frame M.pml4 i = 0) (v : ℕ) :
    lookup M s v = none := by
  simp [lookup, path, walk, List.foldlM_cons, next, h]

/-! ### Taking a frame -/

section alloc

variable {f : Freemap} {bmap : ℕ → ℕ}

lemma alloc_mem (h : ¬ AllUsed f bmap) : (physPageAlloc f bmap).1 ∈ f.pages := by
  obtain ⟨k, hk, -, -⟩ := physPageAlloc_free h
  exact List.mem_of_getElem? hk

lemma not_inUse_alloc (hf : f.Ok) (h : ¬ AllUsed f bmap) :
    ¬ InUse f bmap (physPageAlloc f bmap).1 := by
  obtain ⟨k, hk, hu, -⟩ := physPageAlloc_free h
  rintro ⟨j, hj, hju⟩
  rw [getElem?_inj hf.nodup hj hk, hu] at hju
  cases hju

lemma inUse_alloc (h : ¬ AllUsed f bmap) (a : ℕ) :
    InUse f (physPageAlloc f bmap).2 a ↔ InUse f bmap a ∨ a = (physPageAlloc f bmap).1 := by
  obtain ⟨k, hk, -, hb⟩ := physPageAlloc_free h
  rw [hb]
  constructor
  · rintro ⟨j, hj, hu⟩
    rw [used_insert, Bool.or_eq_true, decide_eq_true_eq] at hu
    rcases hu with hu | rfl
    · exact Or.inl ⟨j, hj, hu⟩
    · exact Or.inr (Option.some.inj (hj.symm.trans hk))
  · rintro (⟨j, hj, hu⟩ | rfl)
    · exact ⟨j, hj, by rw [used_insert, hu, Bool.true_or]⟩
    · exact ⟨k, hk, by simp [used_insert]⟩

end alloc

/-! ### The tables -/

/-- From `s` to `s'` the tree grew by the fresh frames `new`. -/
structure Ext (M : Machine) (s s' : Paging) (new : List ℕ) : Prop where
  wf : Wf M s'
  tables : ∀ t, IsTable M s' t ↔ IsTable M s t ∨ t ∈ new
  walks : ∀ π t, π.length ≤ 3 → walk (next s) M.pml4 π = some t → walk (next s') M.pml4 π = some t
  inUse : ∀ a, InUse M.fm s'.bmap a ↔ InUse M.fm s.bmap a ∨ a ∈ new
  fresh : ∀ a ∈ new, a ∈ M.fm.pages ∧ ¬ InUse M.fm s.bmap a

lemma Ext.refl {s : Paging} (h : Wf M s) : Ext M s s [] :=
  ⟨h, by simp, fun _ _ _ h => h, by simp, by simp⟩

lemma Ext.trans {s s₁ s₂ : Paging} {n₁ n₂ : List ℕ} (h₁ : Ext M s s₁ n₁) (h₂ : Ext M s₁ s₂ n₂) :
    Ext M s s₂ (n₁ ++ n₂) where
  wf := h₂.wf
  tables t := by rw [h₂.tables, h₁.tables, List.mem_append, or_assoc]
  walks π t hπ h := h₂.walks π t hπ (h₁.walks π t hπ h)
  inUse a := by rw [h₂.inUse, h₁.inUse, List.mem_append, or_assoc]
  fresh a ha := by
    rcases List.mem_append.mp ha with ha | ha
    · exact h₁.fresh a ha
    · refine ⟨(h₂.fresh a ha).1, fun hu => (h₂.fresh a ha).2 ?_⟩
      exact (h₁.inUse a).mpr (Or.inl hu)

/-- A frame that was just taken is hung into the tree, and no translation changes. -/
lemma ext_linked {s : Paging} (hM : FramesOk M) (hs : Wf M s) (hf : ¬ AllUsed M.fm s.bmap)
    {t i : ℕ} {π : List ℕ} (hπ : walk (next s) M.pml4 π = some t) (hd : π.length < 3)
    (hp : present (s.frame t i) = false) :
    Ext M s (linked M s t i) [(physPageAlloc M.fm s.bmap).1] ∧
      walk (next (linked M s t i)) M.pml4 (π ++ [i]) = some (physPageAlloc M.fm s.bmap).1 ∧
      ∀ v, lookup M (linked M s t i) v = lookup M s v := by
  set u := (physPageAlloc M.fm s.bmap).1 with hu
  have hmem : u ∈ M.fm.pages := alloc_mem hf
  have hfresh : ¬ InUse M.fm s.bmap u := not_inUse_alloc hM.fm hf
  have hu4 : u ≠ M.pml4 := fun h => M.pml4_notMem (h ▸ hmem)
  have hnr : ¬ Reached (next s) M.pml4 3 u := fun h => by
    rcases hs.inUse u h with h | h
    · exact hu4 h
    · exact hfresh h
  have hut : u ≠ t := fun h => hnr ⟨π, hd.le, h ▸ hπ⟩
  have hmask : u &&& ADDR_MASK = u :=
    and_mask_of_aligned (hM.fm.mem_pages hmem).1 (hM.lt u hmem)
  have hframe : ∀ x j, (linked M s t i).frame x j =
      if x = t ∧ j = i then mkEntry u else if x = u then 0 else s.frame x j := by
    intro x j
    rw [linked, frame_write, frame_memset]
  have hh : Hung (next s) (next (linked M s t i)) t i u := by
    refine ⟨?_, fun j => ?_, fun x j hx hxj => ?_⟩
    · rw [next_of_present (by rw [hframe, if_pos ⟨rfl, rfl⟩, present_mkEntry]), hframe,
        if_pos ⟨rfl, rfl⟩, addrOf_mkEntry, hmask]
    · rw [next_eq_none, hframe, if_neg (fun h => hut h.1), if_pos rfl, present_zero]
    · simp only [next, hframe, if_neg hxj, if_neg hx]
  have hn : next s t i = none := next_eq_none.mpr hp
  have hb : ∀ a, InUse M.fm (linked M s t i).bmap a ↔ InUse M.fm s.bmap a ∨ a = u := by
    intro a
    rw [linked, bmap_write, bmap_memset]
    exact inUse_alloc hf a
  refine ⟨⟨⟨shaped_hung hh hs.shaped hπ hd hn hnr, fun x hx => ?_⟩, fun x => ?_,
    fun ρ x hρ h => walk_of_hung hh hn hnr hρ h, fun a => ?_, fun a ha => ?_⟩,
    walk_hung_self hh hπ hd hn hnr, fun v => lookup_hung hh hs.shaped hπ hd hn hnr rfl⟩
  · rcases (reached_hung hh hs.shaped hπ hd hn hnr).mp hx with hx | rfl
    · exact (hs.inUse x hx).imp_right fun h => (hb x).mpr (Or.inl h)
    · exact Or.inr ((hb u).mpr (Or.inr rfl))
  · rw [List.mem_singleton]
    exact reached_hung hh hs.shaped hπ hd hn hnr
  · rw [hb, List.mem_singleton]
  · obtain rfl := List.mem_singleton.mp ha
    exact ⟨hmem, hfresh⟩

/-! ### The translations -/

/-- The tree grew by `new`, and what translates differently is mapped by the new frames. -/
structure Grow (M : Machine) (s s' : Paging) (new : List ℕ) : Prop extends Ext M s s' new where
  lookups : ∀ v, lookup M s' v = lookup M s v ∨ ∃ t ∈ new, page v = page t ∧ lookup M s' v = some t
  mapped : ∀ t ∈ new, ∃ u ∈ new, page t = page u ∧ lookup M s' t = some u

lemma Grow.refl {s : Paging} (h : Wf M s) : Grow M s s [] :=
  ⟨Ext.refl h, fun _ => Or.inl rfl, by simp⟩

lemma Grow.trans {s s₁ s₂ : Paging} {n₁ n₂ : List ℕ} (h₁ : Grow M s s₁ n₁)
    (h₂ : Grow M s₁ s₂ n₂) : Grow M s s₂ (n₁ ++ n₂) where
  toExt := h₁.toExt.trans h₂.toExt
  lookups v := by
    rcases h₂.lookups v with h | ⟨t, ht, hv, h⟩
    · rcases h₁.lookups v with h' | ⟨t, ht, hv, h'⟩
      · exact Or.inl (h.trans h')
      · exact Or.inr ⟨t, List.mem_append_left _ ht, hv, h.trans h'⟩
    · exact Or.inr ⟨t, List.mem_append_right _ ht, hv, h⟩
  mapped t ht := by
    rcases List.mem_append.mp ht with ht | ht
    · rcases h₂.lookups t with h | ⟨u, hu, hv, h⟩
      · obtain ⟨u, hu, hv, h'⟩ := h₁.mapped t ht
        exact ⟨u, List.mem_append_left _ hu, hv, h.trans h'⟩
      · exact ⟨u, List.mem_append_right _ hu, hv, h⟩
    · obtain ⟨u, hu, hv, h⟩ := h₂.mapped t ht
      exact ⟨u, List.mem_append_right _ hu, hv, h⟩

/-- What a call `map_page(phys, virt)` with aligned addresses achieves: the tree grew by
`new`, the page of `virt` is mapped to `phys`, and what else translates differently is
mapped by the new frames. -/
structure Mapped (M : Machine) (phys virt : ℕ) (s s' : Paging) (new : List ℕ) : Prop
    extends Ext M s s' new where
  self : lookup M s' virt = some (phys &&& ADDR_MASK)
  lookups : ∀ v, page v ≠ page virt →
    lookup M s' v = lookup M s v ∨ ∃ t ∈ new, page v = page t ∧ lookup M s' v = some t
  mapped : ∀ t ∈ new, page t ≠ page virt → ∃ u ∈ new, page t = page u ∧ lookup M s' t = some u

lemma Mapped.grow {s s₃ s' : Paging} {u : ℕ} {new : List ℕ} (hmask : u &&& ADDR_MASK = u)
    (hl : Ext M s s₃ [u]) (hlook : ∀ v, lookup M s₃ v = lookup M s v)
    (h : Mapped M u u s₃ s' new) : Grow M s s' (u :: new) where
  toExt := hl.trans h.toExt
  lookups v := by
    by_cases hv : page v = page u
    · exact Or.inr ⟨u, List.mem_cons_self, hv, by rw [lookup_congr hv, h.self, hmask]⟩
    · rcases h.lookups v hv with h' | ⟨t, ht, hvt, h'⟩
      · exact Or.inl (h'.trans (hlook v))
      · exact Or.inr ⟨t, List.mem_cons_of_mem _ ht, hvt, h'⟩
  mapped t ht := by
    by_cases htu : page t = page u
    · exact ⟨u, List.mem_cons_self, htu, by rw [lookup_congr htu, h.self, hmask]⟩
    · rcases List.mem_cons.mp ht with rfl | ht
      · exact absurd rfl htu
      · obtain ⟨w, hw, hwt, h'⟩ := h.mapped t ht htu
        exact ⟨w, List.mem_cons_of_mem _ hw, hwt, h'⟩

lemma Grow.store {s s₃ : Paging} {new : List ℕ} {phys virt pt : ℕ} (h : Grow M s s₃ new)
    (hpt : walk (next s₃) M.pml4 [pml4Idx virt, pdptIdx virt, pdIdx virt] = some pt) :
    Mapped M phys virt s (s₃.write pt (ptIdx virt) (mkEntry phys)) new := by
  set s' := s₃.write pt (ptIdx virt) (mkEntry phys) with hs'
  have hsame : ∀ x j, ¬ (x = pt ∧ j = ptIdx virt) → next s' x j = next s₃ x j := by
    intro x j hxj
    simp only [next, hs', frame_write, if_neg hxj]
  have hsh := h.wf.shaped
  have hself : next s' pt (ptIdx virt) = some (phys &&& ADDR_MASK) := by
    simp [next, hs', frame_write]
  have hlook : ∀ v, page v ≠ page virt → lookup M s' v = lookup M s₃ v := fun v hv =>
    lookup_value hsame hsh hpt rfl rfl fun hpath => hv ((path_eq_iff v virt).mp hpath)
  refine ⟨⟨⟨shaped_value hsame hsh hpt rfl, fun t ht => ?_⟩, fun t => ?_, fun π t hπ ht => ?_,
    h.inUse, h.fresh⟩, ?_, fun v hv => ?_, fun t ht htv => ?_⟩
  · exact h.wf.inUse t ((reached_value hsame hsh hpt rfl).mp ht)
  · exact (reached_value hsame hsh hpt rfl).trans (h.tables t)
  · rw [walk_value hsame hsh hpt rfl hπ]
    exact h.walks π t hπ ht
  · rw [lookup, path_eq, lookup_value_self hsame hsh hpt rfl, hself]
  · rw [hlook v hv]
    exact h.lookups v
  · rw [hlook t htv]
    exact h.mapped t ht

/-! ### The call -/

/-- The recursive call does what a call should. -/
def Sound (M : Machine) (rec : ℕ → ℕ → Paging → Option (Paging × List Event)) : Prop :=
  ∀ {phys virt : ℕ} {s : Paging} {r : Paging × List Event}, Wf M s → phys % PAGE_SIZE = 0 →
    virt % PAGE_SIZE = 0 → rec phys virt s = some r → (∀ e ∈ r.2, ¬ RanOut M.fm e) →
    Mapped M phys virt s r.1 (taken r.2)

lemma newTable_grow {rec : ℕ → ℕ → Paging → Option (Paging × List Event)}
    {touch : Paging → List Event} {s : Paging} {t i : ℕ} {π : List ℕ} {r : Paging × List Event}
    (hM : FramesOk M) (hrec : Sound M rec) (ht : ∀ s, taken (touch s) = []) (hs : Wf M s)
    (hπ : walk (next s) M.pml4 π = some t) (hd : π.length < 3)
    (h : newTable M rec touch t i s = some r) (hno : ∀ e ∈ r.2, ¬ RanOut M.fm e) :
    Grow M s r.1 (taken r.2) ∧
      walk (next r.1) M.pml4 (π ++ [i]) = some (addrOf (r.1.frame t i)) := by
  have hchild : ∀ {s' : Paging}, walk (next s') M.pml4 π = some t →
      present (s'.frame t i) = true →
      walk (next s') M.pml4 (π ++ [i]) = some (addrOf (s'.frame t i)) := fun h hp =>
    walk_snoc_eq_some.mpr ⟨t, h, next_of_present hp⟩
  rcases newTable_cases h with ⟨hp, rfl⟩ | ⟨hp, q, hq, hr, htr⟩
  · simp only [ht]
    exact ⟨Grow.refl hs, hchild hπ hp⟩
  · have hf : ¬ AllUsed M.fm s.bmap := hno (.table s.bmap (physPageAlloc M.fm s.bmap).1) (by rw [htr]; simp)
    have hmem := alloc_mem hf
    have hal := (hM.fm.mem_pages hmem).1
    obtain ⟨hext, hw, hlook⟩ := ext_linked hM hs hf hπ hd hp
    have hmap := hrec hext.wf hal hal hq fun e he => hno e (by rw [htr]; simp [he])
    have htk : taken r.2 = (physPageAlloc M.fm s.bmap).1 :: taken q.2 := by
      rw [htr]; simp [taken, ht]
    rw [htk, hr]
    refine ⟨hmap.grow (and_mask_of_aligned hal (hM.lt _ hmem)) hext hlook, ?_⟩
    have hw' := hmap.walks _ _ (by simpa using hd) hw
    have hπ' := hmap.walks _ _ hd.le (hext.walks _ _ hd.le hπ)
    obtain ⟨t', ht', hn⟩ := walk_snoc_eq_some.mp hw'
    obtain rfl : t' = t := Option.some.inj (ht'.symm.trans hπ')
    refine hchild hπ' ?_
    by_contra hc
    rw [next_eq_none.mpr (by simpa using hc)] at hn
    cases hn

lemma taken_touchEntry (t i : ℕ) (s : Paging) : taken (touchEntry t i s) = [] := rfl

/-- **What `map_page` does.** By induction on the nesting of the calls. -/
lemma mapPageFuel_mapped (hM : FramesOk M) (fuel : ℕ) : Sound M (mapPageFuel M fuel) := by
  induction fuel with
  | zero =>
    intro phys virt s r _ _ _ h
    simp [mapPageFuel] at h
  | succ fuel ih =>
    intro phys virt s r hs hp hv h hno
    rcases mapPageFuel_cases h with ⟨hal, -⟩ |
      ⟨-, -, r₁, r₂, r₃, pdpt, pd, pt, h₁, rfl, h₂, rfl, h₃, rfl, rfl⟩
    · omega
    · simp only [List.mem_append] at hno
      obtain ⟨hg₁, hw₁⟩ := newTable_grow (π := []) hM ih (fun _ => rfl) hs rfl (by simp) h₁
        fun e he => hno e (by simp [he])
      obtain ⟨hg₂, hw₂⟩ := newTable_grow hM ih (taken_touchEntry _ _) hg₁.wf hw₁ (by simp) h₂
        fun e he => hno e (by simp [he])
      obtain ⟨hg₃, hw₃⟩ := newTable_grow hM ih (taken_touchEntry _ _) hg₂.wf hw₂ (by simp) h₃
        fun e he => hno e (by simp [he])
      simp only [taken_append, taken_touchEntry, List.append_nil]
      exact ((hg₁.trans hg₂).trans hg₃).store hw₃

lemma mapPage_mapped (hM : FramesOk M) {s : Paging} (hs : Wf M s) {phys virt : ℕ}
    (hp : phys % PAGE_SIZE = 0) (hv : virt % PAGE_SIZE = 0)
    (hno : ∀ e ∈ (mapPage M phys virt s).2, ¬ RanOut M.fm e) :
    Mapped M phys virt s (mapPage M phys virt s).1 (taken (mapPage M phys virt s).2) :=
  mapPageFuel_mapped hM _ hs hp hv (mapPageFuel_eq phys virt s) hno

lemma mapPage_ext (hM : FramesOk M) {s : Paging} (hs : Wf M s) {phys virt : ℕ}
    (hno : ∀ e ∈ (mapPage M phys virt s).2, ¬ RanOut M.fm e) :
    Ext M s (mapPage M phys virt s).1 (taken (mapPage M phys virt s).2) := by
  by_cases hal : phys % PAGE_SIZE ≠ 0 ∨ virt % PAGE_SIZE ≠ 0
  · rw [mapPage_unaligned hal]
    exact Ext.refl hs
  · exact (mapPage_mapped hM hs (by omega) (by omega) hno).toExt

end FlameOS.MapSpec
