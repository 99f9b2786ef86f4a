import FlameOS.Aliasing

/-!
The accesses of `map_page` to the tables once `pml4` is loaded. Every table in use is
mapped to itself, so the walk is sound; but a new table is cleared and linked before it is
mapped. So all accesses are to mapped addresses exactly when the frames the call is about
to take for its tables are mapped to themselves already.
-/

namespace FlameOS.TableAccess

open FlameOS.Word FlameOS.FrameAlloc FlameOS.Trie FlameOS.PageTable FlameOS.MapPage
open FlameOS.MapSpec FlameOS.MapRun FlameOS.Heap FlameOS.Boot FlameOS.Backing FlameOS.Aliasing
open FlameOS.HeapTable (kernelHeap)

/-- The access is to bytes that are mapped to themselves. -/
def Identity (M : Machine) : Event → Prop
  | .table _ _ => True
  | .data _ _ => True
  | .access s addr len => ∀ o < len, findPhysaddr M s (addr + o) = addr + o

instance (M : Machine) : DecidablePred (Identity M)
  | .table _ _ => inferInstanceAs (Decidable True)
  | .data _ _ => inferInstanceAs (Decidable True)
  | .access s addr len =>
    inferInstanceAs (Decidable (∀ o < len, findPhysaddr M s (addr + o) = addr + o))

/-- The access is to mapped bytes, and the allocator has a frame. -/
def Fine (M : Machine) (e : Event) : Prop := Identity M e ∧ ¬ RanOut M.fm e

/-- The next `n` frames that the allocator hands out exist and are mapped to themselves. -/
def Ready (M : Machine) (s : Paging) : ℕ → (ℕ → ℕ) → Prop
  | 0, _ => True
  | n + 1, bmap =>
    (¬ AllUsed M.fm bmap ∧
      lookup M s (physPageAlloc M.fm bmap).1 = some (physPageAlloc M.fm bmap).1) ∧
    Ready M s n (physPageAlloc M.fm bmap).2

/-- If entry `i` of the table `t` is missing, the frame that will be taken for it exists and
is mapped to itself. -/
def Served (M : Machine) (s : Paging) (t i : ℕ) : Prop :=
  present (s.frame t i) = false → ¬ AllUsed M.fm s.bmap ∧
    lookup M s (physPageAlloc M.fm s.bmap).1 = some (physPageAlloc M.fm s.bmap).1

variable {M : Machine} {s : Paging}

lemma ready_congr {s' : Paging} (h : ∀ v, lookup M s' v = lookup M s v) {n : ℕ} {bmap : ℕ → ℕ} :
    Ready M s' n bmap ↔ Ready M s n bmap := by
  induction n generalizing bmap with
  | zero => exact Iff.rfl
  | succ n ih => rw [Ready, Ready, h, ih]

/-! ### Touching a table -/

lemma find_within {t o : ℕ} (hal : t % PAGE_SIZE = 0) (hl : lookup M s t = some t) (ho : o < 4096) :
    findPhysaddr M s (t + o) = t + o := by
  unfold PAGE_SIZE at hal
  have hl' : lookup M s (t + o) = some t := by
    rw [lookup_congr (w := t) (page_eq_of_div (by omega)), hl]
  rw [findPhysaddr_of_lookup hl']
  omega

lemma fine_touch {t i : ℕ} (hal : t % PAGE_SIZE = 0) (hl : lookup M s t = some t) (hi : i < 512) :
    ∀ e ∈ touchEntry t i s, Fine M e := by
  intro e he
  obtain rfl := List.mem_singleton.mp he
  refine ⟨fun o ho => ?_, id⟩
  rw [Nat.add_assoc]
  exact find_within hal hl (by omega)

lemma child_mapped (hM : FramesOk M) (hs : Wf M s) (hid : IdMapped M s) {π : List ℕ} {i x : ℕ}
    (hd : π.length < 3) (hx : walk (next s) M.pml4 (π ++ [i]) = some x) :
    x % PAGE_SIZE = 0 ∧ lookup M s x = some x := by
  have hlen : (π ++ [i]).length ≤ 3 := by
    rw [List.length_append, List.length_singleton]
    omega
  have htab : IsTable M s x := ⟨_, hlen, hx⟩
  have h4 : x ≠ M.pml4 := hs.shaped.ne_root hlen hx
  exact ⟨(hM.fm.mem_pages (mem_of_isPageTable hs ⟨htab, h4⟩)).1, hid x htab h4⟩

/-! ### A call that finds all its tables -/

lemma next_eq_some {t i x : ℕ} (h : next s t i = some x) :
    present (s.frame t i) = true ∧ addrOf (s.frame t i) = x := by
  unfold next at h
  split at h
  · rename_i hp
    exact ⟨hp, Option.some.inj h⟩
  · cases h

lemma mapPageFuel_present {fuel phys virt pdpt pd pt : ℕ} (hp : phys % PAGE_SIZE = 0)
    (hv : virt % PAGE_SIZE = 0) (h4 : next s M.pml4 (pml4Idx virt) = some pdpt)
    (h3 : next s pdpt (pdptIdx virt) = some pd) (h2 : next s pd (pdIdx virt) = some pt) :
    mapPageFuel M (fuel + 1) phys virt s =
      some (s.write pt (ptIdx virt) (mkEntry phys),
        touchEntry pdpt (pdptIdx virt) s ++ touchEntry pdpt (pdptIdx virt) s ++
          touchEntry pd (pdIdx virt) s ++ touchEntry pd (pdIdx virt) s ++
          touchEntry pt (ptIdx virt) s) := by
  obtain ⟨p4, a4⟩ := next_eq_some h4
  obtain ⟨p3, a3⟩ := next_eq_some h3
  obtain ⟨p2, a2⟩ := next_eq_some h2
  have h : mapPageFuel M (fuel + 1) phys virt s = _ :=
    mapPageFuel_walk hp hv (newTable_present p4) a4 (newTable_present p3) a3 (newTable_present p2)
  rw [a2] at h
  exact h

lemma walk_three {next : ℕ → ℕ → Option ℕ} {root a b c z : ℕ}
    (h : walk next root [a, b, c] = some z) :
    ∃ x y, next root a = some x ∧ next x b = some y ∧ next y c = some z := by
  simp only [walk, List.foldlM_cons, List.foldlM_nil, Option.bind_eq_bind,
    Option.bind_eq_some_iff] at h
  obtain ⟨x, hx, y, hy, z', hz, he⟩ := h
  cases he
  exact ⟨x, y, hx, hy, hz⟩

/-! ### A block of the walk -/

/-- The tables stay a tree mapped to itself, and no translation changes. -/
structure Kept (M : Machine) (s s' : Paging) : Prop where
  wf : Wf M s'
  id : IdMapped M s'
  lookups : ∀ v, lookup M s' v = lookup M s v

/-- What a block leaves: the child of `t` at `i`, which was there or is an empty table. -/
structure Child (M : Machine) (s s' : Paging) (π : List ℕ) (t i x : ℕ) : Prop where
  walk : walk (next s') M.pml4 (π ++ [i]) = some x
  old : present (s.frame t i) = true → s' = s ∧ next s t i = some x
  new : present (s.frame t i) = false → s'.bmap = (physPageAlloc M.fm s.bmap).2 ∧
    ∀ j, next s' x j = none

section block

variable {fuel t i : ℕ} {π : List ℕ} {touch : Paging → List Event} {r : Paging × List Event}
  (hM : FramesOk M) (hs : Wf M s) (hid : IdMapped M s) (hπ : walk (next s) M.pml4 π = some t)
  (hd : π.length < 3)

include hM hs hid hπ hd

omit hid in
lemma next_linked_new (hp : present (s.frame t i) = false) (hf : ¬ AllUsed M.fm s.bmap) (j : ℕ) :
    next (linked M s t i) (physPageAlloc M.fm s.bmap).1 j = none := by
  obtain ⟨hext, hw, -⟩ := ext_linked hM hs hf hπ hd hp
  have hut : (physPageAlloc M.fm s.bmap).1 ≠ t := by
    intro he
    have hlen : (π ++ [i]).length ≤ 3 := by
      rw [List.length_append, List.length_singleton]
      omega
    have h := hext.wf.shaped _ _ hlen hd.le _ hw (he ▸ hext.walks π t hd.le hπ)
    simp at h
  rw [next_eq_none, linked, frame_write, if_neg fun h => hut h.1, frame_memset, if_pos rfl,
    present_zero]

/-- With the new table linked, a table that has a child is an old one, mapped to itself. -/
lemma old_mapped {ρ : List ℕ} {j k x y : ℕ} (hp : present (s.frame t i) = false)
    (hf : ¬ AllUsed M.fm s.bmap) (hρ : ρ.length < 3)
    (hx : walk (next (linked M s t i)) M.pml4 (ρ ++ [j]) = some x)
    (hy : next (linked M s t i) x k = some y) :
    x ≠ (physPageAlloc M.fm s.bmap).1 ∧ x % PAGE_SIZE = 0 ∧
      lookup M (linked M s t i) x = some x := by
  obtain ⟨hext, -, hlook⟩ := ext_linked hM hs hf hπ hd hp
  have hne : x ≠ (physPageAlloc M.fm s.bmap).1 := by
    rintro rfl
    rw [next_linked_new hM hs hπ hd hp hf] at hy
    cases hy
  have hlen : (ρ ++ [j]).length ≤ 3 := by
    rw [List.length_append, List.length_singleton]
    omega
  have h4 : x ≠ M.pml4 := hext.wf.shaped.ne_root hlen hx
  have htab : IsTable M s x :=
    ((hext.tables x).mp ⟨_, hlen, hx⟩).resolve_right fun h => hne (List.mem_singleton.mp h)
  exact ⟨hne, (hM.fm.mem_pages (mem_of_isPageTable hs ⟨htab, h4⟩)).1,
    (hlook x).trans (hid x htab h4)⟩

section nested

variable {q : Paging × List Event} (hp : present (s.frame t i) = false)
  (hf : ¬ AllUsed M.fm s.bmap)
  (hu : lookup M s (physPageAlloc M.fm s.bmap).1 = some (physPageAlloc M.fm s.bmap).1)
  (hq : mapPageFuel M (fuel + 1) (physPageAlloc M.fm s.bmap).1 (physPageAlloc M.fm s.bmap).1
    (linked M s t i) = some q)

include hp hf hu hq

/-- The nested call of a block whose frame is mapped to itself already: it finds all its
tables, which are old ones, and stores one entry. -/
lemma nested_walk : ∃ pt j e, pt ≠ (physPageAlloc M.fm s.bmap).1 ∧
    q.1 = (linked M s t i).write pt j e ∧ taken q.2 = [] ∧ ∀ e ∈ q.2, Fine M e := by
  set u := (physPageAlloc M.fm s.bmap).1 with hudef
  have hal := (hM.fm.mem_pages (alloc_mem hf)).1
  obtain ⟨-, -, hlook⟩ := ext_linked hM hs hf hπ hd hp
  -- The path of the frame is complete, and the fresh table is not on it.
  have hpath : walk (next (linked M s t i)) M.pml4 ([pml4Idx u, pdptIdx u, pdIdx u] ++ [ptIdx u]) =
      some u := path_eq u ▸ (hlook u).trans hu
  obtain ⟨pt, hpt, hlast⟩ := walk_snoc_eq_some.mp hpath
  obtain ⟨pdpt, pd, h4, h3, h2⟩ := walk_three hpt
  have hw₁ : walk (next (linked M s t i)) M.pml4 ([] ++ [pml4Idx u]) = some pdpt :=
    walk_snoc_eq_some.mpr ⟨M.pml4, rfl, h4⟩
  have hw₂ : walk (next (linked M s t i)) M.pml4 ([pml4Idx u] ++ [pdptIdx u]) = some pd :=
    walk_snoc_eq_some.mpr ⟨pdpt, hw₁, h3⟩
  have hw₃ : walk (next (linked M s t i)) M.pml4 ([pml4Idx u, pdptIdx u] ++ [pdIdx u]) =
      some pt := hpt
  obtain ⟨-, hpdpt, hlpdpt⟩ := old_mapped hM hs hid hπ hd hp hf (by simp) hw₁ h3
  obtain ⟨-, hpd, hlpd⟩ := old_mapped hM hs hid hπ hd hp hf (by simp) hw₂ h2
  obtain ⟨hne, hptal, hlpt⟩ := old_mapped hM hs hid hπ hd hp hf (by simp) hw₃ hlast
  obtain rfl := Option.some.inj ((mapPageFuel_present hal hal h4 h3 h2).symm.trans hq)
  refine ⟨pt, _, _, hne, rfl, rfl, fun e he => ?_⟩
  simp only [List.mem_append] at he
  rcases he with (((he | he) | he) | he) | he
  · exact fine_touch hpdpt hlpdpt (pdptIdx_lt u) e he
  · exact fine_touch hpdpt hlpdpt (pdptIdx_lt u) e he
  · exact fine_touch hpd hlpd (pdIdx_lt u) e he
  · exact fine_touch hpd hlpd (pdIdx_lt u) e he
  · exact fine_touch hptal hlpt (ptIdx_lt u) e he

/-- So the new table stays empty and every page keeps its translation. -/
lemma nested_call :
    Kept M s q.1 ∧ Child M s q.1 π t i (physPageAlloc M.fm s.bmap).1 ∧ ∀ e ∈ q.2, Fine M e := by
  set u := (physPageAlloc M.fm s.bmap).1 with hudef
  have hmem : u ∈ M.fm.pages := alloc_mem hf
  have hal := (hM.fm.mem_pages hmem).1
  obtain ⟨hext, hw, hlook⟩ := ext_linked hM hs hf hπ hd hp
  obtain ⟨pt, j, e, hpt, hq₁, htk, hfine⟩ := nested_walk hM hs hid hπ hd hp hf hu hq
  have hmap := mapPageFuel_mapped hM _ hext.wf hal hal hq fun e he => (hfine e he).2
  rw [htk] at hmap
  have hlookups : ∀ v, lookup M q.1 v = lookup M s v := by
    intro v
    by_cases hv : page v = page u
    · calc lookup M q.1 v = some (u &&& ADDR_MASK) := by rw [lookup_congr hv, hmap.self]
        _ = some u := by rw [and_mask_of_aligned hal (hM.lt u hmem)]
        _ = lookup M s v := by rw [lookup_congr hv, hu]
    · rcases hmap.lookups v hv with hl | ⟨t', ht', -⟩
      · rw [hl, hlook]
      · cases ht'
  have hempty : ∀ j, next q.1 u j = none := by
    intro j
    have hj := next_linked_new hM hs hπ hd hp hf j
    rw [next_eq_none] at hj ⊢
    rwa [hq₁, frame_write, if_neg fun h => hpt h.1.symm]
  have hkept : IdMapped M q.1 := by
    intro x hx h4
    rw [hlookups]
    rcases (hmap.tables x).mp hx with hx | hx
    · rcases (hext.tables x).mp hx with hx | hx
      · exact hid x hx h4
      · rw [List.mem_singleton.mp hx]
        exact hu
    · cases hx
  exact ⟨⟨hmap.wf, hkept, hlookups⟩, ⟨hmap.walks _ _ (by simp; omega) hw,
    fun h => absurd (hp.symm.trans h) (by decide), fun _ => ⟨by rw [hq₁]; rfl, hempty⟩⟩, hfine⟩

end nested

/-- A block that is served touches mapped bytes only. -/
lemma block_fine (htouch : ∀ s', lookup M s' t = lookup M s t → ∀ e ∈ touch s', Fine M e)
    (hserved : Served M s t i)
    (h : newTable M (mapPageFuel M (fuel + 1)) touch t i s = some r) :
    Kept M s r.1 ∧ Child M s r.1 π t i (addrOf (r.1.frame t i)) ∧ ∀ e ∈ r.2, Fine M e := by
  rcases newTable_cases h with ⟨hp, rfl⟩ | ⟨hp, q, hq, hr, htr⟩
  · have hn : next s t i = some (addrOf (s.frame t i)) := next_of_present hp
    exact ⟨⟨hs, hid, fun _ => rfl⟩, ⟨walk_snoc_eq_some.mpr ⟨t, hπ, hn⟩, fun _ => ⟨rfl, hn⟩,
      fun h => absurd (hp.symm.trans h) (by decide)⟩, htouch s rfl⟩
  · obtain ⟨hf, hu⟩ := hserved hp
    have hmem := alloc_mem hf
    have hal := (hM.fm.mem_pages hmem).1
    obtain ⟨hkept, hchild, hfine⟩ := nested_call hM hs hid hπ hd hp hf hu hq
    have hnr : ¬ Reached (next s) M.pml4 3 (physPageAlloc M.fm s.bmap).1 := fun hr => by
      rcases hs.inUse _ hr with h4 | hin
      · exact M.pml4_notMem (h4 ▸ hmem)
      · exact not_inUse_alloc hM.fm hf hin
    rw [hr]
    refine ⟨hkept, ?_, fun e he => ?_⟩
    · have hchild' := hchild.walk
      obtain ⟨t', ht', hn⟩ := walk_snoc_eq_some.mp hchild'
      have hwt : walk (next q.1) M.pml4 π = some t := by
        obtain ⟨hext, -, -⟩ := ext_linked hM hs hf hπ hd hp
        have hmap := mapPageFuel_mapped hM _ hext.wf hal hal hq fun e he => (hfine e he).2
        exact hmap.walks _ _ hd.le (hext.walks _ _ hd.le hπ)
      obtain rfl : t' = t := Option.some.inj (ht'.symm.trans hwt)
      rwa [(next_eq_some hn).2]
    · rw [htr] at he
      simp only [List.mem_append, List.mem_cons] at he
      rcases he with (he | rfl | rfl | he) | he
      · exact htouch s rfl e he
      · exact ⟨trivial, hf⟩
      · exact ⟨fun o ho => find_within hal hu ho, id⟩
      · -- Clearing a frame that is no table moves nothing.
        refine htouch _ ?_ e he
        refine walk_congr (d := 3) (fun x hx j => ?_) (by simp)
        have hxu : x ≠ (physPageAlloc M.fm s.bmap).1 := fun he => hnr (he ▸ hx)
        simp only [next, frame_memset, if_neg hxu]
      · exact hfine e he

end block

/-- A block below `pml4`, which touches the table it walks through. -/
lemma child_block_fine (hM : FramesOk M) (hs : Wf M s) (hid : IdMapped M s) {fuel t i j : ℕ}
    {π : List ℕ} {r : Paging × List Event} (hd : π.length < 2)
    (hx : walk (next s) M.pml4 (π ++ [j]) = some t) (hi : i < 512) (hserved : Served M s t i)
    (h : newTable M (mapPageFuel M (fuel + 1)) (touchEntry t i) t i s = some r) :
    Kept M s r.1 ∧ Child M s r.1 (π ++ [j]) t i (addrOf (r.1.frame t i)) ∧
      ∀ e ∈ r.2, Fine M e := by
  obtain ⟨hal, hl⟩ := child_mapped hM hs hid (by omega) hx
  exact block_fine hM hs hid hx (by simp; omega) (fun s' h => fine_touch hal (h.trans hl) hi)
    hserved h

/-! ### A call -/

lemma served_of_ready {t i : ℕ} {is : List ℕ}
    (h : Ready M s (missing (next s) t (i :: is)) s.bmap) : Served M s t i := by
  intro hp
  rw [missing, next_eq_none.mpr hp] at h
  exact h.1

lemma served_of_fine (hM : FramesOk M) {rec : ℕ → ℕ → Paging → Option (Paging × List Event)}
    {touch : Paging → List Event} {t i : ℕ} {r : Paging × List Event}
    (h : newTable M rec touch t i s = some r) (hfine : ∀ e ∈ r.2, Fine M e) : Served M s t i := by
  intro hp
  rcases newTable_cases h with ⟨hp', -⟩ | ⟨-, q, -, -, htr⟩
  · exact absurd (hp.symm.trans hp') (by decide)
  · set u := (physPageAlloc M.fm s.bmap).1 with hu
    have hf := (hfine (.table s.bmap u) (by rw [htr]; simp)).2
    have hid := (hfine (.access { s with bmap := (physPageAlloc M.fm s.bmap).2 } u PAGE_SIZE)
      (by rw [htr]; simp)).1
    have hal := (hM.fm.mem_pages (alloc_mem hf)).1
    refine ⟨hf, ?_⟩
    -- The second byte of the frame has an address other than 0.
    have hone : findPhysaddr M s (u + 1) = u + 1 := hid 1 (by decide)
    rw [← hu] at hal
    unfold PAGE_SIZE at hal
    rcases hl : lookup M s (u + 1) with _ | f
    · rw [findPhysaddr_of_none hl] at hone
      omega
    · rw [findPhysaddr_of_lookup hl] at hone
      obtain rfl : f = u := by omega
      rw [← hl]
      exact lookup_congr (page_eq_of_div (by omega))

/-- A block uses up one frame if its entry is missing, and then so are the ones below. -/
lemma ready_block {s' : Paging} {π is : List ℕ} {t i x : ℕ} (hk : Kept M s s')
    (hc : Child M s s' π t i x) :
    Ready M s (missing (next s) t (i :: is)) s.bmap ↔
      Served M s t i ∧ Ready M s' (missing (next s') x is) s'.bmap := by
  rcases hp : present (s.frame t i) with _ | _
  · obtain ⟨hb, hempty⟩ := hc.new hp
    rw [missing, next_eq_none.mpr hp, missing_of_empty hempty, ready_congr hk.lookups, hb]
    exact and_congr_left fun _ => ⟨fun h _ => h, fun h => h hp⟩
  · obtain ⟨rfl, hn⟩ := hc.old hp
    rw [missing, hn]
    exact ⟨fun h => ⟨fun hp' => absurd (hp.symm.trans hp') (by decide), h⟩, fun h => h.2⟩

/-- The frames a call needs for the tables that its address lacks. -/
def ReadyFor (M : Machine) (s : Paging) (virt : ℕ) : Prop :=
  Ready M s (missing (next s) M.pml4 [pml4Idx virt, pdptIdx virt, pdIdx virt]) s.bmap

/-- A call finds frames and touches mapped bytes only exactly when it is ready. -/
lemma fine_iff_readyFor (hM : FramesOk M) (hs : Wf M s) (hid : IdMapped M s) {phys virt : ℕ}
    (hp : phys % PAGE_SIZE = 0) (hv : virt % PAGE_SIZE = 0) :
    (∀ e ∈ (mapPage M phys virt s).2, Fine M e) ↔ ReadyFor M s virt := by
  rcases mapPageFuel_cases (mapPageFuel_eq phys virt s) with ⟨hal, -⟩ |
    ⟨-, -, r₁, r₂, r₃, _, _, _, h₁, rfl, h₂, rfl, h₃, rfl, hr⟩
  · omega
  have hroot : ∀ s' : Paging, lookup M s' M.pml4 = lookup M s M.pml4 →
      ∀ e ∈ ([] : List Event), Fine M e := fun _ _ e he => by cases he
  rw [hr]
  unfold ReadyFor
  constructor
  · intro hfine
    simp only [List.mem_append] at hfine
    have hsv₁ := served_of_fine hM h₁ fun e he => hfine e (by simp [he])
    have hsv₂ := served_of_fine hM h₂ fun e he => hfine e (by simp [he])
    have hsv₃ := served_of_fine hM h₃ fun e he => hfine e (by simp [he])
    obtain ⟨hk₁, hc₁, -⟩ := block_fine hM hs hid (walk_nil _ _) (by simp) hroot hsv₁ h₁
    obtain ⟨hk₂, hc₂, -⟩ :=
      child_block_fine hM hk₁.wf hk₁.id (by simp) hc₁.walk (pdptIdx_lt virt) hsv₂ h₂
    obtain ⟨hk₃, hc₃, -⟩ :=
      child_block_fine hM hk₂.wf hk₂.id (by simp) hc₂.walk (pdIdx_lt virt) hsv₃ h₃
    rw [ready_block hk₁ hc₁, ready_block hk₂ hc₂, ready_block hk₃ hc₃]
    exact ⟨hsv₁, hsv₂, hsv₃, trivial⟩
  · intro hready
    obtain ⟨hk₁, hc₁, hf₁⟩ :=
      block_fine hM hs hid (walk_nil _ _) (by simp) hroot (served_of_ready hready) h₁
    have hready₁ := ((ready_block hk₁ hc₁).mp hready).2
    obtain ⟨hk₂, hc₂, hf₂⟩ := child_block_fine hM hk₁.wf hk₁.id (by simp) hc₁.walk
      (pdptIdx_lt virt) (served_of_ready hready₁) h₂
    have hready₂ := ((ready_block hk₂ hc₂).mp hready₁).2
    obtain ⟨hk₃, hc₃, hf₃⟩ := child_block_fine hM hk₂.wf hk₂.id (by simp) hc₂.walk
      (pdIdx_lt virt) (served_of_ready hready₂) h₃
    obtain ⟨hal₁, hl₁⟩ := child_mapped hM hk₁.wf hk₁.id (by simp) hc₁.walk
    obtain ⟨hal₂, hl₂⟩ := child_mapped hM hk₂.wf hk₂.id (by simp) hc₂.walk
    obtain ⟨hal₃, hl₃⟩ := child_mapped hM hk₃.wf hk₃.id (by simp) hc₃.walk
    intro e he
    simp only [List.mem_append] at he
    rcases he with ((((he | he) | he) | he) | he) | he
    · exact hf₁ e he
    · exact hf₂ e he
    · exact fine_touch hal₁ ((hk₂.lookups _).trans hl₁) (pdptIdx_lt virt) e he
    · exact hf₃ e he
    · exact fine_touch hal₂ ((hk₃.lookups _).trans hl₂) (pdIdx_lt virt) e he
    · exact fine_touch hal₃ hl₃ (ptIdx_lt virt) e he

/-! ### Runs -/

/-- What happens to the page tables and the bitmap after boot. -/
inductive Op
  | map (phys virt : ℕ)
  | alloc
  | free (addr : ℕ)

def op (M : Machine) : Op → Paging → Paging
  | .map phys virt, s => (mapPage M phys virt s).1
  | .alloc, s => afterAlloc M s
  | .free addr, s => { s with bmap := physPageFree M.fm addr s.bmap }

def runOps (M : Machine) : List Op → Paging → Paging
  | [], s => s
  | o :: os, s => runOps M os (op M o s)

/-- The operation keeps the tables in use and mapped to themselves: it does not run out of
frames, maps nothing else to the page of a table or of a free frame, and frees no table. -/
def Calm (M : Machine) : Op → Paging → Prop
  | .map phys virt, s =>
    (∀ e ∈ (mapPage M phys virt s).2, ¬ RanOut M.fm e) ∧
      ∀ t ∈ M.fm.pages, page t = page virt → phys = t ∨ DataFrame M s t
  | .alloc, _ => True
  | .free addr, s => ¬ IsPageTable M s addr

def CalmRun (M : Machine) : List Op → Paging → Prop
  | [], _ => True
  | o :: os, s => Calm M o s ∧ CalmRun M os (op M o s)

lemma calm_kept (hM : FramesOk M) (h48 : ∀ a ∈ M.fm.pages, a < 2 ^ 48) (hs : Wf M s)
    (hid : IdMapped M s) {o : Op} (ho : Calm M o s) : Wf M (op M o s) ∧ IdMapped M (op M o s) := by
  cases o with
  | map phys virt =>
    refine ⟨(mapPage_ext hM hs ho.1).wf, mapPage_idMapped hM h48 hs hid (fun t ht hp => ?_) ho.1⟩
    refine (ho.2 t ht hp).imp_right fun hd => ⟨hd.1, fun htab => hd.2 ⟨htab, ?_⟩⟩
    rintro rfl
    exact M.pml4_notMem ht
  | alloc => exact ⟨wf_afterAlloc hs, hid⟩
  | free addr => exact ⟨wf_free hM hs ho, hid⟩

lemma calmRun_kept (hM : FramesOk M) (h48 : ∀ a ∈ M.fm.pages, a < 2 ^ 48) (hs : Wf M s)
    (hid : IdMapped M s) {os : List Op} (hos : CalmRun M os s) :
    Wf M (runOps M os s) ∧ IdMapped M (runOps M os s) := by
  induction os generalizing s with
  | nil => exact ⟨hs, hid⟩
  | cons o os ih =>
    obtain ⟨hs', hid'⟩ := calm_kept hM h48 hs hid hos.1
    exact ih hs' hid' hos.2

/-- **The tables are touched through their mappings when no new one is needed.** In every
state that operations reach after boot, a call `map_page(phys, virt)` touches only bytes
that are mapped to themselves if the frames it takes for its tables are; and a call that
finds frames does so only then. -/
theorem accesses_mapped_iff (M : Machine) (hM : FramesOk M) (h48 : ∀ a ∈ M.fm.pages, a < 2 ^ 48)
    (b : BootInfo) (s : Paging) (hboot : ∀ e ∈ (initPaging M b s).2, ¬ RanOut M.fm e)
    (hav : ∀ c ∈ bootCalls b, ∀ a ∈ M.fm.pages, page c.2 ≠ page a)
    (os : List Op) (hos : CalmRun M os (initPaging M b s).1)
    (phys virt : ℕ) (hp : phys % PAGE_SIZE = 0) (hv : virt % PAGE_SIZE = 0) :
    let s' := runOps M os (initPaging M b s).1
    (ReadyFor M s' virt → ∀ e ∈ (mapPage M phys virt s').2, Identity M e) ∧
      ((∀ e ∈ (mapPage M phys virt s').2, ¬ RanOut M.fm e) →
        (∀ e ∈ (mapPage M phys virt s').2, Identity M e) → ReadyFor M s' virt) := by
  intro s'
  have hclear : ∀ i, (s.memset M.pml4).frame M.pml4 i = 0 := fun i => by
    rw [frame_memset, if_pos rfl]
  have hwf := (runCalls_ext hM (wf_of_clear hclear) hboot).wf
  have hid := runCalls_idMapped hM h48 (wf_of_clear hclear) (idMapped_of_clear hclear) hav hboot
  obtain ⟨hwf', hid'⟩ := calmRun_kept hM h48 hwf hid hos
  have h := fine_iff_readyFor hM hwf' hid' hp hv
  exact ⟨fun hr e he => (h.mpr hr e he).1, fun hno hall => h.mp fun e he => ⟨hall e he, hno e he⟩⟩

/-- A page of the kernel heap whose tables are there. -/
theorem accesses_mapped_iff_heap :
    let M := smallMachine 16 (by decide)
    let s' := runOps M [.alloc] (initPaging M smallBoot zeroed).1
    ∀ e ∈ (mapPage M 0x10c000 (kernelHeap + 0x5000) s').2, Identity M e := by
  have hmiss : missing (next (runOps (smallMachine 16 (by decide)) [.alloc]
      (initPaging (smallMachine 16 (by decide)) smallBoot zeroed).1))
      (smallMachine 16 (by decide)).pml4 [pml4Idx (kernelHeap + 0x5000),
        pdptIdx (kernelHeap + 0x5000), pdIdx (kernelHeap + 0x5000)] = 0 := by
    decide +kernel
  have h := accesses_mapped_iff (smallMachine 16 (by decide)) (framesOk_smallMachine (by decide))
    (by decide +kernel) smallBoot zeroed (by decide +kernel) (by decide +kernel) [.alloc]
    ⟨trivial, trivial⟩ 0x10c000 (kernelHeap + 0x5000) (by decide) (by decide)
  refine h.1 ?_
  rw [ReadyFor, hmiss]
  trivial

/-- Whether the first byte of an access is elsewhere. -/
def strays (M : Machine) : Event → Bool
  | .access s addr len => 0 < len && findPhysaddr M s addr != addr
  | _ => false

lemma not_identity_of_strays {e : Event} (h : strays M e = true) : ¬ Identity M e := by
  cases e with
  | access s addr len =>
    simp only [strays, Bool.and_eq_true, decide_eq_true_eq, bne_iff_ne] at h
    exact fun hid => h.2 (hid 0 h.1)
  | table | data => cases h

/-- The page at `0x400000` needs a new PT, which is cleared at an address that is not
mapped. -/
theorem accesses_mapped_iff_newTable :
    let M := smallMachine 16 (by decide)
    let s' := (initPaging M smallBoot zeroed).1
    let r := mapPage M 0x300000 0x400000 s'
    (∀ e ∈ (initPaging M smallBoot zeroed).2, ¬ RanOut M.fm e) ∧
      (∀ e ∈ r.2, ¬ RanOut M.fm e) ∧ taken r.2 = [0x10c000] ∧
      findPhysaddr M s' 0x10c000 = 0 ∧ ∃ e ∈ r.2, ¬ Identity M e := by
  have hstray : ∃ e ∈ (mapPage (smallMachine 16 (by decide)) 0x300000 0x400000
      (initPaging (smallMachine 16 (by decide)) smallBoot zeroed).1).2,
      strays (smallMachine 16 (by decide)) e = true := by
    decide +kernel
  obtain ⟨e, he, hs⟩ := hstray
  exact ⟨by decide +kernel, by decide +kernel, by decide +kernel, by decide +kernel,
    e, he, not_identity_of_strays hs⟩

end FlameOS.TableAccess
