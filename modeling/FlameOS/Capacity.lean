import FlameOS.AllocMap
import FlameOS.HeapSafety

/-!
How many frames are enough.

A table that `map_page` takes is linked at a place of its own on the way to an address: to one that
is to be mapped, or to a table, which is mapped to itself. So there are no more tables than such
places, however deep the calls nest, and with as many frames besides as the heaps ask for pages no
call ever runs out.
-/

namespace FlameOS.Capacity

open FlameOS.Word FlameOS.FrameAlloc FlameOS.Trie FlameOS.PageTable FlameOS.MapPage
open FlameOS.MapSpec FlameOS.MapRun FlameOS.HeapTable FlameOS.Heap FlameOS.Boot FlameOS.Backing
open FlameOS.AllocMap

lemma card_le_of_walks {T I : Type*} {next : T → I → Option T} {root : T} {nodes : Finset T}
    {B : Finset (List I)} (h : ∀ t ∈ nodes, ∃ π ∈ B, walk next root π = some t) :
    nodes.card ≤ B.card := by
  choose! π hπ using h
  refine Finset.card_le_card_of_injOn π (fun t ht => (hπ t ht).1) fun t ht u hu heq => ?_
  have hwalk := (hπ t ht).2
  rw [heq, (hπ u hu).2] at hwalk
  exact (Option.some.inj hwalk).symm

/-! ### Places for tables -/

def prefixes (v : ℕ) : Finset (List ℕ) :=
  {[pml4Idx v], [pml4Idx v, pdptIdx v], [pml4Idx v, pdptIdx v, pdIdx v]}

def slots (V : Finset ℕ) : Finset (List ℕ) := V.biUnion prefixes

/-- The tables are at places for the addresses `V`, and apart from them so few frames are in use
that `n` are left when there is a table at each place. -/
structure Room (M : Machine) (V : Finset ℕ) (n : ℕ) (s : Paging) : Prop where
  wf : Wf M s
  placed : ∀ π t, π ≠ [] → π.length ≤ 3 → walk (next s) M.pml4 π = some t → π ∈ slots V
  frames : ∃ D : Finset ℕ, (∀ a, InUse M.fm s.bmap a → IsTable M s a ∨ a ∈ D) ∧
    (slots V).card + D.card + n ≤ M.fm.pages.length

variable {M : Machine} {V : Finset ℕ} {n : ℕ} {s s' : Paging} {π : List ℕ} {t i v : ℕ}
  {new : List ℕ}

lemma prefixes_subset (hv : v ∈ V) : prefixes v ⊆ slots V := Finset.subset_biUnion_of_mem _ hv

lemma Room.mono {m : ℕ} (h : Room M V n s) (hmn : m ≤ n) : Room M V m s := by
  obtain ⟨D, hD, hcard⟩ := h.frames
  exact ⟨h.wf, h.placed, D, hD, by omega⟩

/-- With every page in use there are tables in all frames but the others. -/
lemma Room.card_of_allUsed (hM : FramesOk M) (h : Room M V n s) (hall : AllUsed M.fm s.bmap)
    {B : Finset (List ℕ)}
    (hB : ∀ π ∈ slots V, walk (next s) M.pml4 π ≠ none → π ∈ B) :
    ∃ D : Finset ℕ, M.fm.pages.length ≤ B.card + D.card ∧
      (slots V).card + D.card + n ≤ M.fm.pages.length := by
  obtain ⟨D, hD, hcard⟩ := h.frames
  refine ⟨D, ?_, hcard⟩
  have hwalks : ∀ a ∈ M.fm.pages.toFinset \ D, ∃ π ∈ B, walk (next s) M.pml4 π = some a := by
    intro a ha
    rw [Finset.mem_sdiff, List.mem_toFinset] at ha
    obtain ⟨k, hk⟩ := List.getElem?_of_mem ha.1
    have huse : InUse M.fm s.bmap a := ⟨k, hk, hall k (List.getElem?_eq_some_iff.mp hk).1⟩
    obtain ⟨π, hlen, hwalk⟩ := (hD a huse).resolve_right ha.2
    have hne : π ≠ [] := by
      rintro rfl
      exact M.pml4_notMem (Option.some.inj hwalk ▸ ha.1)
    exact ⟨π, hB π (h.placed π a hne hlen hwalk) (by rw [hwalk]; exact Option.some_ne_none a), hwalk⟩
  have hnodes := card_le_of_walks hwalks
  have hpages : M.fm.pages.toFinset.card = M.fm.pages.length :=
    List.toFinset_card_of_nodup hM.fm.nodup
  have hsdiff := Finset.le_card_sdiff D M.fm.pages.toFinset
  omega

lemma Room.table_free (hM : FramesOk M) (h : Room M V n s) (hπ : π ∈ slots V)
    (hnone : walk (next s) M.pml4 π = none) : ¬ AllUsed M.fm s.bmap := by
  intro hall
  obtain ⟨D, hle, hcard⟩ := h.card_of_allUsed hM hall (B := (slots V).erase π)
    fun ρ hρ hsome => Finset.mem_erase.mpr ⟨fun heq => hsome (heq ▸ hnone), hρ⟩
  have herase := Finset.card_erase_add_one hπ
  omega

lemma Room.data_free (hM : FramesOk M) (h : Room M V (n + 1) s) : ¬ AllUsed M.fm s.bmap := by
  intro hall
  obtain ⟨D, hle, hcard⟩ := h.card_of_allUsed hM hall (B := slots V) fun π hπ _ => hπ
  omega

lemma Room.ext (h : Room M V n s) (hext : Ext M s s' new)
    (hnew : ∀ u ∈ new, ∃ ρ ∈ slots V, ρ.length ≤ 3 ∧ walk (next s') M.pml4 ρ = some u) :
    Room M V n s' := by
  obtain ⟨D, hD, hcard⟩ := h.frames
  refine ⟨hext.wf, fun π t hne hlen hwalk => ?_, D, fun a ha => ?_, hcard⟩
  · -- the way to a table is the only one
    rcases (hext.tables t).mp ⟨π, hlen, hwalk⟩ with ⟨σ, hσ, hold⟩ | hmem
    · obtain rfl := hext.wf.shaped π σ hlen hσ t hwalk (hext.walks σ t hσ hold)
      exact h.placed π t hne hlen hold
    · obtain ⟨ρ, hρ, hρlen, hρwalk⟩ := hnew t hmem
      rwa [hext.wf.shaped π ρ hlen hρlen t hwalk hρwalk]
  · rcases (hext.inUse a).mp ha with hold | hmem
    · exact (hD a hold).imp_left fun htable => (hext.tables a).mpr (Or.inl htable)
    · exact Or.inl ((hext.tables a).mpr (Or.inr hmem))

/-! ### `map_page` -/

/-- The recursive call keeps the room and does not run out. -/
def Keeps (M : Machine) (V : Finset ℕ) (n : ℕ)
    (rec : ℕ → ℕ → Paging → Option (Paging × List Event)) : Prop :=
  ∀ {phys virt : ℕ} {s : Paging} {r : Paging × List Event}, Room M V n s → virt ∈ V →
    rec phys virt s = some r → (∀ e ∈ r.2, ¬ RanOut M.fm e) ∧ Room M V n r.1

lemma newTable_room {rec : ℕ → ℕ → Paging → Option (Paging × List Event)}
    {touch : Paging → List Event} {r : Paging × List Event} (hM : FramesOk M)
    (hV : ∀ a ∈ M.fm.pages, a ∈ V) (hrec : Keeps M V n rec)
    (htouch : ∀ s, ∀ e ∈ touch s, ¬ RanOut M.fm e) (h : Room M V n s)
    (hπ : walk (next s) M.pml4 π = some t) (hd : π.length < 3) (hslot : π ++ [i] ∈ slots V)
    (hr : newTable M rec touch t i s = some r) :
    (∀ e ∈ r.2, ¬ RanOut M.fm e) ∧ Room M V n r.1 := by
  rcases newTable_cases hr with ⟨-, rfl⟩ | ⟨hp, q, hq, hq1, htrace⟩
  · exact ⟨htouch s, h⟩
  · have hnone : walk (next s) M.pml4 (π ++ [i]) = none := by
      rw [walk_snoc, hπ, Option.bind_some]
      exact next_eq_none.mpr hp
    have hfree := h.table_free hM hslot hnone
    obtain ⟨hext, hwalk, -⟩ := ext_linked hM h.wf hfree hπ hd hp
    have hlinked : Room M V n (linked M s t i) := by
      refine h.ext hext fun u hu => ?_
      obtain rfl := List.mem_singleton.mp hu
      refine ⟨π ++ [i], hslot, ?_, hwalk⟩
      rw [List.length_append, List.length_singleton]
      exact hd
    obtain ⟨hnested, hroom⟩ := hrec hlinked (hV _ (alloc_mem hfree)) hq
    rw [hq1]
    refine ⟨fun e he => ?_, hroom⟩
    rw [htrace] at he
    simp only [List.mem_append, List.mem_cons] at he
    rcases he with (he | rfl | rfl | he) | he
    · exact htouch s e he
    · exact hfree
    · exact id
    · exact htouch _ e he
    · exact hnested e he

/-- The last store of a call links no table. -/
lemma Room.store {phys virt pt : ℕ} (h : Room M V n s)
    (hpt : walk (next s) M.pml4 [pml4Idx virt, pdptIdx virt, pdIdx virt] = some pt) :
    Room M V n (s.write pt (ptIdx virt) (mkEntry phys)) :=
  h.ext ((Grow.refl h.wf).store hpt).toExt fun _ hu => absurd hu List.not_mem_nil

/-- **A call of `map_page`** keeps the room, by induction on the nesting. -/
lemma mapPageFuel_room (hM : FramesOk M) (hV : ∀ a ∈ M.fm.pages, a ∈ V) (fuel : ℕ) :
    Keeps M V n (mapPageFuel M fuel) := by
  induction fuel with
  | zero =>
    intro phys virt s r _ _ hr
    cases hr
  | succ fuel ih =>
    intro phys virt s r h hv hr
    rcases mapPageFuel_cases hr with ⟨-, rfl⟩ |
      ⟨-, -, r₁, r₂, r₃, pdpt, pd, pt, h₁, rfl, h₂, rfl, h₃, rfl, rfl⟩
    · exact ⟨fun e he => absurd he List.not_mem_nil, h⟩
    · have hsound : MapSpec.Sound M (mapPageFuel M fuel) := mapPageFuel_mapped hM fuel
      have hslots := prefixes_subset hv
      obtain ⟨hno₁, hroom₁⟩ := newTable_room (π := []) hM hV ih
        (fun _ e he => absurd he List.not_mem_nil) h rfl (by simp)
        (hslots (by simp [prefixes])) h₁
      obtain ⟨-, hw₁⟩ := newTable_grow (π := []) hM hsound (fun _ => rfl) h.wf rfl (by simp) h₁ hno₁
      obtain ⟨hno₂, hroom₂⟩ := newTable_room hM hV ih (touchEntry_fine _ _) hroom₁ hw₁ (by simp)
        (hslots (by simp [prefixes])) h₂
      obtain ⟨-, hw₂⟩ := newTable_grow hM hsound (taken_touchEntry _ _) hroom₁.wf hw₁ (by simp)
        h₂ hno₂
      obtain ⟨hno₃, hroom₃⟩ := newTable_room hM hV ih (touchEntry_fine _ _) hroom₂ hw₂ (by simp)
        (hslots (by simp [prefixes])) h₃
      obtain ⟨-, hw₃⟩ := newTable_grow hM hsound (taken_touchEntry _ _) hroom₂.wf hw₂ (by simp)
        h₃ hno₃
      refine ⟨fun e he => ?_, hroom₃.store hw₃⟩
      simp only [List.mem_append] at he
      rcases he with ((((he | he) | he) | he) | he) | he
      · exact hno₁ e he
      · exact hno₂ e he
      · exact touchEntry_fine _ _ _ e he
      · exact hno₃ e he
      · exact touchEntry_fine _ _ _ e he
      · exact touchEntry_fine _ _ _ e he

lemma mapPage_room (hM : FramesOk M) (hV : ∀ a ∈ M.fm.pages, a ∈ V) {virt : ℕ}
    (h : Room M V n s) (hv : virt ∈ V) (phys : ℕ) :
    (∀ e ∈ (mapPage M phys virt s).2, ¬ RanOut M.fm e) ∧ Room M V n (mapPage M phys virt s).1 :=
  mapPageFuel_room hM hV _ h hv (mapPageFuel_eq phys virt s)

lemma runCalls_room (hM : FramesOk M) (hV : ∀ a ∈ M.fm.pages, a ∈ V) {calls : List (ℕ × ℕ)}
    (h : Room M V n s) (hcalls : ∀ c ∈ calls, c.2 ∈ V) :
    (∀ e ∈ (runCalls M calls s).2, ¬ RanOut M.fm e) ∧ Room M V n (runCalls M calls s).1 := by
  induction calls generalizing s with
  | nil => exact ⟨fun e he => absurd he List.not_mem_nil, h⟩
  | cons c cs ih =>
    obtain ⟨phys, virt⟩ := c
    obtain ⟨hv, hcs⟩ := List.forall_mem_cons.mp hcalls
    obtain ⟨hno, hroom⟩ := mapPage_room hM hV h hv phys
    obtain ⟨hno', hroom'⟩ := ih hroom hcs
    exact ⟨List.forall_mem_append.mpr ⟨hno, hno'⟩, hroom'⟩

/-! ### The pages of the blocks -/

/-- The addresses among `P` that translate to nothing. -/
def unmapped (M : Machine) (P : Finset ℕ) (s : Paging) : Finset ℕ :=
  P.filter fun v => findPhysaddr M s v = 0

/-- The turns of the mapping loop at addresses that `map_page` ignores. -/
def leaks (vs : List ℕ) : ℕ := vs.countP fun v => v % PAGE_SIZE ≠ 0

variable {P : Finset ℕ}

lemma unmapped_subset (h : ∀ w, Backed M s w → Backed M s' w) :
    unmapped M P s' ⊆ unmapped M P s := by
  intro w hw
  obtain ⟨hP, hzero⟩ := Finset.mem_filter.mp hw
  refine Finset.mem_filter.mpr ⟨hP, ?_⟩
  by_contra hne
  exact h w hne hzero

/-- A frame that is taken for a page takes up room for data. -/
lemma Room.afterAlloc (hM : FramesOk M) (h : Room M V (n + 1) s) :
    Room M V n (afterAlloc M s) := by
  have hfree := h.data_free hM
  obtain ⟨D, hD, hcard⟩ := h.frames
  refine ⟨wf_afterAlloc h.wf, h.placed, insert (physPageAlloc M.fm s.bmap).1 D, fun a ha => ?_, ?_⟩
  · rcases (inUse_alloc hfree a).mp ha with hold | rfl
    · exact (hD a hold).imp_right Finset.mem_insert_of_mem
    · exact Or.inr (Finset.mem_insert_self _ _)
  · have := Finset.card_insert_le (physPageAlloc M.fm s.bmap).1 D
    omega

/-- **A turn of the mapping loop** takes a frame for a page that has none, which then has one, or
at an address that is ignored. -/
lemma mapMissing_room (hM : FramesOk M) (h0 : 0 ∉ M.fm.pages) (hV : ∀ a ∈ M.fm.pages, a ∈ V)
    (h : Room M V ((unmapped M P s).card + leaks [v] + n) s) (hv : v ∈ V)
    (hP : v % PAGE_SIZE = 0 → v ∈ P) :
    (∀ e ∈ (mapMissing M v s).2, ¬ RanOut M.fm e) ∧
      Room M V ((unmapped M P (mapMissing M v s).1).card + n) (mapMissing M v s).1 := by
  by_cases hf : findPhysaddr M s v = 0
  · have hmem : v % PAGE_SIZE = 0 → v ∈ unmapped M P s := fun hal =>
      Finset.mem_filter.mpr ⟨hP hal, hf⟩
    have hleak : v % PAGE_SIZE ≠ 0 → leaks [v] = 1 := fun hal => by simp [leaks, hal]
    obtain ⟨k, hk⟩ : ∃ k, (unmapped M P s).card + leaks [v] + n = k + 1 := by
      refine Nat.exists_eq_succ_of_ne_zero ?_
      by_cases hal : v % PAGE_SIZE = 0
      · have := Finset.card_pos.mpr ⟨v, hmem hal⟩
        omega
      · have := hleak hal
        omega
    rw [hk] at h
    obtain ⟨hnested, hroom⟩ := mapPage_room hM hV (h.afterAlloc hM) hv
      (physPageAlloc M.fm s.bmap).1
    have hno : ∀ e ∈ (mapMissing M v s).2, ¬ RanOut M.fm e := by
      rw [mapMissing_unmapped hf]
      exact List.forall_mem_cons.mpr ⟨h.data_free hM, hnested⟩
    have hroom' : Room M V k (mapMissing M v s).1 := by
      rwa [mapMissing_unmapped hf]
    have hsub : unmapped M P (mapMissing M v s).1 ⊆ unmapped M P s :=
      unmapped_subset fun w => mapMissing_backed hM h0 h.wf hno
    refine ⟨hno, hroom'.mono ?_⟩
    by_cases hal : v % PAGE_SIZE = 0
    · -- the page has a frame now
      have hself : v ∉ unmapped M P (mapMissing M v s).1 := fun hm =>
        mapMissing_self hM h0 h.wf hal hno rfl (Finset.mem_filter.mp hm).2
      have hlt := Finset.card_lt_card ((Finset.ssubset_iff_of_subset hsub).mpr ⟨v, hmem hal, hself⟩)
      omega
    · have hle := Finset.card_le_card hsub
      have := hleak hal
      omega
  · rw [mapMissing_mapped hf]
    exact ⟨fun e he => absurd he List.not_mem_nil, h.mono (by dsimp only; omega)⟩

lemma mapEach_room (hM : FramesOk M) (h0 : 0 ∉ M.fm.pages) (hV : ∀ a ∈ M.fm.pages, a ∈ V)
    {vs : List ℕ} (h : Room M V ((unmapped M P s).card + leaks vs + n) s)
    (hvs : ∀ v ∈ vs, v ∈ V ∧ (v % PAGE_SIZE = 0 → v ∈ P)) :
    (∀ e ∈ (mapEach M vs s).2, ¬ RanOut M.fm e) ∧
      Room M V ((unmapped M P (mapEach M vs s).1).card + n) (mapEach M vs s).1 := by
  induction vs generalizing s with
  | nil => exact ⟨fun e he => absurd he List.not_mem_nil, h⟩
  | cons v vs ih =>
    obtain ⟨hv, hvs⟩ := List.forall_mem_cons.mp hvs
    have hsplit : leaks ([v] ++ vs) = leaks [v] + leaks vs := List.countP_append
    rw [← List.singleton_append, hsplit, ← Nat.add_assoc, Nat.add_assoc _ (leaks vs)] at h
    obtain ⟨hno, hroom⟩ := mapMissing_room hM h0 hV h hv.1 hv.2
    rw [← Nat.add_assoc] at hroom
    obtain ⟨hno', hroom'⟩ := ih hroom hvs
    exact ⟨List.forall_mem_append.mpr ⟨hno, hno'⟩, hroom'⟩

lemma Room.releaseEach (hM : FramesOk M) {vs : List ℕ} (h : Room M V n s)
    (hvs : ∀ v ∈ vs, ¬ IsPageTable M s (findPhysaddr M s v)) :
    Room M V n (releaseEach M vs s) := by
  obtain ⟨D, hD, hcard⟩ := h.frames
  refine ⟨wf_releaseEach hM h.wf hvs, fun π t hne hlen hwalk => ?_, D, fun a ha => ?_, hcard⟩
  · refine h.placed π t hne hlen ?_
    unfold next at hwalk ⊢
    rwa [frame_releaseEach] at hwalk
  · rw [isTable_releaseEach]
    exact hD a ((inUse_releaseEach hM).mp ha).1

lemma unmapped_releaseEach (vs : List ℕ) :
    unmapped M P (releaseEach M vs s) = unmapped M P s := by
  ext w
  unfold unmapped
  rw [Finset.mem_filter, Finset.mem_filter, findPhysaddr_congr (lookup_releaseEach vs s w)]

/-! ### Runs -/

def visits : Call → Tables → List ℕ
  | .malloc size heap, t =>
    match takeBlock size heap t with
    | (none, _) => []
    | (some addr, _) => pageAddrs addr size
  | .free _, _ => []

def visited (M : Machine) : List Call → State → List ℕ
  | [], _ => []
  | c :: cs, st => visits c st.tables ++ visited M cs (call M c st)

/-- A call `free` releases no frame in use as a page table. -/
def FreesData (M : Machine) : Call → State → Prop
  | .malloc _ _, _ => True
  | .free addr, st =>
    ∀ v ∈ freedAddrs addr st.tables, ¬ IsPageTable M st.paging (findPhysaddr M st.paging v)

/-- **A call** with room for its pages does not run out. -/
lemma call_room (hM : FramesOk M) (h0 : 0 ∉ M.fm.pages) (hV : ∀ a ∈ M.fm.pages, a ∈ V) {c : Call}
    {st : State} (hfree : FreesData M c st)
    (hvs : ∀ v ∈ visits c st.tables, v ∈ V ∧ (v % PAGE_SIZE = 0 → v ∈ P))
    (h : Room M V ((unmapped M P st.paging).card + leaks (visits c st.tables) + n) st.paging) :
    KeepsTables M c st ∧
      Room M V ((unmapped M P (call M c st).paging).card + n) (call M c st).paging := by
  cases c with
  | malloc size heap =>
    rw [visits] at hvs h
    rw [KeepsTables, Heap.call]
    rcases ht : takeBlock size heap st.tables with ⟨_ | addr, t⟩
    · rw [mallocHeap_none ht]
      rw [ht] at h
      exact ⟨fun e he => absurd he List.not_mem_nil, h⟩
    · rw [mallocHeap_some ht, trace_block, paging_block]
      rw [ht] at hvs h
      exact mapEach_room hM h0 hV h hvs
  | free addr =>
    rw [KeepsTables, Heap.call, free_eq]
    dsimp only
    rw [unmapped_releaseEach]
    refine ⟨hfree, (h.releaseEach hM hfree).mono ?_⟩
    rw [visits, leaks, List.countP_nil, Nat.add_zero]

lemma guarded_of_room (hM : FramesOk M) (h0 : 0 ∉ M.fm.pages) (hV : ∀ a ∈ M.fm.pages, a ∈ V)
    {cs : List Call} {st : State} (hfree : Guarded M (FreesData M) cs st)
    (hvs : ∀ v ∈ visited M cs st, v ∈ V ∧ (v % PAGE_SIZE = 0 → v ∈ P))
    (h : Room M V ((unmapped M P st.paging).card + leaks (visited M cs st)) st.paging) :
    Guarded M (KeepsTables M) cs st := by
  induction cs generalizing st with
  | nil => exact trivial
  | cons c cs ih =>
    obtain ⟨hvs₁, hvs₂⟩ := List.forall_mem_append.mp hvs
    have hsplit : leaks (visited M (c :: cs) st) =
        leaks (visits c st.tables) + leaks (visited M cs (call M c st)) := List.countP_append
    rw [hsplit, ← Nat.add_assoc] at h
    obtain ⟨hkeeps, hroom⟩ := call_room hM h0 hV hfree.1 hvs₁ h
    exact ⟨hkeeps, ih hfree.2 hvs₂ hroom⟩

lemma room_of_clear (h : ∀ i, s.frame M.pml4 i = 0) (hb : ∀ i, s.bmap i = 0)
    (hn : (slots V).card + n ≤ M.fm.pages.length) : Room M V n s := by
  refine ⟨wf_of_clear h, fun π t hne _ hwalk => ?_, ∅, ?_, by rwa [Finset.card_empty]⟩
  · cases π with
    | nil => exact absurd rfl hne
    | cons i π => simp [walk, List.foldlM_cons, next, h] at hwalk
  · rintro a ⟨k, -, hu⟩
    rw [funext hb, used, WordSet.mem_zero] at hu
    cases hu

lemma initMemory_wf (hM : FramesOk M) {b : BootInfo}
    (hno : ∀ e ∈ (initPaging M b s).2, ¬ RanOut M.fm e) : Wf M (initMemory M b s).paging :=
  HeapSafety.initPaging_wf hM hno

end FlameOS.Capacity
