import FlameOS.TableAccess

/-!
`alloc_and_map`: the frames it maps are fresh.

Every turn of its loop takes one frame for the page and then some for the tables that the page
lacks. What no turn does is to take a frame that is in use, so that the pages keep their frames
and the tables stay apart from them.
-/

namespace FlameOS.AllocMap

open FlameOS.Word FlameOS.FrameAlloc FlameOS.PageTable FlameOS.MapPage FlameOS.MapSpec
open FlameOS.MapRun FlameOS.Boot FlameOS.Backing FlameOS.TableAccess

variable {M : Machine} {s : Paging}

def allocAndMap (M : Machine) : ℕ → ℕ → Paging → Paging × List Event
  | _, 0, s => (s, [])
  | virt, pages + 1, s =>
    let page := (physPageAlloc M.fm s.bmap).1
    let r := mapPage M page virt (afterAlloc M s)
    let rest := allocAndMap M (add64 virt PAGE_SIZE) pages r.1
    (rest.1, .data s.bmap page :: (r.2 ++ rest.2))

/-! ### Running out -/

lemma used_mapPage {phys virt k : ℕ} (hk : used s.bmap k = true) :
    used (mapPage M phys virt s).1.bmap k = true :=
  used_mapPageFuel (mapPageFuel_eq phys virt s) hk

/-- A block that ran out of frames leaves none. -/
lemma newTable_allUsed {fuel t i : ℕ} {touch : Paging → List Event} {r : Paging × List Event}
    (htouch : ∀ s, ∀ e ∈ touch s, ¬ RanOut M.fm e)
    (hrec : ∀ {phys virt : ℕ} {s : Paging} {r : Paging × List Event},
      mapPageFuel M fuel phys virt s = some r → ∀ e ∈ r.2, RanOut M.fm e → AllUsed M.fm r.1.bmap)
    (h : newTable M (mapPageFuel M fuel) touch t i s = some r) {e : Event} (he : e ∈ r.2)
    (hout : RanOut M.fm e) : AllUsed M.fm r.1.bmap := by
  rcases newTable_cases h with ⟨-, rfl⟩ | ⟨-, q, hq, hr, htr⟩
  · exact absurd hout (htouch s e he)
  · rw [hr]
    rw [htr] at he
    simp only [List.mem_append, List.mem_cons] at he
    rcases he with (he | rfl | rfl | he) | he
    · exact absurd hout (htouch s e he)
    · exact fun k hk => used_mapPageFuel hq (used_alloc (hout k hk))
    · exact hout.elim
    · exact absurd hout (htouch _ e he)
    · exact hrec hq e he hout

lemma touchEntry_fine (t i : ℕ) (s : Paging) : ∀ e ∈ touchEntry t i s, ¬ RanOut M.fm e := by
  intro e he
  obtain rfl := List.mem_singleton.mp he
  exact id

lemma mapPageFuel_allUsed (fuel : ℕ) {phys virt : ℕ} {r : Paging × List Event}
    (h : mapPageFuel M fuel phys virt s = some r) (e : Event) (he : e ∈ r.2)
    (hout : RanOut M.fm e) : AllUsed M.fm r.1.bmap := by
  induction fuel generalizing phys virt s r e with
  | zero => cases h
  | succ fuel ih =>
    rcases mapPageFuel_cases h with ⟨-, rfl⟩ |
      ⟨-, -, r₁, r₂, r₃, pdpt, pd, pt, h₁, -, h₂, -, h₃, -, rfl⟩
    · exact absurd he List.not_mem_nil
    · have hall₂ : AllUsed M.fm r₂.1.bmap → AllUsed M.fm r₃.1.bmap := fun hall k hk =>
        used_newTable used_mapPageFuel h₃ (hall k hk)
      have hall₁ : AllUsed M.fm r₁.1.bmap → AllUsed M.fm r₂.1.bmap := fun hall k hk =>
        used_newTable used_mapPageFuel h₂ (hall k hk)
      simp only [List.mem_append] at he
      dsimp only
      rw [bmap_write]
      rcases he with ((((he | he) | he) | he) | he) | he
      · exact hall₂ (hall₁
          (newTable_allUsed (fun _ e he => absurd he List.not_mem_nil) ih h₁ he hout))
      · exact hall₂ (newTable_allUsed (touchEntry_fine _ _) ih h₂ he hout)
      · exact absurd hout (touchEntry_fine _ _ _ e he)
      · exact newTable_allUsed (touchEntry_fine _ _) ih h₃ he hout
      · exact absurd hout (touchEntry_fine _ _ _ e he)
      · exact absurd hout (touchEntry_fine _ _ _ e he)

lemma mapPage_allUsed {phys virt : ℕ} {e : Event} (he : e ∈ (mapPage M phys virt s).2)
    (hout : RanOut M.fm e) : AllUsed M.fm (mapPage M phys virt s).1.bmap :=
  mapPageFuel_allUsed _ (mapPageFuel_eq phys virt s) e he hout

/-! ### What is mapped to the frames -/

/-- A space of tables in use in which a frame of the freemap has its own page mapped only if it
is a table. -/
structure Settled (M : Machine) (s : Paging) : Prop where
  wf : Wf M s
  own : ∀ w, lookup M s w ≠ none → ∀ a ∈ M.fm.pages, page w = page a → IsTable M s a

lemma settled_of_clear (h : ∀ i, s.frame M.pml4 i = 0) : Settled M s :=
  ⟨wf_of_clear h, fun w hw => absurd (lookup_of_clear h w) hw⟩

lemma settled_afterAlloc (h : Settled M s) : Settled M (afterAlloc M s) :=
  ⟨wf_afterAlloc h.wf, h.own⟩

lemma not_isTable_of_free {a : ℕ} (hs : Wf M s) (ha : a ∈ M.fm.pages)
    (hfree : ¬ InUse M.fm s.bmap a) : ¬ IsTable M s a := fun ht =>
  (hs.inUse a ht).elim (fun h4 => M.pml4_notMem (h4 ▸ ha)) hfree

lemma Settled.mapped (hM : FramesOk M) (h48 : ∀ a ∈ M.fm.pages, a < 2 ^ 48) {phys virt : ℕ}
    {s' : Paging} {new : List ℕ} (h : Settled M s) (hm : Mapped M phys virt s s' new)
    (hav : ∀ a ∈ M.fm.pages, page virt ≠ page a) : Settled M s' := by
  refine ⟨hm.wf, fun w hw a ha hwa => ?_⟩
  have hne : page w ≠ page virt := fun he => hav a ha (he.symm.trans hwa)
  rcases hm.lookups w hne with hl | ⟨t, ht, hwt, -⟩
  · exact (hm.tables a).mpr (Or.inl (h.own w (hl ▸ hw) a ha hwa))
  · obtain rfl := page_inj hM h48 ha (hm.fresh t ht).1 (hwa.symm.trans hwt)
    exact (hm.tables a).mpr (Or.inr ht)

lemma Settled.lookup_mapped {phys virt w : ℕ} {s' : Paging} {new : List ℕ} (h : Settled M s)
    (hm : Mapped M phys virt s s' new) (hw : lookup M s w ≠ none) (hne : page w ≠ page virt) : lookup M s' w = lookup M s w := by
  rcases hm.lookups w hne with hl | ⟨t, ht, hwt, -⟩
  · exact hl
  · obtain ⟨hmem, hfree⟩ := hm.fresh t ht
    exact absurd (h.own w hw t hmem hwt) (not_isTable_of_free h.wf hmem hfree)

/-! ### The states -/

/-- The operation is one of `map_page` and `phys_page_alloc`, and maps no page of the freemap. -/
def Plain (M : Machine) : Op → Prop
  | .map phys virt => phys % PAGE_SIZE = 0 → virt % PAGE_SIZE = 0 →
      ∀ a ∈ M.fm.pages, page virt ≠ page a
  | .alloc => True
  | .free _ => False

lemma op_settled (hM : FramesOk M) (h48 : ∀ a ∈ M.fm.pages, a < 2 ^ 48)
    (h : Settled M s ∨ AllUsed M.fm s.bmap) {o : Op} (ho : Plain M o) :
    Settled M (op M o s) ∨ AllUsed M.fm (op M o s).bmap := by
  rcases h with h | hall
  · cases o with
    | map phys virt =>
      by_cases hal : phys % PAGE_SIZE ≠ 0 ∨ virt % PAGE_SIZE ≠ 0
      · rw [op, mapPage_unaligned hal]
        exact Or.inl h
      · rw [not_or, not_not, not_not] at hal
        by_cases hno : ∀ e ∈ (mapPage M phys virt s).2, ¬ RanOut M.fm e
        · exact Or.inl (h.mapped hM h48 (mapPage_mapped hM h.wf hal.1 hal.2 hno)
            (ho hal.1 hal.2))
        · push Not at hno
          obtain ⟨e, he, hout⟩ := hno
          exact Or.inr (mapPage_allUsed he hout)
    | alloc => exact Or.inl (settled_afterAlloc h)
    | free a => exact ho.elim
  · refine Or.inr fun k hk => ?_
    cases o with
    | map phys virt => exact used_mapPage (hall k hk)
    | alloc => exact used_alloc (hall k hk)
    | free a => exact ho.elim

lemma runOps_settled (hM : FramesOk M) (h48 : ∀ a ∈ M.fm.pages, a < 2 ^ 48)
    (h : Settled M s ∨ AllUsed M.fm s.bmap) {os : List Op} (hos : ∀ o ∈ os, Plain M o) :
    Settled M (runOps M os s) ∨ AllUsed M.fm (runOps M os s).bmap := by
  induction os generalizing s with
  | nil => exact h
  | cons o os ih =>
    obtain ⟨ho, hos⟩ := List.forall_mem_cons.mp hos
    exact ih (op_settled hM h48 h ho) hos

/-! ### One turn -/

/-- What a turn of `alloc_and_map` that finds frames does: the page of `virt` gets the frame `u`,
which is free and becomes a data frame, and no other page that is mapped changes. -/
structure Turned (M : Machine) (virt u : ℕ) (s s' : Paging) : Prop where
  settled : Settled M s'
  mem : u ∈ M.fm.pages
  free : ¬ InUse M.fm s.bmap u
  inUse : InUse M.fm s'.bmap u
  data : ¬ IsTable M s' u
  self : lookup M s' virt = some u
  others : ∀ w, lookup M s w ≠ none → page w ≠ page virt → lookup M s' w = lookup M s w
  keeps : ∀ a, InUse M.fm s.bmap a → InUse M.fm s'.bmap a
  tables : ∀ a, InUse M.fm s.bmap a → IsTable M s' a → IsTable M s a

lemma turned (hM : FramesOk M) (h48 : ∀ a ∈ M.fm.pages, a < 2 ^ 48) {virt : ℕ} (h : Settled M s)
    (hv : virt % PAGE_SIZE = 0)
    (hav : ∀ a ∈ M.fm.pages, page virt ≠ page a) (hf : ¬ AllUsed M.fm s.bmap)
    (hno : ∀ e ∈ (mapPage M (physPageAlloc M.fm s.bmap).1 virt (afterAlloc M s)).2,
      ¬ RanOut M.fm e) :
    Turned M virt (physPageAlloc M.fm s.bmap).1 s
      (mapPage M (physPageAlloc M.fm s.bmap).1 virt (afterAlloc M s)).1 := by
  set u := (physPageAlloc M.fm s.bmap).1 with hu
  have hmem : u ∈ M.fm.pages := alloc_mem hf
  have hfree : ¬ InUse M.fm s.bmap u := not_inUse_alloc hM.fm hf
  have hafter : ∀ a, InUse M.fm (afterAlloc M s).bmap a ↔ InUse M.fm s.bmap a ∨ a = u :=
    inUse_alloc hf
  have h₁ := settled_afterAlloc h
  have hm := mapPage_mapped hM h₁.wf (hM.fm.mem_pages hmem).1 hv hno
  refine ⟨h₁.mapped hM h48 hm hav, hmem, hfree, ?_, ?_, ?_, fun w hw hne => ?_, fun a ha => ?_,
    fun a ha ht => ?_⟩
  · exact (hm.inUse u).mpr (Or.inl ((hafter u).mpr (Or.inr rfl)))
  · rw [hm.tables, isTable_afterAlloc, not_or]
    exact ⟨not_isTable_of_free h.wf hmem hfree,
      fun hnew => (hm.fresh u hnew).2 ((hafter u).mpr (Or.inr rfl))⟩
  · rw [hm.self, alloc_and_mask hM hf]
  · exact h₁.lookup_mapped hm hw hne
  · exact (hm.inUse a).mpr (Or.inl ((hafter a).mpr (Or.inl ha)))
  · exact ((hm.tables a).mp ht).resolve_right fun hnew =>
      (hm.fresh a hnew).2 ((hafter a).mpr (Or.inl ha))

/-! ### The loop -/

/-- What `n` turns from `virt` on do, the page number `i` getting the frame `frame i`. -/
structure Filled (M : Machine) (virt n : ℕ) (frame : ℕ → ℕ) (s s' : Paging) : Prop where
  mapped : ∀ i < n, lookup M s' (virt + i * PAGE_SIZE) = some (frame i)
  fresh : ∀ i < n, frame i ∈ M.fm.pages ∧ ¬ InUse M.fm s.bmap (frame i)
  data : ∀ i < n, InUse M.fm s'.bmap (frame i) ∧ ¬ IsTable M s' (frame i)
  distinct : ∀ i < n, ∀ j < n, frame i = frame j → i = j
  others : ∀ w, lookup M s w ≠ none → (∀ i < n, page w ≠ page (virt + i * PAGE_SIZE)) →
    lookup M s' w = lookup M s w
  keeps : ∀ a, InUse M.fm s.bmap a → InUse M.fm s'.bmap a
  tables : ∀ a, InUse M.fm s.bmap a → IsTable M s' a → IsTable M s a

lemma Filled.nil (virt : ℕ) (frame : ℕ → ℕ) (s : Paging) : Filled M virt 0 frame s s where
  mapped i hi := absurd hi (Nat.not_lt_zero i)
  fresh i hi := absurd hi (Nat.not_lt_zero i)
  data i hi := absurd hi (Nat.not_lt_zero i)
  distinct i hi := absurd hi (Nat.not_lt_zero i)
  others _ _ _ := rfl
  keeps _ ha := ha
  tables _ _ ht := ht

/-- The frames of a turn and of the turns behind it. -/
def consFrame (u : ℕ) (frame : ℕ → ℕ) : ℕ → ℕ
  | 0 => u
  | i + 1 => frame i

lemma Turned.cons {virt u n : ℕ} {frame : ℕ → ℕ} {s₁ s' : Paging} (ht : Turned M virt u s s₁)
    (hf : Filled M (add64 virt PAGE_SIZE) n frame s₁ s') (hn : n < 2 ^ 36) :
    Filled M virt (n + 1) (consFrame u frame) s s' := by
  have hlook : ∀ {t : Paging} (i : ℕ), lookup M t (add64 virt PAGE_SIZE + i * PAGE_SIZE) =
      lookup M t (virt + (i + 1) * PAGE_SIZE) := fun i => lookup_congr (page_add64 virt i)
  have hzero : virt + 0 * PAGE_SIZE = virt := by rw [Nat.zero_mul, Nat.add_zero]
  constructor
  case mapped =>
    rintro (_ | i) hi
    · rw [hzero, consFrame]
      refine (hf.others virt (by rw [ht.self]; exact Option.some_ne_none _) fun i hi' => ?_).trans
        ht.self
      rw [page_add64, ← hzero]
      exact page_ne_of_lt (Nat.succ_pos i) (by omega)
    · rw [← hlook]
      exact hf.mapped i (Nat.lt_of_succ_lt_succ hi)
  case fresh =>
    rintro (_ | i) hi
    · exact ⟨ht.mem, ht.free⟩
    · obtain ⟨hmem, hfree⟩ := hf.fresh i (Nat.lt_of_succ_lt_succ hi)
      exact ⟨hmem, fun hin => hfree (ht.keeps _ hin)⟩
  case data =>
    rintro (_ | i) hi
    · exact ⟨hf.keeps u ht.inUse, fun htab => ht.data (hf.tables u ht.inUse htab)⟩
    · exact hf.data i (Nat.lt_of_succ_lt_succ hi)
  case distinct =>
    have hne : ∀ i < n, u ≠ frame i := fun i hi he => (hf.fresh i hi).2 (he ▸ ht.inUse)
    rintro (_ | i) hi (_ | j) hj he
    · rfl
    · exact absurd he (hne j (Nat.lt_of_succ_lt_succ hj))
    · exact absurd he.symm (hne i (Nat.lt_of_succ_lt_succ hi))
    · rw [hf.distinct i (Nat.lt_of_succ_lt_succ hi) j (Nat.lt_of_succ_lt_succ hj) he]
  case others =>
    intro w hw hne
    have hfirst : lookup M s₁ w = lookup M s w :=
      ht.others w hw (hzero ▸ hne 0 (Nat.succ_pos n))
    refine (hf.others w (hfirst ▸ hw) fun i hi => ?_).trans hfirst
    rw [page_add64]
    exact hne (i + 1) (Nat.succ_lt_succ hi)
  case keeps => exact fun a ha => hf.keeps a (ht.keeps a ha)
  case tables => exact fun a ha htab => ht.tables a ha (hf.tables a (ht.keeps a ha) htab)

lemma allocAndMap_card {n virt : ℕ}
    (hno : ∀ e ∈ (allocAndMap M virt n s).2, ¬ RanOut M.fm e) :
    n ≤ (freePages M.fm s.bmap).card := by
  induction n generalizing virt s with
  | zero => exact Nat.zero_le _
  | succ n ih =>
    simp only [allocAndMap, List.forall_mem_cons, List.forall_mem_append] at hno
    obtain ⟨hf, -, hrest⟩ := hno
    have hlt := card_freePages_alloc hf
    have hle := Finset.card_le_card (freePages_anti (f := M.fm)
      (fun k hk => @used_mapPage M (afterAlloc M s) (physPageAlloc M.fm s.bmap).1 virt k hk))
    have hn := ih hrest
    unfold afterAlloc at hle hn
    dsimp only at hle
    omega

lemma length_pages_le (hM : FramesOk M) (h48 : ∀ a ∈ M.fm.pages, a < 2 ^ 48) :
    M.fm.pages.length ≤ 2 ^ 36 := by
  have hinj : Set.InjOn page (M.fm.pages.toFinset : Set ℕ) := by
    intro a ha b hb hab
    exact page_inj hM h48 (List.mem_toFinset.mp ha) (List.mem_toFinset.mp hb) hab
  calc M.fm.pages.length = M.fm.pages.toFinset.card :=
        (List.toFinset_card_of_nodup hM.fm.nodup).symm
    _ ≤ (Finset.range (2 ^ 36)).card := Finset.card_le_card_of_injOn page
        (fun a _ => Finset.mem_coe.mpr (Finset.mem_range.mpr (Nat.mod_lt _ (Nat.two_pow_pos 36)))) hinj
    _ = 2 ^ 36 := Finset.card_range _

lemma allocAndMap_filled (hM : FramesOk M) (h48 : ∀ a ∈ M.fm.pages, a < 2 ^ 48) {n virt : ℕ}
    (h : Settled M s) (hn : n ≤ 2 ^ 36) (hv : virt % PAGE_SIZE = 0)
    (hrange : ∀ i < n, ∀ a ∈ M.fm.pages, page (virt + i * PAGE_SIZE) ≠ page a)
    (hno : ∀ e ∈ (allocAndMap M virt n s).2, ¬ RanOut M.fm e) :
    ∃ frame, Filled M virt n frame s (allocAndMap M virt n s).1 := by
  induction n generalizing virt s with
  | zero => exact ⟨fun _ => 0, Filled.nil virt _ s⟩
  | succ n ih =>
    simp only [allocAndMap, List.forall_mem_cons, List.forall_mem_append] at hno
    obtain ⟨hf, hmap, hrest⟩ := hno
    have hfirst : ∀ a ∈ M.fm.pages, page virt ≠ page a := by
      have h0 := hrange 0 (Nat.succ_pos n)
      rwa [Nat.zero_mul, Nat.add_zero] at h0
    have ht := turned hM h48 h hv hfirst hf hmap
    have hal : add64 virt PAGE_SIZE % PAGE_SIZE = 0 := by
      unfold add64 PAGE_SIZE at *
      omega
    obtain ⟨frame, hfill⟩ := ih ht.settled (Nat.le_of_succ_le hn) hal
      (fun i hi => by
        rw [page_add64]
        exact hrange (i + 1) (Nat.succ_lt_succ hi)) hrest
    refine ⟨consFrame (physPageAlloc M.fm s.bmap).1 frame, ?_⟩
    have hlt : n < 2 ^ 36 := hn
    rw [allocAndMap]
    exact ht.cons hfill hlt

/-- **Fresh frames.** In every state that calls of `map_page` and `phys_page_alloc` reach from
clear tables, `alloc_and_map` gives its pages, if it finds frames, pairwise distinct frames that
were free, are in use, and are no tables; no other page that is mapped changes. -/
theorem alloc_and_map_fresh (M : Machine) (hM : FramesOk M) (h48 : ∀ a ∈ M.fm.pages, a < 2 ^ 48)
    (s₀ : Paging) (hs₀ : Cleared M s₀) (os : List Op) (hos : ∀ o ∈ os, Plain M o)
    (virt n : ℕ) (hv : virt % PAGE_SIZE = 0)
    (hrange : ∀ i < n, ∀ a ∈ M.fm.pages, page (virt + i * PAGE_SIZE) ≠ page a)
    (hno : ∀ e ∈ (allocAndMap M virt n (runOps M os s₀)).2, ¬ RanOut M.fm e) :
    let s := runOps M os s₀
    let s' := (allocAndMap M virt n s).1
    (∃ frame : ℕ → ℕ,
      (∀ i < n, ∀ w, page w = page (virt + i * PAGE_SIZE) →
        findPhysaddr M s' w = frame i + w % PAGE_SIZE) ∧
      (∀ i < n, frame i ∈ M.fm.pages ∧ ¬ InUse M.fm s.bmap (frame i) ∧
        InUse M.fm s'.bmap (frame i) ∧ ¬ IsTable M s' (frame i)) ∧
      ∀ i < n, ∀ j < n, frame i = frame j → i = j) ∧
    ∀ w, lookup M s w ≠ none → (∀ i < n, page w ≠ page (virt + i * PAGE_SIZE)) →
      findPhysaddr M s' w = findPhysaddr M s w := by
  intro s s'
  rcases n with _ | n
  · exact ⟨⟨fun _ => 0, fun i hi => absurd hi (Nat.not_lt_zero i),
      fun i hi => absurd hi (Nat.not_lt_zero i), fun i hi => absurd hi (Nat.not_lt_zero i)⟩,
      fun _ _ _ => rfl⟩
  · -- a run that has run out of frames leaves none for the first page
    have hfull : ¬ AllUsed M.fm s.bmap :=
      hno (.data s.bmap (physPageAlloc M.fm s.bmap).1) List.mem_cons_self
    have hset : Settled M s :=
      (runOps_settled hM h48 (Or.inl (settled_of_clear hs₀.pml4)) hos).resolve_right hfull
    have hn : n + 1 ≤ 2 ^ 36 := (allocAndMap_card hno).trans
      ((card_freePages_le _ _).trans (length_pages_le hM h48))
    obtain ⟨frame, hf⟩ := allocAndMap_filled hM h48 hset hn hv hrange hno
    refine ⟨⟨frame, fun i hi w hw => ?_, fun i hi => ?_, hf.distinct⟩, fun w hw hne => ?_⟩
    · exact findPhysaddr_of_lookup ((lookup_congr hw).trans (hf.mapped i hi))
    · exact ⟨(hf.fresh i hi).1, (hf.fresh i hi).2, hf.data i hi⟩
    · exact findPhysaddr_congr (hf.others w hw hne)

/-- Two pages next to one that is mapped. -/
theorem alloc_and_map_fresh_two :
    let M := smallMachine 16 (by decide)
    let s := runOps M [.map 0x300000 0x400000, .alloc] zeroed
    let s' := (allocAndMap M 0x404000 2 s).1
    (∃ f₀ f₁, f₀ ≠ f₁ ∧ ¬ InUse M.fm s.bmap f₀ ∧ ¬ InUse M.fm s.bmap f₁ ∧
      findPhysaddr M s' 0x404008 = f₀ + 8 ∧ findPhysaddr M s' 0x405000 = f₁) ∧
    findPhysaddr M s' 0x400000 = 0x300000 := by
  obtain ⟨⟨frame, hmap, hdata, hinj⟩, hkeep⟩ := alloc_and_map_fresh (smallMachine 16 (by decide))
    (framesOk_smallMachine (by decide)) (by decide +kernel) zeroed (cleared_zeroed _)
    [.map 0x300000 0x400000, .alloc] (by simp [Plain]; decide +kernel) 0x404000 2 (by decide)
    (by decide +kernel) (by decide +kernel)
  have hold : findPhysaddr (smallMachine 16 (by decide))
      (runOps (smallMachine 16 (by decide)) [.map 0x300000 0x400000, .alloc] zeroed) 0x400000 =
        0x300000 := by
    decide +kernel
  have hne : frame 0 ≠ frame 1 := fun he => absurd (hinj 0 (by decide) 1 (by decide) he) (by decide)
  refine ⟨⟨frame 0, frame 1, hne, (hdata 0 (by decide)).2.1, (hdata 1 (by decide)).2.1,
    hmap 0 (by decide) _ (by decide), hmap 1 (by decide) _ (by decide)⟩, ?_⟩
  refine (hkeep 0x400000 (fun hnone => ?_) (by decide)).trans hold
  rw [findPhysaddr_of_none hnone] at hold
  exact absurd hold (by decide)

end FlameOS.AllocMap
