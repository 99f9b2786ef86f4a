import FlameOS.FrameAlloc
import FlameOS.Pool

/-!
Runs of the page allocator. The bitmap refines the pool of the freemap's pages: after any
interleaving of calls the bits that are set are those of the pages outstanding.
-/

namespace FlameOS.FrameRun

open FlameOS.Word FlameOS.FrameAlloc FlameOS.Pool

/-- What a result of `phys_page_alloc` says: 0 is the failure value. -/
def ofResult (a : ℕ) : Event ℕ := if a = 0 then .full else .take a

/-- The bitmaps that calls lead to from a clear one, with the history of the calls. -/
inductive Run (f : Freemap) : List (Event ℕ) → (ℕ → ℕ) → Prop
  | boot : Run f [] (fun _ => 0)
  | alloc {h : List (Event ℕ)} {bmap : ℕ → ℕ} : Run f h bmap →
      Run f (ofResult (physPageAlloc f bmap).1 :: h) (physPageAlloc f bmap).2
  | free {h : List (Event ℕ)} {bmap : ℕ → ℕ} {a : ℕ} : Run f h bmap → a ∈ f.pages →
      Run f (.give a :: h) (physPageFree f a bmap)

/-- The bits of the freemap's pages are a set of pages. -/
def Represents (f : Freemap) (bmap : ℕ → ℕ) (out : Set ℕ) : Prop :=
  ∀ k a, f.pages[k]? = some a → (used bmap k = true ↔ a ∈ out)

variable {f : Freemap} {bmap : ℕ → ℕ} {h : List (Event ℕ)}

lemma getElem?_inj {l : List ℕ} (hnd : l.Nodup) {i j a : ℕ} (hi : l[i]? = some a)
    (hj : l[j]? = some a) : i = j := by
  have hlt : i < l.length := (List.getElem?_eq_some_iff.mp hi).1
  exact (List.getElem?_inj hlt hnd).mp (hi.trans hj.symm)

lemma represents_alloc (hf : f.Ok) (h0 : 0 ∉ f.pages) (hl : Legal {a | a ∈ f.pages} h)
    (hr : Represents f bmap (outstanding h)) :
    Legal {a | a ∈ f.pages} (ofResult (physPageAlloc f bmap).1 :: h) ∧
      Represents f (physPageAlloc f bmap).2
        (outstanding (ofResult (physPageAlloc f bmap).1 :: h)) := by
  by_cases hfull : AllUsed f bmap
  · rw [physPageAlloc_full hfull]
    refine ⟨⟨fun a ha => ?_, hl⟩, hr⟩
    obtain ⟨k, hk⟩ := List.getElem?_of_mem ha
    exact (hr k a hk).mp (hfull k (List.getElem?_eq_some_iff.mp hk).1)
  · obtain ⟨k, hk, hu, hb⟩ := physPageAlloc_free hfull
    have hmem := List.mem_of_getElem? hk
    have hne : (physPageAlloc f bmap).1 ≠ 0 := fun he => h0 (he ▸ hmem)
    have hev : ofResult (physPageAlloc f bmap).1 = .take (physPageAlloc f bmap).1 := if_neg hne
    rw [hev, hb]
    refine ⟨⟨hmem, fun hout => ?_, hl⟩, fun j a hj => ?_⟩
    · have := (hr k _ hk).mpr hout
      rw [hu] at this
      exact absurd this (by decide)
    · rw [used_insert, outstanding, Set.mem_insert_iff, Bool.or_eq_true, hr j a hj,
        decide_eq_true_eq, or_comm]
      refine or_congr_left ⟨fun hjk => ?_, fun ha => getElem?_inj hf.nodup hj (ha ▸ hk)⟩
      subst hjk
      exact Option.some.inj (hj.symm.trans hk)

lemma represents_free (hf : f.Ok) (hr : Represents f bmap (outstanding h)) {a : ℕ}
    (ha : a ∈ f.pages) : Represents f (physPageFree f a bmap) (outstanding (.give a :: h)) := by
  obtain ⟨k, hk⟩ := List.getElem?_of_mem ha
  rw [physPageFree_page hf.nodup hf.descs (hf.mem_pages ha).1 hk]
  intro j b hj
  rw [used_erase, outstanding, Set.mem_sdiff, Set.mem_singleton_iff, Bool.and_eq_true, hr j b hj,
    Bool.not_eq_true', decide_eq_false_iff_not]
  refine and_congr_right fun _ => not_congr ⟨fun hjk => ?_, fun hb => ?_⟩
  · subst hjk
    exact Option.some.inj (hj.symm.trans hk)
  · exact getElem?_inj hf.nodup hj (hb ▸ hk)

/-- **The allocator refines the pool**, over every run. -/
theorem run_represents (hf : f.Ok) (h0 : 0 ∉ f.pages) (hr : Run f h bmap) :
    Legal {a | a ∈ f.pages} h ∧ Represents f bmap (outstanding h) := by
  induction hr with
  | boot => exact ⟨trivial, fun k a _ => by simp [used, outstanding]⟩
  | alloc _ ih => exact represents_alloc hf h0 ih.1 ih.2
  | free _ ha ih => exact ⟨⟨ha, ih.1⟩, represents_free hf ih.2 ha⟩

/-! ### The frame of one call -/

lemma alloc_changes {k : ℕ} (hk : used (physPageAlloc f bmap).2 k ≠ used bmap k) :
    f.pages[k]? = some (physPageAlloc f bmap).1 := by
  by_cases hfull : AllUsed f bmap
  · rw [physPageAlloc_full hfull] at hk
    exact absurd rfl hk
  · obtain ⟨j, hj, -, hb⟩ := physPageAlloc_free hfull
    rw [hb, used_insert] at hk
    by_cases hkj : k = j
    · rwa [hkj]
    · simp [hkj] at hk

lemma free_changes (hf : f.Ok) {a : ℕ} (ha : a ∈ f.pages) {k : ℕ}
    (hk : used (physPageFree f a bmap) k ≠ used bmap k) : f.pages[k]? = some a := by
  obtain ⟨j, hj⟩ := List.getElem?_of_mem ha
  rw [physPageFree_page hf.nodup hf.descs (hf.mem_pages ha).1 hj, used_erase] at hk
  by_cases hkj : k = j
  · rwa [hkj]
  · simp [hkj] at hk

/-- **The page allocator is correct over runs**: the bit of a page is set exactly when the
page is outstanding, the history of results is that of a pool, and a call changes at most
the bit of the page it returns or is given. -/
theorem bits_eq_outstanding (f : Freemap)
    (haddr : ∀ r ∈ f.regions f.fmDescs, r.addr % PAGE_SIZE = 0 ∧ r.addr < 2 ^ 64)
    (hdis : (f.regions f.fmDescs).Pairwise fun r r' => ∀ a ∈ regionPages r, a ∉ regionPages r')
    (h0 : 0 ∉ f.pages) (hmm : f.fmDescs ≤ f.mmDescs)
    (h : List (Event ℕ)) (bmap : ℕ → ℕ) (hrun : Run f h bmap) :
    (∀ k a, f.pages[k]? = some a →
      ((bmap (k / 32)).testBit (k % 32) = true ↔ a ∈ outstanding h)) ∧
    Legal {a | a ∈ f.pages} h ∧
    (∀ k, used (physPageAlloc f bmap).2 k ≠ used bmap k →
      f.pages[k]? = some (physPageAlloc f bmap).1) ∧
    ∀ a ∈ f.pages, ∀ k, used (physPageFree f a bmap) k ≠ used bmap k →
      f.pages[k]? = some a := by
  have hf : f.Ok :=
    { aligned := fun r hr => (haddr r hr).1
      bound := fun r hr => bound_of_nonzero (haddr r hr).1 (haddr r hr).2 fun hz =>
        h0 (List.mem_flatMap.mpr ⟨r, hr, hz⟩)
      disjoint := hdis
      descs := hmm }
  obtain ⟨hl, hr⟩ := run_represents hf h0 hrun
  exact ⟨hr, hl, fun k hk => alloc_changes hk, fun a ha k hk => free_changes hf ha hk⟩

/-- Two regions; two pages taken, the first given back. -/
def twoRegions : Freemap where
  freemap := fun i => if i = 0 then ⟨0x1000, 2⟩ else ⟨0x8000, 33⟩
  fmDescs := 2
  mmDescs := 2

theorem bits_eq_outstanding_twoRegions :
    (∀ k a, twoRegions.pages[k]? = some a →
      ((physPageFree twoRegions 0x1000
          (physPageAlloc twoRegions (physPageAlloc twoRegions fun _ => 0).2).2 (k / 32)).testBit
        (k % 32) = true ↔ a ∈ outstanding [.give 0x1000, .take 0x2000, .take 0x1000])) ∧
      Legal {a | a ∈ twoRegions.pages} [.give 0x1000, .take 0x2000, .take 0x1000] := by
  have hrun : Run twoRegions [.give 0x1000, .take 0x2000, .take 0x1000] _ :=
    .free (.alloc (.alloc .boot)) (by decide)
  have h := bits_eq_outstanding twoRegions (by decide) (by decide) (by decide) (by decide) _ _ hrun
  exact ⟨h.1, h.2.1⟩

end FlameOS.FrameRun
