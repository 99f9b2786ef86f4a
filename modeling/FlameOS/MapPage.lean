import FlameOS.PageTable

/-!
`map_page`, and that it always returns.

A call that misses a table takes a frame for it, clears it, links it and maps it to itself
by a recursive call before the walk goes on. The recursion is first given with fuel. It
needs little of it: as long as frames are left every nested call has one less, and once
they have run out every nested call is `map_page(0, 0)`, whose depth is at most three
whatever the tables hold.

Every call also yields the list of what it did to the tables, for the statements about the
frames it takes and the addresses it touches.
-/

namespace FlameOS.MapPage

open FlameOS.Word FlameOS.FrameAlloc FlameOS.PageTable

/-- What a call does besides storing: it takes a frame for a table or for data from the
allocator, the bitmap being `bmap`, or it touches `len` bytes at the physical address `addr`
of a table, the tables being `s`. -/
inductive Event
  | table (bmap : ℕ → ℕ) (page : ℕ)
  | data (bmap : ℕ → ℕ) (page : ℕ)
  | access (s : Paging) (addr len : ℕ)

def taken : List Event → List ℕ
  | [] => []
  | .table _ page :: tr => page :: taken tr
  | _ :: tr => taken tr

@[simp] lemma taken_append (tr tr' : List Event) : taken (tr ++ tr') = taken tr ++ taken tr' := by
  induction tr with
  | nil => rfl
  | cons e tr ih => cases e <;> simp [taken, ih]

/-- The allocator had no page left when it was called. -/
def RanOut (f : Freemap) : Event → Prop
  | .table bmap _ => AllUsed f bmap
  | .data bmap _ => AllUsed f bmap
  | .access _ _ _ => False

instance (f : Freemap) : DecidablePred (RanOut f)
  | .table bmap _ => inferInstanceAs (Decidable (AllUsed f bmap))
  | .data bmap _ => inferInstanceAs (Decidable (AllUsed f bmap))
  | .access _ _ _ => inferInstanceAs (Decidable False)

variable (M : Machine)

/-- The three blocks `if (!(table->entry[i] & FLAG_PRESENT)) {...}` of `map_page`. `rec` is
the recursive call; `touch` is the access to the entry, which for `pml4` goes through the
symbol and not through a physical address. -/
def newTable (rec : ℕ → ℕ → Paging → Option (Paging × List Event))
    (touch : Paging → List Event) (t i : ℕ) (s : Paging) : Option (Paging × List Event) :=
  if present (s.frame t i) then some (s, touch s)
  else
    let page := (physPageAlloc M.fm s.bmap).1
    let s₁ : Paging := { s with bmap := (physPageAlloc M.fm s.bmap).2 }
    let s₂ := s₁.memset page
    let s₃ := s₂.write t i (mkEntry page)
    (rec page page s₃).map fun r =>
      (r.1, touch s ++ .table s.bmap page :: .access s₁ page PAGE_SIZE :: touch s₂ ++ r.2)

/-- The access to entry `i` of the table at `t`. -/
def touchEntry (t i : ℕ) (s : Paging) : List Event := [.access s (t + 8 * i) 8]

/-- `map_page` with fuel for the recursion. -/
def mapPageFuel : ℕ → ℕ → ℕ → Paging → Option (Paging × List Event)
  | 0, _, _, _ => none
  | fuel + 1, phys, virt, s =>
    if phys % PAGE_SIZE ≠ 0 ∨ virt % PAGE_SIZE ≠ 0 then some (s, [])
    else
      (newTable M (mapPageFuel fuel) (fun _ => []) M.pml4 (pml4Idx virt) s).bind fun r₁ =>
      let pdpt := addrOf (r₁.1.frame M.pml4 (pml4Idx virt))
      (newTable M (mapPageFuel fuel) (touchEntry pdpt (pdptIdx virt)) pdpt (pdptIdx virt)
        r₁.1).bind fun r₂ =>
      let pd := addrOf (r₂.1.frame pdpt (pdptIdx virt))
      (newTable M (mapPageFuel fuel) (touchEntry pd (pdIdx virt)) pd (pdIdx virt)
        r₂.1).bind fun r₃ =>
      let pt := addrOf (r₃.1.frame pd (pdIdx virt))
      some (r₃.1.write pt (ptIdx virt) (mkEntry phys),
        r₁.2 ++ r₂.2 ++ touchEntry pdpt (pdptIdx virt) r₂.1 ++ r₃.2 ++
          touchEntry pd (pdIdx virt) r₃.1 ++ touchEntry pt (ptIdx virt) r₃.1)

variable {M} {rec : ℕ → ℕ → Paging → Option (Paging × List Event)}
  {touch : Paging → List Event} {s : Paging}

/-! ### One block -/

lemma newTable_present {t i : ℕ} (h : present (s.frame t i) = true) :
    newTable M rec touch t i s = some (s, touch s) := if_pos h

/-- The state in which the recursive call of a block starts. -/
def linked (M : Machine) (s : Paging) (t i : ℕ) : Paging :=
  (Paging.memset { s with bmap := (physPageAlloc M.fm s.bmap).2 }
    (physPageAlloc M.fm s.bmap).1).write t i (mkEntry (physPageAlloc M.fm s.bmap).1)

/-- What a block can do: nothing, or take a frame and recurse. -/
lemma newTable_cases {t i : ℕ} {r : Paging × List Event}
    (h : newTable M rec touch t i s = some r) :
    (present (s.frame t i) = true ∧ r = (s, touch s)) ∨
    (present (s.frame t i) = false ∧
      ∃ q, rec (physPageAlloc M.fm s.bmap).1 (physPageAlloc M.fm s.bmap).1 (linked M s t i) =
          some q ∧ r.1 = q.1 ∧
        r.2 = touch s ++ .table s.bmap (physPageAlloc M.fm s.bmap).1 ::
          .access { s with bmap := (physPageAlloc M.fm s.bmap).2 }
            (physPageAlloc M.fm s.bmap).1 PAGE_SIZE ::
          touch (Paging.memset { s with bmap := (physPageAlloc M.fm s.bmap).2 }
            (physPageAlloc M.fm s.bmap).1) ++ q.2) := by
  unfold newTable at h
  split at h
  · rename_i hp
    exact Or.inl ⟨hp, (Option.some.inj h).symm⟩
  · rename_i hp
    obtain ⟨q, hq, rfl⟩ := Option.map_eq_some_iff.mp h
    exact Or.inr ⟨by simpa using hp, q, hq, rfl, rfl⟩

lemma newTable_isSome {t i : ℕ}
    (h : present (s.frame t i) = false →
      (rec (physPageAlloc M.fm s.bmap).1 (physPageAlloc M.fm s.bmap).1
        (linked M s t i)).isSome = true) :
    (newTable M rec touch t i s).isSome = true := by
  unfold newTable
  split
  · rfl
  · rename_i hp
    simpa [linked] using h (by simpa using hp)

/-- What a call can do: nothing on an unaligned address, or three blocks and a store. -/
lemma mapPageFuel_cases {fuel phys virt : ℕ} {r : Paging × List Event}
    (h : mapPageFuel M (fuel + 1) phys virt s = some r) :
    ((phys % PAGE_SIZE ≠ 0 ∨ virt % PAGE_SIZE ≠ 0) ∧ r = (s, [])) ∨
    (phys % PAGE_SIZE = 0 ∧ virt % PAGE_SIZE = 0 ∧ ∃ r₁ r₂ r₃ pdpt pd pt,
      newTable M (mapPageFuel M fuel) (fun _ => []) M.pml4 (pml4Idx virt) s = some r₁ ∧
      pdpt = addrOf (r₁.1.frame M.pml4 (pml4Idx virt)) ∧
      newTable M (mapPageFuel M fuel) (touchEntry pdpt (pdptIdx virt)) pdpt (pdptIdx virt)
        r₁.1 = some r₂ ∧
      pd = addrOf (r₂.1.frame pdpt (pdptIdx virt)) ∧
      newTable M (mapPageFuel M fuel) (touchEntry pd (pdIdx virt)) pd (pdIdx virt)
        r₂.1 = some r₃ ∧
      pt = addrOf (r₃.1.frame pd (pdIdx virt)) ∧
      r = (r₃.1.write pt (ptIdx virt) (mkEntry phys),
        r₁.2 ++ r₂.2 ++ touchEntry pdpt (pdptIdx virt) r₂.1 ++ r₃.2 ++
          touchEntry pd (pdIdx virt) r₃.1 ++ touchEntry pt (ptIdx virt) r₃.1)) := by
  rw [mapPageFuel] at h
  split at h
  · rename_i hal
    exact Or.inl ⟨hal, (Option.some.inj h).symm⟩
  · rename_i hal
    rw [not_or, not_not, not_not] at hal
    obtain ⟨r₁, h₁, h⟩ := Option.bind_eq_some_iff.mp h
    obtain ⟨r₂, h₂, h⟩ := Option.bind_eq_some_iff.mp h
    obtain ⟨r₃, h₃, h⟩ := Option.bind_eq_some_iff.mp h
    exact Or.inr ⟨hal.1, hal.2, r₁, r₂, r₃, _, _, _, h₁, rfl, h₂, rfl, h₃, rfl,
      (Option.some.inj h).symm⟩

/-- The walk put together from its blocks. -/
lemma mapPageFuel_walk {fuel phys virt pdpt pd : ℕ} {r₁ r₂ r₃ : Paging × List Event}
    (hp : phys % PAGE_SIZE = 0) (hv : virt % PAGE_SIZE = 0)
    (h₁ : newTable M (mapPageFuel M fuel) (fun _ => []) M.pml4 (pml4Idx virt) s = some r₁)
    (hpdpt : addrOf (r₁.1.frame M.pml4 (pml4Idx virt)) = pdpt)
    (h₂ : newTable M (mapPageFuel M fuel) (touchEntry pdpt (pdptIdx virt)) pdpt (pdptIdx virt)
      r₁.1 = some r₂)
    (hpd : addrOf (r₂.1.frame pdpt (pdptIdx virt)) = pd)
    (h₃ : newTable M (mapPageFuel M fuel) (touchEntry pd (pdIdx virt)) pd (pdIdx virt)
      r₂.1 = some r₃) :
    mapPageFuel M (fuel + 1) phys virt s =
      some (r₃.1.write (addrOf (r₃.1.frame pd (pdIdx virt))) (ptIdx virt) (mkEntry phys),
        r₁.2 ++ r₂.2 ++ touchEntry pdpt (pdptIdx virt) r₂.1 ++ r₃.2 ++
          touchEntry pd (pdIdx virt) r₃.1 ++
          touchEntry (addrOf (r₃.1.frame pd (pdIdx virt))) (ptIdx virt) r₃.1) := by
  subst hpdpt hpd
  simp [mapPageFuel, hp, hv, h₁, h₂, h₃]

/-! ### The bitmap only grows -/

lemma used_alloc {f : Freemap} {bmap : ℕ → ℕ} {k : ℕ} (h : used bmap k = true) :
    used (physPageAlloc f bmap).2 k = true := by
  by_cases hf : AllUsed f bmap
  · rwa [physPageAlloc_full hf]
  · obtain ⟨j, -, -, hb⟩ := physPageAlloc_free hf
    rw [hb, used_insert, h, Bool.true_or]

lemma used_newTable {t i k : ℕ} {r : Paging × List Event}
    (hrec : ∀ {phys virt : ℕ} {s : Paging} {q : Paging × List Event}, rec phys virt s = some q →
      used s.bmap k = true → used q.1.bmap k = true)
    (h : newTable M rec touch t i s = some r) (hk : used s.bmap k = true) :
    used r.1.bmap k = true := by
  rcases newTable_cases h with ⟨-, rfl⟩ | ⟨-, q, hq, hr, -⟩
  · exact hk
  · rw [hr]
    exact hrec hq (used_alloc hk)

lemma used_mapPageFuel {fuel phys virt k : ℕ} {r : Paging × List Event}
    (h : mapPageFuel M fuel phys virt s = some r) (hk : used s.bmap k = true) :
    used r.1.bmap k = true := by
  induction fuel generalizing phys virt s r with
  | zero => simp [mapPageFuel] at h
  | succ fuel ih =>
    rcases mapPageFuel_cases h with ⟨-, rfl⟩ | ⟨-, -, r₁, r₂, r₃, _, _, _, h₁, -, h₂, -, h₃, -, rfl⟩
    · exact hk
    · have h := used_newTable ih h₃ (used_newTable ih h₂ (used_newTable ih h₁ hk))
      simpa using h

/-! ### Termination with every page in use -/

/-- The tables once `map_page(0, 0)` has made frame 0 its own table. -/
def selfLoop (s : Paging) : Paging := (s.memset 0).write 0 0 (mkEntry 0)

lemma linked_full {t i : ℕ} (h : AllUsed M.fm s.bmap) :
    linked M s t i = (s.memset 0).write t i (mkEntry 0) := by
  simp [linked, physPageAlloc_full h]

lemma addrOf_mkEntry_zero : addrOf (mkEntry 0) = 0 := by simp

lemma pml4Idx_zero : pml4Idx 0 = 0 := by simp [pml4Idx]
lemma pdptIdx_zero : pdptIdx 0 = 0 := by simp [pdptIdx]
lemma pdIdx_zero : pdIdx 0 = 0 := by simp [pdIdx]
lemma ptIdx_zero : ptIdx 0 = 0 := by simp [ptIdx]

lemma write_selfLoop (s : Paging) : (selfLoop s).write 0 0 (mkEntry 0) = selfLoop s := by
  simp [selfLoop, Paging.write, Paging.memset]

lemma mapZero_eq {n x y : ℕ} {s₁ s₂ s₃ : Paging} {tr₁ tr₂ tr₃ : List Event}
    (h₁ : newTable M (mapPageFuel M n) (fun _ => []) M.pml4 0 s = some (s₁, tr₁))
    (hx : addrOf (s₁.frame M.pml4 0) = x)
    (h₂ : newTable M (mapPageFuel M n) (touchEntry x 0) x 0 s₁ = some (s₂, tr₂))
    (hy : addrOf (s₂.frame x 0) = y)
    (h₃ : newTable M (mapPageFuel M n) (touchEntry y 0) y 0 s₂ = some (s₃, tr₃)) :
    ∃ tr, mapPageFuel M (n + 1) 0 0 s =
      some (s₃.write (addrOf (s₃.frame y 0)) 0 (mkEntry 0), tr) := by
  have h := @mapPageFuel_walk M s n 0 0 x y (s₁, tr₁) (s₂, tr₂) (s₃, tr₃) (by decide) (by decide)
  rw [pml4Idx_zero, pdptIdx_zero, pdIdx_zero, ptIdx_zero] at h
  exact ⟨_, h h₁ hx h₂ hy h₃⟩

/-- A block whose entry is missing, when the nested call returns. -/
lemma newTable_full (touch : Paging → List Event) {t i : ℕ} {q : Paging × List Event} (hf : AllUsed M.fm s.bmap)
    (hp : present (s.frame t i) = false)
    (hq : rec 0 0 ((s.memset 0).write t i (mkEntry 0)) = some q) :
    ∃ tr, newTable M rec touch t i s = some (q.1, tr) := by
  simp [newTable, hp, physPageAlloc_full hf, hq]

/-- All three levels are there: no recursive call. -/
lemma mapZero_three {n x y : ℕ} (h4 : present (s.frame M.pml4 0) = true)
    (hx : addrOf (s.frame M.pml4 0) = x) (h3 : present (s.frame x 0) = true)
    (hy : addrOf (s.frame x 0) = y) (h2 : present (s.frame y 0) = true) :
    ∃ tr, mapPageFuel M (n + 1) 0 0 s =
      some (s.write (addrOf (s.frame y 0)) 0 (mkEntry 0), tr) :=
  mapZero_eq (newTable_present h4) hx (newTable_present h3) hy (newTable_present h2)

/-- `pml4` names frame 0, whose entry is missing. -/
lemma mapZero_one_loop {n : ℕ} (hf : AllUsed M.fm s.bmap)
    (h4 : present (s.frame M.pml4 0) = true) (hx : addrOf (s.frame M.pml4 0) = 0)
    (h3 : present (s.frame 0 0) = false) :
    ∃ tr, mapPageFuel M (n + 2) 0 0 s = some (selfLoop s, tr) := by
  have hne := M.pml4_ne_zero
  have e4 : (selfLoop s).frame M.pml4 0 = s.frame M.pml4 0 := by
    simp [selfLoop, frame_write, frame_memset, hne]
  have e0 : (selfLoop s).frame 0 0 = mkEntry 0 := by simp [selfLoop, frame_write]
  have hx' : addrOf ((selfLoop s).frame M.pml4 0) = 0 := by rw [e4, hx]
  have h0 : present ((selfLoop s).frame 0 0) = true := by rw [e0, present_mkEntry]
  have ha : addrOf ((selfLoop s).frame 0 0) = 0 := by rw [e0, addrOf_mkEntry_zero]
  obtain ⟨tr, hn⟩ := mapZero_three (M := M) (n := n) (by rw [e4, h4]) hx' h0 ha h0
  rw [ha, write_selfLoop] at hn
  obtain ⟨tr₂, h₂⟩ := newTable_full (touchEntry 0 0) hf h3 hn
  have h := mapZero_eq (newTable_present h4) hx h₂ ha (newTable_present h0)
  rwa [ha, write_selfLoop] at h

/-- The first two levels are there and the first is not frame 0. -/
lemma mapZero_two {n x y : ℕ} (hf : AllUsed M.fm s.bmap)
    (h4 : present (s.frame M.pml4 0) = true) (hx : addrOf (s.frame M.pml4 0) = x) (hx0 : x ≠ 0)
    (h3 : present (s.frame x 0) = true) (hy : addrOf (s.frame x 0) = y)
    (h2 : present (s.frame y 0) = false) :
    ∃ tr, mapPageFuel M (n + 2) 0 0 s = some (((s.memset 0).write y 0 (mkEntry 0)).write
      (addrOf (((s.memset 0).write y 0 (mkEntry 0)).frame y 0)) 0 (mkEntry 0), tr) := by
  set s₃ := (s.memset 0).write y 0 (mkEntry 0) with hs₃
  have hne := M.pml4_ne_zero
  have hy4 : M.pml4 ≠ y := fun h => by rw [h, h2] at h4; cases h4
  have hyx : x ≠ y := fun h => by rw [h, h2] at h3; cases h3
  have e4 : s₃.frame M.pml4 0 = s.frame M.pml4 0 := by
    simp [hs₃, frame_write, frame_memset, hne, hy4]
  have e3 : s₃.frame x 0 = s.frame x 0 := by simp [hs₃, frame_write, frame_memset, hx0, hyx]
  have e2 : s₃.frame y 0 = mkEntry 0 := by simp [hs₃, frame_write]
  have h0 : present (s₃.frame y 0) = true := by rw [e2, present_mkEntry]
  obtain ⟨tr, hn⟩ := mapZero_three (M := M) (n := n) (s := s₃) (by rw [e4, h4])
    (by rw [e4, hx]) (by rw [e3, h3]) (by rw [e3, hy]) h0
  have ha : addrOf (s₃.frame y 0) = 0 := by rw [e2, addrOf_mkEntry_zero]
  obtain ⟨tr₃, h₃⟩ := newTable_full (touchEntry y 0) hf h2 hn
  obtain ⟨tr, h⟩ := mapZero_eq (newTable_present h4) hx (newTable_present h3) hy h₃
  refine ⟨tr, h.trans ?_⟩
  rw [ha]
  by_cases hy0 : y = 0
  · subst hy0
    simp [hs₃, Paging.write, Paging.memset]
  · have : (s₃.write 0 0 (mkEntry 0)).frame y 0 = mkEntry 0 := by
      simp [frame_write, hy0, e2]
    rw [this, addrOf_mkEntry_zero]
    simp [Paging.write]

/-- No PDPT: the nested call finds `pml4` naming the empty frame 0. -/
lemma mapZero_noPdpt {n : ℕ} (hf : AllUsed M.fm s.bmap)
    (h4 : present (s.frame M.pml4 0) = false) : ∃ q, mapPageFuel M (n + 3) 0 0 s = some q := by
  have hne := M.pml4_ne_zero
  set s₃ := (s.memset 0).write M.pml4 0 (mkEntry 0) with hs₃
  have e4 : s₃.frame M.pml4 0 = mkEntry 0 := by simp [hs₃, frame_write]
  have e0 : s₃.frame 0 0 = 0 := by simp [hs₃, frame_write, frame_memset, hne.symm]
  obtain ⟨tr, hn⟩ := mapZero_one_loop (M := M) (s := s₃) (n := n) hf
    (by rw [e4, present_mkEntry]) (by rw [e4, addrOf_mkEntry_zero]) (by rw [e0, present_zero])
  obtain ⟨tr₁, h₁⟩ := newTable_full (fun _ => []) hf h4 hn
  have l0 : (selfLoop s₃).frame 0 0 = mkEntry 0 := by simp [selfLoop, frame_write]
  have l4 : (selfLoop s₃).frame M.pml4 0 = mkEntry 0 := by
    simp [selfLoop, frame_write, frame_memset, hne, e4]
  have lp : present ((selfLoop s₃).frame 0 0) = true := by rw [l0, present_mkEntry]
  obtain ⟨tr, h⟩ := mapZero_eq h₁ (by rw [l4, addrOf_mkEntry_zero]) (newTable_present lp)
    (by rw [l0, addrOf_mkEntry_zero]) (newTable_present lp)
  exact ⟨_, h⟩

/-- No PD: the nested call finds the PDPT naming the empty frame 0. -/
lemma mapZero_noPd {n x : ℕ} (hf : AllUsed M.fm s.bmap)
    (h4 : present (s.frame M.pml4 0) = true) (hx : addrOf (s.frame M.pml4 0) = x) (hx0 : x ≠ 0)
    (h3 : present (s.frame x 0) = false) : ∃ q, mapPageFuel M (n + 3) 0 0 s = some q := by
  have hne := M.pml4_ne_zero
  have hx4 : M.pml4 ≠ x := fun h => by rw [h, h3] at h4; cases h4
  set s₃ := (s.memset 0).write x 0 (mkEntry 0) with hs₃
  have e4 : s₃.frame M.pml4 0 = s.frame M.pml4 0 := by
    simp [hs₃, frame_write, frame_memset, hne, hx4]
  have e3 : s₃.frame x 0 = mkEntry 0 := by simp [hs₃, frame_write]
  have e0 : s₃.frame 0 0 = 0 := by simp [hs₃, frame_write, frame_memset, hx0.symm]
  obtain ⟨tr, hn⟩ := mapZero_two (M := M) (s := s₃) (n := n) hf (by rw [e4, h4])
    (by rw [e4, hx]) hx0 (by rw [e3, present_mkEntry]) (by rw [e3, addrOf_mkEntry_zero])
    (by rw [e0, present_zero])
  obtain ⟨tr₂, h₂⟩ := newTable_full (touchEntry x 0) hf h3 hn
  set s₄ := ((s₃.memset 0).write 0 0 (mkEntry 0)).write
    (addrOf (((s₃.memset 0).write 0 0 (mkEntry 0)).frame 0 0)) 0 (mkEntry 0) with hs₄
  have l3 : s₄.frame x 0 = mkEntry 0 := by
    simp [hs₄, frame_write, frame_memset, hx0, e3]
  have l0 : s₄.frame 0 0 = mkEntry 0 := by simp [hs₄, frame_write]
  obtain ⟨tr, h⟩ := mapZero_eq (newTable_present h4) hx h₂
    (by rw [l3, addrOf_mkEntry_zero]) (newTable_present (by rw [l0, present_mkEntry]))
  exact ⟨_, h⟩

/-- No PT, and clearing frame 0 clears the PDPT. -/
lemma mapZero_noPt {n y : ℕ} (hf : AllUsed M.fm s.bmap)
    (h4 : present (s.frame M.pml4 0) = true) (hx : addrOf (s.frame M.pml4 0) = 0)
    (h3 : present (s.frame 0 0) = true) (hy : addrOf (s.frame 0 0) = y)
    (h2 : present (s.frame y 0) = false) : ∃ q, mapPageFuel M (n + 3) 0 0 s = some q := by
  have hne := M.pml4_ne_zero
  have hy0 : (0 : ℕ) ≠ y := fun h => by rw [← h, h3] at h2; cases h2
  have hy4 : M.pml4 ≠ y := fun h => by rw [h, h2] at h4; cases h4
  set s₃ := (s.memset 0).write y 0 (mkEntry 0) with hs₃
  have e4 : s₃.frame M.pml4 0 = s.frame M.pml4 0 := by
    simp [hs₃, frame_write, frame_memset, hne, hy4]
  have e0 : s₃.frame 0 0 = 0 := by simp [hs₃, frame_write, frame_memset, hy0]
  obtain ⟨tr, hn⟩ := mapZero_one_loop (M := M) (s := s₃) (n := n) hf (by rw [e4, h4])
    (by rw [e4, hx]) (by rw [e0, present_zero])
  obtain ⟨tr₃, h₃⟩ := newTable_full (touchEntry y 0) hf h2 hn
  obtain ⟨tr, h⟩ := mapZero_eq (newTable_present h4) hx (newTable_present h3) hy h₃
  exact ⟨_, h⟩

/-- **With every page in use `map_page(0, 0)` nests at most three deep.** -/
lemma mapZero_isSome {n : ℕ} (hf : AllUsed M.fm s.bmap) :
    (mapPageFuel M (n + 3) 0 0 s).isSome = true := by
  rw [Option.isSome_iff_exists]
  obtain ⟨x, hx⟩ : ∃ x, addrOf (s.frame M.pml4 0) = x := ⟨_, rfl⟩
  obtain ⟨y, hy⟩ : ∃ y, addrOf (s.frame x 0) = y := ⟨_, rfl⟩
  rcases h4 : present (s.frame M.pml4 0) with _ | _
  · exact mapZero_noPdpt hf h4
  rcases h3 : present (s.frame x 0) with _ | _
  · by_cases hx0 : x = 0
    · subst hx0
      obtain ⟨tr, h⟩ := mapZero_one_loop (n := n + 1) hf h4 hx h3
      exact ⟨_, h⟩
    · exact mapZero_noPd hf h4 hx hx0 h3
  rcases h2 : present (s.frame y 0) with _ | _
  · by_cases hx0 : x = 0
    · subst hx0
      exact mapZero_noPt hf h4 hx h3 hy h2
    · obtain ⟨tr, h⟩ := mapZero_two (n := n + 1) hf h4 hx hx0 h3 hy h2
      exact ⟨_, h⟩
  · obtain ⟨tr, h⟩ := mapZero_three (n := n + 2) h4 hx h3 hy h2
    exact ⟨_, h⟩

/-! ### Termination -/

def freePages (f : Freemap) (bmap : ℕ → ℕ) : Finset ℕ :=
  (Finset.range f.pages.length).filter fun k => used bmap k = false

lemma freePages_anti {f : Freemap} {bmap bmap' : ℕ → ℕ}
    (h : ∀ k, used bmap k = true → used bmap' k = true) :
    freePages f bmap' ⊆ freePages f bmap := by
  intro k
  simp only [freePages, Finset.mem_filter, Bool.eq_false_iff]
  exact fun ⟨hk, hu⟩ => ⟨hk, fun hu' => hu (h k hu')⟩

lemma card_freePages_alloc {f : Freemap} {bmap : ℕ → ℕ} (h : ¬ AllUsed f bmap) :
    (freePages f (physPageAlloc f bmap).2).card < (freePages f bmap).card := by
  obtain ⟨k, hk, hu, hb⟩ := physPageAlloc_free h
  refine Finset.card_lt_card ⟨freePages_anti fun j hj => used_alloc hj, fun hsub => ?_⟩
  have hlt : k < f.pages.length := (List.getElem?_eq_some_iff.mp hk).1
  have hmem : k ∈ freePages f bmap := by simp [freePages, hlt, hu]
  have := hsub hmem
  rw [hb] at this
  simp [freePages, used_insert] at this

/-- Fuel for the frames left and for the three nested calls once there are none. -/
lemma mapPageFuel_isSome {n fuel phys virt : ℕ} (hn : (freePages M.fm s.bmap).card ≤ n)
    (hfuel : n + 4 ≤ fuel) : (mapPageFuel M fuel phys virt s).isSome = true := by
  induction n using Nat.strong_induction_on generalizing fuel phys virt s with
  | _ n ih =>
    obtain ⟨fuel, rfl⟩ : ∃ k, fuel = k + 1 := ⟨fuel - 1, by omega⟩
    have block : ∀ (touch : Paging → List Event) (t i : ℕ) {s : Paging},
        (freePages M.fm s.bmap).card ≤ n →
        ∃ r, newTable M (mapPageFuel M fuel) touch t i s = some r ∧
          (freePages M.fm r.1.bmap).card ≤ n := by
      intro touch t i s hs
      have hsome : (newTable M (mapPageFuel M fuel) touch t i s).isSome = true := by
        refine newTable_isSome fun _ => ?_
        by_cases hf : AllUsed M.fm s.bmap
        · obtain ⟨k, rfl⟩ : ∃ k, fuel = k + 3 := ⟨fuel - 3, by omega⟩
          rw [physPageAlloc_full hf]
          exact mapZero_isSome (by simpa [linked_full hf] using hf)
        · have hlt := card_freePages_alloc hf
          exact ih (freePages M.fm (physPageAlloc M.fm s.bmap).2).card (by omega)
            (by simp [linked]) (by omega)
      obtain ⟨r, hr⟩ := Option.isSome_iff_exists.mp hsome
      refine ⟨r, hr, le_trans (Finset.card_le_card (freePages_anti fun k hk => ?_)) hs⟩
      rcases newTable_cases hr with ⟨-, rfl⟩ | ⟨-, q, hq, hrq, -⟩
      · exact hk
      · rw [hrq]
        exact used_mapPageFuel hq (used_alloc hk)
    by_cases hal : phys % PAGE_SIZE ≠ 0 ∨ virt % PAGE_SIZE ≠ 0
    · rw [mapPageFuel, if_pos hal]; rfl
    · obtain ⟨r₁, h₁, hc₁⟩ := block (fun _ => []) M.pml4 (pml4Idx virt) hn
      obtain ⟨r₂, h₂, hc₂⟩ := block _ _ _ hc₁
      obtain ⟨r₃, h₃, -⟩ := block _ _ _ hc₂
      rw [mapPageFuel_walk (by omega) (by omega) h₁ rfl h₂ rfl h₃]
      rfl

lemma mapPageFuel_mono {fuel phys virt : ℕ} {r : Paging × List Event}
    (h : mapPageFuel M fuel phys virt s = some r) {fuel' : ℕ} (hle : fuel ≤ fuel') :
    mapPageFuel M fuel' phys virt s = some r := by
  induction fuel generalizing phys virt s r fuel' with
  | zero => simp [mapPageFuel] at h
  | succ fuel ih =>
    obtain ⟨fuel', rfl⟩ : ∃ k, fuel' = k + 1 := ⟨fuel' - 1, by omega⟩
    have block : ∀ {touch : Paging → List Event} {t i : ℕ} {s : Paging} {r : Paging × List Event},
        newTable M (mapPageFuel M fuel) touch t i s = some r →
        newTable M (mapPageFuel M fuel') touch t i s = some r := by
      intro touch t i s r h
      unfold newTable at h ⊢
      split at h
      · rename_i hp
        rwa [if_pos hp]
      · rename_i hp
        rw [if_neg hp]
        obtain ⟨q, hq, rfl⟩ := Option.map_eq_some_iff.mp h
        simp [ih hq (Nat.le_of_succ_le_succ hle)]
    rcases mapPageFuel_cases h with ⟨hal, rfl⟩ |
      ⟨hp, hv, r₁, r₂, r₃, pdpt, pd, pt, h₁, rfl, h₂, rfl, h₃, rfl, rfl⟩
    · rw [mapPageFuel, if_pos hal]
    · exact mapPageFuel_walk hp hv (block h₁) rfl (block h₂) rfl (block h₃)

lemma card_freePages_le (f : Freemap) (bmap : ℕ → ℕ) :
    (freePages f bmap).card ≤ f.pages.length :=
  calc (freePages f bmap).card ≤ (Finset.range f.pages.length).card := Finset.card_filter_le _ _
    _ = f.pages.length := Finset.card_range _

variable (M) in
/-- `map_page(phys, virt)`: the tables and the bitmap after the call, and what it did. -/
def mapPage (phys virt : ℕ) (s : Paging) : Paging × List Event :=
  (mapPageFuel M (M.fm.pages.length + 4) phys virt s).get
    (mapPageFuel_isSome (card_freePages_le M.fm s.bmap) (Nat.le_refl _))

lemma mapPageFuel_eq (phys virt : ℕ) (s : Paging) :
    mapPageFuel M (M.fm.pages.length + 4) phys virt s = some (mapPage M phys virt s) :=
  (Option.some_get _).symm

/-- Whatever fuel suffices gives the result of `map_page`. -/
theorem mapPage_eq_of_fuel {fuel phys virt : ℕ} {r : Paging × List Event}
    (h : mapPageFuel M fuel phys virt s = some r) : mapPage M phys virt s = r := by
  have h₁ := mapPageFuel_mono h (Nat.le_max_left fuel (M.fm.pages.length + 4))
  have h₂ := mapPageFuel_mono (mapPageFuel_eq phys virt s)
    (Nat.le_max_right fuel (M.fm.pages.length + 4))
  exact Option.some.inj (h₂.symm.trans h₁)

/-- **`map_page` terminates**, whatever `pml4`, the frames and the bitmap hold: its calls nest
at most four deeper than there are pages left. -/
theorem mapPage_terminates (M : Machine) (s : Paging) (phys virt : ℕ) :
    ∃ r, ∀ fuel, (freePages M.fm s.bmap).card + 4 ≤ fuel →
      mapPageFuel M fuel phys virt s = some r := by
  refine ⟨mapPage M phys virt s, fun fuel hfuel => ?_⟩
  obtain ⟨r, hr⟩ := Option.isSome_iff_exists.mp
    (@mapPageFuel_isSome M s _ fuel phys virt (le_refl _) hfuel)
  rw [hr, mapPage_eq_of_fuel hr]

lemma mapPage_unaligned {phys virt : ℕ} (h : phys % PAGE_SIZE ≠ 0 ∨ virt % PAGE_SIZE ≠ 0) :
    mapPage M phys virt s = (s, []) := by
  refine @mapPage_eq_of_fuel M s 1 phys virt _ ?_
  rw [mapPageFuel, if_pos h]

end FlameOS.MapPage
