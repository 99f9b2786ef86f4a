import FlameOS.ByteMem
import FlameOS.Boot

/-!
`free_pages`: which entries it clears.

It walks down the tables with pointers that have the flags of the entries left in them. So it
reads the PDPT seven bytes behind the entry that it should read, and what it takes for a PT is a
word that may be anywhere. It unmaps a page if that word happens to be the address of the PT.
-/

namespace FlameOS.Unmap

open FlameOS.Word FlameOS.FrameAlloc FlameOS.Trie FlameOS.PageTable FlameOS.MapPage
open FlameOS.MapSpec FlameOS.MapRun FlameOS.Boot FlameOS.ByteMem

variable {M : Machine} {s : Paging}

def frameOf (a : ℕ) : ℕ := a / PAGE_SIZE * PAGE_SIZE

def entryOf (a : ℕ) : ℕ := a % PAGE_SIZE / 8

def memory (s : Paging) : Mem := fun a => (s.frame (frameOf a) (entryOf a) / 256 ^ (a % 8)).toUInt8

def tableAt (M : Machine) (s : Paging) (virt : ℕ) : ℕ :=
  let pdpt := s.frame M.pml4 (pml4Idx virt)
  let pd := load64 (memory s) (add64 pdpt (8 * pdptIdx virt))
  load64 (memory s) (add64 pd (8 * pdIdx virt))

def entryAt (M : Machine) (s : Paging) (virt : ℕ) : ℕ :=
  add64 (tableAt M s virt) (8 * ptIdx virt)

/-- `*entry &= ~(1 << 0)`, of whose eight bytes only the first can change. -/
def clearPresent (s : Paging) (entry : ℕ) : Paging :=
  s.write (frameOf entry) (entryOf entry) (s.frame (frameOf entry) (entryOf entry) &&&
    ((2 ^ 64 - 1) ^^^ FLAG_PRESENT <<< (8 * (entry % 8))))

/-- `free_pages`, with the addresses that it stores to. -/
def freePages (M : Machine) : ℕ → ℕ → Paging → Paging × List ℕ
  | _, 0, s => (s, [])
  | virt, pages + 1, s =>
    let entry := entryAt M s virt
    let rest := freePages M (add64 virt PAGE_SIZE) pages (clearPresent s entry)
    (rest.1, entry :: rest.2)

/-! ### One turn -/

lemma present_eq_testBit (e : ℕ) : present e = e.testBit 0 := by
  unfold present FLAG_PRESENT
  rw [Nat.testBit_zero]
  have h : e &&& 1 <<< 0 = e % 2 := Nat.and_two_pow_sub_one_eq_mod e 1
  rw [h]
  rcases Nat.mod_two_eq_zero_or_one e with h | h <;> rw [h] <;> rfl

lemma present_cleared (e : ℕ) {k : ℕ} (hk : k < 8) :
    present (e &&& ((2 ^ 64 - 1) ^^^ FLAG_PRESENT <<< (8 * k))) = (present e && decide (k ≠ 0)) := by
  have hmask : ((2 ^ 64 - 1) ^^^ FLAG_PRESENT <<< (8 * k)).testBit 0 = decide (k ≠ 0) := by
    interval_cases k <;> decide
  rw [present_eq_testBit, Nat.testBit_and, hmask, present_eq_testBit]

lemma next_clearPresent_of_ne {entry x j : ℕ} (h : ¬ (x = frameOf entry ∧ j = entryOf entry)) :
    next (clearPresent s entry) x j = next s x j := by
  unfold next clearPresent
  rw [frame_write, if_neg h]

/-- The entry goes away exactly if the byte is its first. -/
lemma next_clearPresent_self {entry : ℕ} :
    next (clearPresent s entry) (frameOf entry) (entryOf entry) = none ↔
      entry % 8 = 0 ∨ next s (frameOf entry) (entryOf entry) = none := by
  rw [next_eq_none, next_eq_none]
  unfold clearPresent
  rw [frame_write, if_pos ⟨rfl, rfl⟩, present_cleared _ (Nat.mod_lt _ (by decide)),
    Bool.and_eq_false_iff, decide_eq_false_iff_not, not_not, or_comm]

/-- The frame is the PT of the page. -/
def PageTableOf (M : Machine) (s : Paging) (virt t : ℕ) : Prop :=
  walk (next s) M.pml4 [pml4Idx virt, pdptIdx virt, pdIdx virt] = some t

lemma PageTableOf.aligned {virt t : ℕ} (h : PageTableOf M s virt t) :
    t % PAGE_SIZE = 0 ∧ t < 2 ^ 52 := by
  obtain ⟨pd, -, hn⟩ := walk_snoc_eq_some.mp
    (show walk (next s) M.pml4 ([pml4Idx virt, pdptIdx virt] ++ [pdIdx virt]) = some t from h)
  unfold next at hn
  split at hn
  · cases hn
    unfold addrOf PAGE_SIZE
    rw [and_mask]
    omega
  · cases hn

lemma pageTableOf_of_lookup {virt : ℕ} (h : lookup M s virt ≠ none) :
    ∃ t, PageTableOf M s virt t := by
  obtain ⟨f, hf⟩ := Option.ne_none_iff_exists'.mp h
  rw [lookup, path_eq] at hf
  obtain ⟨t, ht, -⟩ := walk_snoc_eq_some.mp hf
  exact ⟨t, ht⟩

/-- The address of an entry of a table, from which the table and the index come back. -/
lemma entry_address {t i a : ℕ} (ht : t % PAGE_SIZE = 0) (hi : i < 512) :
    a = t + 8 * i ↔ frameOf a = t ∧ entryOf a = i ∧ a % 8 = 0 := by
  unfold frameOf entryOf PAGE_SIZE at *
  omega

/-- The store is to the entry of the page exactly if the pointer is the address of the PT. -/
lemma entryAt_eq_iff {virt t : ℕ} (ht : PageTableOf M s virt t) :
    entryAt M s virt = t + 8 * ptIdx virt ↔ tableAt M s virt = t := by
  have hlt : tableAt M s virt < 2 ^ 64 := load64_lt _ _
  obtain ⟨-, ht52⟩ := ht.aligned
  have hidx := ptIdx_lt virt
  unfold entryAt add64
  omega

/-- The turn of a page finds its PT, and no other page that is mapped has its entry there on its
way. -/
structure Finds (M : Machine) (s : Paging) (virt : ℕ) : Prop where
  table : PageTableOf M s virt (tableAt M s virt)
  alone : ∀ w, page w ≠ page virt → lookup M s w ≠ none →
    ∀ σ ρ, path w = σ ++ ptIdx virt :: ρ → walk (next s) M.pml4 σ ≠ some (tableAt M s virt)

section turn

variable {virt : ℕ} (h : Finds M s virt)

include h

lemma Finds.entry : frameOf (entryAt M s virt) = tableAt M s virt ∧
    entryOf (entryAt M s virt) = ptIdx virt ∧ entryAt M s virt % 8 = 0 :=
  (entry_address h.table.aligned.1 (ptIdx_lt virt)).mp ((entryAt_eq_iff h.table).mpr rfl)

lemma Finds.next_self :
    next (clearPresent s (entryAt M s virt)) (tableAt M s virt) (ptIdx virt) = none := by
  obtain ⟨hframe, hidx, hbyte⟩ := h.entry
  have := (next_clearPresent_self (s := s)).mpr (Or.inl hbyte)
  rwa [hframe, hidx] at this

lemma Finds.next_other {x j : ℕ} (hx : ¬ (x = tableAt M s virt ∧ j = ptIdx virt)) :
    next (clearPresent s (entryAt M s virt)) x j = next s x j := by
  obtain ⟨hframe, hidx, -⟩ := h.entry
  exact next_clearPresent_of_ne (by rwa [hframe, hidx])

lemma Finds.next_le (x j : ℕ) :
    next (clearPresent s (entryAt M s virt)) x j = next s x j ∨
      next (clearPresent s (entryAt M s virt)) x j = none := by
  by_cases hx : x = tableAt M s virt ∧ j = ptIdx virt
  · rw [hx.1, hx.2]
    exact Or.inr h.next_self
  · exact Or.inl (h.next_other hx)

lemma Finds.lookup_self : lookup M (clearPresent s (entryAt M s virt)) virt = none := by
  by_contra hne
  obtain ⟨f, hf⟩ := Option.ne_none_iff_exists'.mp hne
  rw [lookup, path_eq] at hf
  obtain ⟨t, ht, hn⟩ := walk_snoc_eq_some.mp hf
  have heq : t = tableAt M s virt :=
    Option.some.inj ((walk_of_le h.next_le ht).symm.trans h.table)
  rw [heq, h.next_self] at hn
  cases hn

lemma Finds.lookup_other {w : ℕ} (hw : page w ≠ page virt) :
    lookup M (clearPresent s (entryAt M s virt)) w = lookup M s w := by
  by_cases hnone : lookup M s w = none
  · rw [hnone]
    by_contra hne
    obtain ⟨f, hf⟩ := Option.ne_none_iff_exists'.mp hne
    cases (walk_of_le h.next_le hf).symm.trans hnone
  · exact walk_eq_of_avoid (fun x j hx => h.next_other hx) (h.alone w hw hnone)

end turn

/-- An index on the way of an address has three before it and behind it together. -/
lemma length_way {virt i : ℕ} {σ ρ : List ℕ} (h : path virt = σ ++ i :: ρ) :
    σ.length + ρ.length = 3 := by
  have hlen := congrArg List.length h
  rw [length_path, List.length_append, List.length_cons] at hlen
  omega

/-- The tables being a tree, no other page has the entry on its way. -/
lemma finds_of_shaped {virt : ℕ} (hs : Shaped (next s) M.pml4 3)
    (h : PageTableOf M s virt (tableAt M s virt)) : Finds M s virt := by
  refine ⟨h, fun w hw _ σ ρ hpath hσ => hw ((path_eq_iff w virt).mp ?_)⟩
  have hlen := length_way hpath
  obtain rfl := hs σ _ (by omega) (by simp) _ hσ h
  have hρ : ρ.length = 0 := by simpa using hlen
  obtain rfl := List.length_eq_zero_iff.mp hρ
  exact hpath

/-! ### The loop -/

lemma entryAt_congr {v w : ℕ} (h : page v = page w) : entryAt M s v = entryAt M s w := by
  have hpath := (path_eq_iff v w).mpr h
  simp only [path, List.cons.injEq, and_true] at hpath
  obtain ⟨h4, h3, h2, h1⟩ := hpath
  unfold entryAt tableAt
  rw [h4, h3, h2, h1]

lemma freePages_succ (virt n : ℕ) (s : Paging) :
    freePages M virt (n + 1) s =
      (clearPresent (freePages M virt n s).1
          (entryAt M (freePages M virt n s).1 (virt + n * PAGE_SIZE)),
        (freePages M virt n s).2 ++ [entryAt M (freePages M virt n s).1 (virt + n * PAGE_SIZE)]) := by
  induction n generalizing virt s with
  | zero =>
    rw [Nat.zero_mul, Nat.add_zero]
    rfl
  | succ n ih =>
    have hfirst : ∀ m, freePages M virt (m + 1) s =
        ((freePages M (add64 virt PAGE_SIZE) m (clearPresent s (entryAt M s virt))).1,
          entryAt M s virt ::
            (freePages M (add64 virt PAGE_SIZE) m (clearPresent s (entryAt M s virt))).2) :=
      fun m => rfl
    rw [hfirst (n + 1), ih, entryAt_congr (page_add64 virt n), hfirst n]
    rfl

/-- What the turns for `n` pages do that all find the PT. -/
structure Freed (M : Machine) (virt n : ℕ) (s : Paging) (r : Paging × List ℕ) : Prop where
  le : ∀ x j, next r.1 x j = next s x j ∨ next r.1 x j = none
  gone : ∀ i < n, lookup M r.1 (virt + i * PAGE_SIZE) = none
  others : ∀ w, (∀ i < n, page w ≠ page (virt + i * PAGE_SIZE)) → lookup M r.1 w = lookup M s w
  entries : ∀ a ∈ r.2, a % 8 = 0 ∧ ∃ i < n, PageTableOf M s (virt + i * PAGE_SIZE) (frameOf a)

lemma freed_of_finds {virt n : ℕ}
    (h : ∀ k < n, Finds M (freePages M virt k s).1 (virt + k * PAGE_SIZE)) :
    Freed M virt n s (freePages M virt n s) := by
  induction n with
  | zero =>
    exact ⟨fun _ _ => Or.inl rfl, fun i hi => absurd hi (Nat.not_lt_zero i), fun _ _ => rfl,
      fun a ha => absurd ha List.not_mem_nil⟩
  | succ n ih =>
    have hf := ih fun k hk => h k (Nat.lt_succ_of_lt hk)
    have hturn := h n (Nat.lt_succ_self n)
    rw [freePages_succ]
    set s₁ := (freePages M virt n s).1 with hs₁
    refine ⟨fun x j => ?_, fun i hi => ?_, fun w hw => ?_, fun a ha => ?_⟩
    · rcases hturn.next_le x j with hx | hx
      · rw [hx]
        exact hf.le x j
      · exact Or.inr hx
    · by_cases hpage : page (virt + i * PAGE_SIZE) = page (virt + n * PAGE_SIZE)
      · exact (lookup_congr hpage).trans hturn.lookup_self
      · have hin : i ≠ n := fun he => hpage (by rw [he])
        exact (hturn.lookup_other hpage).trans (hf.gone i (by omega))
    · exact (hturn.lookup_other (hw n (Nat.lt_succ_self n))).trans
        (hf.others w fun i hi => hw i (Nat.lt_succ_of_lt hi))
    · rcases List.mem_append.mp ha with ha | ha
      · obtain ⟨hbyte, i, hi, htab⟩ := hf.entries a ha
        exact ⟨hbyte, i, Nat.lt_succ_of_lt hi, htab⟩
      · rw [List.mem_singleton.mp ha]
        obtain ⟨hframe, -, hbyte⟩ := hturn.entry
        refine ⟨hbyte, n, Nat.lt_succ_self n, ?_⟩
        rw [hframe]
        exact walk_of_le hf.le hturn.table

/-! ### What is unmapped -/

/-- `find_physaddr` is 0 for the addresses of the pages and unchanged for all others, and the
stores are to the PTs of the pages. -/
structure Frees (M : Machine) (virt n : ℕ) (s : Paging) (r : Paging × List ℕ) : Prop where
  zero : ∀ i < n, ∀ w, page w = page (virt + i * PAGE_SIZE) → findPhysaddr M r.1 w = 0
  others : ∀ w, (∀ i < n, page w ≠ page (virt + i * PAGE_SIZE)) →
    findPhysaddr M r.1 w = findPhysaddr M s w
  writes : ∀ a ∈ r.2, ∀ b < 8, ∃ i < n, PageTableOf M s (virt + i * PAGE_SIZE) (frameOf (a + b))

lemma Freed.frees {virt n : ℕ} {r : Paging × List ℕ} (h : Freed M virt n s r) :
    Frees M virt n s r := by
  refine ⟨fun i hi w hw => ?_, fun w hw => findPhysaddr_congr (h.others w hw), fun a ha b hb => ?_⟩
  · exact findPhysaddr_of_none ((lookup_congr hw).trans (h.gone i hi))
  · obtain ⟨hbyte, htab⟩ := h.entries a ha
    have hframe : frameOf (a + b) = frameOf a := by
      unfold frameOf PAGE_SIZE
      omega
    rwa [hframe]

/-- The second byte of a page that is mapped has an address other than 0. -/
lemma findPhysaddr_ne_zero {v : ℕ} (h : lookup M s v ≠ none) :
    findPhysaddr M s (v / 4096 * 4096 + 1) ≠ 0 := by
  obtain ⟨f, hf⟩ := Option.ne_none_iff_exists'.mp h
  have hpage : page (v / 4096 * 4096 + 1) = page v := by
    unfold page
    omega
  rw [findPhysaddr_of_lookup ((lookup_congr hpage).trans hf)]
  omega

/-- A store that unmaps a page is to an entry on its way. -/
lemma on_way_of_unmapped {virt a : ℕ} (hl : lookup M s virt ≠ none)
    (hgone : lookup M (clearPresent s a) virt = none) :
    ∃ σ ρ, path virt = σ ++ entryOf a :: ρ ∧ walk (next s) M.pml4 σ = some (frameOf a) := by
  by_contra hc
  push Not at hc
  refine hl (Eq.trans ?_ hgone)
  exact (walk_eq_of_avoid (fun x j hx => next_clearPresent_of_ne hx)
    fun σ ρ hpath hσ => hc σ ρ hpath hσ).symm

/-- A store to a PT that unmaps a page is to the first byte of its entry. -/
lemma entry_of_unmapped {virt a t : ℕ} {π : List ℕ} (hs : Shaped (next s) M.pml4 3)
    (ht : walk (next s) M.pml4 π = some (frameOf a)) (hπ : π.length = 3)
    (htab : PageTableOf M s virt t) (hl : lookup M s virt ≠ none)
    (hgone : lookup M (clearPresent s a) virt = none) : a = t + 8 * ptIdx virt := by
  have hsame : ∀ x j, ¬ (x = frameOf a ∧ j = entryOf a) →
      next (clearPresent s a) x j = next s x j := fun x j hx => next_clearPresent_of_ne hx
  -- the entry is the last on the way of the page, or nothing would have changed for it
  have hpath : path virt = π ++ [entryOf a] := by
    by_contra hne
    refine hl (Eq.trans ?_ hgone)
    exact (lookup_value hsame hs ht hπ (by rw [length_path]) hne).symm
  rw [lookup, hpath, lookup_value_self hsame hs ht hπ] at hgone
  rw [path_eq] at hpath
  obtain ⟨rfl, hlast⟩ := List.append_inj' hpath rfl
  have hidx : ptIdx virt = entryOf a := List.singleton_inj.mp hlast
  have hframe : frameOf a = t := Option.some.inj (ht.symm.trans htab)
  refine (entry_address htab.aligned.1 (ptIdx_lt virt)).mpr ⟨hframe, hidx.symm, ?_⟩
  -- of the bytes of the entry only the first has its flag
  refine (next_clearPresent_self.mp hgone).resolve_right fun hnone => hl ?_
  rw [lookup, path_eq, walk_snoc, ht, Option.bind_some, hidx, hnone]

/-- If the pages up to number `n` are unmapped as they should be, the turn of that page finds its
PT. -/
lemma finds_of_frees {virt n : ℕ} (hs : Shaped (next s) M.pml4 3)
    (hmapped : lookup M s (virt + n * PAGE_SIZE) ≠ none)
    (hne : ∀ i < n, page (virt + n * PAGE_SIZE) ≠ page (virt + i * PAGE_SIZE))
    (hf : Freed M virt n s (freePages M virt n s))
    (h : Frees M virt (n + 1) s (freePages M virt (n + 1) s)) :
    Finds M (freePages M virt n s).1 (virt + n * PAGE_SIZE) := by
  rw [freePages_succ] at h
  set s₁ := (freePages M virt n s).1 with hs₁
  set v := virt + n * PAGE_SIZE with hv
  have hshaped : Shaped (next s₁) M.pml4 3 := fun π ρ hπ hρ t h₁ h₂ =>
    hs π ρ hπ hρ t (walk_of_le hf.le h₁) (walk_of_le hf.le h₂)
  have hl : lookup M s₁ v ≠ none := by rwa [hf.others v hne]
  obtain ⟨t, ht⟩ := pageTableOf_of_lookup hl
  have hgone : lookup M (clearPresent s₁ (entryAt M s₁ v)) v = none := by
    by_contra hsome
    refine findPhysaddr_ne_zero hsome (h.zero n (Nat.lt_succ_self n) _ ?_)
    unfold page
    omega
  obtain ⟨i, hi, htab⟩ := h.writes (entryAt M s₁ v)
    (List.mem_append_right _ (List.mem_singleton_self _)) 0 (by decide)
  -- what is on the way of the page is still the PT that it was
  obtain ⟨σ, ρ, hpath, hσ⟩ := on_way_of_unmapped hl hgone
  have hlen := length_way hpath
  obtain rfl := hs σ _ (by omega) (by simp) _ (walk_of_le hf.le hσ) htab
  have hentry := entry_of_unmapped hshaped hσ rfl ht hl hgone
  have htable : tableAt M s₁ v = t := (entryAt_eq_iff ht).mp hentry
  refine finds_of_shaped hshaped ?_
  rw [htable]
  exact ht

/-- **Freeing pages.** In every state that calls of `map_page` reach, `free_pages` unmaps exactly
its range, with stores to the PTs of its pages only, if the turn of every page finds its PT. If
frames did not run out, it does so for a number of pages and for all smaller numbers only then. -/
theorem free_pages_iff (M : Machine) (hM : FramesOk M) (s₀ : Paging) (hs₀ : Cleared M s₀)
    (calls : List (ℕ × ℕ)) (virt n : ℕ)
    (hmapped : ∀ i < n, lookup M (runCalls M calls s₀).1 (virt + i * PAGE_SIZE) ≠ none) :
    let s := (runCalls M calls s₀).1
    ((∀ k < n, Finds M (freePages M virt k s).1 (virt + k * PAGE_SIZE)) →
      Frees M virt n s (freePages M virt n s)) ∧
    ((∀ e ∈ (runCalls M calls s₀).2, ¬ RanOut M.fm e) → n ≤ 2 ^ 36 →
      (∀ m ≤ n, Frees M virt m s (freePages M virt m s)) →
        ∀ k < n, Finds M (freePages M virt k s).1 (virt + k * PAGE_SIZE)) := by
  intro s
  refine ⟨fun h => (freed_of_finds h).frees, fun hno hn hfrees k hk => ?_⟩
  have hs : Shaped (next s) M.pml4 3 := (runCalls_ext hM (wf_of_clear hs₀.pml4) hno).wf.shaped
  induction k using Nat.strong_induction_on with
  | _ k ih =>
    have hfreed : Freed M virt k s (freePages M virt k s) :=
      freed_of_finds fun j hj => ih j hj (hj.trans hk)
    have hlt : k < 2 ^ 36 := lt_of_lt_of_le hk hn
    have hne : ∀ i < k, page (virt + k * PAGE_SIZE) ≠ page (virt + i * PAGE_SIZE) :=
      fun i hi => (page_ne_of_lt hi hlt).symm
    exact finds_of_frees hs (hmapped k hk) hne hfreed (hfrees (k + 1) hk)

/-- Memory in which the word at 16 happens to be the address of the PT for `0x400000`. -/
def luckyWord : Paging := ⟨fun t i => if t = 0 ∧ i = 2 then 0x103000 else 0, fun _ => 0⟩

/-- The page is unmapped, since the word that is taken for the address of its PT is that. -/
theorem free_pages_iff_lucky :
    let M := smallMachine 16 (by decide)
    let s := (runCalls M [(0x300000, 0x400000)] luckyWord).1
    findPhysaddr M s 0x400008 = 0x300008 ∧
      Frees M 0x400000 1 s (freePages M 0x400000 1 s) := by
  have hno : ∀ e ∈ (runCalls (smallMachine 16 (by decide)) [(0x300000, 0x400000)] luckyWord).2,
      ¬ RanOut (smallMachine 16 (by decide)).fm e := by
    decide +kernel
  have hlucky : tableAt (smallMachine 16 (by decide)) (runCalls (smallMachine 16 (by decide))
      [(0x300000, 0x400000)] luckyWord).1 0x400000 = 0x103000 := by
    decide +kernel
  have hclear : Cleared (smallMachine 16 (by decide)) luckyWord := by
    refine ⟨fun i => ?_, fun _ => rfl⟩
    have h4 := (smallMachine 16 (by decide)).pml4_ne_zero
    unfold luckyWord
    dsimp only
    rw [if_neg (not_and_of_not_left _ h4)]
  have hs := (runCalls_ext (framesOk_smallMachine (by decide)) (wf_of_clear hclear.pml4) hno).wf
  have htab : PageTableOf (smallMachine 16 (by decide)) (runCalls (smallMachine 16 (by decide))
      [(0x300000, 0x400000)] luckyWord).1 0x400000 0x103000 := by
    unfold PageTableOf
    decide +kernel
  have hfinds := finds_of_shaped hs.shaped (by rw [hlucky]; exact htab)
  refine ⟨by decide +kernel, (free_pages_iff (smallMachine 16 (by decide))
    (framesOk_smallMachine (by decide)) luckyWord hclear [(0x300000, 0x400000)] 0x400000 1
    (by decide +kernel)).1 fun k hk => ?_⟩
  have hk0 : k = 0 := by omega
  have hnone : ∀ s, (freePages (smallMachine 16 (by decide)) 0x400000 0 s).1 = s := fun s => rfl
  rw [hk0, Nat.zero_mul, Nat.add_zero, hnone]
  exact hfinds

/-- In memory full of zeros the store is to the address 0, and the page stays mapped. -/
theorem not_free_pages :
    let M := smallMachine 16 (by decide)
    let s := (runCalls M [(0x300000, 0x400000)] zeroed).1
    (∀ e ∈ (runCalls M [(0x300000, 0x400000)] zeroed).2, ¬ RanOut M.fm e) ∧
      findPhysaddr M s 0x400000 = 0x300000 ∧ (freePages M 0x400000 1 s).2 = [0] ∧
      findPhysaddr M (freePages M 0x400000 1 s).1 0x400000 = 0x300000 :=
  ⟨by decide +kernel, by decide +kernel, by decide +kernel, by decide +kernel⟩

end FlameOS.Unmap
