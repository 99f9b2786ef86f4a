import FlameOS.Refresh

/-!
The passes of `refresh_freespace` one after the other: what is left of a table of regions
before each pass, and so which addresses are kept and which free spaces still touch.
-/

namespace FlameOS.Coalesce

open FlameOS.Word FlameOS.HeapTable FlameOS.HeapArena FlameOS.Refresh

/-! ### The passes in order -/

/-- What the passes before `t` leave of a table of regions. -/
structure After (lo hi n t : ℕ) (fs gs : ℕ → MemT) : Prop where
  regions : Regions lo hi n gs
  covered_eq : covered n gs = covered n fs
  later : ∀ j < n, t ≤ j → gs j = fs j ∨ gs j = ⟨0, 0⟩
  start : ∀ k < n, 0 < (gs k).size → (gs k).addr = (fs k).addr ∧ 0 < (fs k).size
  joined : ∀ k < n, 0 < (fs k).size → ((gs k).size = 0 ↔ Reached fs t k)
  emptied : ∀ j < n, t ≤ j → Reached fs t j → gs j = ⟨0, 0⟩
  stale : ∀ j < n, t ≤ j → (fs j).size = 0 → ¬ Reached fs t j →
    (∀ m < t, (fs m).size = 0 → (fs m).addr ≠ (fs j).addr) → gs j = fs j

section after

variable {lo hi n t j : ℕ} {fs gs : ℕ → MemT}

lemma mem_lasting_succ {i : ℕ} : i ∈ lasting fs (t + 1) ↔
    i = t ∧ 0 < (fs i).size ∧ ¬ Reached fs i i ∨ i ∈ lasting fs t := by
  rw [lasting]
  split
  · rename_i hc
    rw [List.mem_cons]
    refine or_congr_left ⟨?_, And.left⟩
    rintro rfl
    refine ⟨rfl, hc.1, ?_⟩
    rintro ⟨j, hj, he⟩
    exact hc.2 j hj he
  · rename_i hc
    rw [or_iff_right]
    rintro ⟨rfl, hsize, hnot⟩
    exact hc ⟨hsize, fun j hj he => hnot ⟨j, hj, he⟩⟩

lemma mem_lasting {i : ℕ} (h : i ∈ lasting fs t) : i < t ∧ 0 < (fs i).size := by
  induction t with
  | zero => cases h
  | succ t ih =>
    rcases mem_lasting_succ.mp h with ⟨rfl, hsize, -⟩ | h
    · exact ⟨Nat.lt_succ_self i, hsize⟩
    · exact ⟨(ih h).1.trans (Nat.lt_succ_self t), (ih h).2⟩

lemma lasting_subset {s : ℕ} (h : s ≤ t) : lasting fs s ⊆ lasting fs t := by
  induction t, h using Nat.le_induction with
  | base => exact List.Subset.refl _
  | succ t _ ih =>
    rw [lasting]
    split
    · exact List.Subset.trans ih (List.subset_cons_self t _)
    · exact ih

lemma reached_mono {s : ℕ} (h : Reached fs s j) (hst : s ≤ t) : Reached fs t j := by
  obtain ⟨i, hi', he⟩ := h
  exact ⟨i, lasting_subset hst hi', he⟩

lemma reached_congr {k : ℕ} (h : Reached fs t j) (ha : (fs j).addr = (fs k).addr) :
    Reached fs t k := by
  obtain ⟨i, hi', he⟩ := h
  exact ⟨i, hi', he.trans ha⟩

/-- An entry with bytes that is not reached before its pass lasts. -/
lemma reached_succ_of_last (hs : 0 < (fs t).size) (hr : ¬ Reached fs t t) :
    Reached fs (t + 1) j ↔ ends (fs t) = (fs j).addr ∨ Reached fs t j := by
  have hc : 0 < (fs t).size ∧ ∀ i ∈ lasting fs t, ends (fs i) ≠ (fs t).addr :=
    ⟨hs, fun i hi' he => hr ⟨i, hi', he⟩⟩
  unfold Reached
  rw [lasting, if_pos hc]
  simp

lemma reached_succ_of_not (h : (fs t).size = 0 ∨ Reached fs t t) :
    Reached fs (t + 1) j ↔ Reached fs t j := by
  have hc : ¬ (0 < (fs t).size ∧ ∀ i ∈ lasting fs t, ends (fs i) ≠ (fs t).addr) := by
    rintro ⟨hs, hall⟩
    rcases h with h | ⟨i, hi', he⟩
    · omega
    · exact hall i hi' he
  unfold Reached
  rw [lasting, if_neg hc]

lemma after_zero (h : Regions lo hi n fs) : After lo hi n 0 fs fs := by
  have hno : ∀ k, ¬ Reached fs 0 k := fun k ⟨i, hi', _⟩ => List.not_mem_nil hi'
  exact ⟨h, rfl, fun _ _ _ => Or.inl rfl, fun _ _ hs => ⟨rfl, hs⟩,
    fun k _ hs => ⟨fun hz => absurd hz hs.ne', fun hr => absurd hr (hno k)⟩,
    fun j _ _ hr => absurd hr (hno j), fun _ _ _ _ _ _ => rfl⟩

lemma After.empty (h : After lo hi n t fs gs) (ht : t < n) (hs : (gs t).size = 0)
    (hno : ∀ k < n, (gs k).addr = (gs t).addr → (gs k).size = 0) :
    After lo hi n (t + 1) fs (mergeEntry n t gs) := by
  have hm : ∀ m < n, mergeEntry n t gs m =
      if (gs m).addr = (gs t).addr then ⟨0, 0⟩ else gs m := fun m =>
    mergeEntry_empty ht hs (h.regions.word t ht) hno
  have hsame : ∀ m < n, mergeEntry n t gs m = gs m ∨
      mergeEntry n t gs m = ⟨0, 0⟩ ∧ (gs m).size = 0 := by
    intro m hmn
    rw [hm m hmn]
    split
    · rename_i ha
      exact Or.inr ⟨rfl, hno m hmn ha⟩
    · exact Or.inl rfl
  have hsize : ∀ m < n, (mergeEntry n t gs m).size = (gs m).size := by
    intro m hmn
    rcases hsame m hmn with he | ⟨he, hz⟩ <;> rw [he]
    exact hz.symm
  have hr : ∀ k, Reached fs (t + 1) k ↔ Reached fs t k := by
    refine fun k => reached_succ_of_not ?_
    by_cases hf : 0 < (fs t).size
    · exact Or.inr ((h.joined t ht hf).mp hs)
    · exact Or.inl (by omega)
  refine ⟨(h.regions.erased fun m hmn => (hsame m hmn).imp_right And.left).1, ?_,
    fun j hj htj => ?_, fun k hk hpos => ?_, fun k hk hpos => ?_, fun j hj htj hrj => ?_,
    fun j hj htj hsj hrj hbefore => ?_⟩
  · rw [← h.covered_eq]
    exact covered_erased fun m hmn => (hsame m hmn).imp_right fun he => ⟨by rw [he.1], he.2⟩
  · rcases hsame j hj with he | ⟨he, -⟩ <;> rw [he]
    · exact h.later j hj (by omega)
    · exact Or.inr rfl
  · rw [hsize k hk] at hpos
    rcases hsame k hk with he | ⟨-, hz⟩
    · rw [he]
      exact h.start k hk hpos
    · omega
  · rw [hsize k hk, hr]
    exact h.joined k hk hpos
  · have he := h.emptied j hj (by omega) ((hr j).mp hrj)
    rcases hsame j hj with he' | ⟨he', -⟩ <;> rw [he']
    exact he
  · have hj' := h.stale j hj (by omega) hsj (fun hc => hrj ((hr j).mpr hc))
      fun m hmt => hbefore m (by omega)
    rw [hm j hj, hj']
    split
    · rename_i ha
      -- the entry of this pass is empty, and then its address is 0
      rcases h.later t ht (le_refl t) with he | he <;> rw [he] at ha
      · have hz : (fs t).size = 0 := by rw [← he]; exact hs
        exact absurd ha.symm (hbefore t (Nat.lt_succ_self t) hz)
      · generalize fs j = e at ha hsj
        cases e
        simp_all
    · rfl

/-- A pass for an entry that has bytes clears the entries that begin where it ends. -/
lemma mergeEntry_of_regions (h : Regions lo hi n gs) (hhi : hi < 2 ^ 64) (ht : t < n)
    (hs : 0 < (gs t).size) {m : ℕ} (hm : m < n) (hmt : m ≠ t) : mergeEntry n t gs m =
      if (gs m).addr = ends (gs t) then ⟨0, 0⟩ else gs m := by
  have hadd : add64 (gs t).addr (gs t).size = ends (gs t) := by
    have := (h.within t ht hs).2
    exact add64_eq (by unfold ends at this; omega)
  rw [mergeEntry_other hm hmt, hadd]

/-- Such a pass loses no byte, and the entry stays where it begins. -/
lemma regions_mergeEntry (h : Regions lo hi n gs) (h0 : 0 < lo) (hhi : hi < 2 ^ 64) (ht : t < n)
    (hs : 0 < (gs t).size) :
    (Regions lo hi n (mergeEntry n t gs) ∧ covered n (mergeEntry n t gs) = covered n gs) ∧
      (mergeEntry n t gs t).addr = (gs t).addr ∧ 0 < (mergeEntry n t gs t).size := by
  have hm : ∀ m < n, m ≠ t → mergeEntry n t gs m =
      if (gs m).addr = ends (gs t) then ⟨0, 0⟩ else gs m := fun m hmn hmt =>
    mergeEntry_of_regions h hhi ht hs hmn hmt
  rcases mergeEntry_full (regions_cut h) hhi ht (h.ne_zero h0 ht hs) hs with
    ⟨he, hz⟩ | ⟨k, hk, hkt, hka, hks, he⟩
  · have hsame : ∀ m < n, mergeEntry n t gs m = gs m ∨
        mergeEntry n t gs m = ⟨0, 0⟩ ∧ (gs m).size = 0 := by
      intro m hmn
      by_cases hmt : m = t
      · rw [hmt]
        exact Or.inl he
      · rw [hm m hmn hmt]
        split
        · rename_i ha
          exact Or.inr ⟨rfl, hz m hmn ha⟩
        · exact Or.inl rfl
    refine ⟨⟨(h.erased fun m hmn => (hsame m hmn).imp_right And.left).1,
      covered_erased fun m hmn => (hsame m hmn).imp_right fun he => ⟨by rw [he.1], he.2⟩⟩, ?_⟩
    rw [he]
    exact ⟨rfl, hs⟩
  · refine ⟨h.joined ht hk hkt hs hks hka he (by rw [hm k hk hkt, if_pos hka]) ?_, ?_⟩
    · intro m hmn hmt hmk
      rw [hm m hmn hmt]
      split
      · rename_i ha
        refine Or.inr ⟨rfl, ?_⟩
        by_contra hms
        exact hmk (h.start_inj hmn hk (Nat.pos_of_ne_zero hms) hks (ha.trans hka.symm))
      · exact Or.inl rfl
    · rw [he]
      exact ⟨rfl, Nat.add_pos_left hs _⟩

lemma After.full (h : After lo hi n t fs gs) (h0 : 0 < lo) (hhi : hi < 2 ^ 64) (ht : t < n)
    (hs : 0 < (gs t).size) : After lo hi n (t + 1) fs (mergeEntry n t gs) := by
  have hst := h.start t ht hs
  have hnr : ¬ Reached fs t t := fun hr => hs.ne' ((h.joined t ht hst.2).mpr hr)
  have hgt : gs t = fs t := by
    rcases h.later t ht (le_refl t) with he | he
    · exact he
    · rw [he] at hs
      exact absurd hs (Nat.lt_irrefl 0)
  have hends : ends (gs t) = ends (fs t) := by rw [hgt]
  have hr : ∀ k, Reached fs (t + 1) k ↔ ends (gs t) = (fs k).addr ∨ Reached fs t k := fun k => by
    rw [hends]
    exact reached_succ_of_last hst.2 hnr
  have hm : ∀ m < n, m ≠ t → mergeEntry n t gs m =
      if (gs m).addr = ends (gs t) then ⟨0, 0⟩ else gs m := fun m hmn hmt =>
    mergeEntry_of_regions h.regions hhi ht hs hmn hmt
  obtain ⟨hreg, hself⟩ := regions_mergeEntry h.regions h0 hhi ht hs
  rw [hst.1] at hself
  refine ⟨hreg.1, hreg.2.trans h.covered_eq, fun j hj htj => ?_, fun k hk hpos => ?_,
    fun k hk hpos => ?_, fun j hj htj hrj => ?_, fun j hj htj hsj hrj hbefore => ?_⟩
  · rw [hm j hj (by omega)]
    split
    · exact Or.inr rfl
    · exact h.later j hj (by omega)
  · by_cases hkt : k = t
    · rw [hkt]
      exact ⟨hself.1, hst.2⟩
    · rw [hm k hk hkt] at hpos ⊢
      split at hpos
      · exact absurd hpos (Nat.lt_irrefl 0)
      · rename_i ha
        rw [if_neg ha]
        exact h.start k hk hpos
  · rw [hr]
    by_cases hkt : k = t
    · rw [hkt]
      refine ⟨fun hz => absurd hz hself.2.ne', ?_⟩
      rintro (he | hc)
      · rw [hends] at he
        unfold ends at he
        omega
      · exact absurd hc hnr
    · rw [hm k hk hkt]
      have hj := h.joined k hk hpos
      have hs' := h.start k hk
      split
      · rename_i ha
        refine ⟨fun _ => ?_, fun _ => rfl⟩
        by_cases hz : (gs k).size = 0
        · exact Or.inr (hj.mp hz)
        · exact Or.inl (ha.symm.trans (hs' (Nat.pos_of_ne_zero hz)).1)
      · rename_i ha
        rw [hj]
        refine ⟨Or.inr, ?_⟩
        rintro (he | hc)
        · by_contra hnk
          have hz : (gs k).size ≠ 0 := fun hz => hnk (hj.mp hz)
          exact ha ((hs' (Nat.pos_of_ne_zero hz)).1.trans he.symm)
        · exact hc
  · rw [hm j hj (by omega)]
    split
    · rfl
    · rename_i ha
      rcases (hr j).mp hrj with he | hc
      · rcases h.later j hj (by omega) with hl | hl
        · rw [hl] at ha
          exact absurd he.symm ha
        · exact hl
      · exact h.emptied j hj (by omega) hc
  · rw [hr, not_or] at hrj
    rw [hm j hj (by omega), h.stale j hj (by omega) hsj hrj.2 fun m hmt => hbefore m (by omega),
      if_neg (Ne.symm hrj.1)]

/-- The pass loses nothing if an empty entry that bears the address of an entry with bytes has
been cleared by then. -/
lemma After.step (h : After lo hi n t fs gs) (h0 : 0 < lo) (hhi : hi < 2 ^ 64) (ht : t < n)
    (hc : (fs t).size = 0 → ∀ k < n, 0 < (fs k).size → (fs k).addr = (fs t).addr →
      Reached fs t t) : After lo hi n (t + 1) fs (mergeEntry n t gs) := by
  by_cases hs : 0 < (gs t).size
  · exact h.full h0 hhi ht hs
  have hz : (gs t).size = 0 := by omega
  refine h.empty ht hz fun k hk hka => ?_
  by_contra hks
  have hpos := Nat.pos_of_ne_zero hks
  have hne := h.regions.ne_zero h0 hk hpos
  have hsk := h.start k hk hpos
  rcases h.later t ht (le_refl t) with he | he
  · -- entry `t` is as it was, so nothing reached it
    have hfz : (fs t).size = 0 := by rw [← he]; exact hz
    have hr := hc hfz k hk hsk.2 (by rw [← hsk.1, hka, he])
    rw [hka, h.emptied t ht (le_refl t) hr] at hne
    exact hne rfl
  · rw [hka, he] at hne
    exact hne rfl

lemma after_passes (h : Regions lo hi n fs) (h0 : 0 < lo) (hhi : hi < 2 ^ 64) (ht : t ≤ n)
    (hc : ∀ j < t, (fs j).size = 0 → ∀ k < n, 0 < (fs k).size → (fs k).addr = (fs j).addr →
      Reached fs j j) : After lo hi n t fs (passes n t fs) := by
  induction t with
  | zero => exact after_zero h
  | succ t ih =>
    exact (ih (by omega) fun j hj => hc j (by omega)).step h0 hhi (by omega)
      (hc t (Nat.lt_succ_self t))

/-- What no entry with an address covers stays lost. -/
lemma lost_passes {s a : ℕ} (hst : s ≤ t) (ht : t ≤ n) (hhi : hi < 2 ^ 64)
    (h : Regions lo hi n (cut (passes n s fs))) (hw : ∀ m < n, (passes n s fs m).addr < 2 ^ 64)
    (ha : a ∉ covered n (cut (passes n s fs))) :
    (Regions lo hi n (cut (passes n t fs)) ∧ ∀ m < n, (passes n t fs m).addr < 2 ^ 64) ∧
      a ∉ covered n (cut (passes n t fs)) := by
  induction t, hst using Nat.le_induction with
  | base => exact ⟨⟨h, hw⟩, ha⟩
  | succ t _ ih =>
    obtain ⟨⟨hr, hw'⟩, ha'⟩ := ih (by omega)
    have hp := hr.cut_pass hhi (by omega : t < n) hw'
    exact ⟨hp.1, fun hc => ha' (hp.2 hc)⟩

/-- The pass for entry `t` loses an address, if none did before. -/
def Loses (n : ℕ) (fs : ℕ → MemT) (t : ℕ) : Prop :=
  t < n ∧ (fs t).size = 0 ∧
    ∃ k < n, 0 < (fs k).size ∧ (fs k).addr = (fs t).addr ∧ ¬ Reached fs t t

lemma exists_first_loss (h : ¬ Cleared n fs) : ∃ t, Loses n fs t ∧ ∀ j < t, ¬ Loses n fs j := by
  classical
  have hex : ∃ t, Loses n fs t := by
    by_contra hno
    exact h fun j hj hs k hk hks hka => by
      by_contra hr
      exact hno ⟨j, hj, hs, k, hk, hks, hka, hr⟩
  exact ⟨Nat.find hex, Nat.find_spec hex, fun j => Nat.find_min hex⟩

/-- The passes keep the addresses exactly if every empty entry that bears the address of an
entry with bytes is cleared before its own pass. -/
lemma covered_passes_iff (h : Regions lo hi n fs) (h0 : 0 < lo) (hhi : hi < 2 ^ 64) :
    covered n (passes n n fs) = covered n fs ↔ Cleared n fs := by
  refine ⟨fun heq => ?_, fun hc =>
    (after_passes h h0 hhi (le_refl n) fun j hj => hc j hj).covered_eq⟩
  by_contra hnot
  -- the first pass that loses an address
  obtain ⟨t, ⟨ht, hts, k, hk, hks, hka, hr⟩, hmin⟩ := exists_first_loss hnot
  have hA := after_passes h h0 hhi ht.le fun j hj hs k hk hks hka => by
    by_contra hrj
    exact hmin j hj ⟨hj.trans ht, hs, k, hk, hks, hka, hrj⟩
  have hgt : passes n t fs t = fs t := by
    refine hA.stale t ht (le_refl t) hts hr fun m hmt hms hma => ?_
    exact hmin m hmt ⟨hmt.trans ht, hms, k, hk, hks, hka.trans hma.symm,
      fun hrm => hr (reached_congr (reached_mono hrm hmt.le) hma)⟩
  have hgks : 0 < (passes n t fs k).size := by
    refine Nat.pos_of_ne_zero fun hz => hr ?_
    exact reached_congr ((hA.joined k hk hks).mp hz) hka
  have hgka := (hA.start k hk hgks).1
  have hne := h.ne_zero h0 hk hks
  have hw : ∀ m < n, (passes n t fs m).addr < 2 ^ 64 := hA.regions.word
  have hcut := regions_cut hA.regions
  have hlost : (fs k).addr ∉ covered n (cut (passes n (t + 1) fs)) := by
    have := hcut.lost ht (hw t ht) (by rw [hgt]; exact hts) hk hgks (by rw [hgka, hgt, hka])
      (by rw [hgt, ← hka]; exact hne)
    rwa [hgt, ← hka] at this
  have hp := (hcut.cut_pass hhi ht hw).1
  have hend := (lost_passes ht (le_refl n) hhi hp.1 hp.2 hlost).2
  -- the address is still covered, by an entry that bears none, and so is address 0
  have hin : (fs k).addr ∈ covered n fs := ⟨k, hk, start_mem hks⟩
  rw [← heq] at hin
  obtain ⟨l, hl, hal⟩ := hin
  by_cases hla : (passes n n fs l).addr = 0
  · have hz : 0 ∈ covered n (passes n n fs) := ⟨l, hl, by
      rw [mem_bytes] at hal ⊢
      omega⟩
    rw [heq] at hz
    obtain ⟨m, hm, hzm⟩ := hz
    rw [mem_bytes] at hzm
    exact h.ne_zero h0 hm (by omega) (by omega)
  · exact hend ⟨l, hl, by rwa [cut_of_ne hla]⟩

/-! ### Regions that touch -/

/-- No two entries with bytes are contiguous. -/
def Coalesced (n : ℕ) (fs : ℕ → MemT) : Prop :=
  ∀ i < n, ∀ j < n, i ≠ j → 0 < (fs i).size → 0 < (fs j).size → ends (fs i) ≠ (fs j).addr

/-- Of three regions in a chain, the second is in a slot before the first. -/
def Descending (n : ℕ) (fs : ℕ → MemT) : Prop :=
  ∀ i < n, ∀ j < n, ∀ k < n, 0 < (fs i).size → 0 < (fs j).size → 0 < (fs k).size →
    ends (fs i) = (fs j).addr → ends (fs j) = (fs k).addr → j < i

/-- The unused entries are cleared. -/
def Tidy (n : ℕ) (fs : ℕ → MemT) : Prop := ∀ i < n, (fs i).size = 0 → (fs i).addr = 0

lemma Tidy.cleared (hz : Tidy n fs) (h : Regions lo hi n fs) (h0 : 0 < lo) : Cleared n fs :=
  fun j hj hs _ hk hks hka => absurd (hka.trans (hz j hj hs)) (h.ne_zero h0 hk hks)

lemma mem_lasting_self (hs : 0 < (fs j).size) (hr : ¬ Reached fs j j) :
    j ∈ lasting fs (j + 1) := by
  rw [lasting, if_pos ⟨hs, fun i hi' he => hr ⟨i, hi', he⟩⟩]
  exact List.mem_cons_self

lemma not_reached_of_mem (h : j ∈ lasting fs t) : ¬ Reached fs j j := by
  induction t with
  | zero => cases h
  | succ t ih =>
    rcases mem_lasting_succ.mp h with ⟨rfl, -, hnot⟩ | h
    · exact hnot
    · exact ih h

lemma ends_eq_of_mem (h : Regions lo hi n fs) (h0 : 0 < lo) {l z : ℕ} (hl : l < n) (hz : z < n)
    (hzs : 0 < (fs z).size) (hm : (fs z).addr - 1 ∈ bytes (fs l)) :
    l ≠ z ∧ 0 < (fs l).size ∧ ends (fs l) = (fs z).addr := by
  have hne := h.ne_zero h0 hz hzs
  have hlz : l ≠ z := by
    rintro rfl
    rw [mem_bytes] at hm
    omega
  rw [mem_bytes] at hm
  refine ⟨hlz, by omega, ?_⟩
  by_contra he
  unfold ends at he
  exact hlz (h.eq_of_mem hl hz (mem_bytes.mpr ⟨by omega, by omega⟩) (start_mem hzs))

/-- The passes join every chain exactly if its slots descend, the last slot apart. -/
lemma coalesced_passes_iff (h : Regions lo hi n fs) (h0 : 0 < lo) (hhi : hi < 2 ^ 64)
    (htidy : Tidy n fs) : Coalesced n (passes n n fs) ↔ Descending n fs := by
  have hA := after_passes h h0 hhi (le_refl n) fun j hj => htidy.cleared h h0 j hj
  constructor
  · intro hco i hi' j hj k hk his hjs hks hij hjk
    by_contra hlt
    have hne : i ≠ j := by
      rintro rfl
      unfold ends at hij
      omega
    -- a region that lasts, and the next one in a later slot
    obtain ⟨y, z, hy, hz, hys, hzs, hyz, hr⟩ : ∃ y z, y < n ∧ z < n ∧ 0 < (fs y).size ∧
        0 < (fs z).size ∧ ends (fs y) = (fs z).addr ∧ Reached fs y y := by
      by_cases hri : Reached fs i i
      · exact ⟨i, j, hi', hj, his, hjs, hij, hri⟩
      · exact ⟨j, k, hj, hk, hjs, hks, hjk,
          ⟨i, lasting_subset (by omega) (mem_lasting_self his hri), hij⟩⟩
    have hnz : ¬ Reached fs n z := by
      rintro ⟨l, hl, hle⟩
      obtain ⟨hln, hls⟩ := mem_lasting hl
      obtain rfl := h.ends_inj hln hy hls hys (hle.trans hyz.symm)
      exact not_reached_of_mem hl hr
    have hgz : 0 < (passes n n fs z).size :=
      Nat.pos_of_ne_zero fun hc => hnz ((hA.joined z hz hzs).mp hc)
    have hza := (hA.start z hz hgz).1
    have hin : (fs z).addr - 1 ∈ covered n fs := ⟨y, hy, hyz ▸ last_mem hys⟩
    rw [← hA.covered_eq, ← hza] at hin
    obtain ⟨l, hl, hal⟩ := hin
    obtain ⟨hlz, hls, hle⟩ := ends_eq_of_mem hA.regions h0 hl hz hgz hal
    exact hco l hl z hz hlz hls hgz hle
  · intro hd u hu v hv huv hus hvs huv'
    obtain ⟨hva, hfv⟩ := hA.start v hv hvs
    have hin : (fs v).addr - 1 ∈ covered n (passes n n fs) :=
      ⟨u, hu, hva ▸ huv' ▸ last_mem hus⟩
    rw [hA.covered_eq] at hin
    obtain ⟨x, hx, hxa⟩ := hin
    obtain ⟨-, hxs, hxe⟩ := ends_eq_of_mem h h0 hx hv hfv hxa
    have hrx : ¬ Reached fs x x := by
      rintro ⟨i, hi', hix⟩
      obtain ⟨hin', his⟩ := mem_lasting hi'
      have := hd i (by omega) x hx v hv his hxs hfv hix hxe
      omega
    have hrv : Reached fs n v := ⟨x, lasting_subset hx (mem_lasting_self hxs hrx), hxe⟩
    exact hvs.ne' ((hA.joined v hv hfv).mpr hrv)

end after

/-! ### `refresh_freespace` -/

/-- The free spaces of both heaps are regions. -/
def Regular (t : Tables) : Prop :=
  ∀ heap < HEAPS, Regions (heapBase heap) (heapLimit heap) FREE_SPACES (t.freespace heap)

lemma freespace_refreshFreespace {heap : ℕ} (hheap : heap < HEAPS) (t : Tables) :
    (refreshFreespace t).freespace heap = passes FREE_SPACES FREE_SPACES (t.freespace heap) :=
  if_pos hheap

lemma limit_lt (heap : ℕ) : heapLimit heap < 2 ^ 64 := by
  have := (heap_bounds heap).2
  omega

def kernelFree (l : List MemT) : Tables where
  freespace heap i := if heap = 0 then l.getD i ⟨0, 0⟩ else ⟨0, 0⟩
  allocations _ _ := ⟨0, 0⟩

/-- The entries of the list are disjoint and lie in the kernel heap. -/
def ListRegions (l : List MemT) : Prop :=
  ∀ i < l.length, (l.getD i ⟨0, 0⟩).addr < 2 ^ 64 ∧
    (0 < (l.getD i ⟨0, 0⟩).size →
      kernelHeap ≤ (l.getD i ⟨0, 0⟩).addr ∧ ends (l.getD i ⟨0, 0⟩) ≤ kernelStack) ∧
    ∀ j < l.length, i < j → (l.getD i ⟨0, 0⟩).size = 0 ∨ (l.getD j ⟨0, 0⟩).size = 0 ∨
      ends (l.getD i ⟨0, 0⟩) ≤ (l.getD j ⟨0, 0⟩).addr ∨
      ends (l.getD j ⟨0, 0⟩) ≤ (l.getD i ⟨0, 0⟩).addr

instance (l : List MemT) : Decidable (ListRegions l) :=
  inferInstanceAs (Decidable (∀ i < l.length, _ ∧ _ ∧ ∀ j < l.length, _))

lemma lt_of_kernelFree {l : List MemT} {heap i : ℕ}
    (h : (kernelFree l).freespace heap i ≠ ⟨0, 0⟩) : heap = 0 ∧ i < l.length := by
  by_cases hheap : heap = 0
  · refine ⟨hheap, ?_⟩
    by_contra hge
    exact h ((if_pos hheap).trans (List.getD_eq_default _ _ (not_lt.mp hge)))
  · exact absurd (if_neg hheap) h

lemma ne_of_full {e : MemT} (h : 0 < e.size) : e ≠ ⟨0, 0⟩ := by
  rintro rfl
  exact Nat.lt_irrefl 0 h

lemma tidy_kernelFree {l : List MemT}
    (h : ∀ i < l.length, (l.getD i ⟨0, 0⟩).size = 0 → (l.getD i ⟨0, 0⟩).addr = 0) (heap : ℕ) :
    Tidy FREE_SPACES ((kernelFree l).freespace heap) := by
  intro i _ hs
  by_cases he : (kernelFree l).freespace heap i = ⟨0, 0⟩
  · rw [he]
  · obtain ⟨rfl, hi'⟩ := lt_of_kernelFree he
    exact h i hi' hs

lemma regular_kernelFree {l : List MemT} (h : ListRegions l) : Regular (kernelFree l) := by
  intro heap _
  have hlt : ∀ {i}, 0 < ((kernelFree l).freespace heap i).size → heap = 0 ∧ i < l.length :=
    fun hs => lt_of_kernelFree (ne_of_full hs)
  refine regions_of_lt (fun i _ => ?_) (fun i _ hs => ?_) fun i _ j _ hij his hjs => ?_
  · by_cases he : (kernelFree l).freespace heap i = ⟨0, 0⟩
    · rw [he]
      exact Nat.two_pow_pos 64
    · obtain ⟨rfl, hi'⟩ := lt_of_kernelFree he
      exact (h i hi').1
  · obtain ⟨rfl, hi'⟩ := hlt hs
    exact (h i hi').2.1 hs
  · obtain ⟨rfl, hi'⟩ := hlt his
    exact (((h i hi').2.2 j (hlt hjs).2 hij).resolve_left his.ne').resolve_left hjs.ne'

/-- **When `refresh_freespace` keeps the free addresses.** It does exactly for the tables in
which every empty entry that bears the address of an entry with bytes is cleared before its
own pass, by an entry in an earlier slot that ends there and has not been cleared itself. -/
theorem refreshFreespace_keeps_iff (t : Tables) (ht : Regular t) :
    (∀ heap < HEAPS, covered FREE_SPACES ((refreshFreespace t).freespace heap) =
      covered FREE_SPACES (t.freespace heap)) ↔
    ∀ heap < HEAPS, Cleared FREE_SPACES (t.freespace heap) := by
  refine forall₂_congr fun heap hheap => ?_
  rw [freespace_refreshFreespace hheap]
  exact covered_passes_iff (ht heap hheap) (heap_bounds heap).1 (limit_lt heap)

/-- The third entry has bytes; the second is empty, bears its address and is cleared with the
first entry's pass. -/
def clearedFirst : Tables :=
  kernelFree [⟨kernelHeap, 16⟩, ⟨kernelHeap + 16, 0⟩, ⟨kernelHeap + 16, 32⟩]

/-- The second entry is empty and bears the address of the first. -/
def emptyLast : Tables := kernelFree [⟨kernelHeap, 16⟩, ⟨kernelHeap, 0⟩]

theorem refreshFreespace_keeps_iff_clearedFirst :
    covered FREE_SPACES ((refreshFreespace clearedFirst).freespace 0) =
      covered FREE_SPACES (clearedFirst.freespace 0) := by
  have hreg : Regular clearedFirst := regular_kernelFree (by decide)
  refine (refreshFreespace_keeps_iff clearedFirst hreg).mpr
    (fun heap hheap j hj hs k hk hks hka => ?_) 0 (by decide)
  obtain ⟨rfl, hkl⟩ := lt_of_kernelFree (ne_of_full hks)
  have hne := (hreg 0 hheap).ne_zero (heap_bounds 0).1 hk hks
  obtain ⟨-, hjl⟩ : (0 : ℕ) = 0 ∧ j < 3 := lt_of_kernelFree fun he =>
    hne (hka.trans (congrArg MemT.addr he))
  obtain rfl : j = 1 := by
    interval_cases j
    · exact absurd hs (by decide)
    · rfl
    · exact absurd hs (by decide)
  exact ⟨0, by decide, rfl⟩

theorem not_refreshFreespace_keeps : Regular emptyLast ∧
    covered FREE_SPACES ((refreshFreespace emptyLast).freespace 0) ≠
      covered FREE_SPACES (emptyLast.freespace 0) := by
  have hreg : Regular emptyLast := regular_kernelFree (by decide)
  refine ⟨hreg, fun heq => ?_⟩
  rw [freespace_refreshFreespace (by decide), covered_passes_iff (hreg 0 (by decide))
    (heap_bounds 0).1 (limit_lt 0)] at heq
  obtain ⟨i, hi, he⟩ := heq 1 (by decide) rfl 0 (by decide) (by decide) rfl
  obtain rfl : i = 0 := by
    have := (mem_lasting hi).1
    omega
  exact absurd he (by decide)

/-- **When `refresh_freespace` leaves no contiguous free spaces.** With the unused entries
cleared it does exactly if in every chain of three the second region is in a slot before
the first. -/
theorem refreshFreespace_coalesces_iff (t : Tables) (ht : Regular t)
    (hz : ∀ heap < HEAPS, Tidy FREE_SPACES (t.freespace heap)) :
    (∀ heap < HEAPS, Coalesced FREE_SPACES ((refreshFreespace t).freespace heap)) ↔
    ∀ heap < HEAPS, Descending FREE_SPACES (t.freespace heap) := by
  refine forall₂_congr fun heap hheap => ?_
  rw [freespace_refreshFreespace hheap]
  exact coalesced_passes_iff (ht heap hheap) (heap_bounds heap).1 (limit_lt heap) (hz heap hheap)

def descending : Tables :=
  kernelFree [⟨kernelHeap + 32, 16⟩, ⟨kernelHeap + 16, 16⟩, ⟨kernelHeap, 16⟩]

def ascending : Tables :=
  kernelFree [⟨kernelHeap, 16⟩, ⟨kernelHeap + 16, 16⟩, ⟨kernelHeap + 32, 16⟩]

theorem refreshFreespace_coalesces_iff_descending :
    Coalesced FREE_SPACES ((refreshFreespace descending).freespace 0) := by
  have hreg : Regular descending := regular_kernelFree (by decide)
  refine (refreshFreespace_coalesces_iff descending hreg ?_).mpr ?_ 0 (by decide)
  · exact fun heap _ => tidy_kernelFree (by decide) heap
  · intro heap _ i _ j _ k _ his hjs hks hij hjk
    obtain ⟨rfl, hi⟩ := lt_of_kernelFree (ne_of_full his)
    obtain ⟨-, hj⟩ := lt_of_kernelFree (ne_of_full hjs)
    obtain ⟨-, hk⟩ := lt_of_kernelFree (ne_of_full hks)
    have hall : ∀ i < 3, ∀ j < 3,
        ends (descending.freespace 0 i) = (descending.freespace 0 j).addr → j < i := by decide
    exact hall i hi j hj hij

theorem not_refreshFreespace_coalesces : Regular ascending ∧
    (∀ heap < HEAPS, Tidy FREE_SPACES (ascending.freespace heap)) ∧
    ¬ Coalesced FREE_SPACES ((refreshFreespace ascending).freespace 0) := by
  have hreg : Regular ascending := regular_kernelFree (by decide)
  have htidy : ∀ heap < HEAPS, Tidy FREE_SPACES (ascending.freespace heap) :=
    fun heap _ => tidy_kernelFree (by decide) heap
  refine ⟨hreg, htidy, fun hco => ?_⟩
  rw [freespace_refreshFreespace (by decide), coalesced_passes_iff (hreg 0 (by decide))
    (heap_bounds 0).1 (limit_lt 0) (htidy 0 (by decide))] at hco
  have := hco 0 (by decide) 1 (by decide) 2 (by decide) (by decide) (by decide) (by decide) rfl rfl
  omega

end FlameOS.Coalesce
