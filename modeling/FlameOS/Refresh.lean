import FlameOS.HeapArena

/-!
`refresh_freespace`: which addresses it keeps, and when it joins all free spaces that touch.

A pass of the outer loop joins the free spaces that begin where one entry ended before the
pass. The entry itself is among those compared, and an empty entry ends where it begins, so
the address that an empty entry was left with matters, and so does the order of the slots.
-/

namespace FlameOS.Refresh

open FlameOS.Word FlameOS.HeapTable FlameOS.HeapArena

/-- The inner loop over the entries of a list: those at `endAddr` go to entry `j`. -/
def mergeInto (j endAddr : ℕ) : List ℕ → (ℕ → MemT) → ℕ → MemT
  | [], fs => fs
  | k :: ks, fs =>
    if (fs k).addr = endAddr then
      mergeInto j endAddr ks (Function.update
        (Function.update fs j ⟨(fs j).addr, add64 (fs j).size (fs k).size⟩) k ⟨0, 0⟩)
    else mergeInto j endAddr ks fs

/-- A pass of the outer loop over a table of `n` entries. -/
def mergeEntry (n j : ℕ) (fs : ℕ → MemT) : ℕ → MemT :=
  mergeInto j (add64 (fs j).addr (fs j).size) (List.range n) fs

def passes (n : ℕ) : ℕ → (ℕ → MemT) → ℕ → MemT
  | 0, fs => fs
  | j + 1, fs => mergeEntry n j (passes n j fs)

def refreshFreespace (t : Tables) : Tables :=
  { t with freespace := fun heap =>
      if heap < HEAPS then passes FREE_SPACES FREE_SPACES (t.freespace heap) else t.freespace heap }

def ends (e : MemT) : ℕ := e.addr + e.size

def covered (n : ℕ) (fs : ℕ → MemT) : Set ℕ := {a | ∃ i < n, a ∈ bytes (fs i)}

/-- The entries with bytes are disjoint and lie in the heap. The others have any address. -/
structure Regions (lo hi n : ℕ) (fs : ℕ → MemT) : Prop where
  within : ∀ i < n, 0 < (fs i).size → lo ≤ (fs i).addr ∧ ends (fs i) ≤ hi
  separate : ∀ i < n, ∀ j < n, i ≠ j → Disjoint (bytes (fs i)) (bytes (fs j))
  word : ∀ i < n, (fs i).addr < 2 ^ 64

/-- The entries, the latest first, that have bytes and that no earlier entry of the list
takes over before their own pass. -/
def lasting (fs : ℕ → MemT) : ℕ → List ℕ
  | 0 => []
  | j + 1 =>
    if 0 < (fs j).size ∧ ∀ i ∈ lasting fs j, ends (fs i) ≠ (fs j).addr then j :: lasting fs j
    else lasting fs j

/-- One of the lasting entries before `t` ends where entry `j` begins. -/
def Reached (fs : ℕ → MemT) (t j : ℕ) : Prop := ∃ i ∈ lasting fs t, ends (fs i) = (fs j).addr

/-- An empty entry that bears the address of an entry with bytes is cleared before its pass. -/
def Cleared (n : ℕ) (fs : ℕ → MemT) : Prop :=
  ∀ j < n, (fs j).size = 0 → ∀ k < n, 0 < (fs k).size → (fs k).addr = (fs j).addr →
    Reached fs j j

/-! ### The inner loop -/

section inner

variable {j e k m : ℕ} {ks : List ℕ} {fs : ℕ → MemT}

lemma mergeInto_other (hks : ks.Nodup) (hm : m ≠ j) :
    mergeInto j e ks fs m = if m ∈ ks ∧ (fs m).addr = e then ⟨0, 0⟩ else fs m := by
  induction ks generalizing fs with
  | nil => simp [mergeInto]
  | cons k ks ih =>
    obtain ⟨hk, hks⟩ := List.nodup_cons.mp hks
    rw [mergeInto]
    split
    · rename_i he
      rw [ih hks]
      by_cases hmk : m = k
      · subst hmk
        simp [hk, he]
      · simp [hm, hmk]
    · rename_i he
      rw [ih hks]
      by_cases hmk : m = k
      · subst hmk
        simp [hk, he]
      · simp [hmk]

/-- To join an entry without bytes is to clear it. -/
lemma update_join (hw : (fs j).size < 2 ^ 64) (hk : (fs k).size = 0) :
    Function.update (Function.update fs j ⟨(fs j).addr, add64 (fs j).size (fs k).size⟩) k ⟨0, 0⟩ =
      Function.update fs k ⟨0, 0⟩ := by
  rw [hk, add64_eq (by omega)]
  simp

lemma mergeInto_none (hj : (fs j).addr ≠ e) (hw : (fs j).size < 2 ^ 64)
    (h : ∀ k ∈ ks, (fs k).addr = e → (fs k).size = 0) : mergeInto j e ks fs j = fs j := by
  induction ks generalizing fs with
  | nil => rfl
  | cons k ks ih =>
    rw [mergeInto]
    split
    · rename_i he
      have hkj : j ≠ k := by
        rintro rfl
        exact hj he
      rw [update_join hw (h k List.mem_cons_self he), ih]
      · simp [hkj]
      · simpa [hkj] using hj
      · simpa [hkj] using hw
      · intro l hl hle
        by_cases hlk : l = k
        · simp [hlk]
        · rw [Function.update_of_ne hlk] at hle ⊢
          exact h l (List.mem_cons_of_mem k hl) hle
    · exact ih hj hw fun l hl => h l (List.mem_cons_of_mem k hl)

lemma mergeInto_one (hks : ks.Nodup) (hj : (fs j).addr ≠ e) (hk : k ∈ ks) (hke : (fs k).addr = e)
    (hw : (fs j).size + (fs k).size < 2 ^ 64)
    (h : ∀ l ∈ ks, l ≠ k → (fs l).addr = e → (fs l).size = 0) :
    mergeInto j e ks fs j = ⟨(fs j).addr, (fs j).size + (fs k).size⟩ := by
  induction ks generalizing fs with
  | nil => exact absurd hk List.not_mem_nil
  | cons l ks ih =>
    obtain ⟨hl, hks⟩ := List.nodup_cons.mp hks
    have hkj : k ≠ j := by
      rintro rfl
      exact hj hke
    rw [mergeInto]
    rcases List.mem_cons.mp hk with rfl | hk'
    · -- from here on nothing is added
      rw [if_pos hke, mergeInto_none]
      · simp [hkj.symm, add64_eq hw]
      · simpa [hkj.symm] using hj
      · simp [hkj.symm, add64_eq hw]
        omega
      · intro m hm hme
        have hmk : m ≠ k := by
          rintro rfl
          exact hl hm
        rw [Function.update_of_ne hmk] at hme ⊢
        have hmj : m ≠ j := by
          rintro rfl
          rw [Function.update_self] at hme
          exact hj hme
        rw [Function.update_of_ne hmj] at hme ⊢
        exact h m (List.mem_cons_of_mem k hm) hmk hme
    · have hlk : k ≠ l := by
        rintro rfl
        exact hl hk'
      split
      · rename_i he
        have hlj : j ≠ l := by
          rintro rfl
          exact hj he
        rw [update_join (by omega) (h l List.mem_cons_self hlk.symm he), ih hks]
        · simp [hlj, hlk]
        · simpa [hlj] using hj
        · exact hk'
        · simpa [hlk] using hke
        · simpa [hlj, hlk] using hw
        · intro m hm hmk hme
          by_cases hml : m = l
          · simp [hml]
          · rw [Function.update_of_ne hml] at hme ⊢
            exact h m (List.mem_cons_of_mem l hm) hmk hme
      · exact ih hks hj hk' hke hw fun m hm => h m (List.mem_cons_of_mem l hm)

/-- The address of entry `j` stays, until the entry itself is compared. -/
lemma addr_mergeInto (hj : j ∉ ks) : (mergeInto j e ks fs j).addr = (fs j).addr := by
  induction ks generalizing fs with
  | nil => rfl
  | cons k ks ih =>
    obtain ⟨hjk, hj⟩ := not_or.mp (List.mem_cons.not.mp hj)
    rw [mergeInto]
    split
    · rw [ih hj]
      simp [hjk]
    · exact ih hj

lemma addr_mergeInto_or : (mergeInto j e ks fs j).addr = (fs j).addr ∨
    (mergeInto j e ks fs j).addr = 0 := by
  induction ks generalizing fs with
  | nil => exact Or.inl rfl
  | cons k ks ih =>
    rw [mergeInto]
    split
    · rcases @ih (Function.update (Function.update fs j
        ⟨(fs j).addr, add64 (fs j).size (fs k).size⟩) k ⟨0, 0⟩) with h | h
      · by_cases hjk : j = k
        · subst hjk
          exact Or.inr (by simpa using h)
        · exact Or.inl (by simpa [hjk] using h)
      · exact Or.inr h
    · exact ih

/-- An entry that is at the address itself loses its own. -/
lemma addr_mergeInto_self (hks : ks.Nodup) (hj : j ∈ ks) (hje : (fs j).addr = e) :
    (mergeInto j e ks fs j).addr = 0 := by
  induction ks generalizing fs with
  | nil => exact absurd hj List.not_mem_nil
  | cons k ks ih =>
    obtain ⟨hk, hks⟩ := List.nodup_cons.mp hks
    rw [mergeInto]
    by_cases hjk : j = k
    · subst hjk
      rw [if_pos hje, addr_mergeInto hk]
      simp
    · have hj' := (List.mem_cons.mp hj).resolve_left hjk
      split
      · exact ih hks hj' (by simpa [hjk] using hje)
      · exact ih hks hj' hje

lemma size_mergeInto_self (hj : (fs j).size = 0) (h : ∀ k ∈ ks, (fs k).addr = e → (fs k).size = 0) :
    (mergeInto j e ks fs j).size = 0 := by
  induction ks generalizing fs with
  | nil => exact hj
  | cons k ks ih =>
    rw [mergeInto]
    split
    · rename_i he
      have hadd : add64 (fs j).size (fs k).size = 0 := by
        rw [hj, h k List.mem_cons_self he]
        rfl
      refine ih ?_ fun l hl hle => ?_
      · by_cases hjk : j = k
        · simp [hjk]
        · simp [hjk, hadd]
      · by_cases hlk : l = k
        · simp [hlk]
        · by_cases hlj : l = j
          · subst hlj
            simp [hlk, hadd]
          · simp only [Function.update_of_ne hlk, Function.update_of_ne hlj] at hle ⊢
            exact h l (List.mem_cons_of_mem k hl) hle
    · exact ih hj fun l hl => h l (List.mem_cons_of_mem k hl)

end inner

/-! ### Regions -/

section regions

variable {lo hi n : ℕ} {fs gs : ℕ → MemT}

lemma last_mem {e : MemT} (h : 0 < e.size) : ends e - 1 ∈ bytes e := by
  unfold ends
  exact mem_bytes.mpr ⟨by omega, by omega⟩

lemma regions_of_lt (hword : ∀ i < n, (fs i).addr < 2 ^ 64)
    (hin : ∀ i < n, 0 < (fs i).size → lo ≤ (fs i).addr ∧ ends (fs i) ≤ hi)
    (hsep : ∀ i < n, ∀ j < n, i < j → 0 < (fs i).size → 0 < (fs j).size →
      ends (fs i) ≤ (fs j).addr ∨ ends (fs j) ≤ (fs i).addr) : Regions lo hi n fs := by
  have hdisj : ∀ i < n, ∀ j < n, i < j → Disjoint (bytes (fs i)) (bytes (fs j)) := by
    intro i hi' j hj hij
    rw [Set.disjoint_left]
    intro a hai haj
    rw [mem_bytes] at hai haj
    have := hsep i hi' j hj hij (by omega) (by omega)
    unfold ends at this
    omega
  refine ⟨hin, fun i hi' j hj hij => ?_, hword⟩
  rcases Nat.lt_or_gt_of_ne hij with hlt | hlt
  · exact hdisj i hi' j hj hlt
  · exact (hdisj j hj i hi' hlt).symm

/-- Entries with bytes are told apart by any byte they have. -/
lemma Regions.eq_of_mem (h : Regions lo hi n fs) {i k a : ℕ} (hi' : i < n) (hk : k < n)
    (hai : a ∈ bytes (fs i)) (hak : a ∈ bytes (fs k)) : i = k := by
  by_contra hne
  exact Set.disjoint_left.mp (h.separate i hi' k hk hne) hai hak

lemma Regions.start_inj (h : Regions lo hi n fs) {i k : ℕ} (hi' : i < n) (hk : k < n)
    (his : 0 < (fs i).size) (hks : 0 < (fs k).size) (ha : (fs i).addr = (fs k).addr) : i = k :=
  h.eq_of_mem hi' hk (start_mem his) (ha ▸ start_mem hks)

lemma Regions.ends_inj (h : Regions lo hi n fs) {i k : ℕ} (hi' : i < n) (hk : k < n)
    (his : 0 < (fs i).size) (hks : 0 < (fs k).size) (he : ends (fs i) = ends (fs k)) : i = k :=
  h.eq_of_mem hi' hk (last_mem his) (he ▸ last_mem hks)

lemma Regions.erased (h : Regions lo hi n fs) (hg : ∀ m < n, gs m = fs m ∨ gs m = ⟨0, 0⟩) :
    Regions lo hi n gs ∧ covered n gs ⊆ covered n fs := by
  have hz : bytes ⟨0, 0⟩ = ∅ := bytes_eq_empty rfl
  refine ⟨⟨fun i hi' hs => ?_, fun i hi' j hj hij => ?_, fun i hi' => ?_⟩, ?_⟩
  · rcases hg i hi' with he | he <;> rw [he] at hs ⊢
    · exact h.within i hi' hs
    · exact absurd hs (Nat.lt_irrefl 0)
  · rcases hg i hi' with he | he <;> rw [he]
    · rcases hg j hj with he' | he' <;> rw [he']
      · exact h.separate i hi' j hj hij
      · rw [hz]
        exact Set.disjoint_empty _
    · rw [hz]
      exact Set.empty_disjoint _
  · rcases hg i hi' with he | he <;> rw [he]
    · exact h.word i hi'
    · exact Nat.two_pow_pos 64
  · rintro a ⟨i, hi', ha⟩
    rcases hg i hi' with he | he <;> rw [he] at ha
    · exact ⟨i, hi', ha⟩
    · rw [hz] at ha
      exact absurd ha (Set.notMem_empty a)

lemma covered_erased
    (hg : ∀ m < n, gs m = fs m ∨ (gs m).size = 0 ∧ (fs m).size = 0) :
    covered n gs = covered n fs := by
  ext a
  constructor <;> rintro ⟨i, hi', ha⟩ <;> rcases hg i hi' with he | ⟨he, he'⟩
  · exact ⟨i, hi', he ▸ ha⟩
  · rw [bytes_eq_empty he] at ha
    exact absurd ha (Set.notMem_empty a)
  · exact ⟨i, hi', he ▸ ha⟩
  · rw [bytes_eq_empty he'] at ha
    exact absurd ha (Set.notMem_empty a)

/-- Joining the region that begins where another ends leaves regions. -/
lemma Regions.joined (h : Regions lo hi n fs) {j k : ℕ} (hj : j < n) (hk : k < n) (hkj : k ≠ j)
    (hjs : 0 < (fs j).size) (hks : 0 < (fs k).size) (he : (fs k).addr = ends (fs j))
    (hgj : gs j = ⟨(fs j).addr, (fs j).size + (fs k).size⟩) (hgk : gs k = ⟨0, 0⟩)
    (hg : ∀ m < n, m ≠ j → m ≠ k → gs m = fs m ∨ gs m = ⟨0, 0⟩ ∧ (fs m).size = 0) :
    Regions lo hi n gs ∧ covered n gs = covered n fs := by
  have hwj := h.within j hj hjs
  have hwk := h.within k hk hks
  have hz : bytes ⟨0, 0⟩ = ∅ := bytes_eq_empty rfl
  have hbytes : bytes (gs j) = bytes (fs j) ∪ bytes (fs k) := by
    ext a
    rw [hgj, Set.mem_union, mem_bytes, mem_bytes, mem_bytes]
    unfold ends at he
    dsimp only
    omega
  -- a byte of the new table is one of the old, of `k` only in `j`
  have hback : ∀ m < n, ∀ a ∈ bytes (gs m), a ∈ bytes (fs m) ∨ m = j ∧ a ∈ bytes (fs k) := by
    intro m hm a ha
    by_cases hmj : m = j
    · subst hmj
      rw [hbytes] at ha
      exact ha.imp_right fun ha => ⟨rfl, ha⟩
    · by_cases hmk : m = k
      · rw [hmk, hgk, hz] at ha
        exact absurd ha (Set.notMem_empty a)
      · rcases hg m hm hmj hmk with hm' | ⟨hm', -⟩ <;> rw [hm'] at ha
        · exact Or.inl ha
        · rw [hz] at ha
          exact absurd ha (Set.notMem_empty a)
  have hnk : ∀ a, a ∉ bytes (gs k) := by
    intro a ha
    rw [hgk, hz] at ha
    exact ha
  refine ⟨⟨fun i hi' hs => ?_, fun i hi' l hl hil => ?_, fun i hi' => ?_⟩, ?_⟩
  · by_cases hij : i = j
    · rw [hij, hgj]
      unfold ends at he hwk ⊢
      dsimp only
      omega
    · have hik : i ≠ k := by
        rintro rfl
        exact hnk _ (start_mem hs)
      rcases hg i hi' hij hik with hm | ⟨hm, -⟩ <;> rw [hm] at hs ⊢
      · exact h.within i hi' hs
      · exact absurd hs (Nat.lt_irrefl 0)
  · rw [Set.disjoint_left]
    intro a hai hal
    have hik : i ≠ k := fun hc => hnk a (hc ▸ hai)
    have hlk : l ≠ k := fun hc => hnk a (hc ▸ hal)
    rcases hback i hi' a hai with hi₁ | ⟨rfl, hi₁⟩ <;> rcases hback l hl a hal with hl₁ | ⟨rfl, hl₁⟩
    · exact hil (h.eq_of_mem hi' hl hi₁ hl₁)
    · exact hik (h.eq_of_mem hi' hk hi₁ hl₁)
    · exact hlk (h.eq_of_mem hl hk hl₁ hi₁)
    · exact hil rfl
  · by_cases hij : i = j
    · rw [hij, hgj]
      exact h.word j hj
    · by_cases hik : i = k
      · rw [hik, hgk]
        exact Nat.two_pow_pos 64
      · rcases hg i hi' hij hik with hm | ⟨hm, -⟩ <;> rw [hm]
        · exact h.word i hi'
        · exact Nat.two_pow_pos 64
  · ext a
    constructor
    · rintro ⟨i, hi', ha⟩
      rcases hback i hi' a ha with ha | ⟨-, ha⟩
      · exact ⟨i, hi', ha⟩
      · exact ⟨k, hk, ha⟩
    · rintro ⟨i, hi', ha⟩
      by_cases hij : i = j
      · exact ⟨j, hj, hbytes ▸ Or.inl (hij ▸ ha)⟩
      · by_cases hik : i = k
        · exact ⟨j, hj, hbytes ▸ Or.inr (hik ▸ ha)⟩
        · rcases hg i hi' hij hik with hm | ⟨-, hm⟩
          · exact ⟨i, hi', hm ▸ ha⟩
          · rw [bytes_eq_empty hm] at ha
            exact absurd ha (Set.notMem_empty a)

end regions

/-! ### A pass -/

/-- The table without the entries that bear no address. -/
def cut (fs : ℕ → MemT) (i : ℕ) : MemT := if (fs i).addr = 0 then ⟨0, 0⟩ else fs i

section pass

variable {lo hi n j m : ℕ} {fs : ℕ → MemT}

lemma cut_of_ne (h : (fs j).addr ≠ 0) : cut fs j = fs j := if_neg h

lemma cut_of_eq (h : (fs j).addr = 0) : cut fs j = ⟨0, 0⟩ := if_pos h

lemma Regions.ne_zero (h : Regions lo hi n fs) (h0 : 0 < lo) (hj : j < n) (hs : 0 < (fs j).size) :
    (fs j).addr ≠ 0 := by
  have := (h.within j hj hs).1
  omega

lemma regions_cut (h : Regions lo hi n fs) : Regions lo hi n (cut fs) :=
  (h.erased fun m _ => by
    unfold cut
    split
    · exact Or.inr rfl
    · exact Or.inl rfl).1

/-- Every other entry where entry `j` ended is cleared. -/
lemma mergeEntry_other (hm : m < n) (hmj : m ≠ j) : mergeEntry n j fs m =
    if (fs m).addr = add64 (fs j).addr (fs j).size then ⟨0, 0⟩ else fs m := by
  rw [mergeEntry, mergeInto_other List.nodup_range hmj]
  simp [hm]

/-- A pass for an entry without bytes, if no bytes begin at its address. -/
lemma mergeEntry_empty (hj : j < n) (hs : (fs j).size = 0) (hw : (fs j).addr < 2 ^ 64)
    (hno : ∀ k < n, (fs k).addr = (fs j).addr → (fs k).size = 0) (hm : m < n) :
    mergeEntry n j fs m = if (fs m).addr = (fs j).addr then ⟨0, 0⟩ else fs m := by
  have he : add64 (fs j).addr (fs j).size = (fs j).addr := by
    rw [hs, add64_eq (by omega), Nat.add_zero]
  by_cases hmj : m = j
  · subst hmj
    rw [if_pos rfl, mergeEntry, he]
    have ha := addr_mergeInto_self List.nodup_range (List.mem_range.mpr hj)
      (rfl : (fs m).addr = (fs m).addr)
    have hz : (mergeInto m (fs m).addr (List.range n) fs m).size = 0 :=
      size_mergeInto_self hs fun k hk => hno k (List.mem_range.mp hk)
    generalize mergeInto m (fs m).addr (List.range n) fs m = e at ha hz
    cases e
    simp_all
  · rw [mergeEntry_other hm hmj, he]

/-- A pass for an entry without bytes takes its address. -/
lemma addr_mergeEntry (hj : j < n) (hw : (fs j).addr < 2 ^ 64)
    (h : (fs j).addr = 0 ∨ (fs j).size = 0) : (mergeEntry n j fs j).addr = 0 := by
  rcases h with h | h
  · rcases @addr_mergeInto_or j (add64 (fs j).addr (fs j).size) (List.range n) fs with ha | ha
    · exact ha.trans h
    · exact ha
  · have he : add64 (fs j).addr (fs j).size = (fs j).addr := by
      rw [h, add64_eq (by omega), Nat.add_zero]
    exact addr_mergeInto_self List.nodup_range (List.mem_range.mpr hj) he.symm

/-- A pass for an entry with bytes joins the region that begins at its end. -/
lemma mergeEntry_full (h : Regions lo hi n (cut fs)) (hhi : hi < 2 ^ 64) (hj : j < n)
    (ha : (fs j).addr ≠ 0) (hs : 0 < (fs j).size) :
    (mergeEntry n j fs j = fs j ∧ ∀ k < n, (fs k).addr = ends (fs j) → (fs k).size = 0) ∨
    ∃ k < n, k ≠ j ∧ (fs k).addr = ends (fs j) ∧ 0 < (fs k).size ∧
      mergeEntry n j fs j = ⟨(fs j).addr, (fs j).size + (fs k).size⟩ := by
  have hc := cut_of_ne ha
  have hwj := h.within j hj (by rwa [hc])
  rw [hc] at hwj
  have hne : (fs j).addr ≠ ends (fs j) := by
    unfold ends
    omega
  have he : add64 (fs j).addr (fs j).size = ends (fs j) :=
    add64_eq (by unfold ends at hwj; omega)
  rw [mergeEntry, he]
  unfold ends at hwj
  by_cases hk : ∃ k < n, (fs k).addr = ends (fs j) ∧ 0 < (fs k).size
  · obtain ⟨k, hk, hka, hks⟩ := hk
    have hck : ∀ l, (fs l).addr = ends (fs j) → cut fs l = fs l := fun l hl =>
      cut_of_ne (by rw [hl]; unfold ends; omega)
    have hwk := h.within k hk (by rwa [hck k hka])
    rw [hck k hka] at hwk
    refine Or.inr ⟨k, hk, ?_, hka, hks, ?_⟩
    · rintro rfl
      exact hne hka
    · refine mergeInto_one List.nodup_range hne (List.mem_range.mpr hk) hka ?_ ?_
      · unfold ends at hwk hka
        omega
      · intro l hl hlk hla
        by_contra hls
        refine hlk (h.start_inj (List.mem_range.mp hl) hk ?_ ?_ ?_)
        · rw [hck l hla]
          omega
        · rwa [hck k hka]
        · rw [hck l hla, hck k hka, hla, hka]
  · have hz : ∀ k < n, (fs k).addr = ends (fs j) → (fs k).size = 0 := by
      intro k hkn hka
      by_contra hks
      exact hk ⟨k, hkn, hka, Nat.pos_of_ne_zero hks⟩
    refine Or.inl ⟨mergeInto_none hne (by omega) fun k hk => hz k (List.mem_range.mp hk), hz⟩

/-! ### A pass that loses an address -/

/-- No pass brings an address back. -/
lemma Regions.cut_pass (h : Regions lo hi n (cut fs)) (hhi : hi < 2 ^ 64) (hj : j < n)
    (hw : ∀ m < n, (fs m).addr < 2 ^ 64) :
    (Regions lo hi n (cut (mergeEntry n j fs)) ∧
      ∀ m < n, (mergeEntry n j fs m).addr < 2 ^ 64) ∧
    covered n (cut (mergeEntry n j fs)) ⊆ covered n (cut fs) := by
  have hother : ∀ m < n, m ≠ j → cut (mergeEntry n j fs) m = cut fs m ∨
      cut (mergeEntry n j fs) m = ⟨0, 0⟩ := by
    intro m hm hmj
    unfold cut
    rw [mergeEntry_other hm hmj]
    split <;> simp
  have hword : ∀ m < n, (mergeEntry n j fs m).addr < 2 ^ 64 := by
    intro m hm
    by_cases hmj : m = j
    · subst hmj
      rcases @addr_mergeInto_or m (add64 (fs m).addr (fs m).size) (List.range n) fs with ha | ha
      · exact lt_of_eq_of_lt ha (hw m hm)
      · exact lt_of_eq_of_lt ha (Nat.two_pow_pos 64)
    · rw [mergeEntry_other hm hmj]
      split
      · exact Nat.two_pow_pos 64
      · exact hw m hm
  suffices hr : Regions lo hi n (cut (mergeEntry n j fs)) ∧
      covered n (cut (mergeEntry n j fs)) ⊆ covered n (cut fs) from
    ⟨⟨hr.1, hword⟩, hr.2⟩
  have hcut : cut (mergeEntry n j fs) j = cut fs j ∨
      cut (mergeEntry n j fs) j = ⟨0, 0⟩ →
        Regions lo hi n (cut (mergeEntry n j fs)) ∧
          covered n (cut (mergeEntry n j fs)) ⊆ covered n (cut fs) := by
    refine fun he => h.erased fun m hm => ?_
    by_cases hmj : m = j
    · rw [hmj]
      exact he
    · exact hother m hm hmj
  by_cases hc : (fs j).addr = 0 ∨ (fs j).size = 0
  · exact hcut (Or.inr (cut_of_eq (addr_mergeEntry hj (hw j hj) hc)))
  rw [not_or] at hc
  have hs := Nat.pos_of_ne_zero hc.2
  rcases mergeEntry_full h hhi hj hc.1 hs with ⟨he, -⟩ | ⟨k, hk, hkj, hka, hks, he⟩
  · refine hcut (Or.inl ?_)
    unfold cut
    rw [he]
  · have hends : ends (fs j) ≠ 0 := by
      unfold ends
      omega
    have hcj := cut_of_ne hc.1
    have hck : cut fs k = fs k := cut_of_ne (by rwa [hka])
    have hwj := h.within j hj (by rwa [hcj])
    rw [hcj] at hwj
    have hadd : add64 (fs j).addr (fs j).size = ends (fs j) :=
      add64_eq (by unfold ends at hwj; omega)
    refine (h.joined hj hk hkj (by rwa [hcj]) (by rwa [hck]) (by rw [hck, hcj, hka]) ?_ ?_ ?_).imp
      id Eq.subset
    · rw [cut_of_ne (by rw [he]; exact hc.1), he, hcj, hck]
    · refine cut_of_eq ?_
      rw [mergeEntry_other hk hkj, hadd, if_pos hka]
    · intro m hm hmj hmk
      unfold cut
      rw [mergeEntry_other hm hmj, hadd]
      by_cases hma : (fs m).addr = ends (fs j)
      · rw [if_pos hma]
        refine Or.inr ⟨by simp, ?_⟩
        by_contra hms
        have hcm : cut fs m = fs m := cut_of_ne (by rwa [hma])
        have hpos : 0 < (cut fs m).size := Nat.pos_of_ne_zero hms
        refine hmk (h.start_inj hm hk hpos (by rwa [hck]) ?_)
        rw [hcm, hck, hma, hka]
      · rw [if_neg hma]
        exact Or.inl rfl

/-- The pass for an empty entry that bears the address of an entry with bytes loses it. -/
lemma Regions.lost (h : Regions lo hi n (cut fs)) {k : ℕ} (hj : j < n)
    (hw : (fs j).addr < 2 ^ 64) (hs : (fs j).size = 0) (hk : k < n) (hks : 0 < (fs k).size)
    (hka : (fs k).addr = (fs j).addr) (hne : (fs j).addr ≠ 0) :
    (fs j).addr ∉ covered n (cut (mergeEntry n j fs)) := by
  have hck : cut fs k = fs k := cut_of_ne (by rwa [hka])
  have hadd : add64 (fs j).addr (fs j).size = (fs j).addr := by
    rw [hs, add64_eq (by omega), Nat.add_zero]
  rintro ⟨l, hl, ha⟩
  unfold cut at ha
  by_cases hlj : l = j
  · subst hlj
    rw [if_pos (addr_mergeEntry hj hw (Or.inr hs)), bytes_eq_empty rfl] at ha
    exact ha
  · rw [mergeEntry_other hl hlj, hadd] at ha
    by_cases hla : (fs l).addr = (fs j).addr
    · rw [if_pos hla, if_pos rfl, bytes_eq_empty rfl] at ha
      exact ha
    · rw [if_neg hla] at ha
      obtain rfl : l = k := h.eq_of_mem hl hk ha (by
        rw [hck, ← hka]
        exact start_mem hks)
      exact hla hka

end pass

end FlameOS.Refresh
