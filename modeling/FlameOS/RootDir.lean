import FlameOS.FatRead

/-!
The length of the root directory, which `fat_setup` counts along the chain of its clusters.

One sector of the FAT is at hand, and the test for another one looks at the entry of a cluster
by its number in the whole FAT. The sector has the first 128 of them.
-/

namespace FlameOS.RootDir

open FlameOS.Fat FlameOS.FatRead

/-- The sector in `FAT_buffer` after the test of the loop. -/
def testSector (v : Volume) (currentCluster : UInt32) (FATbuffer : Buffer) : Buffer :=
  if currentCluster / FEPS ≠ fatWord FATbuffer currentCluster / FEPS then
    readsectorpio v.disk (fatLba v (currentCluster / FEPS)) 1 FATbuffer
  else FATbuffer

/-- The loop over the clusters: `root_clusters` and the indices into `FAT_buffer`, unless `fuel`
runs out. What is behind the sector in `FAT_buffer` is what is behind it on the stack. -/
def countClusters (v : Volume) : ℕ → UInt32 → Buffer → UInt16 → Option (UInt16 × List UInt32)
  | 0, _, _, _ => none
  | fuel + 1, currentCluster, FATbuffer, rootClusters =>
    let FATbuffer := testSector v currentCluster FATbuffer
    let next := fatWord FATbuffer (currentCluster % FEPS)
    if next &&& 0x0FFFFFFF < 0x0FFFFFF0 then
      (countClusters v fuel next FATbuffer (rootClusters + 1)).map fun (n, indices) =>
        (n, currentCluster :: currentCluster % FEPS :: currentCluster % FEPS :: indices)
    else some (rootClusters, [currentCluster, currentCluster % FEPS])

/-- `root_clusters` after `fat_setup`, and the indices into `FAT_buffer` on the way. -/
def rootClusters (v : Volume) (fuel : ℕ) (FATbuffer : Buffer) : Option (UInt16 × List UInt32) :=
  countClusters v fuel v.fsInfo.rootCluster
    (readsectorpio v.disk (fatLba v (v.fsInfo.rootCluster / FEPS)) 1 FATbuffer) 1

/-- The clusters have their entries in the first sector of the FAT, and these have nothing but
the number of the next one. -/
structure InFirstSector (v : Volume) (cs : List UInt32) : Prop where
  low : ∀ c ∈ cs, c < FEPS
  links : cs.IsChain fun c d => fatEntry v c = d

variable {v : Volume} {c d : UInt32} {b : Buffer}

lemma mod_of_lt (h : c < FEPS) : c % FEPS = c := by
  rw [← UInt32.toNat_inj, UInt32.toNat_mod]
  exact Nat.mod_eq_of_lt (UInt32.lt_iff_toNat_lt.mp h)

lemma div_of_lt (h : c < FEPS) : c / FEPS = 0 := by
  rw [← UInt32.toNat_inj, UInt32.toNat_div]
  exact Nat.div_eq_of_lt (UInt32.lt_iff_toNat_lt.mp h)

lemma loaded_testSector (h : Loaded v c b) : Loaded v c (testSector v c b) := by
  unfold testSector
  split
  · exact loaded_first c b
  · exact h

lemma Loaded.low (h : Loaded v c b) (hc : c < FEPS) (hd : d < FEPS) : Loaded v d b := by
  intro j
  rw [div_of_lt hd, ← div_of_lt hc]
  exact h j

lemma countClusters_eq (h : Loaded v c b) (fuel : ℕ) (n : UInt16) :
    countClusters v (fuel + 1) c b n =
      if nextCluster v c < 0x0FFFFFF0 then
        (countClusters v fuel (fatEntry v c) (testSector v c b) (n + 1)).map fun (n, indices) =>
          (n, c :: c % FEPS :: c % FEPS :: indices)
      else some (n, [c, c % FEPS]) := by
  rw [countClusters]
  dsimp only
  rw [(loaded_testSector h).entry]
  rfl

lemma mem_indices {fuel : ℕ} {n m : UInt16} {indices : List UInt32}
    (h : countClusters v fuel c b n = some (m, indices)) : c ∈ indices := by
  rcases fuel with _ | fuel
  · cases h
  rw [countClusters] at h
  dsimp only at h
  split at h
  · obtain ⟨⟨m', indices'⟩, -, heq⟩ := Option.map_eq_some_iff.mp h
    cases heq
    exact List.mem_cons_self
  · cases h
    exact List.mem_cons_self

lemma nextCluster_of_lt (h : fatEntry v c < FEPS) : nextCluster v c = fatEntry v c := by
  rw [UInt32.lt_iff_toNat_lt] at h
  have hlt : (fatEntry v c).toNat < 2 ^ 28 := h.trans (by decide)
  have hmask : (0x0FFFFFFF : UInt32).toNat = 2 ^ 28 - 1 := rfl
  rw [nextCluster, ← UInt32.toNat_inj, UInt32.toNat_and, hmask, Nat.and_two_pow_sub_one_eq_mod]
  exact Nat.mod_eq_of_lt hlt

lemma toNat_add_one {n : UInt16} {k : ℕ} (h : n.toNat + (k + 1) < 65536) :
    (n + 1).toNat = n.toNat + 1 := by
  rw [UInt16.toNat_add]
  exact Nat.mod_eq_of_lt (show n.toNat + 1 < 65536 by omega)

lemma InFirstSector.countClusters {cs : List UInt32} (h : InFirstSector v (c :: cs))
    (hchain : IsChain v (c :: cs)) {n : UInt16} (hlen : n.toNat + cs.length < 65536)
    (hb : Loaded v c b) :
    ∃ fuel m indices, RootDir.countClusters v fuel c b n = some (m, indices) ∧
      m.toNat = n.toNat + cs.length ∧ ∀ i ∈ indices, i < FEPS := by
  have hc : c < FEPS := h.low c List.mem_cons_self
  induction cs generalizing c b n with
  | nil =>
    have hend : ¬ nextCluster v c < 0x0FFFFFF0 := fun hlt =>
      absurd (UInt32.lt_of_le_of_lt hchain hlt) (by decide)
    refine ⟨1, n, [c, c % FEPS], ?_, rfl, ?_⟩
    · rw [countClusters_eq hb, if_neg hend]
    · rw [mod_of_lt hc]
      simpa using hc
  | cons d cs ih =>
    obtain ⟨hnext, -, hrest⟩ := hchain
    have hentry : fatEntry v c = d := (List.isChain_cons_cons.mp h.links).1
    have hd : d < FEPS := h.low d (by simp)
    have hlt : nextCluster v c < 0x0FFFFFF0 := by
      rw [hnext]
      exact UInt32.lt_trans hd (by decide)
    rw [List.length_cons] at hlen
    have hone := toNat_add_one hlen
    obtain ⟨fuel, m, indices, hrun, hm, hindices⟩ := ih (n := n + 1)
      ⟨fun x hx => h.low x (List.mem_cons_of_mem c hx), (List.isChain_cons_cons.mp h.links).2⟩
      hrest (by omega) (Loaded.low (loaded_testSector hb) hc hd) hd
    refine ⟨fuel + 1, m, c :: c % FEPS :: c % FEPS :: indices, ?_, ?_, ?_⟩
    · rw [countClusters_eq hb, if_pos hlt, hentry, hrun]
      rfl
    · rw [List.length_cons]
      omega
    · rw [mod_of_lt hc]
      simp only [List.forall_mem_cons]
      exact ⟨hc, hc, hc, hindices⟩

/-- Where the loop counts right and stays in `FAT_buffer`, the chain is in the first sector. -/
lemma inFirstSector_of_countClusters {cs : List UInt32} {fuel : ℕ} {n m : UInt16}
    {indices : List UInt32} (hchain : IsChain v (c :: cs)) (hlen : n.toNat + cs.length < 65536)
    (hb : Loaded v c b) (h : countClusters v fuel c b n = some (m, indices))
    (hm : m.toNat = n.toNat + cs.length) (hindices : ∀ i ∈ indices, i < FEPS) :
    InFirstSector v (c :: cs) := by
  induction cs generalizing c b n fuel indices with
  | nil =>
    rcases fuel with _ | fuel
    · cases h
    have hend : ¬ nextCluster v c < 0x0FFFFFF0 := fun hlt =>
      absurd (UInt32.lt_of_le_of_lt hchain hlt) (by decide)
    rw [countClusters_eq hb, if_neg hend] at h
    cases h
    exact ⟨fun x hx => by
      rw [List.mem_singleton.mp hx]
      exact hindices c List.mem_cons_self, List.isChain_singleton c⟩
  | cons d cs ih =>
    rcases fuel with _ | fuel
    · cases h
    obtain ⟨hnext, -, hrest⟩ := hchain
    rw [countClusters_eq hb] at h
    by_cases hlt : nextCluster v c < 0x0FFFFFF0
    · rw [if_pos hlt] at h
      obtain ⟨⟨m', indices'⟩, hrun, heq⟩ := Option.map_eq_some_iff.mp h
      cases heq
      simp only [List.forall_mem_cons] at hindices
      obtain ⟨hc, -, -, hindices⟩ := hindices
      rw [List.length_cons] at hlen hm
      have hone := toNat_add_one hlen
      have hd : fatEntry v c < FEPS := hindices _ (mem_indices hrun)
      have hentry : fatEntry v c = d := (nextCluster_of_lt hd).symm.trans hnext
      rw [hentry] at hrun hd
      have htail := ih (n := n + 1) hrest (by omega) (Loaded.low (loaded_testSector hb) hc hd) hrun
        (by omega) hindices
      refine ⟨fun x hx => ?_, List.isChain_cons_cons.mpr ⟨hentry, htail.links⟩⟩
      rcases List.mem_cons.mp hx with rfl | hx
      · exact hc
      · exact htail.low x hx
    · -- the loop ends before the chain does
      rw [if_neg hlt] at h
      cases h
      rw [List.length_cons] at hm
      omega

/-- **The length of the root directory.** `fat_setup` ends with the number of clusters of the
root directory, and with indices into `FAT_buffer` below 128 only, exactly if the chain has its
entries in the first sector of the FAT. -/
theorem rootClusters_iff (v : Volume) (FATbuffer : Buffer) (cs : List UInt32)
    (hchain : IsChain v (v.fsInfo.rootCluster :: cs)) (hlen : cs.length + 1 < 65536) :
    (∃ fuel n indices, rootClusters v fuel FATbuffer = some (n, indices) ∧
      n.toNat = (v.fsInfo.rootCluster :: cs).length ∧ ∀ i ∈ indices, i < FEPS) ↔
        InFirstSector v (v.fsInfo.rootCluster :: cs) := by
  have hone : (1 : UInt16).toNat = 1 := rfl
  have hb := loaded_first (v := v) v.fsInfo.rootCluster FATbuffer
  rw [List.length_cons]
  constructor
  · rintro ⟨fuel, n, indices, hrun, hn, hindices⟩
    exact inFirstSector_of_countClusters hchain (by omega) hb hrun (by omega) hindices
  · intro h
    obtain ⟨fuel, n, indices, hrun, hn, hindices⟩ :=
      h.countClusters hchain (n := 1) (by omega) hb
    exact ⟨fuel, n, indices, hrun, by omega, hindices⟩

def twoClusters : Volume :=
  setupVolume (fun lba i =>
      if lba = 32 ∧ i = 8 then 3 else if lba = 32 ∧ i / 4 = 3 then 0xFF else 0)
    0 { gibibyte 1 with rootCluster := 2 }

theorem rootClusters_iff_two :
    ∃ fuel n indices, rootClusters twoClusters fuel (fun _ => 0) = some (n, indices) ∧
      n.toNat = [twoClusters.fsInfo.rootCluster, 3].length ∧ ∀ i ∈ indices, i < FEPS := by
  have hlink : fatEntry twoClusters 2 = 3 := by decide +kernel
  have hfirst : InFirstSector twoClusters [twoClusters.fsInfo.rootCluster, 3] := by
    refine ⟨?_, List.isChain_pair.mpr hlink⟩
    simp only [List.mem_cons, List.not_mem_nil, or_false, forall_eq_or_imp, forall_eq]
    exact ⟨by decide, by decide⟩
  exact (rootClusters_iff twoClusters (fun _ => 0) [3] (by decide +kernel) (by decide)).mpr hfirst

def rootAt (root : UInt32) : Volume :=
  setupVolume (fun lba i => if lba = 32 + (root / FEPS).toNat ∧ i / 4 = (root % FEPS).toNat then 0xFF
    else 0) 0 { gibibyte 1 with rootCluster := root }

/-- A root directory in cluster 130 is counted right, but the test looks behind the sector. -/
theorem not_rootClusters : IsChain (rootAt 130) [(rootAt 130).fsInfo.rootCluster] ∧
    ¬ ∃ fuel n indices, rootClusters (rootAt 130) fuel (fun _ => 0) = some (n, indices) ∧
      n.toNat = [(rootAt 130).fsInfo.rootCluster].length ∧ ∀ i ∈ indices, i < FEPS := by
  have hroot : (rootAt 130).fsInfo.rootCluster = 130 := rfl
  refine ⟨by decide +kernel, ?_⟩
  rintro ⟨fuel, n, indices, hrun, -, hindices⟩
  have hmem : (rootAt 130).fsInfo.rootCluster ∈ indices := mem_indices hrun
  rw [hroot] at hmem
  exact absurd (hindices 130 hmem) (by decide)

end FlameOS.RootDir
