import FlameOS.NameMemory
import FlameOS.RootDir

/-!
The calls of `readsectorpio` in `FAT.c`, and whether they stay in their buffers.

Three sizes are asked for: one sector, the sectors of a cluster, and the number of sectors per
cluster. The last one is right for a cluster, which it never exceeds, but it is also asked for
where there is room for one sector of the FAT.
-/

namespace FlameOS.SectorReads

open FlameOS.Fat FlameOS.FatRead FlameOS.FatName FlameOS.FatFind FlameOS.NameMemory
open FlameOS.RootDir FlameOS.StepLoop

/-- A call of `readsectorpio`, with the size of the buffer. -/
structure Read where
  lba : UInt64
  count : ℕ
  size : ℕ

def Read.Fits (r : Read) : Prop := r.count * SECTOR_SIZE ≤ r.size

def sizeofBootrecord : ℕ := 512

variable (v : Volume)

def sectorRead (sector : UInt32) : Read := ⟨fatLba v sector, 1, SECTOR_SIZE⟩

/-- A sector of the FAT, as it is loaded on the way along a chain. -/
def nextRead (sector : UInt32) : Read :=
  ⟨fatLba v sector, v.fsInfo.sectorsPerCluster.toNat, SECTOR_SIZE⟩

def dataRead (c : UInt32) : Read :=
  ⟨dataLba v c, v.fsInfo.sectorsPerCluster.toNat, (bytesPerCluster v).toNat⟩

def clusterRead (c : UInt32) : Read :=
  ⟨dataLba v c, v.fsInfo.bytesPerSector.toNat / SECTOR_SIZE * v.fsInfo.sectorsPerCluster.toNat,
    (bytesPerCluster v).toNat⟩

/-! ### `fat_setup` -/

def countReads : ℕ → UInt32 → Buffer → List Read
  | 0, _, _ => []
  | fuel + 1, c, b =>
    let next := fatWord (testSector v c b) (c % FEPS)
    (if c / FEPS ≠ fatWord b c / FEPS then [sectorRead v (c / FEPS)] else []) ++
      if next &&& 0x0FFFFFFF < 0x0FFFFFF0 then countReads fuel next (testSector v c b) else []

/-- The boot record comes first. -/
def setupReads (fuel : ℕ) (FATbuffer : Buffer) : List Read :=
  let root := v.fsInfo.rootCluster
  ⟨v.partoffset, 1, sizeofBootrecord⟩ :: sectorRead v (root / FEPS) ::
    countReads v fuel root (readsectorpio v.disk (fatLba v (root / FEPS)) 1 FATbuffer)

/-! ### `find_fat_entry` -/

section find

variable (path : List (List UInt8))

/-- A round, from `inloop2` to the next time there. -/
def roundReads (s : Search) : List Read :=
  match passOf v path s with
  | .fault => []
  | .found entry _ _ => if entry.attr &&& 0x10 = 0 then [] else [dataRead v entry.cluster]
  | .crossed _ _ => [nextRead v (fatWord s.FATbuffer (s.activeCluster % FEPS) / FEPS)]
  | .done _ _ =>
    nextRead v (fatWord s.FATbuffer (s.activeCluster % FEPS) / FEPS) ::
      if nextActive v s.activeCluster s.FATbuffer &&& 0x0FFFFFFF < 0x0FFFFFF0 then
        [dataRead v (nextActive v s.activeCluster s.FATbuffer)]
      else []

def searchReads : ℕ → Search → List Read
  | 0, _ => []
  | fuel + 1, s => roundReads v path s ++
    match stepOn v path s with
    | .error _ => []
    | .ok s' => searchReads fuel s'

def findReads (fuel gap : ℕ) (FATbuffer buffer memory : Buffer) : List Read :=
  sectorRead v (v.fsInfo.rootCluster / FEPS) :: dataRead v v.fsInfo.rootCluster ::
    searchReads v path fuel (start v gap FATbuffer buffer memory)

end find

/-! ### `fat_read` -/

def reloadReads (c : UInt32) (b : Buffer) : List Read :=
  if c / FEPS ≠ fatWord b (c % FEPS) / FEPS then [nextRead v (fatWord b (c % FEPS) / FEPS)] else []

def skipReads : ℕ → UInt32 → Buffer → List Read
  | 0, _, _ => []
  | n + 1, c, b =>
    reloadReads v c b ++ skipReads n (fatWord (reload v c b) (c % FEPS)) (reload v c b)

def loopReads : ℕ → ℕ → UInt32 → Buffer → List Read
  | 0, _, _, _ => []
  | fuel + 1, bytes, c, b =>
    clusterRead v c ::
      if bytes > (bytesPerCluster v).toNat then
        let next := fatWord b (c % FEPS)
        let c' := if c / FEPS ≠ next / FEPS then c else next
        reloadReads v c b ++
          if c' &&& 0x0FFFFFFF < 0x0FFFFFF0 then
            loopReads fuel (bytes - (bytesPerCluster v).toNat) c' (reload v c b)
          else []
      else []

/-- The calls of `fat_read` itself, for a file that begins at the cluster `first`. -/
def fatReads (first : UInt32) (pointer bytes : ℕ) (FATbuffer : Buffer) : List Read :=
  let perCluster := (bytesPerCluster v).toNat
  let skipped := (pointer / perCluster).toUInt32.toNat
  let loaded := readsectorpio v.disk (fatLba v (first / FEPS)) 1 FATbuffer
  let s := skipClusters v skipped first loaded
  let start := pointer % perCluster
  sectorRead v (first / FEPS) :: (skipReads v skipped first loaded ++
    if start ≠ 0 then
      clusterRead v s.1 ::
        if bytes > perCluster - start then
          reloadReads v s.1 s.2 ++
            loopReads v (bytes + 1) (bytes - (perCluster - start))
              (fatWord (reload v s.1 s.2) (s.1 % FEPS)) (reload v s.1 s.2)
        else []
    else loopReads v (bytes + 1) bytes s.1 s.2)

/-! ### Where a read leaves its buffer -/

/-- The pass does not come to the end of the cluster: it finds something, or has no name to
compare a record with. -/
def stops : Pass → Prop
  | .fault => True
  | .found _ _ _ => True
  | .crossed _ _ => False
  | .done _ _ => False

instance : DecidablePred stops
  | .fault => .isTrue trivial
  | .found _ _ _ => .isTrue trivial
  | .crossed _ _ => .isFalse id
  | .done _ _ => .isFalse id

/-- The round ends inside of the cluster. -/
def StopsInside (path : List (List UInt8)) (s : Search) : Prop := stops (passOf v path s)

instance (path : List (List UInt8)) (s : Search) : Decidable (StopsInside v path s) :=
  inferInstanceAs (Decidable (stops _))

def clusterAt (first : UInt32) (i : ℕ) : UInt32 := (fatEntry v)^[i] first

/-- The link from cluster `i` is followed: up to the position in any case, and from there on for
the bytes that are left and while there is no end mark. -/
def Followed (first : UInt32) (pointer bytes i : ℕ) : Prop :=
  let per := (bytesPerCluster v).toNat
  let skipped := (pointer / per).toUInt32.toNat
  i < skipped ∨ (i + 1 - skipped) * per < pointer % per + bytes ∧
    ∀ j, skipped + (if pointer % per = 0 then 0 else 1) < j → j ≤ i →
      clusterAt v first j &&& 0x0FFFFFFF < 0x0FFFFFF0

/-- The entry of the next cluster is in the same sector of the FAT. -/
def Near (c : UInt32) : Prop := c / FEPS = fatEntry v c / FEPS

/-- No link that is followed leads to another sector of the FAT. -/
def SameSector (first : UInt32) (pointer bytes : ℕ) : Prop :=
  ∀ i, Followed v first pointer bytes i → Near v (clusterAt v first i)

/-- Every call of the three functions has its sectors in the buffer: of `fat_setup` for the volume,
of `find_fat_entry` for a path, and of `fat_read` for a position in a file. The buffers are as
they are found. -/
def ReadsFit (path : List (List UInt8)) (first : UInt32) (pointer bytes gap : ℕ)
    (stack FATbuffer FATbuffer' buffer memory : Buffer) : Prop :=
  (∀ fuel, ∀ r ∈ setupReads v fuel stack, r.Fits) ∧
    (∀ fuel, ∀ r ∈ findReads v path fuel gap FATbuffer buffer memory, r.Fits) ∧
    ∀ r ∈ fatReads v first pointer bytes FATbuffer', r.Fits

variable {v} {c d : UInt32} {b : Buffer} {path : List (List UInt8)}

section fits

lemma fits_sectorRead (sector : UInt32) : (sectorRead v sector).Fits := by
  unfold Read.Fits sectorRead
  exact le_of_eq (Nat.one_mul _)

lemma fits_clusterRead (c : UInt32) : (clusterRead v c).Fits := by
  unfold Read.Fits clusterRead
  dsimp only
  rw [toNat_bytesPerCluster, Nat.mul_right_comm]
  exact Nat.mul_le_mul_right _ (Nat.div_mul_le_self _ _)

lemma fits_dataRead (hbps : SECTOR_SIZE ≤ v.fsInfo.bytesPerSector.toNat) (c : UInt32) :
    (dataRead v c).Fits := by
  unfold Read.Fits dataRead
  dsimp only
  rw [toNat_bytesPerCluster, Nat.mul_comm]
  exact Nat.mul_le_mul_right _ hbps

/-- The sectors of a cluster fit in one sector only if they are one. -/
lemma fits_nextRead (sector : UInt32) :
    (nextRead v sector).Fits ↔ v.fsInfo.sectorsPerCluster.toNat ≤ 1 := by
  unfold Read.Fits nextRead SECTOR_SIZE
  dsimp only
  omega

end fits

/-- All the reads fit, but for those along a chain. -/
def Usual (v : Volume) (l : List Read) : Prop := ∀ r ∈ l, r.Fits ∨ ∃ sector, r = nextRead v sector

lemma Usual.fits {l : List Read} (h : Usual v l) (hspc : v.fsInfo.sectorsPerCluster.toNat ≤ 1) :
    ∀ r ∈ l, r.Fits := fun r hr => by
  rcases h r hr with hfits | ⟨sector, rfl⟩
  · exact hfits
  · exact (fits_nextRead sector).mpr hspc

lemma usual_nil : Usual v [] := fun _ hr => absurd hr List.not_mem_nil

lemma usual_cons {r : Read} {l : List Read} (hr : r.Fits) (h : Usual v l) : Usual v (r :: l) :=
  fun r' hr' => by
    rcases List.mem_cons.mp hr' with rfl | hr'
    · exact Or.inl hr
    · exact h r' hr'

lemma usual_append {l l' : List Read} (h : Usual v l) (h' : Usual v l') : Usual v (l ++ l') :=
  fun r hr => (List.mem_append.mp hr).elim (h r) (h' r)

lemma usual_next (sector : UInt32) {l : List Read} (h : Usual v l) :
    Usual v (nextRead v sector :: l) := fun r hr => by
  rcases List.mem_cons.mp hr with rfl | hr
  · exact Or.inr ⟨sector, rfl⟩
  · exact h r hr

lemma usual_ite {P : Prop} [Decidable P] {l : List Read} (h : Usual v l) :
    Usual v (if P then l else []) := by
  split
  · exact h
  · exact usual_nil

lemma fits_countReads (fuel : ℕ) : ∀ r ∈ countReads v fuel c b, r.Fits := by
  induction fuel generalizing c b with
  | zero => exact List.forall_mem_nil _
  | succ fuel ih =>
    intro r hr
    rw [countReads] at hr
    rcases List.mem_append.mp hr with hr | hr
    · split at hr
      · rw [List.mem_singleton.mp hr]
        exact fits_sectorRead _
      · exact absurd hr List.not_mem_nil
    · split at hr
      · exact ih r hr
      · exact absurd hr List.not_mem_nil

lemma fits_setupReads (fuel : ℕ) (FATbuffer : Buffer) :
    ∀ r ∈ setupReads v fuel FATbuffer, r.Fits := by
  have hfirst : Read.Fits ⟨v.partoffset, 1, sizeofBootrecord⟩ := by
    unfold Read.Fits
    exact le_of_eq (Nat.one_mul _)
  unfold setupReads
  simp only [List.forall_mem_cons]
  exact ⟨hfirst, fits_sectorRead _, fits_countReads fuel⟩

/-! ### The search -/

lemma usual_roundReads (hbps : SECTOR_SIZE ≤ v.fsInfo.bytesPerSector.toNat) (s : Search) :
    Usual v (roundReads v path s) := by
  unfold roundReads
  split
  · exact usual_nil
  · split
    · exact usual_nil
    · exact usual_cons (fits_dataRead hbps _) usual_nil
  · exact usual_next _ usual_nil
  · refine usual_next _ ?_
    split
    · exact usual_cons (fits_dataRead hbps _) usual_nil
    · exact usual_nil

lemma usual_searchReads (hbps : SECTOR_SIZE ≤ v.fsInfo.bytesPerSector.toNat) (fuel : ℕ)
    (s : Search) : Usual v (searchReads v path fuel s) := by
  induction fuel generalizing s with
  | zero => exact usual_nil
  | succ fuel ih =>
    rw [searchReads]
    refine usual_append (usual_roundReads hbps s) ?_
    split
    · exact usual_nil
    · exact ih _

/-- With more than one sector per cluster, the reads of a round fit if it ends inside of the
cluster. -/
lemma fits_roundReads_iff (hbps : SECTOR_SIZE ≤ v.fsInfo.bytesPerSector.toNat)
    (hspc : 1 < v.fsInfo.sectorsPerCluster.toNat) (s : Search) :
    (∀ r ∈ roundReads v path s, r.Fits) ↔ StopsInside v path s := by
  have hnext : ∀ sector, ¬ (nextRead v sector).Fits := fun sector h => by
    have := (fits_nextRead sector).mp h
    omega
  unfold roundReads StopsInside
  rcases passOf v path s with _ | ⟨entry, filename, len⟩ | ⟨filename, len⟩ | ⟨filename, len⟩
  · exact iff_of_true (List.forall_mem_nil _) trivial
  · refine iff_of_true (fun r hr => ?_) trivial
    dsimp only at hr
    split at hr
    · exact absurd hr List.not_mem_nil
    · rw [List.mem_singleton.mp hr]
      exact fits_dataRead hbps _
  · exact iff_of_false (fun h => hnext _ (h _ List.mem_cons_self)) id
  · exact iff_of_false (fun h => hnext _ (h _ List.mem_cons_self)) id

lemma fits_searchReads_iff (hbps : SECTOR_SIZE ≤ v.fsInfo.bytesPerSector.toNat)
    (hspc : 1 < v.fsInfo.sectorsPerCluster.toNat) (s : Search) :
    (∀ fuel, ∀ r ∈ searchReads v path fuel s, r.Fits) ↔
      ∀ s', ReachesOn v path s s' → StopsInside v path s' := by
  constructor
  · intro h s' hs'
    induction hs' using Relation.ReflTransGen.head_induction_on with
    | refl =>
      refine (fits_roundReads_iff hbps hspc s').mp fun r hr => h 1 r ?_
      rw [searchReads]
      exact List.mem_append_left _ hr
    | head hstep _ ih =>
      refine ih fun fuel r hr => h (fuel + 1) r ?_
      have hstep' : stepOn v path _ = .ok _ := hstep
      rw [searchReads, hstep']
      exact List.mem_append_right _ hr
  · intro h fuel
    induction fuel generalizing s with
    | zero => exact List.forall_mem_nil _
    | succ fuel ih =>
      intro r hr
      rw [searchReads] at hr
      rcases List.mem_append.mp hr with hr | hr
      · exact (fits_roundReads_iff hbps hspc s).mpr (h s .refl) r hr
      · rcases hs : stepOn v path s with o | s₁
        · rw [hs] at hr
          exact absurd hr List.not_mem_nil
        · rw [hs] at hr
          exact ih s₁ (fun s' hs' => h s' (.head hs hs')) r hr

/-! ### Along a file -/

lemma usual_reloadReads (c : UInt32) (b : Buffer) : Usual v (reloadReads v c b) := by
  unfold reloadReads
  split
  · exact usual_next _ usual_nil
  · exact usual_nil

lemma usual_skipReads (n : ℕ) : Usual v (skipReads v n c b) := by
  induction n generalizing c b with
  | zero => exact usual_nil
  | succ n ih => exact usual_append (usual_reloadReads c b) ih

lemma usual_loopReads (fuel bytes : ℕ) : Usual v (loopReads v fuel bytes c b) := by
  induction fuel generalizing c b bytes with
  | zero => exact usual_nil
  | succ fuel ih =>
    rw [loopReads]
    refine usual_cons (fits_clusterRead c) ?_
    by_cases hgt : bytes > (bytesPerCluster v).toNat
    · rw [if_pos hgt]
      refine usual_append (usual_reloadReads c b) ?_
      exact usual_ite (ih _)
    · rw [if_neg hgt]
      exact usual_nil

lemma usual_fatReads (first : UInt32) (pointer bytes : ℕ) (FATbuffer : Buffer) :
    Usual v (fatReads v first pointer bytes FATbuffer) := by
  unfold fatReads
  dsimp only
  refine usual_cons (fits_sectorRead _) (usual_append (usual_skipReads _) ?_)
  split
  · refine usual_cons (fits_clusterRead _) ?_
    split
    · exact usual_append (usual_reloadReads _ _) (usual_loopReads _ _)
    · exact usual_nil
  · exact usual_loopReads _ _

section chain

lemma clusterAt_add (first : UInt32) (n i : ℕ) :
    clusterAt v (clusterAt v first n) i = clusterAt v first (n + i) := by
  unfold clusterAt
  rw [← Function.iterate_add_apply, Nat.add_comm]

/-- The read at a link fits if it leads to the same sector, and then there is none. -/
lemma fits_reloadReads_iff (hspc : 1 < v.fsInfo.sectorsPerCluster.toNat) (h : Loaded v c b) :
    (∀ r ∈ reloadReads v c b, r.Fits) ↔ Near v c := by
  unfold reloadReads Near
  rw [h.entry]
  split
  · rename_i hne
    refine iff_of_false (fun hall => ?_) hne
    have := (fits_nextRead _).mp (hall _ List.mem_cons_self)
    omega
  · rename_i heq
    exact iff_of_true (List.forall_mem_nil _) (not_not.mp heq)

lemma Near.reload (hnear : Near v c) (h : Loaded v c b) : reload v c b = b := by
  unfold FatRead.reload
  rw [h.entry]
  exact if_neg (not_not.mpr hnear)

lemma Near.loaded (hnear : Near v c) (h : Loaded v c b) : Loaded v (fatEntry v c) b := by
  unfold Near at hnear
  intro j
  rw [← hnear]
  exact h j

lemma fits_skipReads_iff (hspc : 1 < v.fsInfo.sectorsPerCluster.toNat) (n : ℕ) (h : Loaded v c b) :
    (∀ r ∈ skipReads v n c b, r.Fits) ↔ ∀ i < n, Near v (clusterAt v c i) := by
  induction n generalizing c b with
  | zero => exact iff_of_true (List.forall_mem_nil _) fun i hi => absurd hi (by omega)
  | succ n ih =>
    rw [skipReads, List.forall_mem_append, fits_reloadReads_iff hspc h, Nat.forall_lt_succ_left]
    refine and_congr_right fun hnear => ?_
    rw [hnear.reload h, h.entry, ih (hnear.loaded h)]
    rfl

/-- Behind links to the same sector the buffer has this sector. -/
lemma skipClusters_near {n : ℕ} (h : Loaded v c b) (hnear : ∀ i < n, Near v (clusterAt v c i)) :
    skipClusters v n c b = (clusterAt v c n, b) ∧ Loaded v (clusterAt v c n) b := by
  induction n generalizing c with
  | zero => exact ⟨rfl, h⟩
  | succ n ih =>
    obtain ⟨hfirst, hrest⟩ := Nat.forall_lt_succ_left.mp hnear
    have hnear : Near v c := hfirst
    rw [skipClusters, hnear.reload h, h.entry]
    exact ih (hnear.loaded h) hrest

/-- The links that are followed for some bytes from a cluster on lead to the same sector. The
clusters behind cluster `k` are taken only if they are not an end mark. -/
def NearFor (v : Volume) (k : ℕ) (c : UInt32) (bytes : ℕ) : Prop :=
  ∀ i, (i + 1) * (bytesPerCluster v).toNat < bytes →
    (∀ j, k < j → j ≤ i → clusterAt v c j &&& 0x0FFFFFFF < 0x0FFFFFF0) → Near v (clusterAt v c i)

lemma nearFor_of_le {k bytes : ℕ} (h : bytes ≤ (bytesPerCluster v).toNat) :
    NearFor v k c bytes := fun i hi => by
  rw [Nat.succ_mul] at hi
  omega

/-- The first link, and the others if the next cluster is not an end mark. -/
lemma nearFor_zero {bytes : ℕ} (h : (bytesPerCluster v).toNat < bytes) :
    NearFor v 0 c bytes ↔ Near v c ∧ (fatEntry v c &&& 0x0FFFFFFF < 0x0FFFFFF0 →
      NearFor v 0 (fatEntry v c) (bytes - (bytesPerCluster v).toNat)) := by
  constructor
  · intro hall
    refine ⟨hall 0 (by omega) fun j hj hj0 => absurd hj (by omega), fun hmark i hi hlive => ?_⟩
    refine hall (i + 1) (by rw [Nat.succ_mul]; omega) fun j hj hji => ?_
    obtain ⟨j, rfl⟩ := Nat.exists_eq_add_of_lt hj
    rcases Nat.eq_zero_or_pos j with rfl | hpos
    · exact hmark
    · rw [Nat.zero_add]
      exact hlive j hpos (by omega)
  · rintro ⟨hnear, hall⟩ i hi hlive
    rcases i with _ | i
    · exact hnear
    · rw [Nat.succ_mul] at hi
      exact hall (hlive 1 one_pos (by omega)) i (by omega)
        fun j _ hji => hlive (j + 1) (by omega) (by omega)

/-- The next cluster is taken in any case. -/
lemma nearFor_one {bytes : ℕ} (h : (bytesPerCluster v).toNat < bytes) :
    NearFor v 1 c bytes ↔ Near v c ∧
      NearFor v 0 (fatEntry v c) (bytes - (bytesPerCluster v).toNat) := by
  constructor
  · intro hall
    refine ⟨hall 0 (by omega) fun j hj hj0 => absurd hj (by omega), fun i hi hlive => ?_⟩
    refine hall (i + 1) (by rw [Nat.succ_mul]; omega) fun j hj hji => ?_
    obtain ⟨j, rfl⟩ := Nat.exists_eq_add_of_lt hj
    rw [Nat.add_comm 1 j]
    exact hlive (j + 1) (by omega) (by omega)
  · rintro ⟨hnear, hall⟩ i hi hlive
    rcases i with _ | i
    · exact hnear
    · rw [Nat.succ_mul] at hi
      exact hall i (by omega) fun j _ hji => hlive (j + 1) (by omega) (by omega)

/-- The links that the last loop follows. -/
lemma fits_loopReads_iff (hspc : 1 < v.fsInfo.sectorsPerCluster.toNat)
    (hper : 0 < (bytesPerCluster v).toNat) {fuel bytes : ℕ} (hfuel : bytes < fuel)
    (h : Loaded v c b) :
    (∀ r ∈ loopReads v fuel bytes c b, r.Fits) ↔ NearFor v 0 c bytes := by
  induction fuel generalizing bytes c with
  | zero => omega
  | succ fuel ih =>
    rw [loopReads, List.forall_mem_cons, and_iff_right (fits_clusterRead c)]
    by_cases hgt : bytes > (bytesPerCluster v).toNat
    · rw [if_pos hgt, List.forall_mem_append, fits_reloadReads_iff hspc h, nearFor_zero hgt]
      refine and_congr_right fun hnear => ?_
      have hkept : (if c / FEPS ≠ fatWord b (c % FEPS) / FEPS then c else fatWord b (c % FEPS)) =
          fatEntry v c := by
        rw [h.entry]
        exact if_neg (not_not.mpr hnear)
      rw [hkept, hnear.reload h]
      by_cases hmark : fatEntry v c &&& 0x0FFFFFFF < 0x0FFFFFF0
      · rw [if_pos hmark, forall_prop_of_true hmark]
        exact ih (by omega) (hnear.loaded h)
      · rw [if_neg hmark]
        exact iff_of_true (List.forall_mem_nil _) fun h => absurd h hmark
    · rw [if_neg hgt]
      exact iff_of_true (List.forall_mem_nil _) (nearFor_of_le (by omega))

/-- The links up to the position, and those from there on. -/
lemma sameSector_iff {first : UInt32} {pointer bytes k start : ℕ}
    (hk : (pointer / (bytesPerCluster v).toNat).toUInt32.toNat = k)
    (hstart : pointer % (bytesPerCluster v).toNat = start) :
    SameSector v first pointer bytes ↔ (∀ i < k, Near v (clusterAt v first i)) ∧
      NearFor v (if start = 0 then 0 else 1) (clusterAt v first k) (start + bytes) := by
  unfold SameSector Followed NearFor
  dsimp only
  rw [hk, hstart]
  generalize (if start = 0 then 0 else 1) = e
  simp only [clusterAt_add]
  constructor
  · intro h
    refine ⟨fun i hi => h i (Or.inl hi), fun i hi hlive => h (k + i) (Or.inr ⟨?_, ?_⟩)⟩
    · rwa [Nat.add_assoc, Nat.add_sub_cancel_left]
    · intro j hj hji
      have := hlive (j - k) (by omega) (by omega)
      rwa [Nat.add_sub_cancel' (by omega)] at this
  · rintro ⟨hskip, hrest⟩ i hi
    rcases lt_or_ge i k with hik | hik
    · exact hskip i hik
    · obtain ⟨i, rfl⟩ := Nat.exists_eq_add_of_le hik
      obtain ⟨hi, hlive⟩ := hi.resolve_left (by omega)
      rw [Nat.add_assoc, Nat.add_sub_cancel_left] at hi
      exact hrest i hi fun j hj hji => hlive (k + j) (by omega) (by omega)

/-- With more than one sector per cluster, the reads of `fat_read` fit if no link leads to another
sector. -/
lemma fits_fatReads_iff (hspc : 1 < v.fsInfo.sectorsPerCluster.toNat)
    (hper : 0 < (bytesPerCluster v).toNat) (first : UInt32) (pointer bytes : ℕ)
    (FATbuffer : Buffer) :
    (∀ r ∈ fatReads v first pointer bytes FATbuffer, r.Fits) ↔
      SameSector v first pointer bytes := by
  obtain ⟨k, hk⟩ : ∃ k, (pointer / (bytesPerCluster v).toNat).toUInt32.toNat = k := ⟨_, rfl⟩
  obtain ⟨start, hstart⟩ : ∃ start, pointer % (bytesPerCluster v).toNat = start := ⟨_, rfl⟩
  have hlt : start < (bytesPerCluster v).toNat := hstart ▸ Nat.mod_lt _ hper
  have hload := loaded_first (v := v) first FATbuffer
  rw [sameSector_iff hk hstart]
  unfold fatReads
  dsimp only
  rw [hk, hstart, List.forall_mem_cons, and_iff_right (fits_sectorRead _), List.forall_mem_append,
    fits_skipReads_iff hspc k hload]
  refine and_congr_right fun hnear => ?_
  obtain ⟨hskip, hb⟩ := skipClusters_near hload hnear
  rw [hskip]
  by_cases h0 : start = 0
  · rw [if_neg (not_not.mpr h0), if_pos h0, h0, Nat.zero_add]
    exact fits_loopReads_iff hspc hper (Nat.lt_succ_self bytes) hb
  · rw [if_pos h0, if_neg h0, List.forall_mem_cons, and_iff_right (fits_clusterRead _)]
    by_cases hgt : bytes > (bytesPerCluster v).toNat - start
    · have hleft : bytes - ((bytesPerCluster v).toNat - start) =
          start + bytes - (bytesPerCluster v).toNat := by omega
      rw [if_pos hgt, List.forall_mem_append, fits_reloadReads_iff hspc hb,
        nearFor_one (by omega)]
      refine and_congr_right fun hfirst => ?_
      rw [hfirst.reload hb, hb.entry, hleft]
      exact fits_loopReads_iff hspc hper (by omega) (hfirst.loaded hb)
    · rw [if_neg hgt]
      exact iff_of_true (List.forall_mem_nil _) (nearFor_of_le (by omega))

end chain

/-! ### All of them -/

lemma fits_findReads_iff (hbps : SECTOR_SIZE ≤ v.fsInfo.bytesPerSector.toNat)
    (hspc : 1 < v.fsInfo.sectorsPerCluster.toNat) (gap : ℕ) (FATbuffer buffer memory : Buffer) :
    (∀ fuel, ∀ r ∈ findReads v path fuel gap FATbuffer buffer memory, r.Fits) ↔
      ∀ s, ReachesOn v path (start v gap FATbuffer buffer memory) s → StopsInside v path s := by
  rw [← fits_searchReads_iff hbps hspc]
  unfold findReads
  simp only [List.forall_mem_cons, fits_sectorRead, fits_dataRead hbps, true_and]

lemma usual_findReads (hbps : SECTOR_SIZE ≤ v.fsInfo.bytesPerSector.toNat) (fuel gap : ℕ)
    (FATbuffer buffer memory : Buffer) :
    Usual v (findReads v path fuel gap FATbuffer buffer memory) :=
  usual_cons (fits_sectorRead _) (usual_cons (fits_dataRead hbps _) (usual_searchReads hbps _ _))

/-- **Reads and their buffers.** Every call of `readsectorpio` in `FAT.c` has its sectors in the
buffer exactly if a cluster is one sector, or no round of the search comes to the end of a cluster
and no link of the file that is followed leads to another sector of the FAT. -/
theorem readsFit_iff (disk : Disk) (loc : UInt64) (BPB : Bootrecord) (path : List (List UInt8))
    (first : UInt32) (pointer bytes gap : ℕ) (stack FATbuffer FATbuffer' buffer memory : Buffer)
    (hbps : 512 ≤ BPB.bytesPerSector.toNat) (hspc : 1 ≤ BPB.sectorsPerCluster.toNat) :
    ReadsFit (setupVolume disk loc BPB) path first pointer bytes gap stack FATbuffer FATbuffer' buffer
      memory ↔ BPB.sectorsPerCluster.toNat = 1 ∨
        (∀ s, ReachesOn (setupVolume disk loc BPB) path
          (start (setupVolume disk loc BPB) gap FATbuffer buffer memory) s →
            StopsInside (setupVolume disk loc BPB) path s) ∧
        SameSector (setupVolume disk loc BPB) first pointer bytes := by
  have hsetup := fun fuel => fits_setupReads (v := setupVolume disk loc BPB) fuel stack
  have hsector : SECTOR_SIZE ≤ (setupVolume disk loc BPB).fsInfo.bytesPerSector.toNat := hbps
  unfold ReadsFit
  rw [and_iff_right hsetup]
  by_cases hone : BPB.sectorsPerCluster.toNat = 1
  · refine iff_of_true ⟨fun fuel => ?_, ?_⟩ (Or.inl hone)
    · exact (usual_findReads hsector fuel gap FATbuffer buffer memory).fits hone.le
    · exact (usual_fatReads first pointer bytes FATbuffer').fits hone.le
  · have hmore : 1 < (setupVolume disk loc BPB).fsInfo.sectorsPerCluster.toNat :=
      Nat.lt_of_le_of_ne hspc (Ne.symm hone)
    have hper : 0 < (bytesPerCluster (setupVolume disk loc BPB)).toNat := by
      rw [toNat_bytesPerCluster]
      exact Nat.mul_pos (Nat.lt_of_lt_of_le (by decide) hbps) hspc
    rw [fits_findReads_iff hsector hmore, fits_fatReads_iff hmore hper]
    exact (or_iff_right hone).symm

theorem readsFit_iff_one :
    ReadsFit (setupVolume (fun _ _ => 0) 2048 (gibibyte 1)) [readme] 5 700 10000 512 (fun _ => 0)
      (fun _ => 0) (fun _ => 0) (fun _ => 0) fun _ => 0 :=
  (readsFit_iff (fun _ _ => 0) 2048 (gibibyte 1) [readme] 5 700 10000 512 (fun _ => 0) (fun _ => 0)
    (fun _ => 0) (fun _ => 0) (fun _ => 0) (by decide) (by decide)).mpr (Or.inl rfl)

/-- An empty root directory in a volume with two sectors per cluster. -/
def emptyVolume : Volume := setupVolume (smallVolume [] []).disk 0 (gibibyte 2)

/-- Where a file is not found, two sectors of the FAT are read, and there is room for one. -/
theorem not_readsFit : Geometry (gibibyte 2) 0 2 ∧ ¬ ReadsFit emptyVolume [readme] 2 0 1 512
    (fun _ => 0) (fun _ => 0) (fun _ => 0) (fun _ => 0) (fun _ => 0) := by
  have hend : ¬ StopsInside emptyVolume [readme]
      (start emptyVolume 512 (fun _ => 0) (fun _ => 0) (fun _ => 0)) := by decide +kernel
  refine ⟨⟨Or.inl rfl, ⟨1, by decide, by decide⟩, by decide, by decide, by decide, by decide,
    by decide, by decide⟩, fun h => hend ?_⟩
  exact (fits_findReads_iff (by decide) (by decide) _ _ _ _).mp h.2.1 _ .refl

end FlameOS.SectorReads
