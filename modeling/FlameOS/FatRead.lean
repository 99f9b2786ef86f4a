import FlameOS.Fat

/-!
`fat_read`: which bytes of a file it stores.

The chain of the file is followed in three places, each with one sector of the FAT at hand.
Where the entry of the next cluster is in another sector, that sector is loaded before the
entry of the old cluster is used; the last of the three then stays at the old cluster.
-/

namespace FlameOS.FatRead

open FlameOS.Fat

variable (v : Volume)

/-- The sector of `FAT_buffer` that is needed for the next cluster. The sectors that are read with it
come to lie behind `FAT_buffer`, in `buffer` too, which is read again before it is used. -/
def reload (activeCluster : UInt32) (FATbuffer : Buffer) : Buffer :=
  if activeCluster / FEPS ≠ fatWord FATbuffer (activeCluster % FEPS) / FEPS then
    readsectorpio v.disk (fatLba v (fatWord FATbuffer (activeCluster % FEPS) / FEPS))
      v.fsInfo.sectorsPerCluster.toNat FATbuffer
  else FATbuffer

/-- The loop over the skipped clusters: `active_cluster` and `FAT_buffer` after it. -/
def skipClusters : ℕ → UInt32 → Buffer → UInt32 × Buffer
  | 0, activeCluster, FATbuffer => (activeCluster, FATbuffer)
  | n + 1, activeCluster, FATbuffer =>
    let FATbuffer := reload v activeCluster FATbuffer
    skipClusters n (fatWord FATbuffer (activeCluster % FEPS)) FATbuffer

/-- The loop over whole clusters: the bytes stored, unless `fuel` runs out. -/
def readClusters : ℕ → ℕ → UInt32 → Buffer → Buffer → Option (List UInt8)
  | 0, _, _, _, _ => none
  | fuel + 1, bytes, activeCluster, FATbuffer, buffer =>
    let perCluster := (bytesPerCluster v).toNat
    let buffer := readCluster v activeCluster buffer
    if bytes > perCluster then
      let next := fatWord FATbuffer (activeCluster % FEPS)
      let FATbuffer' := reload v activeCluster FATbuffer
      let activeCluster' := if activeCluster / FEPS ≠ next / FEPS then activeCluster else next
      if activeCluster' &&& 0x0FFFFFFF < 0x0FFFFFF0 then
        (readClusters fuel (bytes - perCluster) activeCluster' FATbuffer' buffer).map
          (bytesOf buffer 0 perCluster ++ ·)
      else some (bytesOf buffer 0 perCluster)
    else some (bytesOf buffer 0 bytes)

/-- `fat_read` for a file with the given directory entry: the value returned and the bytes
stored into `ptr`. Each round of the last loop but the last one stores a cluster, so `bytes + 1`
rounds are enough. The buffers are as `malloc` returns them. -/
def fatRead (entry : FATEntry) (pointer bytes : ℕ) (FATbuffer buffer : Buffer) :
    Option (ℕ × List UInt8) :=
  let perCluster := (bytesPerCluster v).toNat
  let skipped := (pointer / perCluster).toUInt32
  let loaded := readsectorpio v.disk (fatLba v (entry.cluster / FEPS)) 1 FATbuffer
  let s := skipClusters v skipped.toNat entry.cluster loaded
  let start := pointer % perCluster
  if start ≠ 0 then
    let buffer := readCluster v s.1 buffer
    if bytes > perCluster - start then
      let FATbuffer := reload v s.1 s.2
      (readClusters v (bytes + 1) (bytes - (perCluster - start)) (fatWord FATbuffer (s.1 % FEPS))
        FATbuffer buffer).map fun l => (bytes, bytesOf buffer start (perCluster - start) ++ l)
    else some (bytes, bytesOf buffer start bytes)
  else (readClusters v (bytes + 1) bytes s.1 s.2 buffer).map fun l => (bytes, l)

/-! ### Pieces of one length -/

section pieces

variable {α β : Type*} {f : α → List β} {n : ℕ}

lemma drop_flatMap (hf : ∀ x, (f x).length = n) (k : ℕ) (xs : List α) :
    (xs.flatMap f).drop (k * n) = (xs.drop k).flatMap f := by
  induction k generalizing xs with
  | zero => simp
  | succ k ih =>
    cases xs with
    | nil => simp
    | cons x xs =>
      rw [List.flatMap_cons, List.drop_succ_cons, ← ih, List.drop_append, hf]
      rw [List.drop_eq_nil_of_le (by rw [hf, Nat.succ_mul]; omega), List.nil_append]
      congr 1
      rw [Nat.succ_mul]
      omega

end pieces

/-! ### What is in the buffers -/

variable {v} {c d : UInt32} {b : Buffer}

def content (v : Volume) (c : UInt32) : List UInt8 :=
  bytesOf (readCluster v c fun _ => 0) 0 (bytesPerCluster v).toNat

@[simp] lemma length_bytesOf (b : Buffer) (start n : ℕ) : (bytesOf b start n).length = n := by
  simp [bytesOf]

@[simp] lemma length_content (c : UInt32) : (content v c).length = (bytesPerCluster v).toNat :=
  length_bytesOf _ _ _

lemma toNat_bytesPerCluster (v : Volume) : (bytesPerCluster v).toNat =
    v.fsInfo.bytesPerSector.toNat * v.fsInfo.sectorsPerCluster.toNat := by
  have h₁ := v.fsInfo.bytesPerSector.toNat_lt
  have h₂ := v.fsInfo.sectorsPerCluster.toNat_lt
  unfold bytesPerCluster
  rw [UInt32.toNat_mul, UInt16.toNat_toUInt32, UInt8.toNat_toUInt32, Nat.mod_eq_of_lt]
  exact (Nat.mul_lt_mul'' h₁ h₂).trans (by decide)

lemma bytesOf_readCluster (hbps : v.fsInfo.bytesPerSector = 512) (c : UInt32) (b : Buffer)
    {start n : ℕ} (h : start + n ≤ (bytesPerCluster v).toNat) :
    bytesOf (readCluster v c b) start n = ((content v c).drop start).take n := by
  have h512 : v.fsInfo.bytesPerSector.toNat = 512 := by rw [hbps]; rfl
  rw [toNat_bytesPerCluster, h512] at h
  apply List.ext_getElem
  · rw [length_bytesOf, List.length_take, List.length_drop, length_content, toNat_bytesPerCluster,
      h512]
    omega
  · intro i hi _
    rw [length_bytesOf] at hi
    have hlt : start + i < 512 / SECTOR_SIZE * v.fsInfo.sectorsPerCluster.toNat * SECTOR_SIZE := by
      unfold SECTOR_SIZE
      omega
    simp only [bytesOf, content, readCluster, readsectorpio, h512, List.getElem_map,
      List.getElem_range, List.getElem_take, List.getElem_drop, Nat.zero_add, if_pos hlt]

lemma bytesPerCluster_pos (hbps : v.fsInfo.bytesPerSector = 512)
    (hspc : v.fsInfo.sectorsPerCluster ≠ 0) : 0 < (bytesPerCluster v).toNat := by
  have hne : v.fsInfo.sectorsPerCluster.toNat ≠ 0 := fun h0 => hspc (UInt8.toNat_inj.mp h0)
  rw [toNat_bytesPerCluster, hbps]
  exact Nat.mul_pos (by decide) (Nat.pos_of_ne_zero hne)

/-- The buffer has the sector of the FAT in which the entry of the cluster is. -/
def Loaded (v : Volume) (c : UInt32) (b : Buffer) : Prop :=
  ∀ j, fatWord b (j % FEPS) = fatWord (fatSector v (c / FEPS)) (j % FEPS)

lemma Loaded.entry (h : Loaded v c b) : fatWord b (c % FEPS) = fatEntry v c := h c

lemma fatWord_readsectorpio (disk : Disk) (lba : UInt64) {count : ℕ} (h : count ≠ 0)
    (b b' : Buffer) (j : UInt32) : fatWord (readsectorpio disk lba count b) (j % FEPS) =
      fatWord (readsectorpio disk lba 1 b') (j % FEPS) := by
  have hj : (j % FEPS).toNat < 128 := by
    rw [UInt32.toNat_mod]
    exact Nat.mod_lt _ (by decide)
  have hpos : 1 * 512 ≤ count * 512 := Nat.mul_le_mul_right _ (Nat.pos_of_ne_zero h)
  unfold fatWord readsectorpio SECTOR_SIZE
  dsimp only
  rw [if_pos (by omega), if_pos (by omega), if_pos (by omega), if_pos (by omega), if_pos (by omega),
    if_pos (by omega), if_pos (by omega), if_pos (by omega)]

lemma loaded_first (c : UInt32) (b : Buffer) :
    Loaded v c (readsectorpio v.disk (fatLba v (c / FEPS)) 1 b) := fun _ =>
  fatWord_readsectorpio _ _ one_ne_zero _ _ _

/-- After the load the buffer is right for the next cluster. -/
lemma Loaded.reload (h : Loaded v c b) (hspc : v.fsInfo.sectorsPerCluster ≠ 0)
    (hd : fatEntry v c = d) : Loaded v d (reload v c b) := by
  unfold FatRead.reload
  rw [h.entry, hd]
  split
  · have hcount : v.fsInfo.sectorsPerCluster.toNat ≠ 0 := fun h0 =>
      hspc (UInt8.toNat_inj.mp h0)
    exact fun j => fatWord_readsectorpio _ _ hcount _ _ _
  · rename_i heq
    rw [not_not] at heq
    intro j
    rw [← heq]
    exact h j

/-! ### The steps along the chain -/

/-- The entry of `c` is `d`, and the sector that has the entry of `d` gives `d` at the place of
`c` as well. -/
def Follows (v : Volume) (c d : UInt32) : Prop :=
  fatEntry v c = d ∧ fatWord (fatSector v (d / FEPS)) (c % FEPS) = d

/-- The entry of `c` is `d`, and the entry of `d` is in the same sector. -/
def Stays (v : Volume) (c d : UInt32) : Prop :=
  fatEntry v c = d ∧ c / FEPS = d / FEPS ∧ d < 0x0FFFFFF0

instance (v : Volume) (c d : UInt32) : Decidable (Follows v c d) :=
  inferInstanceAs (Decidable (_ ∧ _))

instance (v : Volume) (c d : UInt32) : Decidable (Stays v c d) :=
  inferInstanceAs (Decidable (_ ∧ _ ∧ _))

lemma Follows.next (h : Follows v c d) (hb : Loaded v c b)
    (hspc : v.fsInfo.sectorsPerCluster ≠ 0) : fatWord (reload v c b) (c % FEPS) = d := by
  rw [(hb.reload hspc h.1) c]
  exact h.2

/-- The clusters `i` and `i + 1` of a list are in the relation, for `i < n`. -/
def Linked (R : UInt32 → UInt32 → Prop) (n : ℕ) (cs : List UInt32) : Prop :=
  ∀ i < n, ∀ _ : i + 1 < cs.length, R cs[i] cs[i + 1]

lemma Linked.tail {R : UInt32 → UInt32 → Prop} {n : ℕ} {cs : List UInt32}
    (h : Linked R (n + 1) (c :: cs)) : Linked R n cs := fun i hi hlen =>
  h (i + 1) (by omega) (Nat.succ_lt_succ hlen)

lemma skipClusters_eq (hspc : v.fsInfo.sectorsPerCluster ≠ 0) {n : ℕ} {cs : List UInt32}
    (hb : Loaded v c b) (hn : n < (c :: cs).length) (h : Linked (Follows v) n (c :: cs)) :
    ∃ b', skipClusters v n c b = ((c :: cs)[n], b') ∧ Loaded v (c :: cs)[n] b' := by
  induction n generalizing c cs b with
  | zero => exact ⟨b, rfl, hb⟩
  | succ n ih =>
    rcases cs with _ | ⟨d, cs⟩
    · simp at hn
    have hcd : Follows v c d := h 0 (by omega) (by simp)
    obtain ⟨b', hb', hl⟩ := ih (hb.reload hspc hcd.1) (by simpa using hn) h.tail
    refine ⟨b', ?_, hl⟩
    rw [skipClusters, hcd.next hb hspc]
    exact hb'

lemma masked_lt (h : d < 0x0FFFFFF0) : d &&& 0x0FFFFFFF < 0x0FFFFFF0 := by
  rw [UInt32.lt_iff_toNat_lt] at h ⊢
  rw [UInt32.toNat_and]
  exact Nat.and_le_left.trans_lt h

/-- The number of steps from one cluster to the next on the way to the last of `bytes` bytes. -/
def stepsTo (perCluster bytes : ℕ) : ℕ := (bytes - 1) / perCluster

lemma readClusters_eq (hbps : v.fsInfo.bytesPerSector = 512)
    (hspc : v.fsInfo.sectorsPerCluster ≠ 0) {cs : List UInt32} {fuel bytes : ℕ} {buffer : Buffer}
    (hb : Loaded v c b) (hpos : 0 < bytes) (hfuel : bytes ≤ fuel)
    (hle : bytes ≤ (c :: cs).length * (bytesPerCluster v).toNat)
    (h : Linked (Stays v) (stepsTo (bytesPerCluster v).toNat bytes) (c :: cs)) :
    readClusters v fuel bytes c b buffer = some (((c :: cs).flatMap (content v)).take bytes) := by
  have hper := bytesPerCluster_pos hbps hspc
  induction fuel generalizing c cs b bytes buffer with
  | zero => omega
  | succ fuel ih =>
    unfold readClusters
    dsimp only
    by_cases hgt : bytes > (bytesPerCluster v).toNat
    · rw [if_pos hgt]
      rcases cs with _ | ⟨d, cs⟩
      · rw [List.length_singleton] at hle
        omega
      have hsteps : stepsTo (bytesPerCluster v).toNat bytes =
          stepsTo (bytesPerCluster v).toNat (bytes - (bytesPerCluster v).toNat) + 1 := by
        unfold stepsTo
        rw [← Nat.add_div_right _ hper]
        congr 1
        omega
      rw [hsteps] at h
      have hcd : Stays v c d := h 0 (by omega) (by simp)
      have hnext : fatWord b (c % FEPS) = d := hb.entry.trans hcd.1
      have hle' : bytes - (bytesPerCluster v).toNat ≤ (d :: cs).length * (bytesPerCluster v).toNat := by
        rw [List.length_cons, Nat.succ_mul] at hle
        omega
      have hrec : readClusters v fuel (bytes - (bytesPerCluster v).toNat) d (reload v c b)
          (readCluster v c buffer) = some (((d :: cs).flatMap (content v)).take
            (bytes - (bytesPerCluster v).toNat)) :=
        ih (hb.reload hspc hcd.1) (by omega) (by omega) hle' h.tail
      have hfull : (content v c).take bytes = content v c :=
        List.take_of_length_le (by rw [length_content]; omega)
      have hcons : (c :: d :: cs).flatMap (content v) =
          content v c ++ (d :: cs).flatMap (content v) := List.flatMap_cons
      rw [hnext, if_neg (not_not.mpr hcd.2.1), if_pos (masked_lt hcd.2.2), hrec, Option.map_some,
        bytesOf_readCluster hbps c buffer (by omega), List.drop_zero, ← length_content c,
        List.take_length, hcons, List.take_append, hfull]
    · rw [if_neg hgt, bytesOf_readCluster hbps c buffer (by omega), List.flatMap_cons,
        List.take_append_of_le_length (by rw [length_content]; omega), List.drop_zero]

/-! ### The whole read -/

lemma drop_content {cs : List UInt32} {p start : ℕ} (hp : p < cs.length)
    (hs : start ≤ (bytesPerCluster v).toNat) :
    (cs.flatMap (content v)).drop (p * (bytesPerCluster v).toNat + start) =
      (content v cs[p]).drop start ++ (cs.drop (p + 1)).flatMap (content v) := by
  rw [← List.drop_drop, drop_flatMap length_content, List.drop_eq_getElem_cons hp,
    List.flatMap_cons, List.drop_append_of_le_length (by rwa [length_content])]

/-- The steps along the chain that the read takes end at the next cluster: before the pointer
the entry may be in another sector if both sectors agree, from then on it may not. -/
def Steady (v : Volume) (cs : List UInt32) (pointer bytes : ℕ) : Prop :=
  ∀ i < stepsTo (bytesPerCluster v).toNat (pointer + bytes), ∀ _ : i + 1 < cs.length,
    if i * (bytesPerCluster v).toNat < pointer then Follows v cs[i] cs[i + 1]
    else Stays v cs[i] cs[i + 1]

instance (v : Volume) (cs : List UInt32) (pointer bytes : ℕ) :
    Decidable (Steady v cs pointer bytes) :=
  inferInstanceAs (Decidable (∀ i < stepsTo (bytesPerCluster v).toNat (pointer + bytes),
    ∀ _ : i + 1 < cs.length, if i * (bytesPerCluster v).toNat < pointer then
      Follows v cs[i] cs[i + 1] else Stays v cs[i] cs[i + 1]))

lemma lt_stepsTo {per bytes i : ℕ} (hper : 0 < per) (hpos : 0 < bytes) :
    i < stepsTo per bytes ↔ (i + 1) * per < bytes := by
  unfold stepsTo
  rw [← Nat.succ_le_iff, Nat.le_div_iff_mul_le hper, Nat.succ_eq_add_one]
  omega

/-- The steps before the pointer, and those after it. -/
lemma Steady.split {cs : List UInt32} {pointer bytes k : ℕ} (hper : 0 < (bytesPerCluster v).toNat)
    (hpos : 0 < bytes) (h : Steady v cs pointer bytes)
    (hk : pointer ≤ k * (bytesPerCluster v).toNat)
    (hkb : k * (bytesPerCluster v).toNat < pointer + bytes) :
    Linked (Stays v)
      (stepsTo (bytesPerCluster v).toNat (pointer + bytes - k * (bytesPerCluster v).toNat))
      (cs.drop k) := by
  intro i hi hlen
  rw [lt_stepsTo hper (by omega)] at hi
  rw [List.length_drop] at hlen
  have hmul : (k + i + 1) * (bytesPerCluster v).toNat =
      k * (bytesPerCluster v).toNat + (i + 1) * (bytesPerCluster v).toNat := by ring
  have hki : k * (bytesPerCluster v).toNat ≤ (k + i) * (bytesPerCluster v).toNat :=
    Nat.mul_le_mul_right _ (Nat.le_add_right k i)
  have := h (k + i) ((lt_stepsTo hper (by omega)).mpr (by omega)) (by omega)
  rw [if_neg (by omega)] at this
  simpa only [List.getElem_drop, Nat.add_assoc] using this

lemma Steady.skipped {cs : List UInt32} {pointer bytes k : ℕ}
    (hper : 0 < (bytesPerCluster v).toNat) (hpos : 0 < bytes) (h : Steady v cs pointer bytes)
    (hk : ∀ i < k, i * (bytesPerCluster v).toNat < pointer)
    (hkb : k * (bytesPerCluster v).toNat < pointer + bytes) : Linked (Follows v) k cs := by
  intro i hi hlen
  have hik : (i + 1) * (bytesPerCluster v).toNat ≤ k * (bytesPerCluster v).toNat :=
    Nat.mul_le_mul_right _ hi
  have := h i ((lt_stepsTo hper (by omega)).mpr (by omega)) hlen
  rwa [if_pos (hk i hi)] at this

/-- From cluster `k` on, the loop over whole clusters does the rest. -/
lemma Steady.readClusters {cs : List UInt32} {pointer bytes k fuel : ℕ} (buffer : Buffer)
    (hbps : v.fsInfo.bytesPerSector = 512) (hspc : v.fsInfo.sectorsPerCluster ≠ 0)
    (hpos : 0 < bytes) (h : Steady v cs pointer bytes)
    (hle : pointer + bytes ≤ cs.length * (bytesPerCluster v).toNat)
    (hk : pointer ≤ k * (bytesPerCluster v).toNat)
    (hkb : k * (bytesPerCluster v).toNat < pointer + bytes) (hlen : k < cs.length)
    (hb : Loaded v cs[k] b)
    (hfuel : pointer + bytes - k * (bytesPerCluster v).toNat ≤ fuel) :
    readClusters v fuel (pointer + bytes - k * (bytesPerCluster v).toNat) cs[k] b buffer =
      some (((cs.drop k).flatMap (content v)).take
        (pointer + bytes - k * (bytesPerCluster v).toNat)) := by
  have hdrop : cs[k] :: cs.drop (k + 1) = cs.drop k := (List.drop_eq_getElem_cons hlen).symm
  have hrest : pointer + bytes - k * (bytesPerCluster v).toNat ≤
      (cs[k] :: cs.drop (k + 1)).length * (bytesPerCluster v).toNat := by
    rw [hdrop, List.length_drop, Nat.sub_mul]
    omega
  have hlinked := h.split (bytesPerCluster_pos hbps hspc) hpos hk hkb
  rw [← hdrop] at hlinked ⊢
  exact readClusters_eq hbps hspc hb (by omega) hfuel hrest hlinked

/-- **Reading a file.** Whatever the volume, the chain of the file, the position and the
number of bytes, `fat_read` stores exactly the bytes of the file from that position on, if
the steps along the chain that it takes are steady. -/
theorem fatRead_stored (v : Volume) (entry : FATEntry) (cs : List UInt32) (pointer bytes : ℕ)
    (FATbuffer buffer : Buffer) (hbps : v.fsInfo.bytesPerSector = 512)
    (hspc : v.fsInfo.sectorsPerCluster ≠ 0) (hcs : IsChain v (entry.cluster :: cs))
    (hpos : 1 ≤ bytes)
    (hle : pointer + bytes ≤ (entry.cluster :: cs).length * (bytesPerCluster v).toNat)
    (h : Steady v (entry.cluster :: cs) pointer bytes) :
    fatRead v entry pointer bytes FATbuffer buffer =
      some (bytes, (((entry.cluster :: cs).flatMap (content v)).drop pointer).take bytes) := by
  have hper := bytesPerCluster_pos hbps hspc
  obtain ⟨per, hper'⟩ : ∃ per, (bytesPerCluster v).toNat = per := ⟨_, rfl⟩
  have hsplit : pointer / per * per + pointer % per = pointer := Nat.div_add_mod' pointer per
  have hmod : pointer % per < per := Nat.mod_lt _ (by omega)
  have hp : pointer / per < (entry.cluster :: cs).length := by
    rw [Nat.div_lt_iff_lt_mul (by omega), ← hper']
    omega
  have hskip : (pointer / per).toUInt32.toNat = pointer / per := by
    have := hcs.length_le
    rw [Nat.toUInt32, UInt32.toNat_ofNat', Nat.mod_eq_of_lt (by omega)]
  have hfirst : Linked (Follows v) (pointer / per) (entry.cluster :: cs) := by
    refine h.skipped hper hpos (fun i hi => ?_) (by rw [hper']; omega)
    have := Nat.mul_le_mul_right per (Nat.succ_le_of_lt hi)
    rw [Nat.succ_mul] at this
    rw [hper']
    omega
  obtain ⟨b, hb, hl⟩ := skipClusters_eq hspc (loaded_first _ FATbuffer) hp hfirst
  have hrest := drop_content (v := v) hp (by rw [hper']; exact hmod.le : pointer % per ≤ _)
  rw [hper', hsplit] at hrest
  unfold fatRead
  dsimp only
  rw [hper', hskip, hb, hrest]
  by_cases hstart : pointer % per = 0
  · rw [if_neg (not_not.mpr hstart), hstart, List.drop_zero]
    have hcount : pointer + bytes - pointer / per * per = bytes := by omega
    have hrun := h.readClusters buffer hbps hspc hpos hle
      (by rw [hper']; omega : pointer ≤ pointer / per * _) (by rw [hper']; omega) hp hl
      (by rw [hper']; omega : _ ≤ bytes + 1)
    rw [hper', hcount] at hrun
    rw [hrun, Option.map_some, List.drop_eq_getElem_cons hp, List.flatMap_cons]
  · rw [if_pos hstart]
    by_cases hgt : bytes > per - pointer % per
    · -- the first cluster is read in part, and the chain is followed once more
      rw [if_pos hgt]
      have hnext : (pointer / per + 1) * per = pointer / per * per + per := Nat.succ_mul _ _
      have hp' : pointer / per + 1 < (entry.cluster :: cs).length := by
        by_contra hge
        have := Nat.mul_le_mul_right per (not_lt.mp hge)
        rw [hper'] at hle
        omega
      have hmore : Linked (Follows v) (pointer / per + 1) (entry.cluster :: cs) := by
        refine h.skipped hper hpos (fun i hi => ?_) (by rw [hper']; omega)
        have := Nat.mul_le_mul_right per (Nat.le_of_lt_succ hi)
        rw [hper']
        omega
      have hfol : Follows v (entry.cluster :: cs)[pointer / per]
          (entry.cluster :: cs)[pointer / per + 1] :=
        hmore _ (Nat.lt_succ_self _) hp'
      have hcount : pointer + bytes - (pointer / per + 1) * per =
          bytes - (per - pointer % per) := by omega
      have hrun := h.readClusters (readCluster v (entry.cluster :: cs)[pointer / per] buffer)
        hbps hspc hpos hle
        (by rw [hper']; omega : pointer ≤ (pointer / per + 1) * _) (by rw [hper']; omega) hp'
        (hl.reload hspc hfol.1) (by rw [hper']; omega : _ ≤ bytes + 1)
      rw [hper', hcount] at hrun
      have hpart : ((content v (entry.cluster :: cs)[pointer / per]).drop (pointer % per)).length =
          per - pointer % per := by rw [List.length_drop, length_content, hper']
      have htail : bytesOf (readCluster v (entry.cluster :: cs)[pointer / per] buffer)
          (pointer % per) (per - pointer % per) =
            (content v (entry.cluster :: cs)[pointer / per]).drop (pointer % per) := by
        rw [bytesOf_readCluster hbps _ _ (by omega)]
        exact List.take_of_length_le (le_of_eq hpart)
      have hall : ((content v (entry.cluster :: cs)[pointer / per]).drop (pointer % per)).take bytes =
          (content v (entry.cluster :: cs)[pointer / per]).drop (pointer % per) :=
        List.take_of_length_le (by omega)
      rw [hfol.next hl hspc, hrun, Option.map_some, htail, List.take_append, hpart, hall]
    · rw [if_neg hgt, bytesOf_readCluster hbps _ _ (by omega),
        List.take_append_of_le_length (by rw [List.length_drop, length_content]; omega)]

/-- A disk with a file of two clusters, 2 and `second`, in a volume at sector 0. The bytes of
every other sector are its number. -/
def twoClusters (second : UInt32) : Disk := fun lba i =>
  if lba = 32 ∧ 8 ≤ i ∧ i < 12 then (second >>> (8 * (i - 8)).toUInt32).toUInt8
  else if lba = 32 + (second / FEPS).toNat ∧ i / 4 = (second % FEPS).toNat then 0xFF
  else lba.toUInt8

def startsAtTwo : FATEntry := fun k => if k.val = 26 then 2 else 0

theorem fatRead_stored_twoClusters :
    let v := setupVolume (twoClusters 3) 0 (gibibyte 1)
    fatRead v startsAtTwo 500 100 (fun _ => 0) (fun _ => 0) =
      some (100, (([2, 3].flatMap (content v)).drop 500).take 100) :=
  fatRead_stored (setupVolume (twoClusters 3) 0 (gibibyte 1)) startsAtTwo [3] 500 100 _ _
    (by decide) (by decide) (by decide +kernel) (by decide) (by decide +kernel) (by decide +kernel)

/-- Where the entry of the second cluster is in the next sector of the FAT, the first cluster
is stored again. -/
theorem not_fatRead_stored :
    let v := setupVolume (twoClusters 130) 0 (gibibyte 1)
    IsChain v [startsAtTwo.cluster, 130] ∧ 513 ≤ 2 * (bytesPerCluster v).toNat ∧
      fatRead v startsAtTwo 0 513 (fun _ => 0) (fun _ => 0) ≠
        some (513, (([startsAtTwo.cluster, 130].flatMap (content v)).drop 0).take 513) :=
  ⟨by decide +kernel, by decide +kernel, by decide +kernel⟩

end FlameOS.FatRead
