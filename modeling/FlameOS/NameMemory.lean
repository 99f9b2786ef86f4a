import FlameOS.LongNames

/-!
`find_fat_entry` with the memory around `filename`.

The number of a long-name record and the characters that are counted may lead out of the array,
to both sides of it. The search goes on after such a store: what lies around the array is none of
its variables here, but a name that is too long is compared as it is there.
-/

namespace FlameOS.NameMemory

open FlameOS.Fat FlameOS.FatRead FlameOS.FatName FlameOS.FatFind FlameOS.LongNames
open FlameOS.StepLoop

/-! ### The loop -/

/-- Where `filename` begins in the memory. A record of number 0 is stored right before it. -/
def NAME : ℕ := 13

def array (memory : Buffer) : Buffer := fun i => memory (NAME + i)

/-- The three copies of a long-name record. -/
def copyPiece (memory : Buffer) (e : FATEntry) : Buffer :=
  let k := order e * 13
  store (store (store memory k (wcatomba (wchars e 1 5))) (k + 5) (wcatomba (wchars e 14 6)))
    (k + 11) (wcatomba (wchars e 28 2))

/-- `filename[len] = '\0'`, behind `len` characters. -/
def copyEnd (memory : Buffer) (len : ℕ) : Buffer :=
  Function.update memory (NAME + counter len) 0

/-- The name of a record that no long-name record comes before. -/
def copyShort (memory : Buffer) (e : FATEntry) : Buffer :=
  store memory NAME (shortBase e ++ 0x2E :: bytes e 8 3 ++ [0])

/-- The memory when the name of a record is compared, behind long-name records or not. -/
def copyName (run : Bool) (memory : Buffer) (len : ℕ) (e : FATEntry) : Buffer :=
  if run then copyEnd memory len else copyShort memory e

/-- The string at `filename`, as far as it is compared with one of `n` characters. -/
def shown (memory : Buffer) (n : ℕ) : List UInt8 :=
  ((List.range (n + 1)).map (array memory)).takeWhile (· ≠ 0)

def scanOn (comp : Option (List UInt8)) : List FATEntry → Bool → Buffer → ℕ → Pass
  | [], run, memory, len => if run then .crossed memory len else .done memory len
  | current :: rest, run, memory, len =>
    if current.attr = LFN then scanOn comp rest true (copyPiece memory current) (len + 13)
    else
      let memory := copyName run memory len current
      let len := if run then 0 else len
      match comp with
      | none => .fault
      | some comp =>
        if strcmp (shown memory comp.length) comp = 0 then .found current memory len
        else scanOn (some comp) rest false memory len

section search

variable (v : Volume) (path : List (List UInt8))

def recordsOf (s : Search) : List FATEntry := records s.buffer ((bytesPerCluster v).toNat / 32)

/-- The pass of a round. In `filename` the state has the memory. -/
def passOf (s : Search) : Pass := scanOn path[s.depth]? (recordsOf v s) false s.filename s.len

/-- From `inloop2` to the next time there, or to the end. -/
def stepOn (s : Search) : Except Outcome Search := after v s (passOf v path s)

def searchOn (fuel gap : ℕ) (FATbuffer buffer memory : Buffer) : Option Outcome :=
  rounds (stepOn v path) fuel (start v gap FATbuffer buffer memory)

def ReachesOn : Search → Search → Prop := Relation.ReflTransGen (Next (stepOn v path))

end search

/-! ### Inside of the array -/

/-- The memory has the array. -/
def Agrees (memory filename : Buffer) : Prop := ∀ i < FILENAME_LENGTH, array memory i = filename i

/-- The passes end in the same way. -/
inductive PassAgrees : Pass → Pass → Prop
  | found {m fn : Buffer} (h : Agrees m fn) (e : FATEntry) (len : ℕ) :
      PassAgrees (.found e m len) (.found e fn len)
  | crossed {m fn : Buffer} (h : Agrees m fn) (len : ℕ) :
      PassAgrees (.crossed m len) (.crossed fn len)
  | done {m fn : Buffer} (h : Agrees m fn) (len : ℕ) : PassAgrees (.done m len) (.done fn len)

/-- The states differ around the array only. -/
structure StateAgrees (s t : Search) : Prop where
  array : Agrees s.filename t.filename
  rest : s = { t with filename := s.filename }

section agrees

variable {m fn fn' : Buffer} {e : FATEntry} {len k : ℕ} {l : List UInt8}

lemma array_store (m : Buffer) (k : ℕ) (l : List UInt8) :
    array (store m (NAME + k) l) = store (array m) k l := by
  funext i
  unfold array store
  have hsub : NAME + i - (NAME + k) = i - k := by omega
  rw [hsub]
  exact if_congr (by omega) rfl rfl

lemma Agrees.store (h : Agrees m fn) (k : ℕ) (l : List UInt8) :
    Agrees (store m (NAME + k) l) (store fn k l) := fun i hi => by
  rw [array_store, FatName.store, FatName.store, h i hi]

lemma Agrees.copyPiece (h : Agrees m fn) (hput : putPiece fn e = some fn') :
    Agrees (copyPiece m e) fn' := by
  have hplaced := placed_of_putPiece hput
  have hk : order e * 13 = NAME + (order e - 1) * 13 := by
    have := hplaced.1
    unfold NAME
    omega
  unfold putPiece at hput
  split at hput
  · cases hput
  · cases hput
    unfold NameMemory.copyPiece
    dsimp only
    rw [hk, Nat.add_assoc, Nat.add_assoc]
    exact ((h.store _ _).store _ _).store _ _

lemma Agrees.copyEnd (h : Agrees m fn) (hput : terminate fn len = some fn') :
    Agrees (copyEnd m len) fn' ∧ ∃ z < FILENAME_LENGTH, fn' z = 0 := by
  unfold terminate at hput
  split at hput
  · rename_i hlt
    cases hput
    refine ⟨fun i hi => ?_, counter len, hlt, Function.update_self _ _ _⟩
    have hiff : NAME + i = NAME + counter len ↔ i = counter len := by omega
    have hi' := h i hi
    unfold array at hi' ⊢
    rw [NameMemory.copyEnd, Function.update_apply, Function.update_apply, hi']
    exact if_congr hiff rfl rfl
  · cases hput

lemma Agrees.copyShort (h : Agrees m fn) (e : FATEntry) :
    Agrees (copyShort m e) (putShort fn e) ∧ ∃ z < FILENAME_LENGTH, putShort fn e z = 0 := by
  refine ⟨h.store 0 _, (shortBase e).length + 4, ?_, ?_⟩
  · have := length_shortBase_le e
    unfold FILENAME_LENGTH
    omega
  · have hlen : (shortBase e ++ 0x2E :: bytes e 8 3).length = (shortBase e).length + 4 := by
      simp [bytes]
    unfold putShort FatName.store
    rw [if_pos (by rw [List.length_append, hlen]; simp), Nat.sub_zero,
      List.getD_append_right _ _ _ _ hlen.le, hlen, Nat.sub_self]
    rfl

lemma Agrees.copyName {run : Bool} (h : Agrees m fn)
    (hput : (if run then terminate fn len else some (putShort fn e)) = some fn') :
    Agrees (copyName run m len e) fn' ∧ ∃ z < FILENAME_LENGTH, fn' z = 0 := by
  rcases run with _ | _
  · obtain rfl := Option.some.inj hput
    exact h.copyShort e
  · exact h.copyEnd hput

/-- Up to a NUL it does not matter how far one looks. -/
lemma takeWhile_range_eq_iff {f : ℕ → UInt8} {z n : ℕ} (hz : f z = 0) (hzn : z < n)
    (c : List UInt8) :
    ((List.range (c.length + 1)).map f).takeWhile (· ≠ 0) = c ↔
      ((List.range n).map f).takeWhile (· ≠ 0) = c := by
  have hsplit : ∀ i j, i ≤ j → (List.range j).map f =
      (List.range i).map f ++ (List.range (j - i)).map fun k => f (i + k) := fun i j hij => by
    obtain ⟨k, rfl⟩ := Nat.exists_eq_add_of_le hij
    rw [List.range_add, List.map_append, Nat.add_sub_cancel_left, List.map_map]
    rfl
  rcases le_total n (c.length + 1) with hn | hn
  · -- the NUL comes first
    have hstop : ¬ ∀ x ∈ (List.range n).map f, (decide (x ≠ 0)) = true := fun hall => by
      have := hall (f z) (List.mem_map_of_mem (List.mem_range.mpr hzn))
      rw [hz] at this
      exact absurd this (by decide)
    rw [hsplit n (c.length + 1) hn, List.takeWhile_append, if_neg]
    intro hlen
    exact hstop (List.takeWhile_eq_self_iff.mp ((List.takeWhile_prefix _).eq_of_length hlen))
  · rw [hsplit (c.length + 1) n hn, List.takeWhile_append]
    split
    · rename_i hlen
      rw [List.length_map, List.length_range] at hlen
      refine iff_of_false (fun heq => ?_) fun heq => ?_
      · rw [heq] at hlen
        omega
      · have := congrArg List.length heq
        rw [List.length_append, List.length_map, List.length_range] at this
        omega
    · rfl

lemma Agrees.shown_iff (h : Agrees m fn) (hz : ∃ z < FILENAME_LENGTH, fn z = 0)
    (c : List UInt8) : strcmp (shown m c.length) c = 0 ↔ strcmp (cstr fn) c = 0 := by
  obtain ⟨z, hlt, hz⟩ := hz
  have hmap : (List.range FILENAME_LENGTH).map fn = (List.range FILENAME_LENGTH).map (array m) :=
    List.map_congr_left fun i hi => (h i (List.mem_range.mp hi)).symm
  rw [strcmp_eq_zero, strcmp_eq_zero, cstr, hmap]
  exact takeWhile_range_eq_iff ((h z hlt).trans hz) hlt c

/-- A pass that stays in the array goes on as it does there. -/
lemma scanOn_agrees {comp : Option (List UInt8)} {es : List FATEntry} {run : Bool}
    (h : Agrees m fn) (hne : scan comp es run fn len ≠ .fault) :
    PassAgrees (scanOn comp es run m len) (scan comp es run fn len) := by
  induction es generalizing comp run m fn len with
  | nil =>
    rw [scanOn, scan]
    rcases run with _ | _
    · exact .done h len
    · exact .crossed h len
  | cons e es ih =>
    rw [scan] at hne ⊢
    rw [scanOn]
    by_cases hattr : e.attr = LFN
    · rw [if_pos hattr] at hne
      rw [if_pos hattr, if_pos hattr]
      rcases hput : putPiece fn e with _ | fn₁
      · rw [hput] at hne
        exact absurd rfl hne
      · rw [hput] at hne
        exact ih (h.copyPiece hput) hne
    · rw [if_neg hattr] at hne
      rw [if_neg hattr, if_neg hattr]
      rcases hput : if run then terminate fn len else some (putShort fn e) with _ | fn₁
      · rw [hput] at hne
        exact absurd rfl hne
      · rw [hput] at hne
        obtain ⟨hagrees, hz⟩ := h.copyName hput
        rcases comp with _ | c
        · exact absurd rfl hne
        · dsimp only at hne ⊢
          by_cases heq : strcmp (cstr fn₁) c = 0
          · rw [if_pos heq, if_pos ((hagrees.shown_iff hz c).mpr heq)]
            exact .found hagrees e _
          · rw [if_neg heq] at hne
            rw [if_neg heq, if_neg fun h' => heq ((hagrees.shown_iff hz c).mp h')]
            exact ih hagrees hne

variable {v : Volume} {path : List (List UInt8)} {s t : Search}

lemma after_agrees {p q : Pass} (h : StateAgrees s t) (hpq : PassAgrees p q) :
    (∃ o o', after v s p = .error o ∧ after v t q = .error o' ∧ o.returned = o'.returned) ∨
      ∃ s' t', after v s p = .ok s' ∧ after v t q = .ok t' ∧ StateAgrees s' t' := by
  obtain ⟨m, rfl⟩ : ∃ m, s = { t with filename := m } := ⟨_, h.rest⟩
  cases hpq with
  | found h' e len =>
    rw [after, after]
    by_cases hfile : e.attr &&& 0x10 = 0
    · rw [if_pos hfile, if_pos hfile]
      exact Or.inl ⟨_, _, rfl, rfl, rfl⟩
    · rw [if_neg hfile, if_neg hfile]
      exact Or.inr ⟨_, _, rfl, rfl, h', rfl⟩
  | crossed h' len => exact Or.inr ⟨_, _, rfl, rfl, h', rfl⟩
  | done h' len =>
    rw [after, after]
    by_cases hlive : nextActive v t.activeCluster t.FATbuffer &&& 0x0FFFFFFF < 0x0FFFFFF0
    · rw [if_pos hlive, if_pos hlive]
      exact Or.inr ⟨_, _, rfl, rfl, h', rfl⟩
    · rw [if_neg hlive, if_neg hlive]
      exact Or.inl ⟨_, _, rfl, rfl, rfl⟩

/-- **One round** that stays in the array. -/
lemma step_agrees (h : StateAgrees s t) (hne : step v path t ≠ .error .fault) :
    (∃ o o', stepOn v path s = .error o ∧ step v path t = .error o' ∧ o.returned = o'.returned) ∨
      ∃ s' t', stepOn v path s = .ok s' ∧ step v path t = .ok t' ∧ StateAgrees s' t' := by
  have hscan : scan path[t.depth]? (recordsOf v t) false t.filename t.len ≠ .fault := by
    intro hfault
    refine hne ?_
    unfold recordsOf at hfault
    rw [FatFind.step, hfault]
    rfl
  have hpass : passOf v path s = scanOn path[t.depth]? (recordsOf v t) false s.filename t.len := by
    obtain ⟨m, rfl⟩ : ∃ m, s = { t with filename := m } := ⟨_, h.rest⟩
    rfl
  rw [stepOn, hpass]
  exact after_agrees h (scanOn_agrees h.array hscan)

lemma rounds_agrees {fuel : ℕ} {o : Outcome} (h : StateAgrees s t)
    (hrun : rounds (step v path) fuel t = some o) (ho : o ≠ .fault) :
    ∃ o', rounds (stepOn v path) fuel s = some o' ∧ o'.returned = o.returned := by
  induction fuel generalizing s t with
  | zero => cases hrun
  | succ fuel ih =>
    rw [rounds] at hrun ⊢
    have hne : step v path t ≠ .error .fault := by
      intro hfault
      rw [hfault] at hrun
      exact ho (Option.some.inj hrun).symm
    rcases step_agrees h hne with ⟨o₁, o₂, hs, ht, hret⟩ | ⟨s', t', hs, ht, h'⟩
    · rw [ht] at hrun
      rw [hs]
      obtain rfl := Option.some.inj hrun
      exact ⟨o₁, rfl, hret⟩
    · rw [ht] at hrun
      rw [hs]
      exact ih h' hrun

end agrees

/-- **The array and what lies around it.** A search that stays in the array, with something to
compare every record with, returns the same whatever there is around the array. -/
theorem searchOn_returns (v : Volume) (path : List (List UInt8)) (fuel gap : ℕ)
    (FATbuffer buffer filename memory : Buffer) (o : Outcome)
    (h : findFatEntry v path fuel gap FATbuffer buffer filename = some o) (ho : o ≠ .fault)
    (hm : Agrees memory filename) :
    ∃ o', searchOn v path fuel gap FATbuffer buffer memory = some o' ∧
      o'.returned = o.returned := by
  have hstart : StateAgrees (start v gap FATbuffer buffer memory)
    (start v gap FATbuffer buffer filename) := ⟨hm, rfl⟩
  exact rounds_agrees hstart h ho

/-- The note is found between other bytes. -/
theorem searchOn_returns_music :
    ∃ o, searchOn music.setup notePath 2 512 (fun _ => 0) (fun _ => 0)
        (fun i => if NAME ≤ i ∧ i < NAME + FILENAME_LENGTH then 0 else 0xFF) = some o ∧
      o.returned = some (0, some (ofBytes noteRecord)) := by
  obtain ⟨fn, hfn⟩ := rounds_music
  refine searchOn_returns music.setup notePath 2 512 (fun _ => 0) (fun _ => 0) (fun _ => 0) _ _ hfn
    (fun h => by cases h) fun i hi => ?_
  have hin : NAME ≤ NAME + i ∧ NAME + i < NAME + FILENAME_LENGTH := by omega
  exact if_pos hin

end FlameOS.NameMemory
