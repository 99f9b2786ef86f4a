import FlameOS.NameMemory

/-!
Whether `find_fat_entry` returns.

At the end of the records the search goes on with those of another cluster, or with the same buffer
within a name, until it comes to an end mark of the FAT. If it comes back to a cluster with the
same bytes in both buffers, it goes the same way again. What this leaves around `filename` does not
change any more after two such turns, so that a third one is followed by all others.
-/

namespace FlameOS.SearchEnds

open FlameOS.Fat FlameOS.FatRead FlameOS.FatName FlameOS.FatFind FlameOS.NameMemory
open FlameOS.StepLoop

/-! ### Fixed stores -/

section overwrites

variable {α : Type*} {f g : (ℕ → α) → ℕ → α}

/-- Some places are set, to values that do not depend on what was there. -/
def Overwrites (f : (ℕ → α) → ℕ → α) : Prop := ∃ m : ℕ → Option α, ∀ b i, f b i = (m i).getD (b i)

lemma Overwrites.refl : Overwrites fun b : ℕ → α => b := ⟨fun _ => none, fun _ _ => rfl⟩

lemma Overwrites.comp (hf : Overwrites f) (hg : Overwrites g) : Overwrites fun b => g (f b) := by
  obtain ⟨m, hm⟩ := hf
  obtain ⟨n, hn⟩ := hg
  refine ⟨fun i => (n i).or (m i), fun b i => ?_⟩
  dsimp only
  rw [hn, hm]
  rcases n i with _ | a <;> rfl

lemma Overwrites.idem (hf : Overwrites f) (b : ℕ → α) : f (f b) = f b := by
  obtain ⟨m, hm⟩ := hf
  funext i
  rw [hm, hm]
  rcases m i with _ | a <;> rfl

end overwrites

lemma overwrites_store (k : ℕ) (l : List UInt8) : Overwrites fun m : Buffer => store m k l := by
  refine ⟨fun i => if k ≤ i ∧ i < k + l.length then some (l.getD (i - k) 0) else none, ?_⟩
  intro m i
  unfold store
  dsimp only
  split <;> rfl

lemma overwrites_update (k : ℕ) (x : UInt8) :
    Overwrites fun m : Buffer => Function.update m k x := by
  refine ⟨fun i => if i = k then some x else none, fun m i => ?_⟩
  dsimp only
  rw [Function.update_apply]
  split <;> rfl

/-! ### What a pass leaves -/

/-- The memory after a pass that comes to its end. -/
def written : List FATEntry → Bool → ℕ → Buffer → Buffer
  | [], _, _, memory => memory
  | e :: es, run, len, memory =>
    if e.attr = LFN then written es true (len + 13) (copyPiece memory e)
    else written es false (if run then 0 else len) (copyName run memory len e)

/-- `len` after it. -/
def counted : List FATEntry → Bool → ℕ → ℕ
  | [], _, len => len
  | e :: es, run, len =>
    if e.attr = LFN then counted es true (len + 13) else counted es false (if run then 0 else len)

/-- The last record is a long-name record. -/
def endsLong : List FATEntry → Bool → Bool
  | [], run => run
  | e :: es, _ => endsLong es (e.attr = LFN)

/-- Some record ends a run of long-name records. -/
def Completes : List FATEntry → Bool → Prop
  | [], _ => False
  | e :: es, run => if e.attr = LFN then Completes es true else run = true ∨ Completes es false

/-- What there is at the end of a pass, if it comes there. -/
def ending : Pass → Option (Bool × Buffer × ℕ)
  | .crossed memory len => some (true, memory, len)
  | .done memory len => some (false, memory, len)
  | _ => none

section pass

variable {comp : Option (List UInt8)} {e : FATEntry} {es : List FATEntry} {run : Bool}
  {m m' : Buffer} {len l : ℕ}

lemma overwrites_copyPiece (e : FATEntry) : Overwrites fun m => copyPiece m e :=
  ((overwrites_store _ _).comp (overwrites_store _ _)).comp (overwrites_store _ _)

lemma overwrites_copyName (run : Bool) (len : ℕ) (e : FATEntry) :
    Overwrites fun m => copyName run m len e := by
  rcases run with _ | _
  · exact overwrites_store NAME _
  · exact overwrites_update (NAME + counter len) 0

lemma overwrites_written (es : List FATEntry) (run : Bool) (len : ℕ) :
    Overwrites (written es run len) := by
  induction es generalizing run len with
  | nil => exact .refl
  | cons e es ih =>
    by_cases hattr : e.attr = LFN
    · have hstep : written (e :: es) run len =
          fun m => written es true (len + 13) (copyPiece m e) := by
        funext m
        rw [written, if_pos hattr]
      rw [hstep]
      exact (overwrites_copyPiece e).comp (ih true (len + 13))
    · have hstep : written (e :: es) run len =
          fun m => written es false (if run then 0 else len) (copyName run m len e) := by
        funext m
        rw [written, if_neg hattr]
      rw [hstep]
      exact (overwrites_copyName run len e).comp (ih false _)

lemma ending_short (hattr : e.attr ≠ LFN) {r : Bool × Buffer × ℕ} :
    ending (scanOn comp (e :: es) run m len) = some r ↔
      ∃ c, comp = some c ∧ shown (copyName run m len e) c.length ≠ c ∧
        ending (scanOn (some c) es false (copyName run m len e) (if run then 0 else len)) =
          some r := by
  rw [scanOn, if_neg hattr]
  rcases comp with _ | c
  · refine iff_of_false (fun h => by cases h) ?_
    rintro ⟨c, hc, -⟩
    cases hc
  · dsimp only
    by_cases heq : shown (copyName run m len e) c.length = c
    · rw [if_pos (strcmp_eq_zero.mpr heq)]
      refine iff_of_false (fun h => by cases h) ?_
      rintro ⟨c', hc', hne, -⟩
      cases hc'
      exact hne heq
    · rw [if_neg fun h => heq (strcmp_eq_zero.mp h)]
      constructor
      · exact fun h => ⟨c, rfl, heq, h⟩
      · rintro ⟨c', hc', -, h⟩
        cases hc'
        exact h

lemma scanOn_long (hattr : e.attr = LFN) :
    scanOn comp (e :: es) run m len = scanOn comp es true (copyPiece m e) (len + 13) := by
  rw [scanOn, if_pos hattr]

/-- What a pass leaves at its end does not depend on the component. -/
lemma scanOn_ending {b : Bool} (h : ending (scanOn comp es run m len) = some (b, m', l)) :
    endsLong es run = b ∧ m' = written es run len m ∧ l = counted es run len := by
  induction es generalizing run m len comp with
  | nil =>
    rcases run with _ | _
    · cases h
      exact ⟨rfl, rfl, rfl⟩
    · cases h
      exact ⟨rfl, rfl, rfl⟩
  | cons e es ih =>
    rw [endsLong, written, counted]
    by_cases hattr : e.attr = LFN
    · rw [scanOn_long hattr] at h
      rw [if_pos hattr, if_pos hattr, decide_eq_true hattr]
      exact ih h
    · rw [if_neg hattr, if_neg hattr, decide_eq_false hattr]
      obtain ⟨c, -, -, hrest⟩ := (ending_short hattr).mp h
      exact ih hrest

lemma scanOn_none_ne_found : scanOn none es run m len ≠ .found e m' l := by
  induction es generalizing run m len with
  | nil =>
    rw [scanOn]
    split <;> exact fun h => by cases h
  | cons x es ih =>
    rw [scanOn]
    split
    · exact ih
    · exact fun h => by cases h

/-- Behind the end of a run nothing is counted any more. -/
lemma Completes.counted_eq (h : Completes es run) (len len' : ℕ) :
    counted es run len = counted es run len' := by
  induction es generalizing run len len' with
  | nil => exact h.elim
  | cons e es ih =>
    rw [counted, counted]
    rw [Completes] at h
    by_cases hattr : e.attr = LFN
    · rw [if_pos hattr] at h
      rw [if_pos hattr, if_pos hattr]
      exact ih h _ _
    · rw [if_neg hattr] at h
      rw [if_neg hattr, if_neg hattr]
      rcases run with _ | _
      · exact ih (h.resolve_left Bool.false_ne_true) _ _
      · rfl

/-- Where no run ends, what is counted changes nothing. -/
lemma written_of_not_completes (hes : ¬ Completes es run) (len len' : ℕ) :
    written es run len = written es run len' := by
  induction es generalizing run len len' with
  | nil => rfl
  | cons e es ih =>
    rw [Completes] at hes
    funext m
    rw [written, written]
    by_cases hattr : e.attr = LFN
    · rw [if_pos hattr] at hes
      rw [if_pos hattr, if_pos hattr, ih hes]
    · rw [if_neg hattr, not_or] at hes
      obtain rfl : run = false := Bool.eq_false_iff.mpr hes.1
      rw [if_neg hattr, if_neg hattr, ih hes.2 _ (if false = true then 0 else len')]
      rfl

lemma ending_of_not_completes {b : Bool} (hes : ¬ Completes es run)
    (h : ending (scanOn comp es run m len) = some (b, m', l)) (len' : ℕ) :
    ∃ l', ending (scanOn comp es run m len') = some (b, m', l') := by
  induction es generalizing run m len len' comp with
  | nil =>
    rcases run with _ | _
    · cases h
      exact ⟨len', rfl⟩
    · cases h
      exact ⟨len', rfl⟩
  | cons e es ih =>
    rw [Completes] at hes
    by_cases hattr : e.attr = LFN
    · rw [if_pos hattr] at hes
      rw [scanOn_long hattr] at h ⊢
      exact ih hes h _
    · rw [if_neg hattr, not_or] at hes
      obtain rfl : run = false := Bool.eq_false_iff.mpr hes.1
      obtain ⟨c, hc, hne, hrest⟩ := (ending_short hattr).mp h
      obtain ⟨l', hl'⟩ := ih hes.2 hrest len'
      exact ⟨l', (ending_short hattr).mpr ⟨c, hc, hne, hl'⟩⟩

lemma scanOn_eq_fault_iff :
    scanOn comp es run m len = .fault ↔ comp = none ∧ ¬ ∀ e ∈ es, e.attr = LFN := by
  induction es generalizing run m len comp with
  | nil =>
    refine iff_of_false ?_ fun h => h.2 fun e he => absurd he List.not_mem_nil
    rw [scanOn]
    split <;> exact fun h => by cases h
  | cons e es ih =>
    by_cases hattr : e.attr = LFN
    · rw [scanOn_long hattr, ih, List.forall_mem_cons, and_iff_right hattr]
    · rw [scanOn, if_neg hattr, List.forall_mem_cons, and_iff_left_of_imp fun _ h => hattr h.1]
      rcases comp with _ | c
      · exact iff_of_true rfl rfl
      · refine iff_of_false ?_ fun h => by cases h
        dsimp only
        split
        · exact fun h => by cases h
        · rw [ih]
          exact fun h => by cases h.1

end pass

/-! ### Rounds -/

section rounds

variable (v : Volume) (path : List (List UInt8))

/-- The round comes to the end of the records, and the next one looks for the same component. -/
def Onward (s s' : Search) : Prop :=
  (∃ r, ending (passOf v path s) = some r) ∧ Next (stepOn v path) s s'

def move (s : Search) (memory : Buffer) (len : ℕ) : Search :=
  if endsLong (recordsOf v s) false then again v s memory len else advance v s memory len

/-- The rounds come back to a cluster with the same bytes in both buffers, and this three times. -/
def Circles (s : Search) : Prop :=
  ∃ n s₁ s₂ s₃, Steps (Onward v path) (n + 1) s s₁ ∧ Steps (Onward v path) (n + 1) s₁ s₂ ∧
    Steps (Onward v path) (n + 1) s₂ s₃ ∧
    s₁.activeCluster = s.activeCluster ∧ s₁.FATbuffer = s.FATbuffer ∧ s₁.buffer = s.buffer

/-- The round goes right: there is a name to compare the records with, and the round is not the
first of three turns. -/
structure Regular (s : Search) : Prop where
  component : path[s.depth]? = none → ∀ e ∈ recordsOf v s, e.attr = LFN
  turns : ¬ Circles v path s

variable {v path} {s s' t t' : Search} {n : ℕ} {memory : Buffer} {len : ℕ}

lemma next_of_ending {b : Bool} (h : ending (passOf v path s) = some (b, memory, len))
    (hlive : b = false →
      nextActive v s.activeCluster s.FATbuffer &&& 0x0FFFFFFF < 0x0FFFFFF0) :
    Next (stepOn v path) s (move v s memory len) := by
  have hlong := (scanOn_ending h).1
  unfold Next move
  rw [stepOn, hlong]
  rcases hpass : passOf v path s with _ | ⟨e, m, l⟩ | ⟨m, l⟩ | ⟨m, l⟩ <;> rw [hpass] at h
  · cases h
  · cases h
  · cases h
    rfl
  · cases h
    exact if_pos (hlive rfl)

lemma Onward.ending_eq (h : Onward v path s s') :
    ending (passOf v path s) = some (endsLong (recordsOf v s) false, s'.filename, s'.len) ∧
      s' = move v s s'.filename s'.len := by
  obtain ⟨⟨⟨b, m, l⟩, hr⟩, hnext⟩ := h
  obtain ⟨rfl, -, -⟩ := scanOn_ending hr
  have hnext' := hnext
  unfold Next at hnext
  rw [stepOn] at hnext
  have hs' : s' = move v s m l := by
    unfold move
    rcases hpass : passOf v path s with _ | ⟨e, m', l'⟩ | ⟨m', l'⟩ | ⟨m', l'⟩ <;>
      rw [hpass] at hr hnext
    · cases hr
    · cases hr
    · obtain ⟨hlong, rfl, rfl⟩ : true = endsLong (recordsOf v s) false ∧ m' = m ∧ l' = l := by
        simpa [ending] using hr
      rw [← hlong]
      exact (Except.ok.inj hnext).symm
    · obtain ⟨hlong, rfl, rfl⟩ : false = endsLong (recordsOf v s) false ∧ m' = m ∧ l' = l := by
        simpa [ending] using hr
      rw [after] at hnext
      rw [← hlong]
      split at hnext
      · exact (Except.ok.inj hnext).symm
      · cases hnext
  have hmemory : s'.filename = m ∧ s'.len = l := by
    rw [hs']
    unfold move
    split <;> exact ⟨rfl, rfl⟩
  rw [hmemory.1, hmemory.2]
  exact ⟨hr, hs'⟩

lemma Onward.leaves (h : Onward v path s s') :
    s'.filename = written (recordsOf v s) false s.len s.filename ∧
      s'.len = counted (recordsOf v s) false s.len :=
  (scanOn_ending h.ending_eq.1).2

/-- Behind a cluster the next one is not an end mark. -/
lemma Onward.live (h : Onward v path s s') (hlong : endsLong (recordsOf v s) false = false) :
    nextActive v s.activeCluster s.FATbuffer &&& 0x0FFFFFFF < 0x0FFFFFF0 := by
  obtain ⟨⟨⟨b, m, l⟩, hr⟩, hnext⟩ := h
  have hb := (scanOn_ending hr).1
  unfold Next at hnext
  rw [stepOn] at hnext
  rcases hpass : passOf v path s with _ | ⟨e, m', l'⟩ | ⟨m', l'⟩ | ⟨m', l'⟩ <;>
    rw [hpass] at hr hnext
  · cases hr
  · cases hr
  · obtain rfl : true = b := congrArg Prod.fst (Option.some.inj hr)
    have htrue : endsLong (recordsOf v s) false = true := hb
    rw [htrue] at hlong
    cases hlong
  · rw [after] at hnext
    split at hnext
    · assumption
    · cases hnext

lemma Onward.depth (h : Onward v path s s') : s'.depth = s.depth ∧ s'.gap = s.gap := by
  rw [h.ending_eq.2]
  unfold move
  split <;> exact ⟨rfl, rfl⟩

/-- The next round is at the next component, or looks for the same one. -/
lemma next_cases (h : Next (stepOn v path) s s') :
    s'.depth = s.depth + 1 ∧ s.depth < path.length ∨ Onward v path s s' := by
  have hnext := h
  unfold Next at hnext
  rw [stepOn] at hnext
  rcases hpass : passOf v path s with _ | ⟨e, m, l⟩ | ⟨m, l⟩ | ⟨m, l⟩
  · rw [hpass] at hnext
    cases hnext
  · have hdepth : s.depth < path.length := by
      by_contra hout
      unfold passOf at hpass
      rw [List.getElem?_eq_none (Nat.le_of_not_lt hout)] at hpass
      exact scanOn_none_ne_found hpass
    rw [hpass, after] at hnext
    split at hnext
    · cases hnext
    · cases hnext
      exact Or.inl ⟨rfl, hdepth⟩
  · exact Or.inr ⟨⟨(true, m, l), by rw [hpass]; rfl⟩, h⟩
  · exact Or.inr ⟨⟨(false, m, l), by rw [hpass]; rfl⟩, h⟩

/-! ### Turns -/

/-- The states differ in the memory around `filename` and in `len` only. -/
def SamePlace (s t : Search) : Prop := t = { s with filename := t.filename, len := t.len }

lemma SamePlace.refl (s : Search) : SamePlace s s := rfl

lemma SamePlace.symm (h : SamePlace s t) : SamePlace t s := by
  unfold SamePlace at h ⊢
  rw [h]

lemma SamePlace.recordsOf (h : SamePlace s t) : recordsOf v t = recordsOf v s := by
  rw [h]
  rfl

lemma SamePlace.onward {r : Search} (h : SamePlace s t) (hs : Onward v path s s')
    (ht : Onward v path t r) : SamePlace s' r := by
  have hrecords : NameMemory.recordsOf v t = NameMemory.recordsOf v s := h.recordsOf
  rw [hs.ending_eq.2, ht.ending_eq.2]
  unfold move
  rw [hrecords]
  unfold SamePlace at h ⊢
  split <;> (rw [h]; rfl)

lemma SamePlace.steps (h : SamePlace s t) (hs : Steps (Onward v path) n s s')
    (ht : Steps (Onward v path) n t t') : SamePlace s' t' := by
  induction n generalizing s t with
  | zero =>
    cases hs
    cases ht
    exact h
  | succ n ih =>
    obtain ⟨r, hr, hs⟩ := hs
    obtain ⟨u, hu, ht⟩ := ht
    exact ih (h.onward hr hu) hs ht

lemma leaves_of_steps (h : Steps (Onward v path) n s s') :
    ∃ f : Buffer → Buffer, Overwrites f ∧ ∀ t t', SamePlace s t → t.len = s.len →
      Steps (Onward v path) n t t' → t'.filename = f t.filename ∧ t'.len = s'.len := by
  induction n generalizing s with
  | zero =>
    refine ⟨fun m => m, .refl, fun t t' _ hlen ht => ?_⟩
    cases h
    cases ht
    exact ⟨rfl, hlen⟩
  | succ n ih =>
    obtain ⟨r, hr, hs⟩ := h
    obtain ⟨f, hf, hall⟩ := ih hs
    refine ⟨fun m => f (written (recordsOf v s) false s.len m),
      (overwrites_written _ _ _).comp hf, ?_⟩
    rintro t t' hplace hlen ⟨u, hu, ht⟩
    have hrecords : recordsOf v t = recordsOf v s := hplace.recordsOf
    have hlen' : u.len = r.len := by rw [hu.leaves.2, hr.leaves.2, hrecords, hlen]
    obtain ⟨hfilename, hend⟩ := hall u t' (hplace.onward hr hu) hlen' ht
    rw [hfilename, hu.leaves.1, hrecords, hlen]
    exact ⟨rfl, hend⟩

/-- A round that does not use what has been counted. -/
def Quiet (v : Volume) (path : List (List UInt8)) (s s' : Search) : Prop :=
  Onward v path s s' ∧ ¬ Completes (recordsOf v s) false

lemma leaves_of_quiet (h : Steps (Quiet v path) n s s') :
    ∃ f : Buffer → Buffer, Overwrites f ∧ ∀ t t', SamePlace s t →
      Steps (Onward v path) n t t' → t'.filename = f t.filename := by
  induction n generalizing s with
  | zero =>
    refine ⟨fun m => m, .refl, fun t t' _ ht => ?_⟩
    cases ht
    rfl
  | succ n ih =>
    obtain ⟨r, ⟨hr, hnot⟩, hs⟩ := h
    obtain ⟨f, hf, hall⟩ := ih hs
    refine ⟨fun m => f (written (recordsOf v s) false 0 m), (overwrites_written _ _ _).comp hf, ?_⟩
    rintro t t' hplace ⟨u, hu, ht⟩
    have hrecords : recordsOf v t = recordsOf v s := hplace.recordsOf
    rw [hall u t' (hplace.onward hr hu) ht, hu.leaves.1, hrecords,
      written_of_not_completes hnot t.len 0]

/-- Rounds use nothing that has been counted before them, or count from the beginning. -/
lemma quiet_or_counts (h : Steps (Onward v path) n s s') :
    Steps (Quiet v path) n s s' ∨
      ∀ t t', SamePlace s t → Steps (Onward v path) n t t' → t'.len = s'.len := by
  induction n generalizing s with
  | zero => exact Or.inl h
  | succ n ih =>
    obtain ⟨r, hr, hs⟩ := h
    by_cases hcompletes : Completes (recordsOf v s) false
    · refine Or.inr ?_
      rintro t t' hplace ⟨u, hu, ht⟩
      have hrecords : recordsOf v t = recordsOf v s := hplace.recordsOf
      have hlen : u.len = r.len := by
        rw [hu.leaves.2, hr.leaves.2, hrecords]
        exact hcompletes.counted_eq _ _
      obtain ⟨f, -, hall⟩ := leaves_of_steps hs
      exact (hall u t' (hplace.onward hr hu) hlen ht).2
    · rcases ih hs with hquiet | hcounts
      · exact Or.inl ⟨r, ⟨hr, hcompletes⟩, hquiet⟩
      · refine Or.inr ?_
        rintro t t' hplace ⟨u, hu, ht⟩
        exact hcounts u t' (hplace.onward hr hu) ht

/-- A quiet round goes the same way whatever has been counted. -/
lemma Quiet.next (h : Quiet v path s s') (len : ℕ) :
    ∃ l, Next (stepOn v path) { s with len := len } { s' with len := l } := by
  obtain ⟨hon, hnot⟩ := h
  obtain ⟨hending, hs'⟩ := hon.ending_eq
  obtain ⟨l, hl⟩ := ending_of_not_completes hnot hending len
  have hpass : ending (passOf v path { s with len := len }) =
      some (endsLong (recordsOf v s) false, s'.filename, l) := hl
  refine ⟨l, ?_⟩
  have hnext := next_of_ending hpass hon.live
  have hmove : move v { s with len := len } s'.filename l = { s' with len := l } := by
    rw [hs']
    unfold move
    split
    · rename_i hlong
      rw [if_pos (show endsLong (recordsOf v s) false = true from hlong)]
      rfl
    · rename_i hlong
      rw [if_neg (show ¬ endsLong (recordsOf v s) false = true from hlong)]
      rfl
  rwa [hmove] at hnext

/-- The place stays the same if the rounds come back to the cluster and the buffers. -/
lemma samePlace_of_steps (h : Steps (Onward v path) n s s')
    (hcluster : s'.activeCluster = s.activeCluster) (hFAT : s'.FATbuffer = s.FATbuffer)
    (hbuffer : s'.buffer = s.buffer) : SamePlace s s' := by
  have hdepth : s'.depth = s.depth ∧ s'.gap = s.gap := by
    clear hcluster hFAT hbuffer
    induction n generalizing s with
    | zero =>
      cases h
      exact ⟨rfl, rfl⟩
    | succ n ih =>
      obtain ⟨r, hr, hs⟩ := h
      obtain ⟨h₁, h₂⟩ := ih hs
      exact ⟨h₁.trans hr.depth.1, h₂.trans hr.depth.2⟩
  obtain ⟨g, c, F, b, fn, len, depth⟩ := s'
  obtain ⟨rfl, rfl⟩ := hdepth
  unfold SamePlace
  dsimp only at hcluster hFAT hbuffer ⊢
  rw [hcluster, hFAT, hbuffer]

/-- After two turns a third one leaves nothing new, and so do all the others. -/
lemma not_halts_of_circles (h : Circles v path s) : ¬ Halts (stepOn v path) s := by
  obtain ⟨n, s₁, s₂, s₃, h₁, h₂, h₃, hcluster, hFAT, hbuffer⟩ := h
  have hplace : SamePlace s s₁ := samePlace_of_steps h₁ hcluster hFAT hbuffer
  have hplace₁ : SamePlace s₁ s₂ := hplace.steps h₁ h₂
  have hplace₂ : SamePlace s₂ s₃ := hplace₁.steps h₂ h₃
  have hnext : ∀ s s', Onward v path s s' → Next (stepOn v path) s s' := fun _ _ h => h.2
  rcases quiet_or_counts h₂ with hquiet | hcounts
  · -- the second turn ends as the first one, but for what has been counted
    obtain ⟨f, hf, hall⟩ := leaves_of_quiet hquiet
    have hfilename : s₂.filename = s₁.filename := by
      rw [hall s₁ s₂ (.refl s₁) h₂, hall s s₁ hplace.symm h₁, hf.idem]
    have hs₂ : s₂ = { s₁ with len := s₂.len } := by
      rw [← hfilename]
      exact hplace₁
    refine not_halts_of_reaches (h₁.mono hnext).reaches (not_halts_of_cycle
      (fun r t => ∃ l, t = { r with len := l }) ?_ hquiet ?_ ⟨s₁.len, rfl⟩)
    · rintro r r' _ hr ⟨l, rfl⟩
      obtain ⟨l', hl'⟩ := hr.next l
      exact ⟨_, hl', l', rfl⟩
    · rintro _ ⟨l, rfl⟩
      exact ⟨l, by rw [hs₂]⟩
  · -- the third turn ends as the second one
    have hlen₁ : s₁.len = s₂.len := hcounts s s₁ hplace.symm h₁
    have hlen₂ : s₃.len = s₂.len := hcounts s₂ s₃ hplace₁ h₃
    obtain ⟨f, hf, hall⟩ := leaves_of_steps h₂
    have hfilename : s₃.filename = s₂.filename := by
      rw [(hall s₂ s₃ hplace₁ hlen₁.symm h₃).1, (hall s₁ s₂ (.refl s₁) rfl h₂).1, hf.idem]
    have hs₃ : s₃ = s₂ := by
      have hsame : s₃ = { s₂ with filename := s₃.filename, len := s₃.len } := hplace₂
      rw [hsame, hfilename, hlen₂]
    rw [hs₃] at h₃
    refine not_halts_of_reaches ((h₁.trans h₂).mono hnext).reaches (not_halts_of_cycle
      Eq ?_ (h₃.mono hnext) (fun t ht => ht) rfl)
    rintro r r' _ hr rfl
    exact ⟨r', hr, rfl⟩


/-! ### Rounds that do not end -/

lemma readData_readData (c d : UInt32) (b : Buffer) :
    readData v c (readData v d b) = readData v c b := by
  unfold readData readsectorpio
  funext i
  split <;> rfl

lemma readData_overlay (c : UInt32) (gap : ℕ) (sectors b : Buffer) :
    readData v c (overlay v gap sectors b) = readData v c b := by
  unfold readData readsectorpio overlay
  funext i
  by_cases hi : i < v.fsInfo.sectorsPerCluster.toNat * SECTOR_SIZE
  · rw [if_pos hi, if_pos hi]
  · rw [if_neg hi, if_neg hi, if_neg (by omega)]

lemma overlay_overlay (gap : ℕ) (sectors sectors' b : Buffer) :
    overlay v gap sectors (overlay v gap sectors' b) = overlay v gap sectors b := by
  unfold overlay
  funext i
  split <;> rfl

def nextSector (s : Search) : UInt32 := fatWord s.FATbuffer (s.activeCluster % FEPS) / FEPS

/-- The sectors of the FAT from one on, as they are read to `FAT_buffer`. -/
def loaded (v : Volume) (sector : UInt32) (b : Buffer) : Buffer :=
  readsectorpio v.disk (fatLba v sector) v.fsInfo.sectorsPerCluster.toNat b

/-- What is in `buffer` behind rounds, if `c` is the cluster read last, if any, and `sector` the
sector of the FAT that has been loaded within a name since then. -/
def laid (v : Volume) (gap : ℕ) (b : Buffer) (c sector : Option UInt32) : Buffer :=
  let data := c.elim b fun c => readData v c b
  sector.elim data fun sector => overlay v gap (loaded v sector fun _ => 0) data

lemma Onward.FATbuffer (h : Onward v path s s') :
    s'.FATbuffer = loaded v (nextSector s) s.FATbuffer := by
  rw [h.ending_eq.2]
  unfold move
  split <;> rfl

lemma loaded_loaded (sector sector' : UInt32) (b : Buffer) :
    loaded v sector (loaded v sector' b) = loaded v sector b := by
  unfold loaded readsectorpio
  funext i
  split <;> rfl

/-- Of what is loaded only the sectors come into `buffer`. -/
lemma overlay_loaded (gap : ℕ) (sector : UInt32) (b b' data : Buffer) :
    overlay v gap (loaded v sector b) data = overlay v gap (loaded v sector b') data := by
  unfold overlay loaded readsectorpio
  funext i
  split
  · rfl
  · rfl

section run

variable {f : ℕ → Search} (hf : ∀ n, Onward v path (f n) (f (n + 1)))

include hf

lemma FATbuffer_run (n : ℕ) :
    (f (n + 1)).FATbuffer = loaded v (nextSector (f n)) (f 0).FATbuffer := by
  induction n with
  | zero => exact (hf 0).FATbuffer
  | succ n ih => rw [(hf (n + 1)).FATbuffer, ih, loaded_loaded]

lemma gap_run (n : ℕ) : (f n).gap = (f 0).gap := by
  induction n with
  | zero => rfl
  | succ n ih => exact (hf n).depth.2.trans ih

lemma buffer_run (n : ℕ) :
    ∃ c sector, (f n).buffer = laid v (f 0).gap (f 0).buffer c sector := by
  induction n with
  | zero => exact ⟨none, none, rfl⟩
  | succ n ih =>
    obtain ⟨c, sector, hbuffer⟩ := ih
    have hgap := gap_run hf n
    rw [(hf n).ending_eq.2]
    unfold move
    split
    · -- within a name
      refine ⟨c, some (nextSector (f n)), ?_⟩
      change overlay v (f n).gap (loaded v (nextSector (f n)) (f n).FATbuffer) (f n).buffer = _
      rw [hgap, hbuffer, overlay_loaded _ _ _ fun _ => 0]
      rcases sector with _ | sector
      · rfl
      · exact overlay_overlay _ _ _ _
    · refine ⟨some (nextActive v (f n).activeCluster (f n).FATbuffer), none, ?_⟩
      change readData v _ (f n).buffer = readData v _ (f 0).buffer
      rw [hbuffer]
      unfold laid
      rcases sector with _ | sector
      · rcases c with _ | c
        · rfl
        · exact readData_readData _ _ _
      · rw [Option.elim_some, readData_overlay]
        rcases c with _ | c
        · rfl
        · exact readData_readData _ _ _

/-- Rounds without end come back to a place. -/
lemma exists_circles : ∃ i, Circles v path (f i) := by
  have : Finite UInt32 := Finite.of_injective UInt32.toBitVec fun _ _ h => UInt32.toBitVec_inj.mp h
  choose c sector hbuffer using buffer_run hf
  obtain ⟨i, n, hin⟩ := exists_again fun k =>
    ((f (k + 1)).activeCluster, nextSector (f k), c (k + 1), sector (k + 1))
  simp only [Prod.mk.injEq] at hin
  obtain ⟨hcluster, hnext, hc, hsector⟩ := hin
  have hturn : ∀ j, Steps (Onward v path) (n + 1) (f j) (f (j + (n + 1))) := fun j =>
    steps_run hf j (n + 1)
  have hshift : i + (n + 1) + 1 = i + 1 + (n + 1) := by omega
  have hFAT : (f (i + 1 + (n + 1))).FATbuffer = (f (i + 1)).FATbuffer := by
    rw [← hshift, FATbuffer_run hf (i + (n + 1)), FATbuffer_run hf i, hnext]
  rw [hshift] at hcluster hc hsector
  refine ⟨i + 1, n, _, _, _, hturn _, hturn _, hturn _, hcluster.symm, hFAT, ?_⟩
  rw [hbuffer (i + 1 + (n + 1)), hbuffer (i + 1), hc, hsector]

end run

/-! ### Names that cross the end of a cluster -/

/-- A round at the end of a cluster within a name. -/
def Crosses (v : Volume) (path : List (List UInt8)) (s s' : Search) : Prop :=
  Onward v path s s' ∧ endsLong (recordsOf v s) false = true

/-- With one sector per cluster the next round goes over the same records. -/
lemma Crosses.buffer (h : Crosses v path s s')
    (hgap : v.fsInfo.sectorsPerCluster.toNat * SECTOR_SIZE ≤ s.gap) : s'.buffer = s.buffer := by
  rw [h.1.ending_eq.2, move, if_pos h.2, again]
  unfold overlay
  funext k
  exact if_neg (by omega)

/-- Then three such rounds are followed by all others. -/
lemma not_halts_of_crosses (hgap : v.fsInfo.sectorsPerCluster.toNat * SECTOR_SIZE ≤ s.gap)
    (h : Steps (Crosses v path) 3 s s') : ¬ Halts (stepOn v path) s := by
  obtain ⟨s₁, h₁, s₂, h₂, s₃, h₃, rfl⟩ := h
  have hgap₁ : v.fsInfo.sectorsPerCluster.toNat * SECTOR_SIZE ≤ s₁.gap := h₁.1.depth.2 ▸ hgap
  have hgap₂ : v.fsInfo.sectorsPerCluster.toNat * SECTOR_SIZE ≤ s₂.gap := h₂.1.depth.2 ▸ hgap₁
  have hrecords : ∀ {t u : Search}, u.buffer = t.buffer → recordsOf v u = recordsOf v t :=
    fun hb => by rw [recordsOf, recordsOf, hb]
  have hr₁ := hrecords (h₁.buffer hgap)
  have hr₂ := (hrecords (h₂.buffer hgap₁)).trans hr₁
  have hlen : Completes (recordsOf v s) false → s₂.len = s₁.len ∧ s₃.len = s₂.len := by
    intro hcompletes
    rw [h₁.1.leaves.2, h₂.1.leaves.2, h₃.1.leaves.2, hr₁, hr₂]
    exact ⟨hcompletes.counted_eq _ _, hcompletes.counted_eq _ _⟩
  have hwritten : written (recordsOf v s) false s₂.len = written (recordsOf v s) false s₁.len := by
    by_cases hcompletes : Completes (recordsOf v s) false
    · rw [(hlen hcompletes).1]
    · exact written_of_not_completes hcompletes _ _
  have hfixed : s₃.filename = s₂.filename := by
    rw [h₃.1.leaves.1, h₂.1.leaves.1, hr₂, hr₁, hwritten]
    exact (overwrites_written _ _ _).idem _
  refine not_halts_of_reaches ((Relation.ReflTransGen.single h₁.1.2).tail h₂.1.2)
    (not_halts_of_cycle (n := 0) (R := fun r r' => s₂ = r ∧ s₃ = r') (fun r t =>
      t.buffer = r.buffer ∧ t.gap = r.gap ∧ t.depth = r.depth ∧ t.filename = r.filename ∧
        (Completes (recordsOf v s) false → t.len = r.len)) ?_ ⟨s₃, ⟨rfl, rfl⟩, rfl⟩ ?_
      ⟨rfl, rfl, rfl, rfl, fun _ => rfl⟩)
  · rintro r r' t ⟨rfl, rfl⟩ ⟨hbuffer, hgap', hdepth, hfilename, hlen'⟩
    have hes := hrecords hbuffer
    obtain ⟨l, hl, hcounts⟩ : ∃ l, ending (passOf v path t) = some (true, s₃.filename, l) ∧
        (Completes (recordsOf v s) false → l = s₃.len) := by
      have hending := h₃.1.ending_eq.1
      rw [h₃.2] at hending
      unfold passOf at hending ⊢
      rw [hes, hdepth, hfilename]
      by_cases hcompletes : Completes (recordsOf v s) false
      · rw [hlen' hcompletes]
        exact ⟨_, hending, fun _ => rfl⟩
      · rw [← hr₂] at hcompletes
        obtain ⟨l, hl⟩ := ending_of_not_completes hcompletes hending t.len
        exact ⟨l, hl, fun h => absurd (hr₂ ▸ h) hcompletes⟩
    refine ⟨_, next_of_ending hl (fun h => absurd h (by decide)), ?_⟩
    rw [move, hes, if_pos h₃.2, h₃.buffer hgap₂, h₃.1.depth.1, h₃.1.depth.2]
    refine ⟨?_, hgap', hdepth, rfl, hcounts⟩
    rw [again, ← hbuffer]
    unfold overlay
    funext k
    exact if_neg (by rw [hgap']; omega)
  · rintro t ⟨hbuffer, hgap', hdepth, hfilename, hlen'⟩
    refine ⟨hbuffer.trans (h₃.buffer hgap₂), hgap'.trans h₃.1.depth.2, hdepth.trans h₃.1.depth.1,
      hfilename.trans hfixed, fun hcompletes => ?_⟩
    exact (hlen' hcompletes).trans (hlen hcompletes).2

/-! ### Links of the FAT -/

/-- Rounds that take the links of the FAT go along a chain. -/
lemma append_of_steps {cs : List UInt32} (hchain : IsChain v (s.activeCluster :: cs))
    (hlinks : ∀ t t', Relation.ReflTransGen (Onward v path) s t → Onward v path t t' →
      t'.activeCluster = nextCluster v t.activeCluster ∧ endsLong (recordsOf v t) false = false)
    (h : Steps (Onward v path) n s s') :
    ∃ xs ys, s.activeCluster :: cs = xs ++ s'.activeCluster :: ys ∧ xs.length = n := by
  induction n generalizing s cs with
  | zero =>
    cases h
    exact ⟨[], cs, rfl, rfl⟩
  | succ n ih =>
    obtain ⟨t, ht, hrest⟩ := h
    obtain ⟨hlink, hlong⟩ := hlinks s t .refl ht
    rcases cs with _ | ⟨d, cs⟩
    · -- behind the last cluster there is an end mark
      have hend : 0x0FFFFFF8 ≤ nextCluster v s.activeCluster := hchain
      have hactive : t.activeCluster = nextActive v s.activeCluster s.FATbuffer := by
        rw [ht.ending_eq.2]
        unfold move
        split <;> rfl
      have hlive := ht.live hlong
      rw [← hactive, hlink, nextCluster, UInt32.and_assoc, UInt32.and_self] at hlive
      rw [nextCluster] at hend
      exact absurd (UInt32.lt_of_le_of_lt hend hlive) (by decide)
    · obtain ⟨hd, -, hchain⟩ := hchain
      obtain rfl : t.activeCluster = d := hlink.trans hd
      obtain ⟨xs, ys, heq, hlen⟩ := ih hchain (fun r r' hr => hlinks r r' (.head ht hr)) hrest
      exact ⟨s.activeCluster :: xs, ys, by rw [heq, List.cons_append], by rw [List.length_cons, hlen]⟩

/-- Where chains are finite, clusters are taken in turns only behind a name that crosses the end
of a cluster, or a link that is not that of the FAT. -/
lemma not_circles_of_links {cs : List UInt32} (hchain : IsChain v (s.activeCluster :: cs))
    (hlinks : ∀ t t', Relation.ReflTransGen (Onward v path) s t → Onward v path t t' →
      t'.activeCluster = nextCluster v t.activeCluster ∧ endsLong (recordsOf v t) false = false) :
    ¬ Circles v path s := by
  rintro ⟨n, s₁, _, _, h₁, -, -, hcluster, -⟩
  obtain ⟨xs, ys, heq, hlen⟩ := append_of_steps hchain hlinks h₁
  have hnodup := hchain.nodup
  rcases xs with _ | ⟨x, xs⟩
  · cases hlen
  · rw [heq, hcluster] at hnodup
    rw [List.cons_append] at heq hnodup
    obtain ⟨rfl, -⟩ := List.cons_eq_cons.mp heq
    exact (List.nodup_cons.mp hnodup).1 (List.mem_append_right xs List.mem_cons_self)

/-! ### The end -/

lemma depth_le (hreach : ReachesOn v path s s') (h : s.depth ≤ path.length) :
    s'.depth ≤ path.length := by
  induction hreach with
  | refl => exact h
  | tail _ hnext ih =>
    rcases next_cases hnext with ⟨hdepth, hlt⟩ | hon
    · omega
    · rw [hon.depth.1]
      exact ih

lemma halts_of_regular (h : s.depth ≤ path.length)
    (hregular : ∀ s', ReachesOn v path s s' → Regular v path s') : Halts (stepOn v path) s := by
  by_contra hnot
  obtain ⟨f, rfl, hf⟩ := exists_run hnot
  have hreach : ∀ n, ReachesOn v path (f 0) (f n) := reaches_run hf
  have hdepth : ∀ n, (f n).depth ≤ (f (n + 1)).depth := by
    intro n
    rcases next_cases (hf n) with ⟨hdepth, -⟩ | hon
    · omega
    · rw [hon.depth.1]
  obtain ⟨N, hN⟩ := exists_constant (fun n => (f n).depth) hdepth path.length
    fun n => depth_le (hreach n) h
  have hon : ∀ n, Onward v path (f (N + n)) (f (N + (n + 1))) := by
    intro n
    refine (next_cases (hf (N + n))).resolve_left fun hup => ?_
    have h₁ := hN n
    have h₂ := hN (n + 1)
    rw [← Nat.add_assoc] at h₂
    omega
  obtain ⟨i, hi⟩ := exists_circles (f := fun n => f (N + n)) hon
  exact (hregular _ (hreach (N + i))).turns hi

lemma fault_iff : stepOn v path s = .error .fault ↔
    ¬ (path[s.depth]? = none → ∀ e ∈ recordsOf v s, e.attr = LFN) := by
  have hpass : passOf v path s = .fault ↔
      ¬ (path[s.depth]? = none → ∀ e ∈ recordsOf v s, e.attr = LFN) := by
    rw [Classical.not_imp]
    exact scanOn_eq_fault_iff
  rw [← hpass, stepOn]
  rcases passOf v path s with _ | ⟨e, m, l⟩ | ⟨m, l⟩ | ⟨m, l⟩
  · exact iff_of_true rfl rfl
  · refine iff_of_false (fun h => ?_) fun h => by cases h
    rw [after] at h
    split at h <;> cases h
  · exact iff_of_false (fun h => by cases h) fun h => by cases h
  · refine iff_of_false (fun h => ?_) fun h => by cases h
    rw [after] at h
    split at h <;> cases h

end rounds

/-- `find_fat_entry` returns, from buffers as `malloc` returns them. -/
def Returns (v : Volume) (path : List (List UInt8)) (gap : ℕ)
    (FATbuffer buffer memory : Buffer) : Prop :=
  ∃ fuel o, searchOn v path fuel gap FATbuffer buffer memory = some o ∧ o ≠ .fault

/-- **The end of the search.** `find_fat_entry` returns exactly if every round goes right. -/
theorem returns_iff (v : Volume) (path : List (List UInt8)) (gap : ℕ)
    (FATbuffer buffer memory : Buffer) :
    Returns v path gap FATbuffer buffer memory ↔
      ∀ s, ReachesOn v path (start v gap FATbuffer buffer memory) s → Regular v path s := by
  constructor
  · rintro ⟨fuel, o, hrun, hne⟩ s hs
    obtain ⟨s', hs', ho⟩ := rounds_eq_some.mp ⟨fuel, hrun⟩
    have hhalts : Halts (stepOn v path) (start v gap FATbuffer buffer memory) := ⟨s', o, hs', ho⟩
    refine ⟨?_, fun h => not_halts_of_reaches hs (not_halts_of_circles h) hhalts⟩
    by_contra hfault
    obtain ⟨fuel', hrun'⟩ := rounds_eq_some.mpr ⟨s, hs, fault_iff.mpr hfault⟩
    exact hne (rounds_unique hrun hrun')
  · intro h
    obtain ⟨s, o, hs, ho⟩ := halts_of_regular (Nat.zero_le path.length) h
    obtain ⟨fuel, hrun⟩ := rounds_eq_some.mpr ⟨s, hs, ho⟩
    refine ⟨fuel, o, hrun, ?_⟩
    rintro rfl
    exact fault_iff.mp ho (h s hs).component

def endsWithin (v : Volume) (path : List (List UInt8)) (s : Search) : Bool :=
  match ending (passOf v path s) with
  | some (true, _, _) => true
  | _ => false

lemma crosses_of_states {v : Volume} {path : List (List UInt8)} {s : Search} {n : ℕ}
    (h : ∀ t ∈ states (stepOn v path) n s, endsWithin v path t = true) :
    ∃ s', Steps (Crosses v path) n s s' := by
  induction n generalizing s with
  | zero => exact ⟨s, rfl⟩
  | succ n ih =>
    have hs := h s List.mem_cons_self
    unfold endsWithin at hs
    rcases hend : ending (passOf v path s) with _ | ⟨_ | _, m, l⟩
    · rw [hend] at hs
      cases hs
    · rw [hend] at hs
      cases hs
    · have hnext := next_of_ending hend fun h => by cases h
      have hcross : Crosses v path s (move v s m l) := ⟨⟨⟨_, hend⟩, hnext⟩, (scanOn_ending hend).1⟩
      unfold Next at hnext
      obtain ⟨s', hs'⟩ := ih fun t ht => h t (by
        rw [states, hnext]
        exact List.mem_cons_of_mem s ht)
      exact ⟨s', _, hcross, hs'⟩

def crossingVolume : OnDisk :=
  smallVolume (List.replicate 480 0 ++ longRecord 0x41 0x7B readme) []

def crossingStart : Search :=
  start crossingVolume.setup 512 (fun _ => 0) (fun _ => 0) (fun _ => 0)

/-- No file is found there, and the search does not end. -/
theorem not_returns : Geometry crossingVolume.BPB crossingVolume.loc 2 ∧
    IsChain crossingVolume.setup [2] ∧
    ¬ Returns crossingVolume.setup [secret] 512 (fun _ => 0) (fun _ => 0) (fun _ => 0) := by
  refine ⟨geometry_smallVolume _ _, by decide +kernel, ?_⟩
  rintro ⟨fuel, o, hrun, -⟩
  obtain ⟨s, hs, ho⟩ := rounds_eq_some.mp ⟨fuel, hrun⟩
  have hcrossed : ∀ t ∈ states (stepOn crossingVolume.setup [secret]) 3 crossingStart,
      endsWithin crossingVolume.setup [secret] t = true := by decide +kernel
  obtain ⟨s', hs'⟩ := crosses_of_states hcrossed
  exact not_halts_of_crosses (by decide) hs' ⟨s, o, hs, ho⟩

end FlameOS.SearchEnds
