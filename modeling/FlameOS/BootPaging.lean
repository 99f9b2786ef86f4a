import FlameOS.PageTable
import FlameOS.MemoryMap

/-!
The firmware that the bootloader runs on, and the `map_page` of `boot.c`.

The firmware is a state that only its own services change. `map_page` takes a page from it
for every table it misses, in nested calls too, so a call stands for a number of `pagealloc`
calls, which are logged.
-/

namespace FlameOS.BootPaging

open FlameOS.Word FlameOS.PageTable FlameOS.MemoryMap

def rscodemem : ℕ := 5
def rsdatamem : ℕ := 6

/-- The boot services: what `getmemmap` reports in a state, what `pagealloc` returns for a
memory type and a number of pages, and what the calls to the graphics output protocol do. -/
structure Firmware (σ : Type) where
  mmDescSize : ℕ
  memmap : σ → List Bytes
  mapkey : σ → ℕ
  pagealloc : σ → ℕ → ℕ → Option (ℕ × σ)
  gop : σ → σ

structure Grant where
  addr : ℕ
  pages : ℕ
  deriving DecidableEq

/-- The page tables in memory, the firmware, and the grants since the log was started, the
latest first. -/
structure BootState (σ : Type) where
  frame : ℕ → ℕ → ℕ
  fw : σ
  log : List Grant

variable {σ : Type}

def BootState.write (s : BootState σ) (t i e : ℕ) : BootState σ :=
  { s with frame := Function.update s.frame t (Function.update (s.frame t) i e) }

def BootState.memzero (s : BootState σ) (page : ℕ) : BootState σ :=
  { s with frame := Function.update s.frame page fun _ => 0 }

variable (F : Firmware σ)

def pagealloc (type pages : ℕ) (s : BootState σ) : Option (ℕ × BootState σ) :=
  (F.pagealloc s.fw type pages).map fun r =>
    (r.1, { s with fw := r.2, log := ⟨r.1, pages⟩ :: s.log })

/-- The three blocks `if (!(table->entry[i] & FLAG_PRESENT)) {...}` of `map_page`. -/
def newTable (rec : ℕ → ℕ → BootState σ → Option (BootState σ)) (t i : ℕ) (s : BootState σ) :
    Option (BootState σ) :=
  if present (s.frame t i) then some s
  else
    (pagealloc F rsdatamem 1 s).bind fun r =>
      rec r.1 r.1 ((r.2.memzero r.1).write t i (mkEntry r.1))

/-- `map_page` with fuel for the recursion. -/
def mapPage (pml4 : ℕ) : ℕ → ℕ → ℕ → BootState σ → Option (BootState σ)
  | 0, _, _, _ => none
  | fuel + 1, phys, virt, s =>
    if virt % PAGE_SIZE ≠ 0 then some s
    else
      (newTable F (mapPage pml4 fuel) pml4 (pml4Idx virt) s).bind fun s₁ =>
      let pdpt := addrOf (s₁.frame pml4 (pml4Idx virt))
      (newTable F (mapPage pml4 fuel) pdpt (pdptIdx virt) s₁).bind fun s₂ =>
      let pd := addrOf (s₂.frame pdpt (pdptIdx virt))
      (newTable F (mapPage pml4 fuel) pd (pdIdx virt) s₂).bind fun s₃ =>
      let pt := addrOf (s₃.frame pd (pdIdx virt))
      some (s₃.write pt (ptIdx virt) (mkEntry phys))

def mapCalls (pml4 fuel : ℕ) : List (ℕ × ℕ) → BootState σ → Option (BootState σ)
  | [], s => some s
  | c :: cs, s => (mapPage F pml4 fuel c.1 c.2 s).bind (mapCalls pml4 fuel cs)

variable {F} {pml4 : ℕ}

/-- The walk put together from its blocks. -/
lemma mapPage_walk {fuel phys virt : ℕ} {s s₁ s₂ s₃ : BootState σ} (hv : virt % PAGE_SIZE = 0)
    (h₁ : newTable F (mapPage F pml4 fuel) pml4 (pml4Idx virt) s = some s₁)
    (h₂ : newTable F (mapPage F pml4 fuel) (addrOf (s₁.frame pml4 (pml4Idx virt))) (pdptIdx virt)
      s₁ = some s₂)
    (h₃ : newTable F (mapPage F pml4 fuel)
      (addrOf (s₂.frame (addrOf (s₁.frame pml4 (pml4Idx virt))) (pdptIdx virt))) (pdIdx virt)
      s₂ = some s₃) :
    mapPage F pml4 (fuel + 1) phys virt s = some (s₃.write
      (addrOf (s₃.frame (addrOf (s₂.frame (addrOf (s₁.frame pml4 (pml4Idx virt))) (pdptIdx virt)))
        (pdIdx virt))) (ptIdx virt) (mkEntry phys)) := by
  simp [mapPage, hv, h₁, h₂, h₃]

/-- What a call can do: nothing on an unaligned page, or three blocks and a store. -/
lemma mapPage_cases {fuel phys virt : ℕ} {s s' : BootState σ}
    (h : mapPage F pml4 (fuel + 1) phys virt s = some s') :
    (virt % PAGE_SIZE ≠ 0 ∧ s' = s) ∨
    (virt % PAGE_SIZE = 0 ∧ ∃ s₁ s₂ s₃,
      newTable F (mapPage F pml4 fuel) pml4 (pml4Idx virt) s = some s₁ ∧
      newTable F (mapPage F pml4 fuel) (addrOf (s₁.frame pml4 (pml4Idx virt))) (pdptIdx virt)
        s₁ = some s₂ ∧
      newTable F (mapPage F pml4 fuel)
        (addrOf (s₂.frame (addrOf (s₁.frame pml4 (pml4Idx virt))) (pdptIdx virt))) (pdIdx virt)
        s₂ = some s₃ ∧
      s' = s₃.write
        (addrOf (s₃.frame (addrOf (s₂.frame (addrOf (s₁.frame pml4 (pml4Idx virt))) (pdptIdx virt)))
          (pdIdx virt))) (ptIdx virt) (mkEntry phys)) := by
  rw [mapPage] at h
  split at h
  · rename_i hv
    exact Or.inl ⟨hv, (Option.some.inj h).symm⟩
  · rename_i hv
    obtain ⟨s₁, h₁, h⟩ := Option.bind_eq_some_iff.mp h
    obtain ⟨s₂, h₂, h⟩ := Option.bind_eq_some_iff.mp h
    obtain ⟨s₃, h₃, h⟩ := Option.bind_eq_some_iff.mp h
    exact Or.inr ⟨not_not.mp hv, s₁, s₂, s₃, h₁, h₂, h₃, (Option.some.inj h).symm⟩

/-! ### Grants -/

/-- The firmware makes the grants, the latest first. -/
inductive Grants (F : Firmware σ) : σ → List Grant → σ → Prop
  | nil (u : σ) : Grants F u [] u
  | cons {u u' u'' : σ} {gs : List Grant} {type : ℕ} {g : Grant} :
    Grants F u gs u' → F.pagealloc u' type g.pages = some (g.addr, u'') → Grants F u (g :: gs) u''

lemma Grants.append {u u' u'' : σ} {gs gs' : List Grant} (h : Grants F u gs u')
    (h' : Grants F u' gs' u'') : Grants F u (gs' ++ gs) u'' := by
  induction h' with
  | nil => exact h
  | cons _ hg ih => exact .cons ih hg

def Granted (F : Firmware σ) (s s' : BootState σ) : Prop :=
  ∃ gs, s'.log = gs ++ s.log ∧ Grants F s.fw gs s'.fw

lemma Granted.refl (s : BootState σ) : Granted F s s := ⟨[], rfl, .nil s.fw⟩

lemma Granted.trans {s s' s'' : BootState σ} (h : Granted F s s') (h' : Granted F s' s'') :
    Granted F s s'' := by
  obtain ⟨gs, hl, hg⟩ := h
  obtain ⟨gs', hl', hg'⟩ := h'
  exact ⟨gs' ++ gs, by rw [hl', hl, List.append_assoc], hg.append hg'⟩

lemma pagealloc_eq {type pages : ℕ} {s : BootState σ} {r : ℕ × BootState σ}
    (h : pagealloc F type pages s = some r) :
    r.2.log = ⟨r.1, pages⟩ :: s.log ∧ F.pagealloc s.fw type pages = some (r.1, r.2.fw) := by
  obtain ⟨q, hq, rfl⟩ := Option.map_eq_some_iff.mp h
  exact ⟨rfl, hq⟩

lemma granted_pagealloc {type pages : ℕ} {s : BootState σ} {r : ℕ × BootState σ}
    (h : pagealloc F type pages s = some r) : Granted F s r.2 := by
  obtain ⟨hl, hg⟩ := pagealloc_eq h
  exact ⟨[⟨r.1, pages⟩], hl, .cons (.nil _) hg⟩

lemma granted_newTable {rec : ℕ → ℕ → BootState σ → Option (BootState σ)}
    (hrec : ∀ {phys virt s s'}, rec phys virt s = some s' → Granted F s s') {t i : ℕ}
    {s s' : BootState σ} (h : newTable F rec t i s = some s') : Granted F s s' := by
  unfold newTable at h
  split at h
  · obtain rfl := Option.some.inj h
    exact Granted.refl s
  · obtain ⟨r, hr, h⟩ := Option.bind_eq_some_iff.mp h
    obtain ⟨gs, hl, hg⟩ := granted_pagealloc hr
    have hlink : Granted F s ((r.2.memzero r.1).write t i (mkEntry r.1)) := ⟨gs, hl, hg⟩
    exact hlink.trans (hrec h)

lemma granted_mapPage {fuel phys virt : ℕ} {s s' : BootState σ}
    (h : mapPage F pml4 fuel phys virt s = some s') : Granted F s s' := by
  induction fuel generalizing phys virt s s' with
  | zero => simp [mapPage] at h
  | succ fuel ih =>
    rcases mapPage_cases h with ⟨-, rfl⟩ | ⟨-, s₁, s₂, s₃, h₁, h₂, h₃, rfl⟩
    · exact Granted.refl s'
    · have h₁₃ : Granted F s s₃ := ((granted_newTable ih h₁).trans (granted_newTable ih h₂)).trans
        (granted_newTable ih h₃)
      exact h₁₃

lemma granted_mapCalls {fuel : ℕ} {cs : List (ℕ × ℕ)} {s s' : BootState σ}
    (h : mapCalls F pml4 fuel cs s = some s') : Granted F s s' := by
  induction cs generalizing s with
  | nil =>
    obtain rfl := Option.some.inj h
    exact Granted.refl s
  | cons c cs ih =>
    obtain ⟨s₁, h₁, h⟩ := Option.bind_eq_some_iff.mp h
    exact (granted_mapPage h₁).trans (ih h)

/-! ### The upper levels

A walk reads no entry of a last-level table. What it does is determined by the other tables,
as long as none of them is a last-level table as well. -/

/-- The bootloader's state without what is in the last-level tables, `pts`. -/
structure Upper (σ : Type) where
  state : BootState σ
  pts : List ℕ

/-- The table is not one whose entries are left out. -/
def visible (t : ℕ) (w : Upper σ) : Option (Upper σ) := if t ∈ w.pts then none else some w

/-- A block of the walk; `leaf` is the last one, which takes a last-level table. -/
def newTableUpper (F : Firmware σ) (rec : ℕ → Upper σ → Option (Upper σ)) (leaf : Bool)
    (t i : ℕ) (w : Upper σ) : Option (Upper σ) :=
  if t ∈ w.pts then none
  else if present (w.state.frame t i) then some w
  else
    (pagealloc F rsdatamem 1 w.state).bind fun r =>
      (rec r.1 ⟨(r.2.memzero r.1).write t i (mkEntry r.1),
        if leaf then r.1 :: w.pts else w.pts⟩).bind (visible t)

/-- What `map_page` does on the upper levels. -/
def mapUpper (F : Firmware σ) (pml4 : ℕ) : ℕ → ℕ → Upper σ → Option (Upper σ)
  | 0, _, _ => none
  | fuel + 1, virt, w =>
    if virt % PAGE_SIZE ≠ 0 then some w
    else
      (newTableUpper F (mapUpper F pml4 fuel) false pml4 (pml4Idx virt) w).bind fun w₁ =>
      let pdpt := addrOf (w₁.state.frame pml4 (pml4Idx virt))
      (newTableUpper F (mapUpper F pml4 fuel) false pdpt (pdptIdx virt) w₁).bind fun w₂ =>
      let pd := addrOf (w₂.state.frame pdpt (pdptIdx virt))
      (newTableUpper F (mapUpper F pml4 fuel) true pd (pdIdx virt) w₂).bind fun w₃ =>
      if addrOf (w₃.state.frame pd (pdIdx virt)) ∈ w₃.pts then some w₃ else none

def mapCallsUpper (F : Firmware σ) (pml4 fuel : ℕ) : List (ℕ × ℕ) → Upper σ → Option (Upper σ)
  | [], w => some w
  | c :: cs, w => (mapUpper F pml4 fuel c.2 w).bind (mapCallsUpper F pml4 fuel cs)

/-- Outside the last-level tables the states agree. -/
structure Shows (w : Upper σ) (s : BootState σ) : Prop where
  fw : s.fw = w.state.fw
  log : s.log = w.state.log
  frame : ∀ x ∉ w.pts, s.frame x = w.state.frame x

lemma Shows.pagealloc {type pages : ℕ} {w : Upper σ} {s : BootState σ} {q : ℕ × BootState σ}
    (h : Shows w s) (hq : pagealloc F type pages w.state = some q) :
    ∃ s', BootPaging.pagealloc F type pages s = some (q.1, s') ∧ Shows ⟨q.2, w.pts⟩ s' := by
  obtain ⟨r, hr, rfl⟩ := Option.map_eq_some_iff.mp hq
  refine ⟨{ s with fw := r.2, log := ⟨r.1, pages⟩ :: s.log }, ?_, rfl, ?_, h.frame⟩
  · rw [BootPaging.pagealloc, h.fw, hr]
    rfl
  · exact congrArg (List.cons _) h.log

/-- Clearing a page and linking it keeps the agreement, also if the page becomes one of the
last-level tables. -/
lemma Shows.link {w : Upper σ} {s : BootState σ} (h : Shows w s) {t : ℕ} (ht : t ∉ w.pts)
    (page i : ℕ) {pts : List ℕ} (hpts : pts = page :: w.pts ∨ pts = w.pts) :
    Shows ⟨(w.state.memzero page).write t i (mkEntry page), pts⟩
      ((s.memzero page).write t i (mkEntry page)) := by
  refine ⟨h.fw, h.log, fun x hx => ?_⟩
  have hz : ∀ y, y = page ∨ y ∉ w.pts → (s.memzero page).frame y = (w.state.memzero page).frame y := by
    intro y hy
    unfold BootState.memzero
    dsimp only
    by_cases hyp : y = page
    · rw [hyp, Function.update_self, Function.update_self]
    · rw [Function.update_of_ne hyp, Function.update_of_ne hyp]
      exact h.frame y (hy.resolve_left hyp)
  have hx' : x ∉ w.pts := by
    rcases hpts with rfl | rfl
    · exact fun hm => hx (List.mem_cons_of_mem _ hm)
    · exact hx
  unfold BootState.write
  dsimp only
  by_cases hxt : x = t
  · rw [hxt, Function.update_self, Function.update_self, hz t (Or.inr ht)]
  · rw [Function.update_of_ne hxt, Function.update_of_ne hxt, hz x (Or.inr hx')]

/-- A store to a last-level table goes unseen. -/
lemma Shows.store {w : Upper σ} {s : BootState σ} (h : Shows w s) {pt : ℕ} (hpt : pt ∈ w.pts)
    (i e : ℕ) : Shows w (s.write pt i e) := by
  refine ⟨h.fw, h.log, fun x hx => ?_⟩
  have hne : x ≠ pt := fun hxp => hx (hxp ▸ hpt)
  unfold BootState.write
  dsimp only
  rw [Function.update_of_ne hne]
  exact h.frame x hx

/-- `rec` does what `recU` does on the upper levels. -/
def Follows (recU : ℕ → Upper σ → Option (Upper σ))
    (rec : ℕ → ℕ → BootState σ → Option (BootState σ)) : Prop :=
  ∀ phys virt w w' s, recU virt w = some w' → Shows w s →
    ∃ s', rec phys virt s = some s' ∧ Shows w' s'

lemma newTable_of_upper {recU : ℕ → Upper σ → Option (Upper σ)}
    {rec : ℕ → ℕ → BootState σ → Option (BootState σ)} (hrec : Follows recU rec) {leaf : Bool}
    {t i : ℕ} {w w' : Upper σ} {s : BootState σ}
    (h : newTableUpper F recU leaf t i w = some w') (hs : Shows w s) :
    ∃ s', newTable F rec t i s = some s' ∧ Shows w' s' ∧
      s'.frame t i = w'.state.frame t i := by
  unfold newTableUpper at h
  split at h
  · cases h
  rename_i ht
  unfold newTable
  rw [hs.frame t ht]
  split at h
  · rename_i hp
    obtain rfl := Option.some.inj h
    rw [if_pos hp]
    exact ⟨s, rfl, hs, by rw [hs.frame t ht]⟩
  · rename_i hp
    rw [if_neg hp]
    obtain ⟨q, hq, h⟩ := Option.bind_eq_some_iff.mp h
    obtain ⟨w₂, h₂, h⟩ := Option.bind_eq_some_iff.mp h
    unfold visible at h
    split at h
    · cases h
    rename_i ht'
    obtain rfl := Option.some.inj h
    obtain ⟨s₁, hs₁, hsh⟩ := hs.pagealloc hq
    have hpts : (if leaf then q.1 :: w.pts else w.pts) = q.1 :: w.pts ∨
        (if leaf then q.1 :: w.pts else w.pts) = w.pts := by
      cases leaf
      · exact Or.inr rfl
      · exact Or.inl rfl
    obtain ⟨s₂, e₂, hs₂⟩ := hrec _ _ _ _ _ h₂ (hsh.link ht q.1 i hpts)
    rw [hs₁, Option.bind_some]
    exact ⟨s₂, e₂, hs₂, by rw [hs₂.frame t ht']⟩

lemma mapUpper_cases {fuel virt : ℕ} {w w' : Upper σ}
    (h : mapUpper F pml4 (fuel + 1) virt w = some w') :
    virt % PAGE_SIZE ≠ 0 ∧ w' = w ∨ virt % PAGE_SIZE = 0 ∧ ∃ w₁ w₂,
      newTableUpper F (mapUpper F pml4 fuel) false pml4 (pml4Idx virt) w = some w₁ ∧
      newTableUpper F (mapUpper F pml4 fuel) false
        (addrOf (w₁.state.frame pml4 (pml4Idx virt))) (pdptIdx virt) w₁ = some w₂ ∧
      newTableUpper F (mapUpper F pml4 fuel) true (addrOf (w₂.state.frame
        (addrOf (w₁.state.frame pml4 (pml4Idx virt))) (pdptIdx virt))) (pdIdx virt) w₂ = some w' ∧
      addrOf (w'.state.frame (addrOf (w₂.state.frame
        (addrOf (w₁.state.frame pml4 (pml4Idx virt))) (pdptIdx virt))) (pdIdx virt)) ∈ w'.pts := by
  rw [mapUpper] at h
  split at h
  · rename_i hv
    exact Or.inl ⟨hv, (Option.some.inj h).symm⟩
  · rename_i hv
    obtain ⟨w₁, h₁, h⟩ := Option.bind_eq_some_iff.mp h
    obtain ⟨w₂, h₂, h⟩ := Option.bind_eq_some_iff.mp h
    obtain ⟨w₃, h₃, h⟩ := Option.bind_eq_some_iff.mp h
    split at h
    · rename_i hpt
      obtain rfl := Option.some.inj h
      exact Or.inr ⟨not_not.mp hv, w₁, w₂, h₁, h₂, h₃, hpt⟩
    · cases h

lemma mapPage_of_upper (fuel : ℕ) : Follows (mapUpper F pml4 fuel) (mapPage F pml4 fuel) := by
  induction fuel with
  | zero =>
    intro phys virt w w' s h
    cases h
  | succ fuel ih =>
    intro phys virt w w' s h hs
    rcases mapUpper_cases h with ⟨hv, rfl⟩ | ⟨hv, w₁, w₂, h₁, h₂, h₃, hpt⟩
    · exact ⟨s, by rw [mapPage, if_pos hv], hs⟩
    · obtain ⟨s₁, e₁, hs₁, hpdpt⟩ := newTable_of_upper ih h₁ hs
      rw [← hpdpt] at h₂ h₃ hpt
      obtain ⟨s₂, e₂, hs₂, hpd⟩ := newTable_of_upper ih h₂ hs₁
      rw [← hpd] at h₃ hpt
      obtain ⟨s₃, e₃, hs₃, hpte⟩ := newTable_of_upper ih h₃ hs₂
      rw [← hpte] at hpt
      exact ⟨_, mapPage_walk hv e₁ e₂ e₃, hs₃.store hpt _ _⟩

lemma mapCalls_of_upper {fuel : ℕ} {cs : List (ℕ × ℕ)} {w w' : Upper σ} {s : BootState σ}
    (h : mapCallsUpper F pml4 fuel cs w = some w') (hs : Shows w s) :
    ∃ s', mapCalls F pml4 fuel cs s = some s' ∧ Shows w' s' := by
  induction cs generalizing w s with
  | nil =>
    obtain rfl := Option.some.inj h
    exact ⟨s, rfl, hs⟩
  | cons c cs ih =>
    obtain ⟨w₁, h₁, h⟩ := Option.bind_eq_some_iff.mp h
    obtain ⟨s₁, e₁, hs₁⟩ := mapPage_of_upper fuel _ _ _ _ _ h₁ hs
    obtain ⟨s', e, hs'⟩ := ih h hs₁
    exact ⟨s', by rw [mapCalls, e₁, Option.bind_some, e], hs'⟩

/-! Calls for pages of one last-level table: after the first of them the tables are there. -/

/-- The pages are below the same last-level table. -/
def SameTable (v v' : ℕ) : Prop :=
  v % PAGE_SIZE = v' % PAGE_SIZE ∧ pml4Idx v = pml4Idx v' ∧ pdptIdx v = pdptIdx v' ∧
    pdIdx v = pdIdx v'

instance (v v' : ℕ) : Decidable (SameTable v v') := inferInstanceAs (Decidable (_ ∧ _ ∧ _ ∧ _))

lemma mapUpper_congr {v v' : ℕ} (h : SameTable v v') (fuel : ℕ) (w : Upper σ) :
    mapUpper F pml4 fuel v w = mapUpper F pml4 fuel v' w := by
  obtain ⟨hv, h4, h3, h2⟩ := h
  cases fuel with
  | zero => rfl
  | succ fuel => rw [mapUpper, mapUpper, hv, h4, h3, h2]

lemma newTableUpper_none (rec : ℕ → Upper σ → Option (Upper σ)) {leaf : Bool} {t i : ℕ}
    {w w' : Upper σ} (h : newTableUpper F (fun _ _ => none) leaf t i w = some w') :
    w' = w ∧ newTableUpper F rec leaf t i w = some w := by
  unfold newTableUpper at h ⊢
  split at h
  · cases h
  rename_i ht
  split at h
  · rename_i hp
    obtain rfl := Option.some.inj h
    exact ⟨rfl, by rw [if_neg ht, if_pos hp]⟩
  · obtain ⟨q, -, h⟩ := Option.bind_eq_some_iff.mp h
    cases h

lemma mapUpper_one {v : ℕ} {w w' : Upper σ} (h : mapUpper F pml4 1 v w = some w') (fuel : ℕ) :
    w' = w ∧ mapUpper F pml4 (fuel + 1) v w = some w := by
  have h0 : mapUpper F pml4 0 = fun _ _ => none := rfl
  rcases mapUpper_cases h with ⟨hv, rfl⟩ | ⟨hv, w₁, w₂, h₁, h₂, h₃, hpt⟩
  · exact ⟨rfl, if_pos hv⟩
  · rw [h0] at h₁ h₂ h₃
    obtain ⟨hw₁, e₁⟩ := newTableUpper_none (mapUpper F pml4 fuel) h₁
    subst hw₁
    obtain ⟨hw₂, e₂⟩ := newTableUpper_none (mapUpper F pml4 fuel) h₂
    subst hw₂
    obtain ⟨hw₃, e₃⟩ := newTableUpper_none (mapUpper F pml4 fuel) h₃
    subst hw₃
    refine ⟨rfl, ?_⟩
    rw [mapUpper, if_neg (not_not.mpr hv)]
    simp only [e₁, e₂, e₃, Option.bind_some, if_pos hpt]

/-- One call for each of a list of last-level tables, each checked to leave all its tables. -/
def mapBlocks (F : Firmware σ) (pml4 fuel : ℕ) : List ℕ → Upper σ → Option (Upper σ)
  | [], w => some w
  | v :: vs, w =>
    (mapUpper F pml4 (fuel + 1) v w).bind fun w' =>
      (mapUpper F pml4 1 v w').bind (mapBlocks F pml4 fuel vs)

lemma mapCallsUpper_same {fuel v : ℕ} {cs : List (ℕ × ℕ)} {w w' : Upper σ}
    (hcs : ∀ c ∈ cs, SameTable c.2 v) (h : mapUpper F pml4 1 v w = some w') :
    mapCallsUpper F pml4 (fuel + 1) cs w = some w := by
  induction cs with
  | nil => rfl
  | cons c cs ih =>
    rw [mapCallsUpper, mapUpper_congr (hcs c List.mem_cons_self), (mapUpper_one h fuel).2,
      Option.bind_some, ih fun c' hc' => hcs c' (List.mem_cons_of_mem _ hc')]

lemma mapCallsUpper_append {fuel : ℕ} {cs cs' : List (ℕ × ℕ)} {w w' : Upper σ}
    (h : mapCallsUpper F pml4 fuel cs w = some w') :
    mapCallsUpper F pml4 fuel (cs ++ cs') w = mapCallsUpper F pml4 fuel cs' w' := by
  induction cs generalizing w with
  | nil => rw [List.nil_append, Option.some.inj h]
  | cons c cs ih =>
    obtain ⟨w₁, h₁, h⟩ := Option.bind_eq_some_iff.mp h
    rw [List.cons_append, mapCallsUpper, h₁, Option.bind_some, ih h]

/-- Calls that come in blocks of pages of one last-level table. -/
lemma mapCallsUpper_blocks {fuel : ℕ} {bs : List (ℕ × List (ℕ × ℕ))} {w w' : Upper σ}
    (hbs : ∀ b ∈ bs, b.2 ≠ [] ∧ ∀ c ∈ b.2, SameTable c.2 b.1)
    (h : mapBlocks F pml4 fuel (bs.map Prod.fst) w = some w') :
    mapCallsUpper F pml4 (fuel + 1) (bs.flatMap Prod.snd) w = some w' := by
  induction bs generalizing w with
  | nil => exact h
  | cons b bs ih =>
    obtain ⟨w₁, h₁, h⟩ := Option.bind_eq_some_iff.mp h
    obtain ⟨w₂, h₂, hrest⟩ := Option.bind_eq_some_iff.mp h
    obtain ⟨hne, hsame⟩ := hbs b List.mem_cons_self
    obtain rfl := (mapUpper_one h₂ fuel).1
    have hblock : mapCallsUpper F pml4 (fuel + 1) b.2 w = some w₂ := by
      obtain ⟨c, cs, hc⟩ := List.exists_cons_of_ne_nil hne
      rw [hc] at hsame ⊢
      rw [mapCallsUpper, mapUpper_congr (hsame c List.mem_cons_self), h₁, Option.bind_some]
      exact mapCallsUpper_same (fun c' hc' => hsame c' (List.mem_cons_of_mem _ hc')) h₂
    rw [List.flatMap_cons, mapCallsUpper_append hblock]
    exact ih (fun b' hb' => hbs b' (List.mem_cons_of_mem _ hb')) hrest

end FlameOS.BootPaging
