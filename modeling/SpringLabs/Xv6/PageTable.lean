import SpringLabs.Xv6.Memory
import SpringLabs.Ownership

/-!
# Page tables as maps

A page directory is a map from page numbers to entries (`PgDir.page`); the first `2 ^ 19` pages are
the user's.  It owns physical pages: its own, those of its page tables and those of the user's
pages (`PgDir.slot`), and these are neither free nor used elsewhere (`Fit`).  `walkpgdir` changes
the tree but not the map, and `mappages` extends the map by the pages it is given.
-/

namespace SpringLabs.Xv6

variable {ld : Linker} {busy : Set ℕ} {d d' : PgDir} {k k' : Kmem} {v w f pa : ℕ} {perm : Perm}

/-! ## The map -/

/-- The entry of page `v`. -/
def PgDir.page (d : PgDir) (v : ℕ) : Option Pte := d.pte (v * pgSize)

/-- The page table for page `v` is present. -/
def PgDir.HasTab (d : PgDir) (v : ℕ) : Prop := (d.pde (v / 1024)).isSome

instance (d : PgDir) (v : ℕ) : Decidable (d.HasTab v) := inferInstanceAs (Decidable (_ = true))

theorem pdx_mul (hv : v < 2 ^ 20) : pdx (v * pgSize) = v / 1024 := by
  simp only [pdx, pgSize]
  omega

theorem ptx_mul (v : ℕ) : ptx (v * pgSize) = v % 1024 := by
  simp only [ptx, pgSize]
  omega

theorem page_eq (hv : v < 2 ^ 20) :
    d.page v = (d.pde (v / 1024)).bind fun t => t.pte (v % 1024) := by
  rw [PgDir.page, PgDir.pte, pdx_mul hv, ptx_mul]

theorem not_hasTab (h : d.pde (v / 1024) = none) : ¬ d.HasTab v := by
  unfold PgDir.HasTab
  rw [h]
  decide

theorem page_of_not_hasTab (hv : v < 2 ^ 20) (h : ¬ d.HasTab v) : d.page v = none := by
  unfold PgDir.HasTab at h
  rw [page_eq hv, Option.not_isSome_iff_eq_none.mp h, Option.bind_none]

theorem hasTab_of_page (hv : v < 2 ^ 20) {pte : Pte} (h : d.page v = some pte) : d.HasTab v := by
  by_contra htab
  rw [page_of_not_hasTab hv htab] at h
  cases h

theorem pte_round (va : ℕ) : d.pte va = d.page (va / pgSize) := by
  have hpdx : pdx va = pdx (va / pgSize * pgSize) := by
    simp only [pdx, pgSize]
    omega
  have hptx : ptx va = ptx (va / pgSize * pgSize) := by
    simp only [ptx, pgSize]
    omega
  rw [PgDir.page, PgDir.pte, PgDir.pte, hpdx, hptx]

theorem pde_setPte (d : PgDir) (va : ℕ) (pte : Option Pte) (i : ℕ) :
    ((d.setPte va pte).pde i).map PgTab.frame = (d.pde i).map PgTab.frame := by
  unfold PgDir.setPte
  split
  · rfl
  · next t ht =>
    by_cases hi : i = pdx va
    · rw [hi, ht]
      simp only [Function.update_self]
      rfl
    · simp only [Function.update_of_ne hi]

theorem hasTab_setPte {va : ℕ} {pte : Option Pte} : (d.setPte va pte).HasTab w ↔ d.HasTab w := by
  have hframe := pde_setPte d va pte (w / 1024)
  unfold PgDir.HasTab
  rw [← Option.isSome_map (f := PgTab.frame), hframe, Option.isSome_map]

theorem page_setPte (pte : Option Pte) (hv : v < 2 ^ 20) (hw : w < 2 ^ 20) (h : d.HasTab v) :
    (d.setPte (v * pgSize) pte).page w = if w = v then pte else d.page w := by
  obtain ⟨t, ht⟩ := Option.isSome_iff_exists.mp h
  rw [page_eq hw, page_eq hw, PgDir.setPte, pdx_mul hv, ptx_mul, ht]
  by_cases hpde : w / 1024 = v / 1024
  · simp only [hpde, Function.update_self, Option.bind_some, ht]
    by_cases hpte : w % 1024 = v % 1024
    · rw [hpte, Function.update_self, if_pos (by omega)]
    · rw [Function.update_of_ne hpte, if_neg (fun heq => hpte (by rw [heq]))]
  · simp only [Function.update_of_ne hpde]
    rw [if_neg (fun heq => hpde (by rw [heq]))]

theorem page_setPde (hw : w < 2 ^ 20) (h : ¬ d.HasTab v) :
    (d.setPde (v / 1024) f).page w = d.page w := by
  have hnone := Option.not_isSome_iff_eq_none.mp h
  rw [page_eq hw, page_eq hw, PgDir.setPde]
  by_cases hpde : w / 1024 = v / 1024
  · simp only [hpde, Function.update_self, Option.bind_some, hnone, Option.bind_none]
  · simp only [Function.update_of_ne hpde]

/-! ## Ownership -/

/-- What a page directory owns: its page, the pages of its page tables, and the user's pages. -/
inductive Slot where
  | dir
  | tab (i : ℕ)
  | page (v : ℕ)
  deriving DecidableEq

/-- The physical page in a slot. -/
def PgDir.slot (d : PgDir) : Slot → Option ℕ
  | .dir => some d.frame
  | .tab i => if i < npdEntries then (d.pde i).map PgTab.frame else none
  | .page v => if v < 2 ^ 19 then (d.page v).map Pte.pa else none

/-- What the directory owns is neither free nor used elsewhere. -/
def Fit (ld : Linker) (busy : Set ℕ) (d : PgDir) (k : Kmem) : Prop :=
  Owned ld.Frame busy k.freelist d.slot

theorem slot_setPde (hv : v < 2 ^ 20) (h : ¬ d.HasTab v) :
    (d.setPde (v / 1024) f).slot = Function.update d.slot (.tab (v / 1024)) (some f) := by
  funext s
  cases s with
  | dir => rfl
  | tab i =>
    by_cases hi : i = v / 1024
    · subst hi
      rw [Function.update_self, PgDir.slot, if_pos (by simp only [npdEntries]; omega), PgDir.setPde]
      simp only [Function.update_self, Option.map_some]
    · rw [Function.update_of_ne (by simpa using hi)]
      simp only [PgDir.slot, PgDir.setPde, Function.update_of_ne hi]
  | page w =>
    rw [Function.update_of_ne (by simp)]
    simp only [PgDir.slot]
    by_cases hw : w < 2 ^ 19
    · rw [page_setPde (by omega) h]
    · rw [if_neg hw, if_neg hw]

theorem slot_setPte {pte : Option Pte} (hv : v < 2 ^ 19) (h : d.HasTab v) :
    (d.setPte (v * pgSize) pte).slot = Function.update d.slot (.page v) (pte.map Pte.pa) := by
  funext s
  cases s with
  | dir =>
    rw [Function.update_of_ne (by simp)]
    simp only [PgDir.slot, PgDir.setPte]
    split <;> rfl
  | tab i =>
    rw [Function.update_of_ne (by simp)]
    simp only [PgDir.slot, pde_setPte]
  | page w =>
    by_cases hw : w = v
    · subst hw
      rw [Function.update_self, PgDir.slot, if_pos hv, page_setPte _ (by omega) (by omega) h,
        if_pos rfl]
    · rw [Function.update_of_ne (by simpa using hw)]
      simp only [PgDir.slot]
      by_cases hlt : w < 2 ^ 19
      · rw [page_setPte _ (by omega) (by omega) h, if_neg hw]
      · rw [if_neg hlt, if_neg hlt]

theorem slot_setPte_kernel {pte : Option Pte} (hv : v < 2 ^ 20) (hk : 2 ^ 19 ≤ v) (h : d.HasTab v) :
    (d.setPte (v * pgSize) pte).slot = d.slot := by
  funext s
  cases s with
  | dir =>
    simp only [PgDir.slot, PgDir.setPte]
    split <;> rfl
  | tab i => simp only [PgDir.slot, pde_setPte]
  | page w =>
    simp only [PgDir.slot]
    by_cases hlt : w < 2 ^ 19
    · rw [if_pos hlt, if_pos hlt, page_setPte _ hv (by omega) h, if_neg (by omega)]
    · rw [if_neg hlt, if_neg hlt]

/-! ## The allocator -/

/-- A computation has only taken pages from the allocator and written to pages that were free. -/
structure Allocs (k k' : Kmem) : Prop where
  sub : ∀ f ∈ k'.freelist, f ∈ k.freelist
  kept : ∀ f, f ∉ k.freelist → k'.mem f = k.mem f

theorem Allocs.refl (k : Kmem) : Allocs k k := ⟨fun _ h => h, fun _ _ => rfl⟩

theorem Allocs.trans {k'' : Kmem} (h : Allocs k k') (h' : Allocs k' k'') : Allocs k k'' :=
  ⟨fun f hf => h.sub f (h'.sub f hf),
    fun f hf => (h'.kept f fun hf' => hf (h.sub f hf')).trans (h.kept f hf)⟩

theorem Allocs.cons {list : List ℕ} (hlist : k.freelist = f :: list) (page : Page) :
    Allocs k ⟨list, Function.update k.mem f page⟩ := by
  refine ⟨fun g hg => ?_, fun g hg => Function.update_of_ne ?_ ..⟩
  · rw [hlist]
    exact .tail _ hg
  · rintro rfl
    rw [hlist] at hg
    exact hg (.head _)

/-- The pages in use elsewhere keep their content. -/
def Kept (busy : Set ℕ) (k k' : Kmem) : Prop := ∀ f ∈ busy, k'.mem f = k.mem f

theorem Kept.refl (k : Kmem) : Kept busy k k := fun _ _ => rfl

theorem Kept.trans {k'' : Kmem} (h : Kept busy k k') (h' : Kept busy k' k'') : Kept busy k k'' :=
  fun f hf => (h' f hf).trans (h f hf)

theorem Kept.write {list : List ℕ} {page : Page} (hf : f ∉ busy) :
    Kept busy k ⟨list, Function.update k.mem f page⟩ := by
  intro g hg
  apply Function.update_of_ne
  rintro rfl
  exact hf hg

theorem Allocs.keeps {slot : Slot → Option ℕ} (ha : Allocs k k')
    (h : Owned ld.Frame busy k.freelist slot) : Kept busy k k' :=
  fun f hf => ha.kept f fun hlist => h.idle f hlist hf

/-- The head of the free list, taken by the caller and written to. -/
theorem Owned.pop {slot : Slot → Option ℕ} {list : List ℕ} (h : Owned ld.Frame busy k.freelist slot)
    (hlist : k.freelist = f :: list) :
    ld.Frame f ∧ f ∉ busy ∧ k.freelist.length = list.length + 1 ∧
      Owned ld.Frame (insert f busy) list slot := by
  rw [hlist] at h ⊢
  exact ⟨h.valid f (.head _), h.idle f (.head _), rfl, h.take⟩

theorem kalloc_spec {Q : Option ℕ → Kmem → Prop} {E : Panic → Prop}
    (hnone : k.freelist = [] → Q none k)
    (hsome : ∀ f list, k.freelist = f :: list → Q (some f) { k with freelist := list }) :
    Spec kalloc k Q E := by
  unfold Spec kalloc
  cases hlist : k.freelist with
  | nil => exact hnone hlist
  | cons f list => exact hsome f list hlist

theorem kfree_spec {Q : Unit → Kmem → Prop} {E : Panic → Prop} (hf : ld.Frame f)
    (hQ : Q () ⟨f :: k.freelist, Function.update k.mem f fun _ => 1⟩) : Spec (kfree ld f) k Q E := by
  unfold kfree
  rw [if_neg (not_not.mpr hf)]
  exact Spec.ok rfl hQ

theorem memset_spec {c : ℕ} {Q : Unit → Kmem → Prop} {E : Panic → Prop}
    (hQ : Q () { k with mem := Function.update k.mem f fun _ => c }) : Spec (memset f c) k Q E :=
  Spec.ok rfl hQ

theorem memmove_spec {Q : Unit → Kmem → Prop} {E : Panic → Prop}
    (hQ : Q () { k with mem := Function.update k.mem f (k.mem pa) }) :
    Spec (memmove f pa) k Q E :=
  Spec.ok rfl hQ

/-! ## Walking -/

/-- What `walkpgdir` with `alloc` does to a directory for page `v`. -/
structure Walked (ld : Linker) (busy : Set ℕ) (v : ℕ) (d : PgDir) (k : Kmem) (d' : PgDir)
    (k' : Kmem) : Prop where
  fit : Fit ld busy d' k'
  pages : ∀ w < 2 ^ 20, d'.page w = d.page w
  here : d'.HasTab v
  allocs : Allocs k k'
  cost : k.freelist.length ≤ k'.freelist.length + if d.HasTab v then 0 else 1

theorem walkpgdir_spec (h : Fit ld busy d k) (hv : v < 2 ^ 20) :
    Spec (walkpgdir d (v * pgSize) true) k (fun r k' => match r with
      | none => k' = k ∧ k.freelist = [] ∧ ¬ d.HasTab v
      | some d' => Walked ld busy v d k d' k') fun _ => False := by
  unfold walkpgdir
  rw [pdx_mul hv]
  split
  · next t ht =>
    have htab : d.HasTab v := Option.isSome_iff_exists.mpr ⟨t, ht⟩
    exact Spec.pure ⟨h, fun _ _ => rfl, htab, .refl k, Nat.le_add_right _ _⟩
  · next hnone =>
    have htab := not_hasTab hnone
    rw [if_pos rfl]
    refine Spec.bind (kalloc_spec (fun hlist => ?_) fun f list hlist => ?_)
    · exact Spec.pure ⟨rfl, hlist, htab⟩
    · have hslot : d.slot (.tab (v / 1024)) = none := by
        simp only [PgDir.slot, hnone, Option.map_none, ite_self]
      unfold Fit at h
      rw [hlist] at h
      have hfit := h.alloc hslot
      rw [← slot_setPde hv htab] at hfit
      refine Spec.bind (memset_spec (Spec.pure ?_))
      refine ⟨hfit, fun w hw => page_setPde hw htab, ?_, .cons hlist _, ?_⟩
      · unfold PgDir.HasTab PgDir.setPde
        simp only [Function.update_self, Option.isSome_some]
      · rw [if_neg htab, hlist]
        exact le_rfl

/-- Without `alloc` nothing changes. -/
theorem walkpgdir_noalloc {Q : Option PgDir → Kmem → Prop} {E : Panic → Prop} (hv : v < 2 ^ 20)
    (hsome : d.HasTab v → Q (some d) k) (hnone : ¬ d.HasTab v → Q none k) :
    Spec (walkpgdir d (v * pgSize) false) k Q E := by
  unfold walkpgdir
  rw [pdx_mul hv]
  split
  · next t ht => exact Spec.pure (hsome (Option.isSome_iff_exists.mpr ⟨t, ht⟩))
  · next ht => exact Spec.pure (hnone (not_hasTab ht))

/-! ## Mapping -/

/-- `mappages` of `n` pages runs the loop `n` times. -/
theorem mappages_eq {n : ℕ} (hn : 1 ≤ n) (hv : v + n ≤ 2 ^ 20) (pa : ℕ) (perm : Perm) :
    mappages d (v * pgSize) (n * pgSize) pa perm = mapLoop perm n d (v * pgSize) pa := by
  have hlast : pgRoundDown (uint ((v * pgSize : ℕ) + (n * pgSize : ℕ) - 1)) =
      (v + n - 1) * pgSize := by
    simp only [pgRoundDown, uint, pgSize]
    omega
  have hfirst : pgRoundDown (v * pgSize) = v * pgSize := by
    simp only [pgRoundDown, pgSize]
    omega
  have hcount : uint (((v + n - 1) * pgSize : ℕ) - (v * pgSize : ℕ)) / pgSize + 1 = n := by
    simp only [uint, pgSize]
    omega
  unfold mappages
  simp only [hlast, hfirst, hcount]

/-- `mappages` of one page, with a physical page taken from the allocator. -/
structure Mapped (ld : Linker) (busy : Set ℕ) (v f : ℕ) (perm : Perm) (d : PgDir) (k : Kmem)
    (d' : PgDir) (k' : Kmem) : Prop where
  fit : Fit ld busy d' k'
  absent : d.page v = none
  present : d'.page v = some ⟨f, perm⟩
  pages : ∀ w < 2 ^ 20, w ≠ v → d'.page w = d.page w
  allocs : Allocs k k'
  cost : k.freelist.length ≤ k'.freelist.length + 1

theorem mappages_spec (perm : Perm) (h : Fit ld (insert f busy) d k) (hf : f ∉ busy) (hframe : ld.Frame f)
    (hv : v < 2 ^ 20) (hkernel : 2 ^ 19 ≤ v → d.page v ≠ none) :
    Spec (mappages d (v * pgSize) pgSize f perm) k (fun r k' => match r with
      | (true, d') => Mapped ld busy v f perm d k d' k'
      | (false, d') => d' = d ∧ k' = k ∧ k.freelist = []) fun e => e = .remap ∧ d.page v ≠ none := by
  have hone := mappages_eq (d := d) (n := 1) (v := v) le_rfl hv f perm
  rw [Nat.one_mul] at hone
  rw [hone, mapLoop]
  refine Spec.bind ((walkpgdir_spec h hv).mono (fun r k₁ hr => ?_) fun _ h => h.elim)
  cases r with
  | none => exact Spec.pure ⟨rfl, hr.1, hr.2.1⟩
  | some d₁ =>
    have hpage : d₁.pte (v * pgSize) = d.page v := hr.pages v hv
    simp only [hpage]
    cases hd : d.page v with
    | some pte => exact Spec.throw ⟨rfl, by simp⟩
    | none =>
      have huser : v < 2 ^ 19 := by
        by_contra hle
        exact hkernel (not_lt.mp hle) hd
      have hslot : d₁.slot (.page v) = none := by
        simp only [PgDir.slot, hr.pages v hv, hd, Option.map_none, ite_self]
      have hfit := hr.fit.settle hf hframe hslot
      have hset : (d₁.setPte (v * pgSize) (some ⟨f, perm⟩)).slot =
          Function.update d₁.slot (.page v) (some f) := slot_setPte huser hr.here
      rw [← hset] at hfit
      refine Spec.pure ⟨hfit, hd, ?_, fun w hw hne => ?_, hr.allocs, ?_⟩
      · rw [page_setPte _ hv hv hr.here, if_pos rfl]
      · rw [page_setPte _ hv hw hr.here, if_neg hne, hr.pages w hw]
      · have hcost := hr.cost
        split at hcost <;> omega

end SpringLabs.Xv6
