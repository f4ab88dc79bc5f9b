import SpringLabs.Xv6.Vm
import SpringLabs.Xv6.Process

/-!
# The image that `exec` builds

When an `exec` completes, exactly the pages below the size are present, all writable, and all but
the guard page below the stack open to the user (`Image`).  A program that fits into one page is
loaded whenever the free list is long enough.
-/

namespace SpringLabs.Xv6

variable {ld : Linker} {busy : Set ℕ} {d : PgDir} {k : Kmem} {v sz : ℕ} {file : List ℕ}

/-! ## The pages up to a size -/

/-- Exactly the user's pages below `sz` are present, and they are open to the user. -/
structure Loaded (ld : Linker) (busy : Set ℕ) (d : PgDir) (sz : ℕ) (k : Kmem) : Prop where
  fit : Fit ld busy d k
  le : sz ≤ kernBase
  present : ∀ v, v * pgSize < sz → ∃ f, d.page v = some ⟨f, permWU⟩
  absent : ∀ v < 2 ^ 19, sz ≤ v * pgSize → d.page v = none
  kernel : d.KernelPage

theorem Fresh.loaded (h : Fresh ld busy d k) : Loaded ld busy d 0 k :=
  ⟨h.fit, Nat.zero_le _, fun _ hv => absurd hv (Nat.not_lt_zero _), fun v hv _ => h.user v hv,
    h.kernel⟩

theorem lt_pgRoundUp : v * pgSize < pgRoundUp sz ↔ v * pgSize < sz := by
  simp only [pgRoundUp, pgSize]
  omega

theorem Loaded.round (h : Loaded ld busy d sz k) : Loaded ld busy d (pgRoundUp sz) k := by
  refine ⟨h.fit, ?_, fun v hv => h.present v (lt_pgRoundUp.mp hv), fun v hv hle => ?_, h.kernel⟩
  · have hle := h.le
    simp only [pgRoundUp, pgSize, kernBase] at hle ⊢
    omega
  · apply h.absent v hv
    rw [← not_lt] at hle ⊢
    rwa [lt_pgRoundUp] at hle

theorem Loaded.congr {k' : Kmem} (h : Loaded ld busy d sz k) (hlist : k'.freelist = k.freelist) :
    Loaded ld busy d sz k' := by
  have hfit : Fit ld busy d k' := by
    unfold Fit
    rw [hlist]
    exact h.fit
  exact ⟨hfit, h.le, h.present, h.absent, h.kernel⟩

/-- `allocuvm` extends the pages, unless there is no room or no memory. -/
theorem Loaded.allocuvm_spec (newsz : ℕ) (h : Loaded ld busy d sz k) :
    Spec (allocuvm ld d sz newsz) k (fun r k' =>
      (r.1 = max sz newsz ∧ Loaded ld busy r.2 r.1 k' ∧
        k.freelist.length ≤ k'.freelist.length + 2 * pages (pgRoundUp sz) newsz) ∨
      (r.1 = 0 ∧ (kernBase ≤ newsz ∨ k.freelist.length < 2 * pages (pgRoundUp sz) newsz)))
      fun _ => False := by
  by_cases hbase : newsz ≥ kernBase
  · unfold allocuvm
    rw [if_pos hbase]
    exact Spec.pure (.inr ⟨rfl, .inl hbase⟩)
  · by_cases hlt : newsz < sz
    · unfold allocuvm
      rw [if_neg hbase, if_pos hlt]
      exact Spec.pure (.inl ⟨(max_eq_left hlt.le).symm, h, Nat.le_add_right _ _⟩)
    · have hnew : newsz < kernBase := not_le.mp hbase
      have hle : sz ≤ newsz := not_lt.mp hlt
      have hsize : max sz newsz = newsz := max_eq_right hle
      have hfirst (w : ℕ) : firstPage sz ≤ w ↔ sz ≤ w * pgSize := by
        simp only [firstPage, pgSize]
        omega
      have huser {w : ℕ} (hw : w * pgSize < newsz) : w < 2 ^ 19 := by
        simp only [pgSize, kernBase] at hw hnew
        omega
      refine (Xv6.allocuvm_spec h.fit hnew hle).mono (fun r k' hr => ?_) ?_
      · rcases hr with ⟨hr, ⟨fit, -, present, same⟩, hcost⟩ | ⟨hr, -, hshort⟩
        · rw [hsize, hr]
          refine .inl ⟨rfl, ⟨fit, hnew.le, fun w hw => ?_, fun w hw hge => ?_, ?_⟩, hcost⟩
          · by_cases hold : w * pgSize < sz
            · rw [same w ((huser hw).trans (by decide)) (.inl ?_)]
              · exact h.present w hold
              · rwa [← not_le, hfirst, not_le]
            · exact present w ((hfirst w).mpr (not_lt.mp hold)) hw
          · rw [same w (hw.trans (by decide)) (.inr hge)]
            exact h.absent w hw (hle.trans hge)
          · exact h.kernel.congr (same _ (by decide) (.inr hnew.le))
        · exact .inr ⟨hr, .inr hshort⟩
      · rintro e ⟨-, w, hlo, hhi, hpage⟩
        exact hpage (h.absent w (huser hhi) ((hfirst w).mp hlo))

/-! ## Loading the program -/

theorem readi_spec {pa off n : ℕ} {Q : ℕ → Kmem → Prop} {E : Panic → Prop}
    (hQ : ∀ page, Q (min n (file.length - off)) { k with mem := Function.update k.mem pa page }) :
    Spec (readi file pa off n) k Q E :=
  Spec.ok rfl (hQ _)

/-- Reading the program does not change the page tables, nor the free list. -/
theorem loadLoop_spec {addr off len : ℕ} (n i : ℕ) :
    Spec (loadLoop d addr file off len n i) k (fun _ k' => k'.freelist = k.freelist)
      fun _ => True := by
  induction n generalizing k i with
  | zero => exact Spec.pure rfl
  | succ n ih =>
    rw [loadLoop]
    split
    · unfold walkpgdir
      split
      · refine Spec.bind (Spec.pure (Spec.bind (readi_spec fun page => ?_)))
        exact Spec.ite (fun _ => Spec.pure rfl) fun _ => ih (k := ⟨_, _⟩) _
      · exact Spec.bind (Spec.pure (Spec.throw trivial))
    · exact Spec.pure rfl

theorem loaduvm_spec {addr off len : ℕ} :
    Spec (loaduvm d addr file off len) k (fun _ k' => k'.freelist = k.freelist) fun _ => True := by
  unfold loaduvm
  split
  · exact Spec.bind (Spec.throw trivial)
  · exact Spec.bind (Spec.pure (loadLoop_spec _ _))

theorem loadSegments_spec (phs : List ProgHdr) (h : Loaded ld busy d sz k) :
    Spec (loadSegments ld file phs d sz) k (fun r k' => ∀ sz' ∈ r.1, Loaded ld busy r.2 sz' k')
      fun _ => True := by
  induction phs generalizing d sz k with
  | nil =>
    apply Spec.pure
    intro sz' hsz
    obtain rfl : sz = sz' := by simpa using hsz
    exact h
  | cons ph phs ih =>
    rw [loadSegments]
    split_ifs with htype hmem hover haligned
    · exact ih h
    · exact Spec.pure nofun
    · exact Spec.pure nofun
    · refine Spec.bind ((h.allocuvm_spec _).mono (fun r k₁ _ => ?_) fun _ h => h.elim)
      exact Spec.ite (fun _ => Spec.pure nofun) fun _ => Spec.pure nofun
    · refine Spec.bind ((h.allocuvm_spec _).mono (fun r k₁ hr => ?_) fun _ h => h.elim)
      obtain ⟨sz₁, d₁⟩ := r
      by_cases hzero : sz₁ = 0
      · simp only [hzero, if_true]
        exact Spec.pure nofun
      · simp only [hzero, if_false]
        obtain ⟨-, hloaded, -⟩ := hr.resolve_right fun hr => hzero hr.1
        refine Spec.bind (loaduvm_spec.mono (fun ok k₂ hlist => ?_) fun _ h => h)
        cases ok with
        | true => exact ih (hloaded.congr hlist)
        | false => exact Spec.pure nofun

/-! ## The stack -/

/-- The entry of page `v` without `PTE_U`. -/
def guarded (pte : Pte) : Pte := { pte with perm.user := false }

theorem clearpteu_spec (hv : v < 2 ^ 19) :
    Spec (clearpteu d (v * pgSize)) k (fun d' k' => k' = k ∧ d'.slot = d.slot ∧
      ∀ w < 2 ^ 20, d'.page w = if w = v then (d.page v).map guarded else d.page w)
      fun _ => ¬ d.HasTab v := by
  have hv' : v < 2 ^ 20 := hv.trans (by decide)
  refine Spec.bind (walkpgdir_noalloc hv' (fun htab => ?_) fun htab => Spec.throw htab)
  refine Spec.pure ⟨rfl, ?_, fun w hw => page_setPte _ hv' hw htab⟩
  rw [slot_setPte hv htab]
  apply Function.update_eq_self_iff.mpr
  rw [Option.map_map, PgDir.slot, if_pos hv]
  rfl

/-- The memory of a process whose `exec` has completed. -/
structure Image (ld : Linker) (busy : Set ℕ) (p : Proc) (k : Kmem) : Prop where
  fit : Fit ld busy p.pgdir k
  le : p.sz ≤ kernBase
  present : ∀ v, v * pgSize < p.sz →
    ∃ f, p.pgdir.page v = some ⟨f, ⟨true, decide (v * pgSize + 2 * pgSize ≠ p.sz)⟩⟩
  absent : ∀ v < 2 ^ 19, p.sz ≤ v * pgSize → p.pgdir.page v = none
  kernel : p.pgdir.KernelPage

/-- The last two pages are the guard page and the stack. -/
theorem Loaded.clearpteu_spec (h : Loaded ld busy d sz k) (hsz : sz = (v + 2) * pgSize) :
    Spec (clearpteu d (sz - 2 * pgSize)) k (fun d' k' => Image ld busy ⟨d', sz⟩ k' ∧ k' = k)
      fun _ => False := by
  have hle := h.le
  have hguard : sz - 2 * pgSize = v * pgSize := by
    rw [hsz, Nat.add_mul, Nat.add_sub_cancel]
  have hv : v < 2 ^ 19 := by
    simp only [pgSize, kernBase] at hsz hle
    omega
  obtain ⟨f, hpage⟩ := h.present v (by simp only [pgSize] at hsz ⊢; omega)
  rw [hguard]
  refine (Xv6.clearpteu_spec hv).mono (fun d' k' hr => ?_) fun e htab => ?_
  · obtain ⟨rfl, hslot, hpages⟩ := hr
    have hfit : Fit ld busy d' k' := by
      unfold Fit
      rw [hslot]
      exact h.fit
    refine ⟨⟨hfit, hle, fun w hw => ?_, fun w hw hge => ?_, ?_⟩, rfl⟩
    · have hlt : w < 2 ^ 20 := by
        simp only [pgSize, kernBase] at hw hle
        omega
      rw [hpages w hlt]
      by_cases hwv : w = v
      · refine ⟨f, ?_⟩
        have hstack : w * pgSize + 2 * pgSize = sz := by rw [hwv, hsz, Nat.add_mul]
        simp only [hwv, if_true, hpage, Option.map_some, guarded, permWU]
        simp only [hwv] at hstack
        simp only [hstack, ne_eq, not_true_eq_false, decide_false]
      · obtain ⟨g, hg⟩ := h.present w hw
        have hstack : w * pgSize + 2 * pgSize ≠ sz := by
          simp only [pgSize] at hsz ⊢
          omega
        refine ⟨g, ?_⟩
        simp only [hwv, if_false, hg, hstack, permWU, ne_eq, not_false_eq_true, decide_true]
    · have hne : w ≠ v := by
        rintro rfl
        simp only [pgSize] at hsz hge
        omega
      rw [hpages w (hw.trans (by decide)), if_neg hne]
      exact h.absent w hw hge
    · apply h.kernel.congr
      rw [hpages _ (by decide), if_neg (by omega)]
  · exact htab (hasTab_of_page (hv.trans (by decide)) hpage)

theorem exec_spec {phs : List ProgHdr} (h : Owned ld.Frame busy k.freelist noSlot) :
    Spec (exec ld file phs) k (fun r k' => ∀ p ∈ r, Image ld busy p k') fun _ => True := by
  unfold exec
  refine Spec.bind ((setupkvm_spec h).mono (fun r k₁ hr => ?_) fun _ h => h.elim)
  cases r with
  | none => exact Spec.pure nofun
  | some d₁ =>
    refine Spec.bind ((loadSegments_spec phs hr.1.loaded).mono (fun r k₂ hr => ?_) fun _ h => h)
    obtain ⟨sz, d₂⟩ := r
    cases sz with
    | none => exact Spec.bind_any (fun _ _ => Spec.pure nofun) fun _ => trivial
    | some sz =>
      have hloaded : Loaded ld busy d₂ (pgRoundUp sz) k₂ := (hr sz rfl).round
      have hstack := hloaded.allocuvm_spec (pgRoundUp sz + 2 * pgSize)
      refine Spec.bind (hstack.mono (fun r k₃ hr => ?_) fun _ h => h.elim)
      refine Spec.ite (fun _ => ?_) fun hzero => ?_
      · exact Spec.bind_any (fun _ _ => Spec.pure nofun) fun _ => trivial
      · obtain ⟨hsz, hstack, -⟩ := hr.resolve_right fun hr => hzero hr.1
        have hpages : r.1 = (firstPage sz + 2) * pgSize := by
          rw [hsz, max_eq_right (Nat.le_add_right _ _), pgRoundUp_eq, Nat.add_mul]
        refine Spec.bind ((hstack.clearpteu_spec hpages).mono (fun d' k' hr => ?_) fun _ h => h.elim)
        apply Spec.pure
        intro p hp
        obtain rfl : ⟨d', r.1⟩ = p := by simpa using hp
        exact hr.1

/-! ## A program of one page -/

/-- The header of a program that is loaded at address 0 and fits into one page. -/
def onePage (file : List ℕ) : List ProgHdr := [⟨elfProgLoad, 0, 0, file.length, pgSize⟩]

theorem loaduvm_onePage (h : d.HasTab 0) (hfile : file.length ≤ pgSize) :
    Spec (loaduvm d 0 file 0 file.length) k
      (fun ok k' => ok = true ∧ k'.freelist = k.freelist) fun _ => False := by
  unfold loaduvm
  rw [if_neg (by decide)]
  refine Spec.bind (Spec.pure ?_)
  cases hn : pages 0 file.length with
  | zero => exact Spec.pure ⟨rfl, rfl⟩
  | succ n =>
    have hone : n = 0 := by
      simp only [pages, pgSize] at hn hfile
      omega
    rw [hone, loadLoop]
    refine Spec.ite (fun hlt => ?_) fun _ => Spec.pure ⟨rfl, rfl⟩
    refine Spec.bind (walkpgdir_noalloc (v := 0) (by decide) (fun _ => ?_) fun htab => absurd h htab)
    refine Spec.bind (readi_spec fun page => Spec.ite (fun hshort => ?_) fun _ => ?_)
    · simp only [pgSize] at hfile hshort
      split at hshort <;> omega
    · exact Spec.pure ⟨rfl, rfl⟩

/-- The size of a program of one page: the program, the guard page and the stack. -/
abbrev onePageSize : ℕ := 3 * pgSize

/-- `exec` loads a program of one page, given enough memory. -/
theorem exec_onePage (h : Owned ld.Frame busy k.freelist noSlot) (hfile : file.length ≤ pgSize)
    (hmem : kernelPages + 6 ≤ k.freelist.length) :
    Spec (exec ld file (onePage file)) k (fun r k' => ∃ d, r = some ⟨d, onePageSize⟩ ∧
      k.freelist.length ≤ k'.freelist.length + (kernelPages + 6)) fun _ => False := by
  unfold exec
  refine Spec.bind ((setupkvm_spec h).mono (fun r k₁ hr => ?_) fun _ h => h)
  cases r with
  | none =>
    have := hr.2.2
    omega
  | some d₁ =>
    obtain ⟨hfresh, -, hcost₁⟩ := hr
    have hnocarry : ¬ pgSize < file.length := not_lt.mpr hfile
    have hsize : uint ((0 : ℕ) + (pgSize : ℕ)) = pgSize := rfl
    have hload := hfresh.loaded.allocuvm_spec pgSize
    have hsegment : Spec (loadSegments ld file (onePage file) d₁ 0) k₁ (fun r k' =>
        r.1 = some pgSize ∧ Loaded ld busy r.2 pgSize k' ∧
          k₁.freelist.length ≤ k'.freelist.length + 2) fun _ => False := by
      rw [onePage, loadSegments]
      simp only [ne_eq, not_true_eq_false, if_false, hnocarry, hsize, Nat.not_lt_zero]
      refine Spec.bind (hload.mono (fun r k₂ hr => ?_) fun _ h => h)
      have hone : pages (pgRoundUp 0) pgSize = 1 := rfl
      rw [hone] at hr
      obtain ⟨hr, hloaded, hcost⟩ | ⟨-, hbase | hshort⟩ := hr
      · rw [Nat.zero_max] at hr
        rw [hr] at hloaded
        obtain ⟨f, hpage⟩ := hloaded.present 0 (by decide)
        have hread := loaduvm_onePage (k := k₂) (hasTab_of_page (by decide) hpage) hfile
        refine Spec.ite (fun hzero => ?_) fun _ => Spec.ite (fun h => absurd h (by decide)) fun _ => ?_
        · rw [hr] at hzero
          exact absurd hzero (by decide)
        · refine Spec.bind (hread.mono (fun ok k₃ hread => ?_) fun _ h => h)
          obtain ⟨rfl, hlist⟩ := hread
          rw [if_pos rfl, hr]
          refine Spec.pure ⟨rfl, hloaded.congr hlist, ?_⟩
          rw [hlist]
          exact hcost
      · exact absurd hbase (by decide)
      · omega
    refine Spec.bind (hsegment.mono (fun r k₂ hr => ?_) fun _ h => h)
    obtain ⟨sz, d₂⟩ := r
    obtain ⟨rfl, hloaded, hcost₂⟩ := hr
    have hround : pgRoundUp pgSize = pgSize := rfl
    have hthree : pgSize + 2 * pgSize = onePageSize := rfl
    have htwo : pages (pgRoundUp pgSize) onePageSize = 2 := rfl
    simp only [hround, hthree]
    refine Spec.bind ((hloaded.allocuvm_spec onePageSize).mono (fun r k₃ hr => ?_) fun _ h => h)
    rw [htwo] at hr
    obtain ⟨hr, hstack, hcost₃⟩ | ⟨-, hbase | hshort⟩ := hr
    · have hpages : r.1 = (1 + 2) * pgSize := hr
      refine Spec.ite (fun hzero => ?_) fun _ => ?_
      · rw [hpages] at hzero
        exact absurd hzero (by decide)
      · refine Spec.bind ((hstack.clearpteu_spec hpages).mono (fun d' k' hr' => ?_) fun _ h => h)
        obtain ⟨-, rfl⟩ := hr'
        refine Spec.pure ⟨d', by rw [hr]; rfl, ?_⟩
        omega
    · exact absurd hbase (by decide)
    · omega

end SpringLabs.Xv6
