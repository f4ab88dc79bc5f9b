import SpringLabs.Xv6.AddressSpace

/-!
# Page faults on memory that was never mapped

`sys_mmap` promises pages, and the page fault handler maps them.  The handler refuses an address
whose page starts above the size, but the page that starts exactly at the size is mapped as well.
It also maps a page when the fault comes from a page that is present and closed to the user.
-/

namespace SpringLabs.Xv6

open Interleave

variable {ld : Linker} {w w' : World} {e : Event} {va v : ℕ} {write : Bool} {s : Except Panic World}

/-! ## No page above the size -/

/-- The event is no access to the page that starts at the size. -/
def OffSize (s : Except Panic World) (e : Event) : Prop :=
  match s, e.access with
  | .ok w, some (va, _) => pgRoundDown va ≠ w.proc.sz
  | _, _ => True

/-- The pages that an event adds start below the size, rounded up. -/
def World.AddsBelow (w w' : World) : Prop :=
  ∀ v < 2 ^ 19, w.proc.pgdir.page v = none → w'.proc.pgdir.page v ≠ none →
    v * pgSize < pgRoundUp w.proc.sz

theorem Fault.below {p p' : Proc} (h : Fault v p p') (hbelow : p.Below) (hv : v * pgSize ≠ p.sz) :
    p'.Below := by
  intro u hu hpage
  rw [h.sz]
  by_cases huv : u = v
  · rw [huv]
    exact lt_of_le_of_ne h.le hv
  · rw [h.same u (hu.trans (by decide)) huv] at hpage
    exact hbelow u hu hpage

theorem World.Moves.below (h : w.Moves e w') (hbelow : w.proc.Below) (hoff : OffSize (.ok w) e) :
    w'.proc.Below := by
  unfold World.Moves at h
  unfold OffSize at hoff
  cases hacc : e.access with
  | none =>
    rw [hacc] at h
    exact h hbelow
  | some access =>
    rw [hacc] at h hoff
    rcases h.1 with ⟨hproc, -⟩ | ⟨-, hfault⟩
    · rwa [hproc]
    · exact hfault.below hbelow hoff

theorem below_of_reachable (hs : (system ld).Reachable OffSize (.ok w)) : w.proc.Below :=
  (system_induct (I := fun w => w.proc.Below) (E := fun _ => True) (fun _ h => h.below)
    (fun _ _ _ _ hbelow hoff hmoves => hmoves.below hbelow hoff) (fun _ _ _ _ _ _ _ => trivial) hs).2

/-- The page at the size is absent or the kernel's, and so every access to it faults. -/
theorem not_accessible_at_size {p : Proc} {k : Kmem} {busy : Set ℕ} (h : Space ld busy p k)
    (hbelow : p.Below) (hva : pgRoundDown va = p.sz) : ¬ p.Accessible va write := by
  rintro ⟨pte, hpte, huser, -⟩
  have hle := h.le
  have hround : va / pgSize * pgSize = p.sz := hva
  rw [pte_round] at hpte
  by_cases hv : va / pgSize < 2 ^ 19
  · have hpage : p.pgdir.page (va / pgSize) ≠ none := fun hnone => by rw [hnone] at hpte; cases hpte
    exact absurd (hbelow _ hv hpage) (by rw [hround]; exact lt_irrefl _)
  · have hkernel : va / pgSize = 2 ^ 19 := by
      simp only [pgSize, kernBase] at hround hle hv ⊢
      omega
    obtain ⟨pa, hpage⟩ := h.kernel
    rw [hkernel, hpage] at hpte
    obtain rfl := Option.some.inj hpte
    cases huser

theorem World.Moves.fault_at_size (h : w.Moves e w') (hspace : w.Space ld) (hbelow : w.proc.Below)
    (hoff : ¬ OffSize (.ok w) e) :
    ∃ v, v * pgSize = w.proc.sz ∧ Fault v w.proc w'.proc := by
  unfold World.Moves at h
  unfold OffSize at hoff
  cases hacc : e.access with
  | none =>
    rw [hacc] at hoff
    exact absurd trivial hoff
  | some access =>
    rw [hacc] at h hoff
    have hva : pgRoundDown access.1 = w.proc.sz := not_not.mp hoff
    rcases h.1 with ⟨-, hok⟩ | ⟨-, hfault⟩
    · exact absurd hok (not_accessible_at_size hspace hbelow hva)
    · exact ⟨_, hva, hfault⟩

theorem World.Moves.sz (h : w.Moves e w') (hacc : e.access.isSome) : w'.proc.sz = w.proc.sz := by
  unfold World.Moves at h
  obtain ⟨access, hacc⟩ := Option.isSome_iff_exists.mp hacc
  rw [hacc] at h
  rcases h.1 with ⟨hproc, -⟩ | ⟨-, hfault⟩
  · rw [hproc]
  · exact hfault.sz

/-- As long as no access is made to the page that starts at the size, the pages present start below
the size and the handler adds pages below it only.  Any such access that returns breaks both. -/
theorem off_size_bounded (hs : (system ld).Reachable OffSize (.ok w)) :
    w.proc.Below ∧ ∀ e w', w.next ld e = some (.ok w') →
      (w'.proc.Below ↔ OffSize (.ok w) e) ∧
      (e.access.isSome → (w.AddsBelow w' ↔ OffSize (.ok w) e)) := by
  have hspace := space_of_reachable hs
  have hbelow := below_of_reachable hs
  refine ⟨hbelow, fun e w' hnext => ?_⟩
  have hmoves : w.Moves e w' := by
    rcases World.next_cases hspace hnext with ⟨w'', hw, -, hmoves⟩ | ⟨x, hx, -⟩
    · obtain rfl := Except.ok.inj hw
      exact hmoves
    · cases hx
  by_cases hoff : OffSize (.ok w) e
  · have hbelow' := hmoves.below hbelow hoff
    refine ⟨iff_of_true hbelow' hoff, fun hacc => iff_of_true (fun v hv _ hpage => ?_) hoff⟩
    have hsz : w'.proc.sz = w.proc.sz := hmoves.sz hacc
    exact lt_pgRoundUp.mpr (hsz ▸ hbelow' v hv hpage)
  · obtain ⟨v, hv, hfault⟩ := hmoves.fault_at_size hspace hbelow hoff
    refine ⟨iff_of_false (fun hbelow' => ?_) hoff, fun _ => iff_of_false (fun hadds => ?_) hoff⟩
    · have hlt := hbelow' v hfault.user hfault.ne_none
      rw [hfault.sz, hv] at hlt
      exact lt_irrefl _ hlt
    · have hlt := hadds v hfault.user hfault.absent hfault.ne_none
      rw [lt_pgRoundUp, hv] at hlt
      exact lt_irrefl _ hlt

/-- The program maps a fourth page, and reads from it. -/
theorem off_size_bounded_mmapped : ∃ w : World, w.proc.sz = 4 * pgSize ∧ w.proc.pgdir.page 3 ≠ none ∧
    w.proc.Below ∧ ∀ e w', w.next sampleLinker e = some (.ok w') →
      (w'.proc.Below ↔ OffSize (.ok w) e) ∧
      (e.access.isSome → (w.AddsBelow w' ↔ OffSize (.ok w) e)) := by
  obtain ⟨w, hs, hsz, habsent, -, hmem⟩ := exists_mmapped OffSize fun _ => trivial
  have hva : pgRoundDown (3 * pgSize) ≠ w.proc.sz := by
    rw [hsz]
    decide
  obtain ⟨w', hnext, -, hfault, -⟩ := World.load_absent (space_of_reachable hs)
    (show 3 * pgSize < 2 ^ 32 by decide) (by rw [hsz]; decide) habsent (by omega)
  have hthree : 3 * pgSize / pgSize = 3 := by decide
  rw [hthree] at hfault
  exact ⟨w', hfault.sz.trans hsz, hfault.ne_none, off_size_bounded (hs.step (e := .load (3 * pgSize)) hva hnext)⟩

/-- The sample program reads the first byte above its memory, and gets a page there. -/
theorem exists_at_size : ∃ w w' : World, Sample w ∧ w.proc.sz = 3 * pgSize ∧
    w.next sampleLinker (.load (3 * pgSize)) = some (.ok w') ∧ Fault 3 w.proc w'.proc ∧
    w'.Space sampleLinker ∧ 168 ≤ w'.kmem.freelist.length := by
  obtain ⟨w, hw, hsz, hmem⟩ := exists_sample
  have himage := started_image hw.started
  obtain ⟨w', hnext, hspace, hfault, hcost⟩ := World.load_absent himage.space
    (show 3 * pgSize < 2 ^ 32 by decide) hsz.ge (himage.absent 3 (by decide) hsz.le) (by omega)
  have hthree : 3 * pgSize / pgSize = 3 := by decide
  rw [hthree] at hfault
  exact ⟨w, w', hw, hsz, hnext, hfault, hspace, by omega⟩

theorem at_size_not_bounded : ∃ w w' : World, Sample w ∧ w.proc.sz = 3 * pgSize ∧
    w.next sampleLinker (.load (3 * pgSize)) = some (.ok w') ∧
    (system sampleLinker).Reachable System.Any (.ok w') ∧ ¬ w'.proc.Below ∧ ¬ w.AddsBelow w' := by
  obtain ⟨w, w', hw, hsz, hnext, hfault, -, -⟩ := exists_at_size
  refine ⟨w, w', hw, hsz, hnext, hw.reachable.step (e := .load (3 * pgSize)) trivial hnext,
    fun hbelow => ?_, fun hadds => ?_⟩
  · have hlt := hbelow 3 hfault.user hfault.ne_none
    rw [hfault.sz, hsz] at hlt
    exact lt_irrefl _ hlt
  · have hlt := hadds 3 hfault.user hfault.absent hfault.ne_none
    rw [lt_pgRoundUp, hsz] at hlt
    exact lt_irrefl _ hlt

/-! ## No page mapped twice -/

/-- The page of `va` is present but closed to the user. -/
def Proc.Guarded (p : Proc) (va : ℕ) : Prop := ∃ pte ∈ p.pgdir.pte va, ¬ pte.perm.user

/-- The event is no access to the page that starts at the size, nor to one below it that is present
but closed to the user. -/
def Safe (s : Except Panic World) (e : Event) : Prop :=
  match s, e.access with
  | .ok w, some (va, _) =>
    pgRoundDown va ≠ w.proc.sz ∧ (pgRoundDown va < w.proc.sz → ¬ w.proc.Guarded va)
  | _, _ => True

theorem Safe.offSize (h : Safe (.ok w) e) : OffSize (.ok w) e := by
  unfold Safe at h
  unfold OffSize
  cases hacc : e.access with
  | none => trivial
  | some access =>
    rw [hacc] at h
    exact h.1

/-- Below the size, only absent pages and those closed to the user fault. -/
theorem Space.accessible {p : Proc} {k : Kmem} {busy : Set ℕ} (h : Space ld busy p k)
    (hlt : pgRoundDown va < p.sz) (hpte : p.pgdir.pte va ≠ none) (hguard : ¬ p.Guarded va) :
    p.Accessible va write := by
  obtain ⟨pte, hpte⟩ := Option.ne_none_iff_exists'.mp hpte
  have huser : pte.perm.user := by
    by_contra hno
    exact hguard ⟨pte, hpte, hno⟩
  have hle := h.le
  have hv : va / pgSize < 2 ^ 19 := by
    simp only [pgRoundDown, pgSize, kernBase] at hlt hle ⊢
    omega
  have hpage : pte ∈ p.pgdir.page (va / pgSize) := by
    rw [← pte_round]
    exact hpte
  exact ⟨pte, hpte, huser, fun _ => h.writable _ hv pte hpage⟩

theorem World.Panics.ne_remap {x : Panic} (h : w.Panics e x) (hspace : w.Space ld)
    (hbelow : w.proc.Below) (hsafe : Safe (.ok w) e) : x ≠ .remap := by
  unfold World.Panics at h
  unfold Safe at hsafe
  rintro rfl
  cases hacc : e.access with
  | none =>
    rw [hacc] at h
    exact h hbelow
  | some access =>
    rw [hacc] at h hsafe
    obtain ⟨hfault, ⟨hseg, -⟩ | ⟨-, hle, hpte⟩ | ⟨hne, -⟩⟩ := h
    · cases hseg
    · have hlt : pgRoundDown access.1 < w.proc.sz := lt_of_le_of_ne hle hsafe.1
      exact hfault (hspace.accessible hlt hpte (hsafe.2 hlt))
    · exact hne rfl

/-- An access to a page that is closed to the user maps it once more. -/
theorem load_guarded (h : w.Space ld) (hva : va < 2 ^ 32) (hlt : pgRoundDown va < w.proc.sz)
    (hguard : w.proc.Guarded va) (hmem : 2 ≤ w.kmem.freelist.length) :
    w.next ld (.load va) = some (.error .remap) := by
  obtain ⟨pte, hpte, huser⟩ := hguard
  have hnext : w.next ld (.load va) = some (w.run (Xv6.load va w.proc)) := by
    rw [World.next, if_pos hva]
  rcases World.next_cases h hnext with ⟨w', -, -, hacc, -⟩ | ⟨x, hx, -, hpanic⟩
  · rcases hacc with ⟨-, pte', hpte', huser', -⟩ | ⟨-, hfault⟩
    · obtain rfl := Option.some.inj (hpte.symm.trans hpte')
      exact absurd huser' huser
    · have habsent := hfault.absent
      rw [← pte_round, hpte] at habsent
      cases habsent
  · rcases hpanic with ⟨-, hgt⟩ | ⟨rfl, -⟩ | ⟨-, hshort⟩
    · exact absurd hgt (not_lt.mpr hlt.le)
    · rw [hnext, hx]
    · exact absurd hmem (not_le.mpr hshort)

/-- As long as all accesses are safe, no page is mapped twice.  An access to a page below the size
that is present but closed to the user always is one too many, unless memory runs out. -/
theorem safe_no_remap (hs : (system ld).Reachable Safe s) :
    s ≠ .error .remap ∧ ∀ w, s = .ok w → 2 ≤ w.kmem.freelist.length → ∀ va < 2 ^ 32,
      pgRoundDown va < w.proc.sz → w.proc.Guarded va →
      w.next ld (.load va) = some (.error .remap) := by
  have hinv := system_induct (I := fun w => w.proc.Below) (E := fun x => x ≠ .remap)
    (fun _ himage => himage.below)
    (fun _ _ _ _ hbelow hsafe hmoves => hmoves.below hbelow hsafe.offSize)
    (fun _ _ _ hspace hbelow hsafe hpanics => hpanics.ne_remap hspace hbelow hsafe) hs
  constructor
  · rintro rfl
    exact hinv rfl
  · rintro w rfl hmem va hva hlt hguard
    exact load_guarded hinv.1 hva hlt hguard hmem

theorem guarded_of_page {p : Proc} {f : ℕ} (h : p.pgdir.page v = some ⟨f, ⟨true, false⟩⟩) :
    p.Guarded (v * pgSize) :=
  ⟨_, h, nofun⟩

/-- The program maps a fourth page, reads from it, and then from the guard page. -/
theorem safe_no_remap_mmapped : ∃ w : World, w.proc.sz = 4 * pgSize ∧ w.proc.pgdir.page 3 ≠ none ∧
    (Except.ok w : Except Panic World) ≠ .error .remap ∧
    w.next sampleLinker (.load (1 * pgSize)) = some (.error .remap) := by
  obtain ⟨w, hs, hsz, habsent, hpages, hmem⟩ := exists_mmapped Safe fun _ => trivial
  obtain ⟨w', hnext, -, hfault, hcost⟩ := World.load_absent (space_of_reachable hs)
    (show 3 * pgSize < 2 ^ 32 by decide) (by rw [hsz]; decide) habsent (by omega)
  have hthree : 3 * pgSize / pgSize = 3 := by decide
  have hsafe : Safe (.ok w) (.load (3 * pgSize)) := by
    refine ⟨by rw [hsz]; decide, fun _ ⟨pte, hpte, _⟩ => ?_⟩
    rw [show w.proc.pgdir.pte (3 * pgSize) = none from habsent] at hpte
    cases hpte
  rw [hthree] at hfault
  have hsz' : w'.proc.sz = 4 * pgSize := hfault.sz.trans hsz
  obtain ⟨f, hguard⟩ := hpages 1 (by decide)
  rw [← hfault.same 1 (by decide) (by decide)] at hguard
  have hresult := safe_no_remap (hs.step (e := .load (3 * pgSize)) hsafe hnext)
  refine ⟨w', hsz', hfault.ne_none, hresult.1, ?_⟩
  exact hresult.2 w' rfl (by omega) _ (by decide) (by rw [hsz']; decide) (guarded_of_page hguard)

/-- Where a page is present at the size, `sbrk` meets it. -/
theorem sbrk_at_size (h : w.Space ld) (hv : v * pgSize = w.proc.sz)
    (hpage : w.proc.pgdir.page v ≠ none) (hsz : w.proc.sz + 1 < kernBase)
    (hmem : 2 ≤ w.kmem.freelist.length) : w.next ld (.sbrk 1) = some (.error .remap) := by
  have hnew : uint (w.proc.sz + 1) = w.proc.sz + 1 := by
    simp only [uint, kernBase] at hsz ⊢
    omega
  have hone : pages (pgRoundUp w.proc.sz) (w.proc.sz + 1) = 1 := by
    simp only [pages, pgRoundUp, pgSize] at hv ⊢
    omega
  have halloc := allocuvm_spec h.fit hsz (Nat.le_succ _)
  have hremap : Spec (Prod.snd <$> sysSbrk ld 1 w.proc) w.kmem (fun _ _ => False)
      fun e => e = .remap := by
    rw [map_eq_pure_bind]
    refine Spec.bind (Spec.bind (Spec.ite (fun _ => ?_) fun hnpos => absurd Int.one_pos hnpos))
    rw [hnew]
    refine Spec.bind (halloc.mono (fun r k' hr => ?_) fun e he => he.1)
    rw [hone] at hr
    rcases hr with ⟨-, halloc, -⟩ | ⟨-, -, hshort⟩
    · exact absurd (halloc.absent v (firstPage_le.mpr hv.ge) (by omega)) hpage
    · omega
  rw [World.next, if_pos (by decide)]
  rcases World.run_cases hremap with ⟨p, k, -, hfalse⟩ | ⟨e, hrun, rfl⟩
  · exact hfalse.elim
  · rw [hrun]

/-- The sample program reads the guard page, or it reads the first byte above its memory and then
asks for one more byte. -/
theorem guard_page_remap :
    (∃ w, Sample w ∧ w.proc.sz = 3 * pgSize ∧
      w.next sampleLinker (.load (1 * pgSize)) = some (.error .remap)) ∧
    (∃ w w', Sample w ∧ w.next sampleLinker (.load (3 * pgSize)) = some (.ok w') ∧
      w'.next sampleLinker (.sbrk 1) = some (.error .remap)) ∧
    (system sampleLinker).Reachable System.Any (.error .remap) := by
  obtain ⟨w, w', hw, hsz, hnext, hfault, hspace, hmem⟩ := exists_at_size
  obtain ⟨u, hu, husz, humem⟩ := exists_sample
  obtain ⟨f, hguard⟩ := (started_image hu.started).present 1 (by rw [husz]; decide)
  rw [husz] at hguard
  have hload : u.next sampleLinker (.load (1 * pgSize)) = some (.error .remap) :=
    load_guarded (started_image hu.started).space (by decide) (by rw [husz]; decide)
      (guarded_of_page hguard) (by omega)
  have hsbrk : w'.next sampleLinker (.sbrk 1) = some (.error .remap) :=
    sbrk_at_size hspace (hsz.symm.trans hfault.sz.symm) hfault.ne_none
      (by rw [hfault.sz, hsz]; decide) (by omega)
  exact ⟨⟨u, hu, husz, hload⟩, ⟨w, w', hw, hnext, hsbrk⟩,
    hu.reachable.step (e := .load (1 * pgSize)) trivial hload⟩

end SpringLabs.Xv6
