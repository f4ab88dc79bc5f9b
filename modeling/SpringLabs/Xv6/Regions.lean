import SpringLabs.Xv6.Accounting

/-!
# The regions of `sys_mmap`

`sys_mmap` hands out the bytes from the size on.  `exec` leaves a size that is a multiple of the page
size and `sys_mmap` keeps it one, as its test of the length makes sure, but `sys_sbrk` adds any
number of bytes: it decides whether the next region starts with a page of its own (`whole_iff`).
-/

namespace SpringLabs.Xv6

open Interleave

variable {ld : Linker} {p : Proc} {k : Kmem} {d : PgDir} {n : ℤ} {w : World}

/-! ## What the regions should be -/

/-- Page `v` holds memory of the process. -/
def Proc.Holds (p : Proc) (v : ℕ) : Prop := v * pgSize < p.sz ∨ p.pgdir.page v ≠ none

/-- Page `v` has a byte of the region of length `n` at `a`. -/
def Touches (v : ℕ) (a n : ℤ) : Prop := (v * pgSize : ℕ) < a + n ∧ a < ((v + 1) * pgSize : ℕ)

/-- The region that `sys_mmap` returns starts with a page, and none of its pages holds memory that
the process had before. -/
def Proc.Whole (p : Proc) (n : ℤ) : Prop :=
  (pgSize : ℤ) ∣ (sysMmap n p).1 ∧ ∀ v, Touches v (sysMmap n p).1 n → ¬ p.Holds v

/-- The event is a call of `sys_mmap` or `sys_sbrk`, or happens in the rest of the kernel. -/
def Calls (_ : Except Panic World) : Event → Prop
  | .load _ | .store _ _ => False
  | _ => True

/-- Such an event, which changes the size by whole pages. -/
def WholePages (s : Except Panic World) (e : Event) : Prop :=
  Calls s e ∧ ∀ n, e = .sbrk n → (pgSize : ℤ) ∣ n

/-! ## Sizes -/

/-- `allocuvm` returns 0 or one of the two sizes. -/
theorem allocLoop_size {oldsz newsz a : ℕ} (c : ℕ) :
    Spec (allocLoop ld oldsz newsz c d a) k (fun r _ => r.1 = newsz ∨ r.1 = 0) fun _ => True := by
  induction c generalizing d k a with
  | zero => exact Spec.pure (.inl rfl)
  | succ c ih =>
    rw [allocLoop]
    refine Spec.ite (fun _ => ?_) fun _ => Spec.pure (.inl rfl)
    refine Spec.bind_any (fun mem k₁ => ?_) fun _ => trivial
    cases mem with
    | none => exact Spec.bind_any (fun _ _ => Spec.pure (.inr rfl)) fun _ => trivial
    | some mem =>
      refine Spec.bind_any (fun _ k₂ => Spec.bind_any (fun r k₃ => ?_) fun _ => trivial)
        fun _ => trivial
      refine Spec.ite (fun _ => ih) fun _ => ?_
      exact Spec.bind_any (fun _ _ => Spec.bind_any (fun _ _ => Spec.pure (.inr rfl))
        fun _ => trivial) fun _ => trivial

theorem allocuvm_size (oldsz newsz : ℕ) : Spec (allocuvm ld d oldsz newsz) k
    (fun r _ => r.1 = newsz ∨ r.1 = oldsz ∨ r.1 = 0) fun _ => True := by
  unfold allocuvm
  refine Spec.ite (fun _ => Spec.pure (.inr (.inr rfl))) fun _ => ?_
  refine Spec.ite (fun _ => Spec.pure (.inr (.inl rfl))) fun _ => ?_
  exact (allocLoop_size _).mono (fun _ _ hr => hr.imp_right .inr) fun _ h => h

theorem deallocuvm_size (oldsz newsz : ℕ) : Spec (deallocuvm ld d oldsz newsz) k
    (fun r _ => r.1 = newsz ∨ r.1 = oldsz) fun _ => True := by
  unfold deallocuvm
  refine Spec.ite (fun _ => Spec.pure (.inr rfl)) fun _ => ?_
  exact Spec.bind_any (fun _ _ => Spec.pure (.inl rfl)) fun _ => trivial

theorem pgSize_dvd_pgRoundUp (sz : ℕ) : pgSize ∣ pgRoundUp sz := Nat.dvd_mul_left _ _

/-- A completed `exec` leaves a whole number of pages. -/
theorem exec_whole {file : List ℕ} {phs : List ProgHdr} :
    Spec (exec ld file phs) k (fun r _ => ∀ p ∈ r, pgSize ∣ p.sz) fun _ => True := by
  unfold exec
  refine Spec.bind_any (fun r k₁ => ?_) fun _ => trivial
  cases r with
  | none => exact Spec.pure nofun
  | some d₁ =>
    refine Spec.bind_any (fun r k₂ => ?_) fun _ => trivial
    have ⟨sz, d₂⟩ := r
    cases sz with
    | none => exact Spec.bind_any (fun _ _ => Spec.pure nofun) fun _ => trivial
    | some sz =>
      have hround := pgSize_dvd_pgRoundUp sz
      refine Spec.bind ((allocuvm_size _ _).mono (fun r k₃ hr => ?_) fun _ h => h)
      refine Spec.ite (fun _ => ?_) fun hzero => ?_
      · exact Spec.bind_any (fun _ _ => Spec.pure nofun) fun _ => trivial
      · have hsz : pgSize ∣ r.1 := by
          rcases hr with hr | hr | hr
          · rw [hr]
            exact Nat.dvd_add hround (Nat.dvd_mul_left _ _)
          · rw [hr]
            exact hround
          · exact absurd hr hzero
        refine Spec.bind_any (fun d' _ => Spec.pure fun p hp => ?_) fun _ => trivial
        cases Option.mem_some_iff.mp hp
        exact hsz

/-- `growproc` moves the size by `n` or leaves it alone. -/
theorem growproc_size : Spec (growproc ld n p) k
    (fun r _ => r.2.sz = uint (p.sz + n) ∨ r.2.sz = p.sz) fun _ => True := by
  unfold growproc
  refine Spec.ite (fun _ => ?_) fun _ => Spec.ite (fun _ => ?_) fun _ => Spec.pure (.inr rfl)
  · refine Spec.bind ((allocuvm_size _ _).mono (fun r k₁ hr => ?_) fun _ h => h)
    refine Spec.ite (fun _ => Spec.pure (.inr rfl)) fun hzero => Spec.pure ?_
    rcases hr with hr | hr | hr
    · exact .inl hr
    · exact .inr hr
    · exact absurd hr hzero
  · refine Spec.bind ((deallocuvm_size _ _).mono (fun r k₁ hr => ?_) fun _ h => h)
    exact Spec.ite (fun _ => Spec.pure (.inr rfl)) fun _ => Spec.pure hr

theorem sysSbrk_size : Spec (sysSbrk ld n p) k
    (fun r _ => r.2.sz = uint (p.sz + n) ∨ r.2.sz = p.sz) fun _ => True := by
  refine Spec.bind (growproc_size.mono (fun r k' hr => ?_) fun _ h => h)
  exact Spec.ite (fun _ => Spec.pure hr) fun _ => Spec.pure hr

theorem dvd_uint {sz : ℕ} (hsz : pgSize ∣ sz) (hn : (pgSize : ℤ) ∣ n) : pgSize ∣ uint (sz + n) := by
  simp only [uint, pgSize] at *
  omega

/-- What `sys_mmap` returns is not turned negative by its type. -/
theorem sysMmap_addr (hle : p.sz ≤ kernBase) (hn : n < 2 ^ 31) (h : (sysMmap n p).1 ≠ 0) :
    (sysMmap n p).1 = p.sz := by
  unfold sysMmap at h ⊢
  split_ifs at h ⊢ with hargs
  · exact absurd rfl h
  · have hlt : p.sz < 2 ^ 31 := by
      simp only [uint, kernBase] at hargs hle
      omega
    simp only [int_of_lt hlt]

theorem sysMmap_whole (hsz : pgSize ∣ p.sz) : pgSize ∣ (sysMmap n p).2.sz := by
  unfold sysMmap
  split_ifs with hargs
  · exact hsz
  · apply dvd_uint hsz
    rw [not_or, not_or, not_not] at hargs
    exact Int.dvd_of_emod_eq_zero hargs.2.1

/-- A call that changes the size by whole pages leaves a whole number of them. -/
theorem World.next_whole {e : Event} {w' : World} (hspace : w.Space ld) (hsz : pgSize ∣ w.proc.sz)
    (hok : WholePages (.ok w) e) (hnext : w.next ld e = some (.ok w')) : pgSize ∣ w'.proc.sz := by
  have helsewhere (he : e.elsewhere) : pgSize ∣ w'.proc.sz := by
    have ⟨w'', hw, hproc, _⟩ := World.next_elsewhere hspace.fit he hnext
    cases hw
    rwa [hproc]
  cases e with
  | mmap n =>
    obtain ⟨_, hrun⟩ : (-2 ^ 31 ≤ n ∧ n < 2 ^ 31) ∧ w.run (pure (sysMmap n w.proc).2) = .ok w' := by
      simpa [World.next] using hnext
    cases hrun
    exact sysMmap_whole hsz
  | sbrk n =>
    obtain ⟨_, hrun⟩ : (-2 ^ 31 ≤ n ∧ n < 2 ^ 31) ∧
        w.run (Prod.snd <$> sysSbrk ld n w.proc) = .ok w' := by
      simpa [World.next] using hnext
    have hspec : Spec (Prod.snd <$> sysSbrk ld n w.proc) w.kmem
        (fun p _ => p.sz = uint (w.proc.sz + n) ∨ p.sz = w.proc.sz) fun _ => True := by
      rw [map_eq_pure_bind]
      exact Spec.bind (sysSbrk_size.mono (fun _ _ hr => Spec.pure hr) fun _ h => h)
    rcases World.run_cases hspec with ⟨p, k, hrun', hr⟩ | ⟨e, hrun', -⟩
    · have hsame : p = w'.proc := by
        rw [hrun] at hrun'
        cases hrun'
        rfl
      rw [← hsame]
      rcases hr with hr | hr
      · rw [hr]
        exact dvd_uint hsz (hok.2 n rfl)
      · rwa [hr]
    · cases hrun'.symm.trans hrun
  | load va => exact hok.1.elim
  | store va byte => exact hok.1.elim
  | take => exact helsewhere rfl
  | give pa => exact helsewhere rfl
  | scribble pa page => exact helsewhere rfl

/-! ## Over a run -/

theorem whole_of_reachable (h : (system ld).Reachable WholePages (.ok w)) :
    pgSize ∣ w.proc.sz := by
  have hholds : Holds (fun w => w.Space ld ∧ pgSize ∣ w.proc.sz) (fun _ => True) (.ok w) := by
    apply h.induct
    · rintro _ ⟨w, hw, rfl⟩
      have ⟨file, phs, k, _, hexec⟩ := hw
      exact ⟨(started_image hw).space, exec_whole.of_ok hexec _ rfl⟩
    · intro s e t hs hok hnext
      cases s with
      | error x => cases hnext
      | ok w =>
        have ⟨hspace, hsz⟩ := hs
        rcases World.next_cases hspace hnext with ⟨w', rfl, hspace', -⟩ | ⟨x, rfl, -⟩
        · exact ⟨hspace', World.next_whole hspace hsz hok hnext⟩
        · trivial
  exact hholds.2

/-- Without page faults the pages present are those below the size. -/
theorem below_of_calls (h : (system ld).Reachable Calls (.ok w)) : w.proc.Below := by
  have hholds : Holds (fun w => w.Space ld ∧ w.proc.Below) (fun _ => True) (.ok w) := by
    apply system_induct (fun w hw => hw.below) ?_ (fun _ _ _ _ _ _ _ => trivial) h
    intro w e w' _ hbelow hok hmoves
    have haccess : e.access = none := by
      cases e <;> first | rfl | exact hok.elim
    unfold World.Moves at hmoves
    rw [haccess] at hmoves
    exact hmoves hbelow
  exact hholds.2

/-- The next region is whole if and only if the size is a whole number of pages. -/
theorem whole_iff (hle : p.sz ≤ kernBase) (hbelow : p.Below) (hn : -2 ^ 31 ≤ n ∧ n < 2 ^ 31)
    (hr : (sysMmap n p).1 ≠ 0) : p.Whole n ↔ pgSize ∣ p.sz := by
  have hcall : sysMmap n p = ((sysMmap n p).1, (sysMmap n p).2) := rfl
  have ⟨hpos, hlen, hfit, _⟩ := sysMmap_ok hcall hr
  unfold Proc.Whole
  rw [sysMmap_addr hle hn.2 hr]
  refine ⟨fun h => Int.natCast_dvd_natCast.mp h.1, fun hsz => ⟨Int.natCast_dvd_natCast.mpr hsz, ?_⟩⟩
  rintro v ⟨hlo, hhi⟩ hholds
  have hv : p.sz ≤ v * pgSize := by
    simp only [pgSize] at hsz hhi ⊢
    omega
  rcases hholds with hlt | hpage
  · exact absurd hlt (not_lt.mpr hv)
  · have huser : v < 2 ^ 19 := by
      simp only [pgSize, kernBase, uint] at hlo hfit hle
      omega
    exact absurd (hbelow v huser hpage) (not_lt.mpr hv)

/-- In every run in which the size is changed by whole pages every region is whole.  In every run of
calls a region is whole if and only if the size was a whole number of pages. -/
theorem regions_whole (ld : Linker) :
    (∀ w, (system ld).Reachable WholePages (.ok w) → ∀ n, -2 ^ 31 ≤ n ∧ n < 2 ^ 31 →
      (sysMmap n w.proc).1 ≠ 0 → w.proc.Whole n) ∧
    ∀ w, (system ld).Reachable Calls (.ok w) → ∀ n, -2 ^ 31 ≤ n ∧ n < 2 ^ 31 →
      (sysMmap n w.proc).1 ≠ 0 → (w.proc.Whole n ↔ pgSize ∣ w.proc.sz) := by
  have hiff (w : World) (hw : (system ld).Reachable Calls (.ok w)) (n : ℤ)
      (hn : -2 ^ 31 ≤ n ∧ n < 2 ^ 31) (hr : (sysMmap n w.proc).1 ≠ 0) :
      w.proc.Whole n ↔ pgSize ∣ w.proc.sz :=
    whole_iff (space_of_reachable hw).le (below_of_calls hw) hn hr
  refine ⟨fun w hw n hn hr => ?_, hiff⟩
  have hcalls := hw.mono fun _ _ hok => hok.1
  exact (hiff w hcalls n hn hr).mpr (whole_of_reachable hw)

/-- `sys_sbrk` adds memory where there are pages for it. -/
theorem World.next_grow (len : ℕ) (h : w.Space ld) (hbelow : w.proc.Below) (hpos : 0 < len)
    (hlt : w.proc.sz + len < kernBase)
    (hmem : 2 * pages (pgRoundUp w.proc.sz) (w.proc.sz + len) ≤ w.kmem.freelist.length) :
    ∃ w', w.next ld (.sbrk len) = some (.ok w') ∧ w'.proc.sz = w.proc.sz + len := by
  have hnew : uint (w.proc.sz + len) = w.proc.sz + len := by
    simp only [uint, kernBase] at hlt ⊢
    omega
  have hgrows : Spec (Prod.snd <$> sysSbrk ld len w.proc) w.kmem
      (fun p _ => p.sz = w.proc.sz + len) fun _ => False := by
    rw [map_eq_pure_bind]
    refine Spec.bind (Spec.bind (Spec.ite (fun _ => ?_) fun hneg => ?_))
    · rw [hnew]
      refine Spec.bind ((allocuvm_spec h.fit hlt (Nat.le_add_right _ _)).mono (fun r k' hr => ?_) ?_)
      · rcases hr with ⟨hr, -, -⟩ | ⟨-, -, hshort⟩
        · refine Spec.ite (fun hzero => ?_) fun _ => Spec.pure (Spec.pure (Spec.pure hr))
          omega
        · exact absurd hmem (not_le.mpr hshort)
      · rintro e ⟨-, v, hlo, hhi, hpage⟩
        have huser : v < 2 ^ 19 := by
          simp only [pgSize, kernBase] at hhi hlt
          omega
        exact absurd (hbelow v huser hpage) (not_lt.mpr (firstPage_le.mp hlo))
    · exact absurd (Int.natCast_pos.mpr hpos) hneg
  rw [World.next, if_pos (by simp only [kernBase] at hlt; omega)]
  rcases World.run_cases hgrows with ⟨p, k, hrun, hsz⟩ | ⟨_, -, hfalse⟩
  · exact ⟨_, congrArg some hrun, hsz⟩
  · exact hfalse.elim

/-- The sample program asks for a page with `sys_sbrk` and for one with `sys_mmap` before. -/
theorem regions_whole_sample : ∃ w₀ w₁ w₂ : World, Sample w₀ ∧
    w₀.next sampleLinker (.sbrk pgSize) = some (.ok w₁) ∧
    w₁.next sampleLinker (.mmap pgSize) = some (.ok w₂) ∧ w₂.proc.sz = 5 * pgSize ∧
    (sysMmap pgSize w₂.proc).1 ≠ 0 ∧ w₂.proc.Whole pgSize ∧ pgSize ∣ w₂.proc.sz := by
  have ⟨w₀, hw, hsz, hmem⟩ := exists_sample
  have himage := started_image hw.started
  have ⟨w₁, hsbrk, hsz₁⟩ := World.next_grow pgSize himage.space himage.below (by decide)
    (by rw [hsz]; decide) (by rw [hsz]; exact (show _ ≤ 170 by decide).trans hmem)
  have hmmap := World.next_mmap sampleLinker (w := w₁) (n := 1) (by decide)
    (by rw [hsz₁, hsz]; decide)
  have hsystem (w : World) : (system sampleLinker).next (.ok w) = w.next sampleLinker := rfl
  have hgrown : (system sampleLinker).Reachable WholePages (.ok w₁) := by
    refine hw.reachable.step (e := .sbrk pgSize) ⟨trivial, ?_⟩ ((congrFun (hsystem w₀) _).trans hsbrk)
    rintro _ ⟨⟩
    exact dvd_rfl
  have hok : WholePages (.ok w₁) (.mmap (1 * pgSize : ℕ)) := ⟨trivial, nofun⟩
  have hreach := hgrown.step hok ((congrFun (hsystem w₁) _).trans hmmap)
  have hsz₂ : w₁.proc.sz + 1 * pgSize = 5 * pgSize := by
    rw [hsz₁, hsz]
    rfl
  have hr : (sysMmap pgSize ⟨w₁.proc.pgdir, w₁.proc.sz + 1 * pgSize⟩).1 ≠ 0 := by
    have hargs : ¬ ((pgSize : ℤ) ≤ 0 ∨ (pgSize : ℤ) % pgSize ≠ 0 ∨
        uint (pgSize + (5 * pgSize : ℕ)) > kernBase) := by decide
    rw [hsz₂, sysMmap, if_neg hargs, int_of_lt (show 5 * pgSize < 2 ^ 31 by decide)]
    exact (show ((5 * pgSize : ℕ) : ℤ) ≠ 0 by decide)
  have hrange : -2 ^ 31 ≤ (pgSize : ℤ) ∧ (pgSize : ℤ) < 2 ^ 31 := by decide
  have ⟨hruns, hiff⟩ := regions_whole sampleLinker
  have hwhole := hruns _ hreach pgSize hrange hr
  have hcalls := hreach.mono fun _ _ hok => hok.1
  exact ⟨w₀, w₁, _, hw, hsbrk, hmmap, hsz₂, hr, hwhole, (hiff _ hcalls pgSize hrange hr).mp hwhole⟩

/-- After `sys_sbrk(-1)` the next region starts with the last byte of a page of the stack. -/
theorem shrunk_region_not_whole : ∃ w w' : World, Sample w ∧
    w.next sampleLinker (.sbrk (-1)) = some (.ok w') ∧
    (∃ r, sysSbrk sampleLinker (-1) w.proc w.kmem = .ok (r, w'.kmem) ∧ 0 < r.1) ∧
    (system sampleLinker).Reachable Calls (.ok w') ∧ (sysMmap pgSize w'.proc).1 ≠ 0 ∧
    ¬ w'.proc.Whole pgSize := by
  have ⟨w, hw, hsz, _⟩ := exists_sample
  have hsbrk : sysSbrk sampleLinker (-1) w.proc w.kmem =
      .ok ((int onePageSize, ⟨w.proc.pgdir, onePageSize - 1⟩), w.kmem) := by
    have hsize : uint (onePageSize + -1) = onePageSize - 1 := by decide
    have hdealloc (d : PgDir) : deallocuvm sampleLinker d onePageSize (onePageSize - 1) =
        pure (onePageSize - 1, d) := by
      unfold deallocuvm
      rw [if_neg (by decide)]
      rfl
    unfold sysSbrk growproc
    rw [if_neg (by decide), if_pos (by decide), hsz, hsize, hdealloc]
    rfl
  have hnext : w.next sampleLinker (.sbrk (-1)) =
      some (.ok { w with proc := ⟨w.proc.pgdir, onePageSize - 1⟩ }) := by
    have hrun : (Prod.snd <$> sysSbrk sampleLinker (-1) w.proc) w.kmem =
        .ok (⟨w.proc.pgdir, onePageSize - 1⟩, w.kmem) := by
      rw [map_eq_pure_bind]
      show (sysSbrk sampleLinker (-1) w.proc w.kmem).bind _ = _
      rw [hsbrk]
      rfl
    rw [World.next, if_pos (by decide), World.run, hrun]
  have hsystem : (system sampleLinker).next (.ok w) = w.next sampleLinker := rfl
  have hreach : (system sampleLinker).Reachable Calls
      (.ok { w with proc := ⟨w.proc.pgdir, onePageSize - 1⟩ }) :=
    hw.reachable.step (e := .sbrk (-1)) trivial ((congrFun hsystem _).trans hnext)
  have hr : (sysMmap pgSize ⟨w.proc.pgdir, onePageSize - 1⟩).1 ≠ 0 := by
    have hargs : ¬ ((pgSize : ℤ) ≤ 0 ∨ (pgSize : ℤ) % pgSize ≠ 0 ∨
        uint (pgSize + (onePageSize - 1 : ℕ)) > kernBase) := by decide
    rw [sysMmap, if_neg hargs, int_of_lt (show onePageSize - 1 < 2 ^ 31 by decide)]
    exact (show ((onePageSize - 1 : ℕ) : ℤ) ≠ 0 by decide)
  have hpos : 0 < int onePageSize := by
    rw [int_of_lt (by decide)]
    decide
  refine ⟨w, _, hw, hnext, ⟨_, hsbrk, hpos⟩, hreach, hr, fun hwhole => ?_⟩
  have hdvd := hwhole.1
  rw [sysMmap_addr (show onePageSize - 1 ≤ kernBase by decide) (by decide) hr] at hdvd
  exact absurd hdvd (show ¬ (pgSize : ℤ) ∣ (onePageSize - 1 : ℕ) by decide)

end SpringLabs.Xv6
