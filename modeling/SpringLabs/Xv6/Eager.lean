import SpringLabs.Xv6.Accounting
import SpringLabs.Xv6.Fork

/-!
# Counting pages without lazy allocation

Part-A of Lab07 has the same `vm.c`, `exec.c` and `growproc`, but neither `sys_mmap` nor a page fault
handler: an access to an absent page kills the process, and no access changes a page table.  Exactly
the pages below the size are present then, and `sys_numpp` is `sys_numvp`.  There is one way out of
this: `growproc` takes the size 0 that `deallocuvm` returns to a process that gives back all of its
memory for a failure.
-/

namespace SpringLabs.Xv6

open Interleave

variable {ld : Linker} {busy : Set ℕ} {p p' : Proc} {d d' : PgDir} {k k' : Kmem} {n : ℤ} {v f : ℕ}
variable {w w' : World} {s : Except Panic World}

/-! ## The system of a process and its descendants -/

/-- The physical pages that a directory owns. -/
def PgDir.frames (d : PgDir) : List ℕ :=
  d.frame :: ((List.range npdEntries).filterMap fun i => (d.pde i).map PgTab.frame) ++
    (List.range (2 ^ 19)).filterMap fun v => (d.page v).map Pte.pa

/-- After a `fork` the system goes on with the child or with the parent. -/
inductive EagerEvent where
  | sbrk (n : ℤ)
  | fork (unused child : Bool)
  | elsewhere (e : Event)

/-- The effect of an event.  What belongs to the other process after a `fork` is in use elsewhere. -/
def World.eagerNext (ld : Linker) (w : World) : EagerEvent → Option (Except Panic World)
  | .sbrk n => w.next ld (.sbrk n)
  | .fork unused child =>
    match fork ld unused w.proc w.kmem with
    | .error e => some (.error e)
    | .ok (none, k) => some (.ok { w with kmem := k })
    | .ok (some (kstack, np), k) =>
      if child then some (.ok ⟨np, kstack :: w.proc.pgdir.frames ++ w.busy, k⟩)
      else some (.ok ⟨w.proc, kstack :: np.pgdir.frames ++ w.busy, k⟩)
  | .elsewhere e => if e.elsewhere then w.next ld e else none

def eagerSystem (ld : Linker) : System (Except Panic World) EagerEvent where
  init s := ∃ w, Started ld w ∧ s = .ok w
  next s e := match s with
    | .ok w => w.eagerNext ld e
    | .error _ => none

theorem mem_frames : f ∈ d.frames ↔ f ∈ held d.slot := by
  have htab : f ∈ (List.range npdEntries).filterMap (fun i => (d.pde i).map PgTab.frame) ↔
      ∃ i, d.slot (.tab i) = some f := by
    rw [List.mem_filterMap]
    apply exists_congr
    intro i
    rw [List.mem_range, PgDir.slot]
    split <;> simp_all
  have hpage : f ∈ (List.range (2 ^ 19)).filterMap (fun v => (d.page v).map Pte.pa) ↔
      ∃ v, d.slot (.page v) = some f := by
    rw [List.mem_filterMap]
    apply exists_congr
    intro v
    rw [List.mem_range, PgDir.slot]
    split <;> simp_all
  rw [PgDir.frames, List.cons_append, List.mem_cons, List.mem_append, htab, hpage]
  constructor
  · rintro (rfl | ⟨i, hi⟩ | ⟨v, hv⟩)
    · exact ⟨.dir, rfl⟩
    · exact ⟨_, hi⟩
    · exact ⟨_, hv⟩
  · rintro ⟨s, hs⟩
    cases s with
    | dir => exact .inl (Option.some.inj hs).symm
    | tab i => exact .inr (.inl ⟨i, hs⟩)
    | page v => exact .inr (.inr ⟨v, hs⟩)

theorem frames_busy (kstack : ℕ) (d : PgDir) (busy : List ℕ) :
    { f | f ∈ kstack :: d.frames ++ busy } = insert kstack { f | f ∈ busy } ∪ held d.slot := by
  ext f
  simp only [List.cons_append, Set.mem_ofPred_eq, List.mem_cons, List.mem_append, mem_frames,
    Set.mem_union, Set.mem_insert_iff]
  tauto

/-! ## The pages present -/

/-- Exactly the user's pages below the size, rounded up, are present. -/
def Proc.Exact (p : Proc) : Prop :=
  ∀ v < 2 ^ 19, p.pgdir.page v ≠ none ↔ v * pgSize < pgRoundUp p.sz

/-- The invariant of the system. -/
structure Eager (ld : Linker) (busy : Set ℕ) (p : Proc) (k : Kmem) : Prop where
  fit : Fit ld busy p.pgdir k
  le : p.sz ≤ kernBase
  exact : p.Exact

theorem Proc.Exact.iff_lt (h : p.Exact) (hv : v < 2 ^ 19) :
    p.pgdir.page v ≠ none ↔ v * pgSize < p.sz :=
  (h v hv).trans lt_pgRoundUp

theorem Proc.Exact.of_iff_lt (h : ∀ v < 2 ^ 19, p.pgdir.page v ≠ none ↔ v * pgSize < p.sz) :
    p.Exact :=
  fun v hv => (h v hv).trans lt_pgRoundUp.symm

theorem Proc.Exact.absent (h : p.Exact) (hv : v < 2 ^ 19) (hge : p.sz ≤ v * pgSize) :
    p.pgdir.page v = none := by
  by_contra hpage
  exact absurd ((h.iff_lt hv).mp hpage) (not_lt.mpr hge)

theorem Image.eager (h : Image ld busy p k) : Eager ld busy p k := by
  refine ⟨h.fit, h.le, .of_iff_lt fun v hv => ⟨h.below v hv, fun hlt => ?_⟩⟩
  obtain ⟨f, hpage⟩ := h.present v hlt
  rw [hpage]
  simp

/-- All pages below the size are present, so they are counted. -/
theorem Eager.numpp (h : Eager ld { f | f ∈ w.busy } w.proc w.kmem) : w.Numpp (sysNumvp w.proc) := by
  have hall : w.proc.presentPages = Finset.range (firstPage w.proc.sz) := by
    ext v
    rw [mem_presentPages, Finset.mem_range, lt_firstPage, lt_pgRoundUp]
    refine ⟨fun hv => hv.1, fun hlt => ⟨hlt, ?_⟩⟩
    exact (h.exact.iff_lt (firstPage_lt h.le (lt_firstPage.mpr hlt))).mpr hlt
  have hnumpp := sysNumpp_eq h.le w.kmem
  rwa [hall, Finset.card_range, ← sysNumvp_eq] at hnumpp

/-! ## `growproc` -/

/-- The two have the same size and the same pages. -/
structure Proc.Same (p p' : Proc) : Prop where
  sz : p'.sz = p.sz
  page : ∀ v < 2 ^ 19, p'.pgdir.page v = p.pgdir.page v

theorem Proc.Same.refl (p : Proc) : p.Same p := ⟨rfl, fun _ _ => rfl⟩

theorem Eager.same (h : Eager ld busy p k) (hfit : Fit ld busy p'.pgdir k') (hsame : p.Same p') :
    Eager ld busy p' k' := by
  refine ⟨hfit, hsame.sz ▸ h.le, fun v hv => ?_⟩
  rw [hsame.page v hv, hsame.sz]
  exact h.exact v hv

/-- The pages up to a larger size have been added. -/
theorem Eager.alloc {newsz : ℕ} (h : Eager ld busy p k)
    (halloc : Alloc ld busy (firstPage p.sz) newsz p.pgdir d' k') (hnew : newsz ≤ kernBase)
    (hle : p.sz ≤ newsz) : Eager ld busy ⟨d', newsz⟩ k' := by
  refine ⟨halloc.fit, hnew, .of_iff_lt fun v hv => ?_⟩
  by_cases hout : v < firstPage p.sz ∨ newsz ≤ v * pgSize
  · have hsame : d'.page v = p.pgdir.page v := halloc.pages v (hv.trans (by decide)) hout
    rw [show (Proc.mk d' newsz).pgdir.page v = p.pgdir.page v from hsame, h.exact.iff_lt hv]
    rw [lt_firstPage] at hout
    simp only
    omega
  · rw [not_or, not_lt, not_le] at hout
    obtain ⟨f, hpage⟩ := halloc.present v hout.1 hout.2
    refine iff_of_true ?_ hout.2
    rw [show (Proc.mk d' newsz).pgdir.page v = some ⟨f, permWU⟩ from hpage]
    simp

/-- There was no memory for all of the pages, and those added have been returned. -/
theorem Eager.undo {newsz : ℕ} (h : Eager ld busy p k)
    (hdealloc : Dealloc ld busy (firstPage p.sz) newsz p.pgdir d' k') : p.Same ⟨d', p.sz⟩ := by
  refine ⟨rfl, fun v hv => ?_⟩
  by_cases hout : v < firstPage p.sz ∨ newsz ≤ v * pgSize
  · exact hdealloc.pages v (hv.trans (by decide)) hout
  · rw [not_or, not_lt, not_le] at hout
    rw [h.exact.absent hv (firstPage_le.mp hout.1)]
    exact hdealloc.gone v hout.1 hout.2

/-- The pages down to a smaller size have been returned. -/
theorem Eager.dealloc {newsz : ℕ} (h : Eager ld busy p k)
    (hdealloc : Dealloc ld busy (firstPage newsz) p.sz p.pgdir d' k') (hle : newsz ≤ p.sz) :
    Eager ld busy ⟨d', newsz⟩ k' := by
  refine ⟨hdealloc.fit, hle.trans h.le, .of_iff_lt fun v hv => ?_⟩
  by_cases hout : v < firstPage newsz ∨ p.sz ≤ v * pgSize
  · have hsame : d'.page v = p.pgdir.page v := hdealloc.pages v (hv.trans (by decide)) hout
    rw [show (Proc.mk d' newsz).pgdir.page v = p.pgdir.page v from hsame, h.exact.iff_lt hv]
    rw [lt_firstPage] at hout
    simp only
    omega
  · rw [not_or, not_lt, not_le] at hout
    have hnone : d'.page v = none := hdealloc.gone v hout.1 hout.2
    refine iff_of_false (fun hpage => hpage hnone) ?_
    exact not_lt.mpr (firstPage_le.mp hout.1)

/-- The call does not give back all of the process' memory. -/
def Proc.Keeps (p : Proc) (n : ℤ) : Prop := n < 0 → n + p.sz ≠ 0

theorem growproc_eager (h : Eager ld busy p k) (hn : -2 ^ 31 ≤ n ∧ n < 2 ^ 31) (hkeeps : p.Keeps n) :
    Spec (growproc ld n p) k (fun r k' => Eager ld busy r.2 k' ∧ (r.1 < 0 → p.Same r.2))
      fun _ => False := by
  have hle := h.le
  simp only [kernBase] at hle
  unfold growproc
  refine Spec.ite (fun hpos => ?_) fun hnpos => Spec.ite (fun hneg => ?_) fun _ => ?_
  · have hnew : uint (p.sz + n) = p.sz + n.toNat := by
      simp only [uint]
      omega
    rw [hnew]
    by_cases hbase : p.sz + n.toNat ≥ kernBase
    · unfold allocuvm
      rw [if_pos hbase]
      exact Spec.bind (Spec.pure (Spec.pure ⟨h, fun _ => .refl p⟩))
    · have hlt : p.sz + n.toNat < kernBase := not_le.mp hbase
      have halloc := allocuvm_spec h.fit hlt (Nat.le_add_right p.sz _)
      refine Spec.bind (halloc.mono (fun r k₁ hr => ?_) ?_)
      · rcases hr with ⟨hr, halloc, -⟩ | ⟨hr, hdealloc, -⟩
        · refine Spec.ite (fun hzero => ?_) fun _ => ?_
          · omega
          · rw [hr]
            exact Spec.pure ⟨h.alloc halloc hlt.le (Nat.le_add_right _ _), by simp⟩
        · have hsame := h.undo hdealloc
          refine Spec.ite (fun _ => Spec.pure ⟨?_, fun _ => hsame⟩) fun hzero => absurd hr hzero
          exact h.same hdealloc.fit hsame
      · rintro e ⟨-, u, hlo, hhi, hpage⟩
        have hu : u < 2 ^ 19 := by
          simp only [pgSize, kernBase] at hhi hlt
          omega
        exact hpage (h.exact.absent hu (firstPage_le.mp hlo))
  · by_cases hge : uint (p.sz + n) ≥ p.sz
    · -- a shrink by more than the size wraps around, and nothing happens
      unfold deallocuvm
      rw [if_pos hge]
      exact Spec.bind (Spec.pure (Spec.ite (fun _ => Spec.pure ⟨h, fun _ => .refl p⟩)
        fun _ => Spec.pure ⟨h, by simp⟩))
    · have hlt : uint (p.sz + n) < p.sz := not_le.mp hge
      have hpos : uint (p.sz + n) ≠ 0 := by
        have hne := hkeeps hneg
        simp only [uint] at hlt ⊢
        omega
      refine Spec.bind ((deallocuvm_spec h.fit h.le hlt).mono (fun r k₁ hr => ?_) fun _ h => h)
      obtain ⟨hr, hdealloc, -⟩ := hr
      refine Spec.ite (fun hzero => absurd (hr.symm.trans hzero) hpos) fun _ => ?_
      rw [hr]
      exact Spec.pure ⟨h.dealloc hdealloc hlt.le, by simp⟩
  · exact Spec.pure ⟨h, fun _ => .refl p⟩

/-- A process that gives back all of its memory loses the pages and is told that it has not. -/
theorem growproc_all (h : Eager ld busy p k) (hpos : 0 < p.sz) :
    Spec (growproc ld (-p.sz) p) k (fun r _ => r.1 = -1 ∧ r.2.sz = p.sz ∧
      ∀ v < 2 ^ 19, r.2.pgdir.page v = none) fun _ => False := by
  have hzero : uint (p.sz + -p.sz) = 0 := by
    rw [Int.add_right_neg]
    rfl
  unfold growproc
  refine Spec.ite (fun hgt => ?_) fun _ => Spec.ite (fun _ => ?_) fun hge => ?_
  · omega
  · rw [hzero]
    refine Spec.bind ((deallocuvm_spec h.fit h.le hpos).mono (fun r k₁ hr => ?_) fun _ h => h)
    obtain ⟨hr, hdealloc, -⟩ := hr
    refine Spec.ite (fun _ => Spec.pure ⟨rfl, rfl, fun v hv => ?_⟩) fun hne => absurd hr hne
    by_cases hlt : v * pgSize < p.sz
    · exact hdealloc.gone v (firstPage_le.mpr (Nat.zero_le _)) hlt
    · have hge := not_lt.mp hlt
      exact (hdealloc.pages v (hv.trans (by decide)) (.inr hge)).trans (h.exact.absent hv hge)
  · omega

/-- What `sys_sbrk` returns, and what it does to the pages. -/
theorem sysSbrk_eager (h : Eager ld busy p k) (hn : -2 ^ 31 ≤ n ∧ n < 2 ^ 31) (hkeeps : p.Keeps n) :
    Spec (sysSbrk ld n p) k (fun r k' => Eager ld busy r.2 k' ∧ (r.1 = -1 → p.Same r.2))
      fun _ => False := by
  refine Spec.bind ((growproc_eager h hn hkeeps).mono (fun r k' hr => ?_) fun _ h => h)
  refine Spec.ite (fun hneg => Spec.pure ⟨hr.1, fun _ => hr.2 hneg⟩) fun _ => Spec.pure ⟨hr.1, ?_⟩
  intro hsz
  simp only at hsz
  exact absurd hsz (int_ne_neg_one h.le)

theorem sysSbrk_all (h : Eager ld busy p k) (hpos : 0 < p.sz) :
    Spec (sysSbrk ld (-p.sz) p) k (fun r _ => r.1 = -1 ∧ r.2.sz = p.sz ∧
      ∀ v < 2 ^ 19, r.2.pgdir.page v = none) fun _ => False := by
  refine Spec.bind ((growproc_all h hpos).mono (fun r k' hr => ?_) fun _ h => h)
  refine Spec.ite (fun _ => Spec.pure ⟨rfl, hr.2⟩) fun hneg => absurd ?_ hneg
  rw [hr.1]
  decide

/-! ## Any process that the system reaches -/

/-- The invariant of the system, for a world. -/
def World.Eager (ld : Linker) (w : World) : Prop := Xv6.Eager ld { f | f ∈ w.busy } w.proc w.kmem

/-- The event is no call of `sys_sbrk` that gives back all of the process' memory. -/
def KeepsMemory (s : Except Panic World) (e : EagerEvent) : Prop :=
  match s, e with
  | .ok w, .sbrk n => w.proc.Keeps n
  | _, _ => True

theorem World.next_sbrk (hnext : w.next ld (.sbrk n) = some s) :
    (-2 ^ 31 ≤ n ∧ n < 2 ^ 31) ∧ w.run (Prod.snd <$> sysSbrk ld n w.proc) = s := by
  simpa [World.next] using hnext

theorem spec_snd {α : Type} {x : Kernel (α × Proc)} {Q : Proc → Kmem → Prop} {E : Panic → Prop}
    (h : Spec x k (fun r k' => Q r.2 k') E) : Spec (Prod.snd <$> x) k Q E := by
  rw [map_eq_pure_bind]
  exact Spec.bind (h.mono (fun _ _ hr => Spec.pure hr) fun _ h => h)

/-- Neither parent nor child has a page more or less after a `fork`. -/
theorem fork_eager (h : w.Eager ld) {unused child : Bool}
    (hnext : w.eagerNext ld (.fork unused child) = some s) : ∃ w', s = .ok w' ∧ w'.Eager ld := by
  have hfork := (fork_fit h.fit h.le unused).mono (fun _ _ hr => hr) fun e ⟨_, v, hv, hpage⟩ => by
    have huser := firstPage_lt h.le (lt_firstPage.mpr hv)
    exact (h.exact.iff_lt huser).mpr hv hpage
  obtain ⟨r, k', hrun, -, hr⟩ := hfork.exists_ok
  rw [World.eagerNext, hrun] at hnext
  cases r with
  | none =>
    obtain rfl := Option.some.inj hnext
    exact ⟨_, rfl, hr.1, h.le, h.exact⟩
  | some r =>
    obtain ⟨kstack, np⟩ := r
    simp only at hr hnext
    split at hnext
    · obtain rfl := Option.some.inj hnext
      refine ⟨_, rfl, ?_, hr.sz ▸ h.le, .of_iff_lt fun v hv => ?_⟩
      · rw [frames_busy]
        exact hr.fit
      · simp only [hr.sz]
        by_cases hlt : v < firstPage w.proc.sz
        · obtain ⟨pte, pte', -, hpte', -⟩ := hr.copied v hlt
          refine iff_of_true ?_ (lt_firstPage.mp hlt)
          rw [hpte']
          simp
        · refine iff_of_false (fun hpage => hpage (hr.rest v hv (not_lt.mp hlt))) ?_
          rwa [lt_firstPage] at hlt
    · obtain rfl := Option.some.inj hnext
      refine ⟨_, rfl, ?_, h.le, h.exact⟩
      rw [frames_busy]
      exact hr.parent

/-- An event keeps the invariant, and it does not panic. -/
theorem World.eagerNext_eager {e : EagerEvent} (h : w.Eager ld) (hkeeps : KeepsMemory (.ok w) e)
    (hnext : w.eagerNext ld e = some s) : ∃ w', s = .ok w' ∧ w'.Eager ld := by
  cases e with
  | sbrk n =>
    obtain ⟨hn, rfl⟩ := World.next_sbrk hnext
    have hspec := spec_snd ((sysSbrk_eager h hn hkeeps).mono (fun _ _ hr => hr.1) fun _ h => h)
    rcases World.run_cases hspec with ⟨p, k, hrun, hr⟩ | ⟨x, -, hx⟩
    · exact ⟨_, hrun, hr⟩
    · exact hx.elim
  | fork unused child => exact fork_eager h hnext
  | elsewhere e =>
    rw [World.eagerNext] at hnext
    split at hnext
    · next he =>
      obtain ⟨w', rfl, hproc, hfit⟩ := World.next_elsewhere h.fit he hnext
      refine ⟨w', rfl, hfit, ?_, ?_⟩ <;> rw [hproc]
      · exact h.le
      · exact h.exact
    · cases hnext

/-- The process gives back all of its memory, and none of its pages is left. -/
theorem World.Eager.not_exact {e : EagerEvent} (h : w.Eager ld) (hkeeps : ¬ KeepsMemory (.ok w) e)
    (hnext : w.eagerNext ld e = some (.ok w')) : ¬ w'.proc.Exact := by
  cases e with
  | sbrk n =>
    obtain ⟨hneg, hall⟩ := Classical.not_imp.mp hkeeps
    obtain rfl : n = -w.proc.sz := by omega
    have hpos : 0 < w.proc.sz := by omega
    obtain ⟨-, hrun⟩ := World.next_sbrk hnext
    have hspec : Spec (Prod.snd <$> sysSbrk ld (-w.proc.sz) w.proc) w.kmem
        (fun p _ => p.sz = w.proc.sz ∧ ∀ v < 2 ^ 19, p.pgdir.page v = none) fun _ => False :=
      spec_snd ((sysSbrk_all h hpos).mono (fun _ _ hr => hr.2) fun _ h => h)
    rcases World.run_cases hspec with ⟨p, k, hp, hsz, hnone⟩ | ⟨x, -, hx⟩
    · obtain rfl := Except.ok.inj (hrun.symm.trans hp)
      intro hexact
      have hlt : 0 * pgSize < p.sz := by
        rw [Nat.zero_mul, hsz]
        exact hpos
      exact (hexact.iff_lt (Nat.two_pow_pos 19)).mpr hlt (hnone 0 (Nat.two_pow_pos 19))
    · exact hx.elim
  | fork unused child => exact absurd trivial hkeeps
  | elsewhere e => exact absurd trivial hkeeps

/-- As long as nobody gives back all of its memory, exactly the pages below the size are present and
counted, and a `sys_sbrk` that fails changes nothing.  A call that gives back all of the memory
breaks this. -/
theorem exact_of_reachable (hs : (eagerSystem ld).Reachable KeepsMemory s) :
    ∃ w, s = .ok w ∧ w.proc.Exact ∧ w.Numpp (sysNumvp w.proc) ∧
      (∀ n p k, -2 ^ 31 ≤ n ∧ n < 2 ^ 31 → w.proc.Keeps n →
        sysSbrk ld n w.proc w.kmem = .ok ((-1, p), k) → w.proc.Same p) ∧
      ∀ e w', w.eagerNext ld e = some (.ok w') → (w'.proc.Exact ↔ KeepsMemory (.ok w) e) := by
  have hinv : ∃ w, s = .ok w ∧ w.Eager ld := by
    refine System.Reachable.induct (I := fun s => ∃ w, s = .ok w ∧ w.Eager ld) (fun s hs => ?_)
      (fun s e t hs hkeeps hnext => ?_) hs
    · obtain ⟨w, hw, rfl⟩ := hs
      exact ⟨w, rfl, (started_image hw).eager⟩
    · obtain ⟨w, rfl, h⟩ := hs
      exact World.eagerNext_eager h hkeeps hnext
  obtain ⟨w, rfl, h⟩ := hinv
  refine ⟨w, rfl, h.exact, Xv6.Eager.numpp h, fun n p k hn hkeeps hrun => ?_, fun e w' hnext => ?_⟩
  · exact ((sysSbrk_eager h hn hkeeps).of_ok hrun).2 rfl
  · by_cases hkeeps : KeepsMemory (.ok w) e
    · obtain ⟨w'', hw, h'⟩ := World.eagerNext_eager h hkeeps hnext
      obtain rfl := Except.ok.inj hw
      exact iff_of_true h'.exact hkeeps
    · exact iff_of_false (h.not_exact hkeeps hnext) hkeeps

theorem Sample.eager (h : Sample w) : w.Eager sampleLinker := (started_image h.started).eager

/-- The sample program takes one page more and forks, and the child goes on. -/
theorem exact_of_reachable_fork : ∃ w w₁ w₂ : World, Sample w ∧
    w.eagerNext sampleLinker (.sbrk pgSize) = some (.ok w₁) ∧
    w₁.eagerNext sampleLinker (.fork true true) = some (.ok w₂) ∧
    w₂.proc.Exact ∧ w₂.Numpp (sysNumvp w₂.proc) := by
  obtain ⟨w, hw, -, -⟩ := exists_sample
  have hkeeps : KeepsMemory (.ok w) (.sbrk pgSize) := fun hneg => absurd hneg (by decide)
  have hstart : (eagerSystem sampleLinker).Reachable KeepsMemory (.ok w) :=
    .of_init ⟨w, hw.started, rfl⟩
  obtain ⟨s₁, hnext₁⟩ : ∃ s, w.eagerNext sampleLinker (.sbrk pgSize) = some s := by
    rw [World.eagerNext, World.next, if_pos (by decide)]
    exact ⟨_, rfl⟩
  obtain ⟨w₁, rfl, h₁⟩ := World.eagerNext_eager hw.eager hkeeps hnext₁
  obtain ⟨s₂, hnext₂⟩ : ∃ s, w₁.eagerNext sampleLinker (.fork true true) = some s := by
    rw [World.eagerNext]
    split <;> exact ⟨_, rfl⟩
  obtain ⟨w₂, rfl, -⟩ := fork_eager h₁ hnext₂
  have hone : (eagerSystem sampleLinker).Reachable KeepsMemory (.ok w₁) :=
    hstart.step (e := .sbrk pgSize) hkeeps hnext₁
  obtain ⟨w₂', hw₂, hexact, hnumpp, -⟩ :=
    exact_of_reachable (hone.step (e := .fork true true) trivial hnext₂)
  obtain rfl := Except.ok.inj hw₂
  exact ⟨w, w₁, w₂, hw, hnext₁, hnext₂, hexact, hnumpp⟩

/-- The sample program gives back all of its three pages. -/
theorem sbrk_all_not_exact : ∃ (w : World) (p : Proc) (k : Kmem), Sample w ∧ w.Numpp 3 ∧
    sysSbrk sampleLinker (-(3 * pgSize : ℕ)) w.proc w.kmem = .ok ((-1, p), k) ∧ ¬ w.proc.Same p ∧
    ¬ p.Exact ∧ sysNumvp p = 3 ∧ sysNumpp p k = .ok (0, k) := by
  obtain ⟨w, hw, hsz, -⟩ := exists_sample
  have hthree : w.proc.sz = 3 * pgSize := hsz
  have hpos : 0 < w.proc.sz := by
    rw [hthree]
    decide
  obtain ⟨⟨r, p⟩, k, hrun, hr, hpsz, hnone⟩ := (sysSbrk_all hw.eager hpos).exists_ok
  simp only at hr hpsz hnone
  rw [hthree] at hrun hpsz
  rw [hr] at hrun
  have hnumvp {q : Proc} (hq : q.sz = 3 * pgSize) : sysNumvp q = 3 := by
    rw [sysNumvp, hq]
    decide
  have hempty : p.presentPages = ∅ := by
    apply Finset.eq_empty_of_forall_notMem
    intro v hv
    obtain ⟨hlt, hpage⟩ := mem_presentPages.mp hv
    rw [lt_pgRoundUp, hpsz] at hlt
    apply hpage
    apply hnone v
    simp only [pgSize] at hlt
    omega
  have hbase : p.sz ≤ kernBase := by
    rw [hpsz]
    decide
  have hfirst : w.proc.pgdir.page 0 ≠ none := (hw.eager.exact.iff_lt (by decide)).mpr (by omega)
  have hzero : p.pgdir.page 0 = none := hnone 0 (by decide)
  refine ⟨w, p, k, hw, ?_, hrun, fun hsame => ?_, fun hexact => ?_, hnumvp hpsz, ?_⟩
  · rw [← hnumvp hthree]
    exact Xv6.Eager.numpp hw.eager
  · exact hfirst ((hsame.page 0 (by decide)).symm.trans hzero)
  · exact (hexact.iff_lt (by decide)).mpr (by rw [hpsz]; decide) hzero
  · rw [sysNumpp_eq hbase, hempty, Finset.card_empty]

end SpringLabs.Xv6
