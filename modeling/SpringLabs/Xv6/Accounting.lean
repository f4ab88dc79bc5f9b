import SpringLabs.Xv6.Faults
import Mathlib.Data.Finset.Card
import Mathlib.Algebra.Order.Interval.Finset.SuccPred
import Mathlib.Data.Nat.SuccPred
import Mathlib.Order.Interval.Finset.Nat

/-!
# Counting pages

`sys_numvp` is computed from the size and `sys_numpp` walks the page table up to the size, while
`sys_mmap`, `sys_sbrk` and the page fault handler change the two separately.  The counts fit together
as long as no page is present at or above the size.  The handler breaks this where it maps the page
that starts exactly at the size: the next `sys_mmap` finds that page present already.
-/

namespace SpringLabs.Xv6

open Interleave

variable {ld : Linker} {busy : Set ℕ} {p p' : Proc} {k : Kmem} {n : ℤ} {va v : ℕ}
variable {w w' : World} {e : Event}

/-! ## `vm.c` and `sysproc.c` -/

/-- The loop of `getNumPP`, with the number of iterations left.  A page table entry that is not
present is 0. -/
def numPPLoop (pgdir : PgDir) (sz : ℕ) : ℕ → ℕ → ℕ → Kernel ℕ
  | 0, _, numPP => pure numPP
  | n + 1, i, numPP =>
    if i < pgRoundUp sz then do
      match ← walkpgdir pgdir i false with
      | none => numPPLoop pgdir sz n (i + pgSize) numPP
      | some pgdir =>
        match pgdir.pte i with
        | none => numPPLoop pgdir sz n (i + pgSize) numPP
        | some _ => numPPLoop pgdir sz n (i + pgSize) (numPP + 1)
    else pure numPP

/-- `sz` is the size of the current process. -/
def getNumPP (pgdir : PgDir) (sz : ℕ) : Kernel ℕ :=
  numPPLoop pgdir sz (pages 0 (pgRoundUp sz)) 0 0

def sysNumvp (p : Proc) : ℕ := pgRoundUp p.sz / pgSize

def sysNumpp (p : Proc) : Kernel ℕ := getNumPP p.pgdir p.sz

/-! ## What the counts are -/

/-- The pages that are present among those below the size, rounded up. -/
def Proc.presentPages (p : Proc) : Finset ℕ :=
  (Finset.range (firstPage p.sz)).filter fun v => (p.pgdir.page v).isSome

theorem lt_firstPage {sz : ℕ} : v < firstPage sz ↔ v * pgSize < sz := by
  rw [← not_le, firstPage_le, not_le]

theorem firstPage_pgRoundUp (sz : ℕ) : firstPage (pgRoundUp sz) = firstPage sz := by
  simp only [firstPage, pgRoundUp, pgSize]
  omega

theorem firstPage_lt {sz : ℕ} (hsz : sz ≤ kernBase) (hv : v < firstPage sz) : v < 2 ^ 19 := by
  simp only [firstPage, pgSize, kernBase] at hsz hv
  omega

theorem mem_presentPages :
    v ∈ p.presentPages ↔ v * pgSize < pgRoundUp p.sz ∧ p.pgdir.page v ≠ none := by
  rw [Proc.presentPages, Finset.mem_filter, Finset.mem_range, lt_firstPage, lt_pgRoundUp,
    Option.isSome_iff_ne_none]

theorem sysNumvp_eq (p : Proc) : sysNumvp p = firstPage p.sz :=
  Nat.mul_div_cancel _ (by decide)

theorem filter_Ico_succ {q : ℕ → Bool} {v m : ℕ} (h : v < m) :
    ((Finset.Ico v m).filter fun w => q w).card =
      (if q v then 1 else 0) + ((Finset.Ico (v + 1) m).filter fun w => q w).card := by
  rw [← Finset.insert_Ico_add_one_left_eq_Ico h, Finset.filter_insert]
  split
  · rw [Finset.card_insert_of_notMem (by simp), Nat.add_comm]
  · rw [Nat.zero_add]

/-- From page `v` on, the loop counts the pages that are present. -/
theorem numPPLoop_spec {d : PgDir} {sz : ℕ} (hsz : sz ≤ kernBase) (m c : ℕ) (hv : v + m = firstPage sz) :
    Spec (numPPLoop d sz m (v * pgSize) c) k (fun r k' => k' = k ∧
      r = c + ((Finset.Ico v (firstPage sz)).filter fun w => (d.page w).isSome).card)
      fun _ => False := by
  induction m generalizing v c with
  | zero =>
    rw [← hv, Nat.add_zero, Finset.Ico_self, Finset.filter_empty, Finset.card_empty]
    exact Spec.pure ⟨rfl, rfl⟩
  | succ m ih =>
    have hlt : v < firstPage sz := by omega
    have huser : v < 2 ^ 20 := (firstPage_lt hsz hlt).trans (by decide)
    have hnext : v * pgSize + pgSize = (v + 1) * pgSize := (Nat.succ_mul v pgSize).symm
    have hrest (c : ℕ) := ih (v := v + 1) c (by omega)
    rw [filter_Ico_succ hlt]
    unfold numPPLoop
    rw [if_pos (lt_pgRoundUp.mpr (lt_firstPage.mp hlt)), hnext]
    have hpage : d.pte (v * pgSize) = d.page v := rfl
    refine Spec.bind (walkpgdir_noalloc huser (fun _ => ?_) fun htab => ?_)
    · simp only [hpage]
      cases hpte : d.page v with
      | none => simpa using hrest c
      | some pte => simpa [Nat.add_assoc] using hrest (c + 1)
    · rw [page_of_not_hasTab huser htab]
      simpa using hrest c

/-- `sys_numpp` returns the number of present pages below the size, and changes nothing. -/
theorem sysNumpp_eq (hsz : p.sz ≤ kernBase) (k : Kmem) :
    sysNumpp p k = .ok (p.presentPages.card, k) := by
  have hfuel : 0 + pages 0 (pgRoundUp p.sz) = firstPage p.sz := by
    rw [Nat.zero_add, ← firstPage_pgRoundUp]
    rfl
  have hloop := numPPLoop_spec (d := p.pgdir) (k := k) hsz _ 0 hfuel
  rw [Nat.zero_mul, Nat.zero_add, ← Finset.range_eq_Ico] at hloop
  obtain ⟨r, k', hrun, rfl, rfl⟩ := hloop.exists_ok
  exact hrun

/-- `sys_numpp` returns `c`. -/
def World.Numpp (w : World) (c : ℕ) : Prop := sysNumpp w.proc w.kmem = .ok (c, w.kmem)

theorem World.Space.numpp (h : w.Space ld) : w.Numpp w.proc.presentPages.card :=
  sysNumpp_eq h.le w.kmem

theorem World.Numpp.unique {c c' : ℕ} (h : w.Numpp c) (h' : w.Numpp c') : c = c' := by
  have heq := h.symm.trans h'
  injection heq with heq
  exact congrArg Prod.fst heq

/-! ## The size is never 0 -/

theorem exec_pos {file : List ℕ} {phs : List ProgHdr} :
    Spec (exec ld file phs) k (fun r _ => ∀ p ∈ r, 0 < p.sz) fun _ => True := by
  unfold exec
  refine Spec.bind_any (fun r k₁ => ?_) fun _ => trivial
  cases r with
  | none => exact Spec.pure nofun
  | some d₁ =>
    refine Spec.bind_any (fun r k₂ => ?_) fun _ => trivial
    obtain ⟨sz, d₂⟩ := r
    cases sz with
    | none => exact Spec.bind_any (fun _ _ => Spec.pure nofun) fun _ => trivial
    | some sz =>
      refine Spec.bind_any (fun r k₃ => Spec.ite (fun _ => ?_) fun hzero => ?_) fun _ => trivial
      · exact Spec.bind_any (fun _ _ => Spec.pure nofun) fun _ => trivial
      · refine Spec.bind_any (fun d k₄ => Spec.pure fun p hp => ?_) fun _ => trivial
        obtain rfl : ⟨d, r.1⟩ = p := by simpa using hp
        exact Nat.pos_of_ne_zero hzero

/-- `growproc` takes a size of 0 for a failure, and then it keeps the old one. -/
theorem sysSbrk_pos (hpos : 0 < p.sz) :
    Spec (sysSbrk ld n p) k (fun r _ => 0 < r.2.sz) fun _ => True := by
  have hgrow : Spec (growproc ld n p) k (fun r _ => 0 < r.2.sz) fun _ => True := by
    unfold growproc
    refine Spec.ite (fun _ => ?_) fun _ => Spec.ite (fun _ => ?_) fun _ => Spec.pure hpos
    · refine Spec.bind_any (fun r k' => ?_) fun _ => trivial
      exact Spec.ite (fun _ => Spec.pure hpos) fun hzero => Spec.pure (Nat.pos_of_ne_zero hzero)
    · refine Spec.bind_any (fun r k' => ?_) fun _ => trivial
      exact Spec.ite (fun _ => Spec.pure hpos) fun hzero => Spec.pure (Nat.pos_of_ne_zero hzero)
  refine Spec.bind (hgrow.mono (fun r k' hr => ?_) fun _ h => h)
  exact Spec.ite (fun _ => Spec.pure hr) fun _ => Spec.pure hr

theorem Started.pos (h : Started ld w) : 0 < w.proc.sz := by
  obtain ⟨file, phs, k, -, hexec⟩ := h
  exact exec_pos.of_ok hexec _ rfl

theorem World.next_pos (hspace : w.Space ld) (hpos : 0 < w.proc.sz)
    (hnext : w.next ld e = some (.ok w')) : 0 < w'.proc.sz := by
  have hmoves : w.Moves e w' := by
    rcases World.next_cases hspace hnext with ⟨w'', hw, -, hmoves⟩ | ⟨x, hx, -⟩
    · obtain rfl := Except.ok.inj hw
      exact hmoves
    · cases hx
  cases e with
  | mmap n =>
    obtain ⟨hn, hrun⟩ : (-2 ^ 31 ≤ n ∧ n < 2 ^ 31) ∧ w.run (pure (sysMmap n w.proc).2) = .ok w' := by
      simpa [World.next] using hnext
    obtain rfl := Except.ok.inj hrun
    exact hpos.trans_le (Space.mmap hspace hn).2.2
  | sbrk n =>
    obtain ⟨-, hrun⟩ : (-2 ^ 31 ≤ n ∧ n < 2 ^ 31) ∧
        w.run (Prod.snd <$> sysSbrk ld n w.proc) = .ok w' := by
      simpa [World.next] using hnext
    have hspec : Spec (Prod.snd <$> sysSbrk ld n w.proc) w.kmem (fun p _ => 0 < p.sz)
        fun _ => True := by
      rw [map_eq_pure_bind]
      exact Spec.bind ((sysSbrk_pos hpos).mono (fun _ _ hr => Spec.pure hr) fun _ h => h)
    rcases World.run_cases hspec with ⟨p, k, hp, hr⟩ | ⟨x, hx, -⟩
    · obtain rfl := Except.ok.inj (hrun.symm.trans hp)
      exact hr
    · cases hrun.symm.trans hx
  | load va =>
    rw [hmoves.sz rfl]
    exact hpos
  | store va byte =>
    rw [hmoves.sz rfl]
    exact hpos
  | take =>
    obtain ⟨w'', hw, hproc, -⟩ := World.next_elsewhere hspace.fit rfl hnext
    obtain rfl := Except.ok.inj hw
    rwa [hproc]
  | give pa =>
    obtain ⟨w'', hw, hproc, -⟩ := World.next_elsewhere hspace.fit rfl hnext
    obtain rfl := Except.ok.inj hw
    rwa [hproc]
  | scribble pa page =>
    obtain ⟨w'', hw, hproc, -⟩ := World.next_elsewhere hspace.fit rfl hnext
    obtain rfl := Except.ok.inj hw
    rwa [hproc]

theorem pos_of_reachable {ok : Except Panic World → Event → Prop}
    (hs : (system ld).Reachable ok (.ok w)) : 0 < w.proc.sz := by
  have hinv := System.Reachable.induct
    (I := Holds (fun w => w.Space ld ∧ 0 < w.proc.sz) fun _ => True) ?_ ?_ hs
  · exact hinv.2
  · rintro s ⟨w, hw, rfl⟩
    exact ⟨(started_image hw).space, hw.pos⟩
  · rintro (x | w) e s h - hnext
    · cases hnext
    · rcases World.next_cases h.1 hnext with ⟨w', rfl, hspace, -⟩ | ⟨x, rfl, -⟩
      · exact ⟨hspace, World.next_pos h.1 h.2 hnext⟩
      · trivial

/-! ## What the events do to the counts -/

/-- A larger size counts no page that was not counted before. -/
theorem Proc.Below.presentPages_eq (h : p.Below) (hpgdir : p'.pgdir = p.pgdir) (hle : p.sz ≤ p'.sz)
    (hbase : p'.sz ≤ kernBase) : p'.presentPages = p.presentPages := by
  ext v
  rw [mem_presentPages, mem_presentPages, hpgdir]
  constructor
  · rintro ⟨hlt, hpage⟩
    have huser := firstPage_lt hbase (lt_firstPage.mpr (lt_pgRoundUp.mp hlt))
    exact ⟨lt_pgRoundUp.mpr (h v huser hpage), hpage⟩
  · rintro ⟨hlt, hpage⟩
    exact ⟨lt_pgRoundUp.mpr ((lt_pgRoundUp.mp hlt).trans_le hle), hpage⟩

theorem Fault.mem_presentPages (h : Fault v p p') (hsz : p.sz ≤ kernBase) {u : ℕ} :
    u ∈ p'.presentPages ↔ u ∈ p.presentPages ∨ (u = v ∧ v * pgSize < p.sz) := by
  rw [Xv6.mem_presentPages, Xv6.mem_presentPages, h.sz, lt_pgRoundUp]
  by_cases huv : u = v
  · subst huv
    simp [h.absent, h.ne_none]
  · rw [or_iff_left fun hv => huv hv.1]
    apply and_congr_right
    intro hlt
    have huser := firstPage_lt hsz (lt_firstPage.mpr hlt)
    rw [h.same u (huser.trans (by decide)) huv]

theorem Fault.card_presentPages (h : Fault v p p') (hsz : p.sz ≤ kernBase)
    (hlt : v * pgSize < p.sz) : p'.presentPages.card = p.presentPages.card + 1 := by
  have hinsert : p'.presentPages = insert v p.presentPages := by
    ext u
    rw [h.mem_presentPages hsz, Finset.mem_insert, or_comm]
    simp only [hlt, and_true]
  have hnew : v ∉ p.presentPages := fun hmem => (Xv6.mem_presentPages.mp hmem).2 h.absent
  rw [hinsert, Finset.card_insert_of_notMem hnew]

theorem sysMmap_ok {r : ℤ} (h : sysMmap n p = (r, p')) (hr : r ≠ 0) :
    0 < n ∧ n % pgSize = 0 ∧ uint (n + p.sz) ≤ kernBase ∧ p' = ⟨p.pgdir, uint (p.sz + n)⟩ := by
  unfold sysMmap at h
  split at h
  · rw [Prod.mk.injEq] at h
    exact absurd h.1.symm hr
  · next hargs =>
    rw [not_or, not_or, not_le, not_not, not_lt] at hargs
    rw [Prod.mk.injEq] at h
    exact ⟨hargs.1, hargs.2.1, hargs.2.2, h.2.symm⟩

/-- The counts of one state, and what the next event does to them. -/
structure World.Accounts (ld : Linker) (w : World) : Prop where
  numpp : w.Numpp w.proc.presentPages.card
  mmap : ∀ n w', w.next ld (.mmap n) = some (.ok w') → (sysMmap n w.proc).1 ≠ 0 →
    n % pgSize = 0 ∧ (sysNumvp w'.proc : ℤ) = sysNumvp w.proc + n / pgSize ∧
      ∃ c, w.Numpp c ∧ w'.Numpp c
  absent : ∀ e va write w', e.access = some (va, write) → va < w.proc.sz →
    w.proc.pgdir.pte va = none → w.next ld e = some (.ok w') → ∃ c, w.Numpp c ∧ w'.Numpp (c + 1)
  present : ∀ e va write w', e.access = some (va, write) → va < w.proc.sz →
    w.proc.pgdir.pte va ≠ none → w.next ld e = some (.ok w') → ∃ c, w.Numpp c ∧ w'.Numpp c
  returns : ∀ e va write, e.access = some (va, write) → va < w.proc.sz → ¬ w.proc.Guarded va →
    2 ≤ w.kmem.freelist.length → ∃ w', w.next ld e = some (.ok w')

theorem World.next_moves (hspace : w.Space ld) (hnext : w.next ld e = some (.ok w')) :
    w'.Space ld ∧ w.Moves e w' := by
  rcases World.next_cases hspace hnext with ⟨w'', hw, h⟩ | ⟨x, hx, -⟩
  · obtain rfl := Except.ok.inj hw
    exact h
  · cases hx

/-- An access that returns finds its page present, or the handler has mapped it. -/
theorem World.next_access {write : Bool} (hspace : w.Space ld)
    (hacc : e.access = some (va, write)) (hnext : w.next ld e = some (.ok w')) :
    w'.Space ld ∧ ((w'.proc = w.proc ∧ w.proc.pgdir.pte va ≠ none) ∨
      (w.proc.pgdir.pte va = none ∧ Fault (va / pgSize) w.proc w'.proc)) := by
  obtain ⟨hspace', hmoves⟩ := World.next_moves hspace hnext
  unfold World.Moves at hmoves
  rw [hacc] at hmoves
  refine ⟨hspace', ?_⟩
  rcases hmoves.1 with ⟨hproc, pte, hpte, -⟩ | ⟨-, hfault⟩
  · left
    refine ⟨hproc, fun hnone => ?_⟩
    rw [hnone] at hpte
    cases hpte
  · right
    exact ⟨(pte_round va).trans hfault.absent, hfault⟩

theorem World.access_returns {write : Bool} (hspace : w.Space ld)
    (hacc : e.access = some (va, write)) (hlt : va < w.proc.sz) (hguard : ¬ w.proc.Guarded va)
    (hmem : 2 ≤ w.kmem.freelist.length) : ∃ w', w.next ld e = some (.ok w') := by
  have hle := hspace.le
  have hround : pgRoundDown va < w.proc.sz := (Nat.div_mul_le_self va pgSize).trans_lt hlt
  have hva : va < 2 ^ 32 := by
    simp only [kernBase] at hle
    omega
  obtain ⟨s, hnext⟩ : ∃ s, w.next ld e = some s := by
    cases e <;> cases hacc <;> exact ⟨_, if_pos hva⟩
  rcases World.next_cases hspace hnext with ⟨w', rfl, -, -⟩ | ⟨x, rfl, hpanics⟩
  · exact ⟨w', hnext⟩
  · unfold World.Panics at hpanics
    rw [hacc] at hpanics
    obtain ⟨hfault, ⟨-, hgt⟩ | ⟨-, -, hpte⟩ | ⟨-, hshort⟩⟩ := hpanics
    · exact absurd hgt (not_lt.mpr hround.le)
    · exact absurd (hspace.accessible hround hpte hguard) hfault
    · exact absurd hmem (not_le.mpr hshort)

/-- The counts are right where all pages that are present start below the size. -/
theorem World.Space.accounts (h : w.Space ld) (hbelow : w.proc.Below) : w.Accounts ld := by
  refine ⟨h.numpp, fun n w' hnext hr => ?_, fun e va write w' hacc hlt hpte hnext => ?_,
    fun e va write w' hacc hlt hpte hnext => ?_, fun e va write hacc hlt hguard hmem =>
      World.access_returns h hacc hlt hguard hmem⟩
  · have hspace' := (World.next_moves h hnext).1
    obtain ⟨hn, hrun⟩ : (-2 ^ 31 ≤ n ∧ n < 2 ^ 31) ∧ w.run (pure (sysMmap n w.proc).2) = .ok w' := by
      simpa [World.next] using hnext
    obtain rfl := Except.ok.inj hrun
    obtain ⟨hpos, halign, hbase, hproc⟩ := sysMmap_ok (Prod.mk.eta).symm hr
    have hle := h.le
    have hsz : (sysMmap n w.proc).2.sz = w.proc.sz + n.toNat := by
      rw [hproc]
      simp only [uint, kernBase] at hle ⊢
      omega
    have hcount : (sysNumvp (sysMmap n w.proc).2 : ℤ) = sysNumvp w.proc + n / pgSize := by
      rw [sysNumvp_eq, sysNumvp_eq, hsz]
      simp only [firstPage, pgSize] at halign ⊢
      omega
    have hpgdir : (sysMmap n w.proc).2.pgdir = w.proc.pgdir := by rw [hproc]
    have hsame := hbelow.presentPages_eq hpgdir (hsz ▸ Nat.le_add_right _ _) hspace'.le
    refine ⟨halign, hcount, _, h.numpp, ?_⟩
    rw [← hsame]
    exact hspace'.numpp
  · obtain ⟨hspace', ⟨-, hpresent⟩ | ⟨-, hfault⟩⟩ := World.next_access h hacc hnext
    · exact absurd hpte hpresent
    · have hround : va / pgSize * pgSize < w.proc.sz :=
        (Nat.div_mul_le_self va pgSize).trans_lt hlt
      refine ⟨_, h.numpp, ?_⟩
      rw [← hfault.card_presentPages h.le hround]
      exact hspace'.numpp
  · obtain ⟨hspace', ⟨hproc, -⟩ | ⟨habsent, -⟩⟩ := World.next_access h hacc hnext
    · refine ⟨_, h.numpp, ?_⟩
      rw [← hproc]
      exact hspace'.numpp
    · exact absurd habsent hpte

/-- The page at the size is not counted until `sys_mmap` of one page takes the size past it. -/
theorem World.Space.not_accounts (h : w.Space ld) (hpos : 0 < w.proc.sz) (hv : v * pgSize = w.proc.sz)
    (huser : v < 2 ^ 19) (hpage : w.proc.pgdir.page v ≠ none) :
    ∃ w' c c', w.next ld (.mmap pgSize) = some (.ok w') ∧ (sysMmap pgSize w.proc).1 ≠ 0 ∧
      w.Numpp c ∧ w'.Numpp c' ∧ c < c' := by
  have hargs : ¬ ((pgSize : ℤ) ≤ 0 ∨ (pgSize : ℤ) % pgSize ≠ 0 ∨
      uint (pgSize + w.proc.sz) > kernBase) := by
    rw [← hv]
    simp only [uint, pgSize, kernBase]
    omega
  have hsize : uint (w.proc.sz + (pgSize : ℕ)) = w.proc.sz + pgSize := by
    rw [← hv]
    simp only [uint, pgSize]
    omega
  have hmmap : sysMmap pgSize w.proc =
      (int w.proc.sz, (⟨w.proc.pgdir, w.proc.sz + pgSize⟩ : Proc)) := by
    unfold sysMmap
    rw [if_neg hargs, hsize]
  have hnext : w.next ld (.mmap pgSize) =
      some (.ok { w with proc := ⟨w.proc.pgdir, w.proc.sz + pgSize⟩ }) := by
    rw [World.next, if_pos (by decide), hmmap]
    rfl
  have hsub : w.proc.presentPages ⊂
      Proc.presentPages ⟨w.proc.pgdir, w.proc.sz + pgSize⟩ := by
    rw [Finset.ssubset_iff]
    refine ⟨v, fun hmem => ?_, fun u hu => ?_⟩
    · have hlt := lt_pgRoundUp.mp (mem_presentPages.mp hmem).1
      rw [hv] at hlt
      exact lt_irrefl _ hlt
    · rw [mem_presentPages, lt_pgRoundUp]
      rcases Finset.mem_insert.mp hu with rfl | hu
      · exact ⟨by simp only [hv, pgSize]; omega, hpage⟩
      · obtain ⟨hlt, hpage⟩ := mem_presentPages.mp hu
        exact ⟨Nat.lt_add_right _ (lt_pgRoundUp.mp hlt), hpage⟩
  refine ⟨_, _, _, hnext, ?_, h.numpp, (World.next_moves h hnext).1.numpp, Finset.card_lt_card hsub⟩
  have haddr : int w.proc.sz = w.proc.sz := int_of_lt (by rw [← hv]; simp only [pgSize]; omega)
  rw [hmmap, haddr]
  exact Int.natCast_ne_zero.mpr hpos.ne'

/-- As long as no access is made to the page that starts at the size, the counts are right.  Any such
access that returns makes the next `sys_mmap` raise `sys_numpp`. -/
theorem accounts_of_reachable (hs : (system ld).Reachable OffSize (.ok w)) :
    w.Accounts ld ∧ ∀ e w', w.next ld e = some (.ok w') → (w'.Accounts ld ↔ OffSize (.ok w) e) := by
  have hspace := space_of_reachable hs
  have hbelow := below_of_reachable hs
  refine ⟨hspace.accounts hbelow, fun e w' hnext => ?_⟩
  obtain ⟨hspace', hmoves⟩ := World.next_moves hspace hnext
  by_cases hoff : OffSize (.ok w) e
  · exact iff_of_true (hspace'.accounts (hmoves.below hbelow hoff)) hoff
  · obtain ⟨v, hv, hfault⟩ := hmoves.fault_at_size hspace hbelow hoff
    have hpos := World.next_pos hspace (pos_of_reachable hs) hnext
    obtain ⟨w'', c, c', hnext', hr, hc, hc', hlt⟩ := hspace'.not_accounts hpos
      (hv.trans hfault.sz.symm) hfault.user hfault.ne_none
    refine iff_of_false (fun haccounts => ?_) hoff
    obtain ⟨-, -, c₀, h₀, h₀'⟩ := haccounts.mmap _ _ hnext' hr
    exact absurd (hc.unique h₀ ▸ hc'.unique h₀' ▸ hlt) (lt_irrefl _)

/-- The program maps a fourth page, and reads from it. -/
theorem accounts_of_reachable_mmapped : ∃ w w' : World, w.proc.sz = 4 * pgSize ∧
    w.next sampleLinker (.load (3 * pgSize)) = some (.ok w') ∧ w.Accounts sampleLinker ∧
    w'.Accounts sampleLinker ∧ w.Numpp 3 ∧ w'.Numpp 4 := by
  obtain ⟨w, hs, hsz, habsent, hpages, hmem⟩ := exists_mmapped OffSize fun _ => trivial
  have hva : pgRoundDown (3 * pgSize) ≠ w.proc.sz := by
    rw [hsz]
    decide
  obtain ⟨w', hnext, -⟩ := World.load_absent (space_of_reachable hs)
    (show 3 * pgSize < 2 ^ 32 by decide) (by rw [hsz]; decide) habsent (by omega)
  obtain ⟨haccounts, hstep⟩ := accounts_of_reachable hs
  have hthree : w.proc.presentPages = Finset.range 3 := by
    ext v
    rw [mem_presentPages, lt_pgRoundUp, hsz, Finset.mem_range]
    constructor
    · rintro ⟨hlt, hpage⟩
      have hne : v ≠ 3 := fun h3 => hpage (h3 ▸ habsent)
      simp only [pgSize] at hlt
      omega
    · intro hv
      obtain ⟨f, hpage⟩ := hpages v hv
      exact ⟨by simp only [pgSize]; omega, by rw [hpage]; simp⟩
  have hcount : w.Numpp 3 := by
    have hnumpp := haccounts.numpp
    rwa [hthree, Finset.card_range] at hnumpp
  obtain ⟨c, hc, hc'⟩ := haccounts.absent _ (3 * pgSize) false w' rfl (by rw [hsz]; decide) habsent hnext
  obtain rfl := hcount.unique hc
  exact ⟨w, w', hsz, hnext, haccounts, (hstep _ w' hnext).mpr hva, hcount, hc'⟩

/-- The sample program reads the first byte above its memory and then maps one page. -/
theorem at_size_not_accounts : ∃ w w' w'' : World, ∃ c c' : ℕ, Sample w ∧ w.proc.sz = 3 * pgSize ∧
    w.next sampleLinker (.load (3 * pgSize)) = some (.ok w') ∧
    w'.next sampleLinker (.mmap pgSize) = some (.ok w'') ∧ (sysMmap pgSize w'.proc).1 ≠ 0 ∧
    w'.Numpp c ∧ w''.Numpp c' ∧ c < c' ∧ ¬ w'.Accounts sampleLinker := by
  obtain ⟨w, w', hw, hsz, hnext, hfault, hspace, -⟩ := exists_at_size
  have hat : 3 * pgSize = w'.proc.sz := hsz.symm.trans hfault.sz.symm
  obtain ⟨w'', c, c', hnext', hr, hc, hc', hlt⟩ := hspace.not_accounts (by rw [← hat]; decide) hat
    hfault.user hfault.ne_none
  refine ⟨w, w', w'', c, c', hw, hsz, hnext, hnext', hr, hc, hc', hlt, fun haccounts => ?_⟩
  obtain ⟨-, -, c₀, h₀, h₀'⟩ := haccounts.mmap _ _ hnext' hr
  exact absurd (hc.unique h₀ ▸ hc'.unique h₀' ▸ hlt) (lt_irrefl _)

end SpringLabs.Xv6
