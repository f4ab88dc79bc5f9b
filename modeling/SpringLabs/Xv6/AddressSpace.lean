import SpringLabs.Xv6.Exec
import Mathlib.Data.List.Nodup

/-!
# The address space over a run

Whatever a process does, its page directory owns what it maps, its size stays within the user half,
the kernel half stays in place and all of the user's pages are writable (`Space`).  Whether the
pages that are present lie below the size (`Below`) depends on the page faults: every system call
keeps this, and so does a fault at an address whose page does not start exactly at the size.
-/

namespace SpringLabs.Xv6

open Interleave

variable {ld : Linker} {busy : Set ℕ} {p : Proc} {k : Kmem} {n : ℤ} {va : ℕ}

/-! ## What always holds -/

/-- The memory of a process. -/
structure Space (ld : Linker) (busy : Set ℕ) (p : Proc) (k : Kmem) : Prop where
  fit : Fit ld busy p.pgdir k
  le : p.sz ≤ kernBase
  kernel : p.pgdir.KernelPage
  writable : ∀ v < 2 ^ 19, ∀ pte ∈ p.pgdir.page v, pte.perm.write

/-- The user's pages that are present start below the size. -/
def Proc.Below (p : Proc) : Prop := ∀ v < 2 ^ 19, p.pgdir.page v ≠ none → v * pgSize < p.sz

theorem Image.space (h : Image ld busy p k) : Space ld busy p k := by
  refine ⟨h.fit, h.le, h.kernel, fun v hv pte hpte => ?_⟩
  have hlt : v * pgSize < p.sz := by
    by_contra hge
    rw [h.absent v hv (not_lt.mp hge)] at hpte
    cases hpte
  obtain ⟨f, hpage⟩ := h.present v hlt
  rw [hpage] at hpte
  obtain rfl := Option.some.inj hpte
  rfl

theorem Image.below (h : Image ld busy p k) : p.Below := by
  intro v hv hpage
  by_contra hge
  exact hpage (h.absent v hv (not_lt.mp hge))

/-! ## System calls -/

theorem Space.mmap (h : Space ld busy p k) (hn : -2 ^ 31 ≤ n ∧ n < 2 ^ 31) :
    Space ld busy (sysMmap n p).2 k ∧ (sysMmap n p).2.pgdir = p.pgdir ∧ p.sz ≤ (sysMmap n p).2.sz := by
  have hle := h.le
  simp only [kernBase] at hle
  unfold sysMmap
  split
  · exact ⟨h, rfl, le_rfl⟩
  · next hargs =>
    simp only [uint, kernBase] at hargs
    refine ⟨⟨h.fit, ?_, h.kernel, h.writable⟩, rfl, ?_⟩ <;>
    · simp only [uint, kernBase]
      omega

theorem firstPage_le {sz w : ℕ} : firstPage sz ≤ w ↔ sz ≤ w * pgSize := by
  simp only [firstPage, pgSize]
  omega

/-- The process after pages have been added above its size. -/
theorem Space.alloc {newsz : ℕ} {d' : PgDir} {k' : Kmem} (h : Space ld busy p k)
    (hr : Alloc ld busy (firstPage p.sz) newsz p.pgdir d' k') (hnew : newsz ≤ kernBase)
    (hle : p.sz ≤ newsz) : Space ld busy ⟨d', newsz⟩ k' ∧ (p.Below → Proc.Below ⟨d', newsz⟩) := by
  have hcases (w : ℕ) (hw : w < 2 ^ 19) : d'.page w = p.pgdir.page w ∨
      w * pgSize < newsz ∧ ∃ f, d'.page w = some ⟨f, permWU⟩ := by
    by_cases hout : w < firstPage p.sz ∨ newsz ≤ w * pgSize
    · exact .inl (hr.pages w (hw.trans (by decide)) hout)
    · rw [not_or, not_lt, not_le] at hout
      exact .inr ⟨hout.2, hr.present w hout.1 hout.2⟩
  refine ⟨⟨hr.fit, hnew, ?_, fun w hw pte hpte => ?_⟩, fun hbelow w hw hpage => ?_⟩
  · exact h.kernel.congr (hr.pages _ (by decide) (.inr hnew))
  · rcases hcases w hw with hw' | ⟨-, f, hw'⟩
    · exact h.writable w hw pte (hw' ▸ hpte)
    · rw [hw'] at hpte
      obtain rfl := Option.some.inj hpte
      rfl
  · rcases hcases w hw with hw' | ⟨hlt, -⟩
    · exact (hbelow w hw (hw' ▸ hpage)).trans_le hle
    · exact hlt

/-- Where pages are returned, the others stay. -/
theorem Dealloc.of_page {v sz w : ℕ} {d d' : PgDir} {k' : Kmem} (hr : Dealloc ld busy v sz d d' k')
    (hw : w < 2 ^ 20) (hpage : d'.page w ≠ none) :
    d'.page w = d.page w ∧ (w < v ∨ sz ≤ w * pgSize) := by
  have hout : w < v ∨ sz ≤ w * pgSize := by
    by_contra hin
    rw [not_or, not_lt, not_le] at hin
    exact hpage (hr.gone w hin.1 hin.2)
  exact ⟨hr.pages w hw hout, hout⟩

/-- The process after pages have been returned. -/
theorem Space.dealloc {v sz newsz : ℕ} {d' : PgDir} {k' : Kmem} (h : Space ld busy p k)
    (hr : Dealloc ld busy v sz p.pgdir d' k') (hsz : sz ≤ kernBase) (hnew : newsz ≤ kernBase) :
    Space ld busy ⟨d', newsz⟩ k' := by
  refine ⟨hr.fit, hnew, ?_, fun w hw pte hpte => ?_⟩
  · exact h.kernel.congr (hr.pages _ (by decide) (.inr hsz))
  · have hpage : d'.page w ≠ none := fun hnone => by rw [hnone] at hpte; cases hpte
    have hsame := (hr.of_page (hw.trans (by decide)) hpage).1
    exact h.writable w hw pte (hsame ▸ hpte)

/-- `growproc` keeps the pages present below the size.  It panics only if a page at or above the
size is present. -/
theorem growproc_spec (h : Space ld busy p k) (hn : -2 ^ 31 ≤ n ∧ n < 2 ^ 31) :
    Spec (growproc ld n p) k
      (fun r k' => Space ld busy r.2 k' ∧ (p.Below → r.2.Below)) fun _ => ¬ p.Below := by
  have hle := h.le
  simp only [kernBase] at hle
  unfold growproc
  refine Spec.ite (fun hpos => ?_) fun hnpos => Spec.ite (fun hneg => ?_) fun _ => ?_
  · have hnew : uint (p.sz + n) = p.sz + n.toNat := by
      simp only [uint]
      omega
    rw [hnew]
    by_cases hbase : p.sz + n.toNat ≥ kernBase
    · unfold allocuvm
      rw [if_pos hbase]
      exact Spec.bind (Spec.pure (Spec.pure ⟨h, id⟩))
    · have hlt : p.sz + n.toNat < kernBase := not_le.mp hbase
      have halloc := allocuvm_spec h.fit hlt (Nat.le_add_right p.sz _)
      refine Spec.bind (halloc.mono (fun r k₁ hr => ?_) ?_)
      · rcases hr with ⟨hr, halloc, -⟩ | ⟨hr, hdealloc, -⟩
        · refine Spec.ite (fun hzero => ?_) fun _ => ?_
          · omega
          · rw [hr]
            exact Spec.pure (h.alloc halloc hlt.le (Nat.le_add_right _ _))
        · refine Spec.ite (fun _ => Spec.pure ⟨?_, fun hbelow w hw hpage => ?_⟩) fun hzero => ?_
          · exact h.dealloc hdealloc hlt.le h.le
          · have hsame := (hdealloc.of_page (hw.trans (by decide)) hpage).1
            exact hbelow w hw (hsame ▸ hpage)
          · exact absurd hr hzero
      · rintro e ⟨-, w, hlo, hhi, hpage⟩ hbelow
        have hw : w < 2 ^ 19 := by
          simp only [pgSize, kernBase] at hhi hlt
          omega
        exact absurd (hbelow w hw hpage) (not_lt.mpr (firstPage_le.mp hlo))
  · by_cases hge : uint (p.sz + n) ≥ p.sz
    · unfold deallocuvm
      rw [if_pos hge]
      exact Spec.bind (Spec.pure (Spec.ite (fun _ => Spec.pure ⟨h, id⟩) fun _ => Spec.pure ⟨h, id⟩))
    · have hlt : uint (p.sz + n) < p.sz := not_le.mp hge
      refine Spec.bind ((deallocuvm_spec h.fit h.le hlt).mono (fun r k₁ hr => ?_) fun _ h => h.elim)
      obtain ⟨hr, hdealloc, -⟩ := hr
      refine Spec.ite (fun _ => Spec.pure ⟨?_, fun hbelow w hw hpage => ?_⟩) fun _ =>
        Spec.pure ⟨?_, fun hbelow w hw hpage => ?_⟩
      · exact h.dealloc hdealloc h.le h.le
      · have hsame := (hdealloc.of_page (hw.trans (by decide)) hpage).1
        exact hbelow w hw (hsame ▸ hpage)
      · rw [hr]
        exact h.dealloc hdealloc h.le (hlt.le.trans h.le)
      · obtain ⟨hsame, hout⟩ := hdealloc.of_page (hw.trans (by decide)) hpage
        have hsz := hbelow w hw (hsame ▸ hpage)
        have hkept : w < firstPage (uint (p.sz + n)) := hout.resolve_right (not_le.mpr hsz)
        rw [hr]
        rwa [← not_le, firstPage_le, not_le] at hkept
  · exact Spec.pure ⟨h, id⟩

theorem sysSbrk_spec (h : Space ld busy p k) (hn : -2 ^ 31 ≤ n ∧ n < 2 ^ 31) :
    Spec (sysSbrk ld n p) k
      (fun r k' => Space ld busy r.2 k' ∧ (p.Below → r.2.Below)) fun _ => ¬ p.Below := by
  refine Spec.bind ((growproc_spec h hn).mono (fun r k' hr => ?_) fun _ h => h)
  exact Spec.ite (fun _ => Spec.pure hr) fun _ => Spec.pure hr

/-! ## User accesses -/

theorem Space.congr {k' : Kmem} (h : Space ld busy p k) (hlist : k'.freelist = k.freelist) :
    Space ld busy p k' := by
  have hfit : Fit ld busy p.pgdir k' := by
    unfold Fit
    rw [hlist]
    exact h.fit
  exact ⟨hfit, h.le, h.kernel, h.writable⟩

/-- The page fault handler has mapped page `v`. -/
structure Fault (v : ℕ) (p p' : Proc) : Prop where
  user : v < 2 ^ 19
  le : v * pgSize ≤ p.sz
  absent : p.pgdir.page v = none
  present : ∃ f, p'.pgdir.page v = some ⟨f, permWU⟩
  same : ∀ w < 2 ^ 20, w ≠ v → p'.pgdir.page w = p.pgdir.page w
  sz : p'.sz = p.sz

theorem Fault.ne_none {v : ℕ} {p' : Proc} (h : Fault v p p') : p'.pgdir.page v ≠ none := by
  obtain ⟨f, hpresent⟩ := h.present
  rw [hpresent]
  simp

/-- How the handler panics at `va`, with `free` pages left. -/
def FaultPanic (p : Proc) (va free : ℕ) (e : Panic) : Prop :=
  (e = .segmentationFault ∧ p.sz < pgRoundDown va) ∨
    (e = .remap ∧ pgRoundDown va ≤ p.sz ∧ p.pgdir.pte va ≠ none) ∨ (e ≠ .remap ∧ free < 2)

theorem trapPgflt_spec (h : Space ld busy p k) :
    Spec (trapPgflt va p) k (fun p' k' => Space ld busy p' k' ∧ Fault (va / pgSize) p p' ∧
      k.freelist.length ≤ k'.freelist.length + 2) (FaultPanic p va k.freelist.length) := by
  have hle := h.le
  have hpte := pte_round (d := p.pgdir) va
  have hround : pgRoundDown va = va / pgSize * pgSize := rfl
  unfold trapPgflt FaultPanic
  rw [hpte, hround]
  generalize va / pgSize = v
  refine Spec.ite (fun hgt => Spec.bind (Spec.throw (Or.inl ⟨rfl, hgt⟩))) fun hngt => ?_
  have hlt : v < 2 ^ 20 := by
    simp only [pgSize, kernBase] at hngt hle
    omega
  have hkernel (hv : 2 ^ 19 ≤ v) : p.pgdir.page v ≠ none := by
    have hv : v = 2 ^ 19 := by
      simp only [pgSize, kernBase] at hngt hle
      omega
    rw [hv]
    exact h.kernel.ne_none
  refine Spec.bind ((allocPage_spec h.fit hlt hkernel).mono (fun d' k' hr => ?_) fun e he => ?_)
  · obtain ⟨⟨f, k₀, hr⟩, hcost⟩ := hr
    have huser : v < 2 ^ 19 := by
      by_contra hv
      exact hkernel (not_lt.mp hv) hr.absent
    refine Spec.pure ⟨⟨hr.fit, h.le, ?_, fun w hw pte hpte => ?_⟩,
      ⟨huser, not_lt.mp hngt, hr.absent, ⟨f, hr.present⟩, hr.pages, rfl⟩, hcost⟩
    · exact h.kernel.congr (hr.pages _ (by decide) (by omega))
    · by_cases hwv : w = v
      · rw [hwv, hr.present] at hpte
        obtain rfl := Option.some.inj hpte
        rfl
      · rw [hr.pages w (hw.trans (by decide)) hwv] at hpte
        exact h.writable w hw pte hpte
  · rcases he with ⟨rfl, hpage⟩ | hmem
    · exact .inr (.inl ⟨rfl, not_lt.mp hngt, hpage⟩)
    · exact .inr (.inr hmem)

/-- A user access is carried out, or it faults and the handler returns, having used at most two of
the free pages. -/
def Access (va : ℕ) (write : Bool) (p : Proc) (k : Kmem) (p' : Proc) (k' : Kmem) : Prop :=
  ((p' = p ∧ p.Accessible va write) ∨ (¬ p.Accessible va write ∧ Fault (va / pgSize) p p')) ∧
    k.freelist.length ≤ k'.freelist.length + 2

theorem load_spec (va : ℕ) (h : Space ld busy p k) :
    Spec (load va p) k
      (fun p' k' => Space ld busy p' k' ∧ Access va false p k p' k') fun e =>
      ¬ p.Accessible va false ∧ FaultPanic p va k.freelist.length e := by
  refine Spec.ite (fun hok => Spec.pure ⟨h, .inl ⟨rfl, hok⟩, Nat.le_add_right _ _⟩) fun hfault => ?_
  exact (trapPgflt_spec h).mono (fun _ _ hr => ⟨hr.1, .inr ⟨hfault, hr.2.1⟩, hr.2.2⟩)
    fun _ he => ⟨hfault, he⟩

theorem store_spec (va byte : ℕ) (h : Space ld busy p k) :
    Spec (store va byte p) k
      (fun p' k' => Space ld busy p' k' ∧ Access va true p k p' k') fun e =>
      ¬ p.Accessible va true ∧ FaultPanic p va k.freelist.length e := by
  refine Spec.ite (fun hok => ?_) fun hfault => ?_
  · cases hpte : p.pgdir.pte va with
    | none => exact Spec.ok rfl ⟨h, .inl ⟨rfl, hok⟩, Nat.le_add_right _ _⟩
    | some pte => exact Spec.ok rfl ⟨h.congr rfl, .inl ⟨rfl, hok⟩, Nat.le_add_right _ _⟩
  · exact (trapPgflt_spec h).mono (fun _ _ hr => ⟨hr.1, .inr ⟨hfault, hr.2.1⟩, hr.2.2⟩)
      fun _ he => ⟨hfault, he⟩

/-! ## Events -/

/-- The address of a user access, and whether it is a store. -/
def Event.access : Event → Option (ℕ × Bool)
  | .load va => some (va, false)
  | .store va _ => some (va, true)
  | _ => none

/-- The invariant of the system. -/
def World.Space (ld : Linker) (w : World) : Prop := Xv6.Space ld { f | f ∈ w.busy } w.proc w.kmem

/-- What an event does when it completes. -/
def World.Moves (w : World) (e : Event) (w' : World) : Prop :=
  match e.access with
  | none => w.proc.Below → w'.proc.Below
  | some (va, write) => Access va write w.proc w.kmem w'.proc w'.kmem

/-- How an event panics. -/
def World.Panics (w : World) (e : Event) (x : Panic) : Prop :=
  match e.access with
  | none => ¬ w.proc.Below
  | some (va, write) =>
    ¬ w.proc.Accessible va write ∧ FaultPanic w.proc va w.kmem.freelist.length x

theorem World.run_cases {w : World} {x : Kernel Proc} {Q : Proc → Kmem → Prop} {E : Panic → Prop}
    (h : Spec x w.kmem Q E) :
    (∃ p k, w.run x = .ok { w with proc := p, kmem := k } ∧ Q p k) ∨
      ∃ e, w.run x = .error e ∧ E e := by
  unfold World.run
  cases hx : x w.kmem with
  | ok r => exact .inl ⟨r.1, r.2, rfl, h.of_ok hx⟩
  | error e => exact .inr ⟨e, rfl, h.of_error hx⟩

/-- The events of the rest of the kernel. -/
def Event.elsewhere : Event → Bool
  | .take | .give _ | .scribble _ _ => true
  | _ => false

/-- What the rest of the kernel does leaves the process and what it owns alone. -/
theorem World.next_elsewhere {w : World} {e : Event} {s : Except Panic World}
    (h : Fit ld { f | f ∈ w.busy } w.proc.pgdir w.kmem) (he : e.elsewhere)
    (hnext : w.next ld e = some s) :
    ∃ w', s = .ok w' ∧ w'.proc = w.proc ∧ Fit ld { f | f ∈ w'.busy } w'.proc.pgdir w'.kmem := by
  cases e with
  | mmap n => cases he
  | sbrk n => cases he
  | load va => cases he
  | store va byte => cases he
  | take =>
    rw [World.next] at hnext
    cases hlist : w.kmem.freelist with
    | nil =>
      rw [hlist] at hnext
      cases hnext
    | cons r list =>
      rw [hlist] at hnext
      obtain rfl := Option.some.inj hnext
      have hfit : Owned ld.Frame (insert r { f | f ∈ w.busy }) list w.proc.pgdir.slot :=
        (Owned.pop h hlist).2.2.2
      have hbusy : insert r { f | f ∈ w.busy } = { f | f ∈ r :: w.busy } :=
        Set.ext fun f => List.mem_cons.symm
      rw [hbusy] at hfit
      exact ⟨_, rfl, rfl, hfit⟩
  | give pa =>
    obtain ⟨⟨hpa, hframe⟩, rfl⟩ : (pa ∈ w.busy ∧ ld.Frame pa) ∧
        World.run { w with busy := w.busy.filter (· ≠ pa) } (do kfree ld pa; pure w.proc) = s := by
      simpa [World.next] using hnext
    have hbusy : { f | f ∈ w.busy } \ {pa} = { f | f ∈ w.busy.filter (· ≠ pa) } := by
      ext f
      simp
    have hfit := Owned.give h hpa hframe
    rw [hbusy] at hfit
    have hrun : World.run { w with busy := w.busy.filter (· ≠ pa) } (do kfree ld pa; pure w.proc) =
        .ok ⟨w.proc, w.busy.filter (· ≠ pa),
          ⟨pa :: w.kmem.freelist, Function.update w.kmem.mem pa fun _ => 1⟩⟩ := by
      unfold World.run kfree
      rw [if_neg (not_not.mpr hframe)]
      rfl
    exact ⟨_, hrun, rfl, hfit⟩
  | scribble pa page =>
    obtain ⟨hpa, rfl⟩ : pa ∈ w.busy ∧ Except.ok
        { w with kmem := { w.kmem with mem := Function.update w.kmem.mem pa page } } = s := by
      simpa [World.next] using hnext
    exact ⟨_, rfl, rfl, h⟩

theorem World.elsewhere_cases {w : World} {e : Event} {s : Except Panic World} (h : w.Space ld)
    (he : e.elsewhere) (hnext : w.next ld e = some s) :
    ∃ w', s = .ok w' ∧ w'.Space ld ∧ w.Moves e w' := by
  obtain ⟨w', rfl, hproc, hfit⟩ := World.next_elsewhere h.fit he hnext
  have hspace : w'.Space ld := by
    refine ⟨hfit, ?_, ?_, ?_⟩ <;> rw [hproc]
    · exact h.le
    · exact h.kernel
    · exact h.writable
  have hacc : e.access = none := by
    cases e <;> first | rfl | cases he
  refine ⟨w', rfl, hspace, ?_⟩
  unfold World.Moves
  rw [hacc, hproc]
  exact id

/-- Every event keeps the invariant. -/
theorem World.next_cases {w : World} {e : Event} {s : Except Panic World} (h : w.Space ld)
    (hnext : w.next ld e = some s) :
    (∃ w', s = .ok w' ∧ w'.Space ld ∧ w.Moves e w') ∨ ∃ x, s = .error x ∧ w.Panics e x := by
  cases e with
  | mmap n =>
    obtain ⟨hn, rfl⟩ : (-2 ^ 31 ≤ n ∧ n < 2 ^ 31) ∧ w.run (pure (sysMmap n w.proc).2) = s := by
      simpa [World.next] using hnext
    obtain ⟨hspace, hpgdir, hle⟩ := Space.mmap h hn
    refine .inl ⟨_, rfl, hspace, fun hbelow v hv hpage => ?_⟩
    exact (hbelow v hv (hpgdir ▸ hpage)).trans_le hle
  | sbrk n =>
    obtain ⟨hn, rfl⟩ : (-2 ^ 31 ≤ n ∧ n < 2 ^ 31) ∧
        w.run (Prod.snd <$> sysSbrk ld n w.proc) = s := by
      simpa [World.next] using hnext
    have hspec : Spec (Prod.snd <$> sysSbrk ld n w.proc) w.kmem
        (fun p k => Xv6.Space ld { f | f ∈ w.busy } p k ∧ (w.proc.Below → p.Below))
        fun _ => ¬ w.proc.Below := by
      rw [map_eq_pure_bind]
      exact Spec.bind ((sysSbrk_spec h hn).mono (fun _ _ hr => Spec.pure hr) fun _ h => h)
    rcases World.run_cases hspec with ⟨p, k, hrun, hr⟩ | ⟨e, hrun, he⟩
    · exact .inl ⟨_, hrun, hr⟩
    · exact .inr ⟨e, hrun, he⟩
  | load va =>
    obtain ⟨-, rfl⟩ : va < 2 ^ 32 ∧ w.run (Xv6.load va w.proc) = s := by
      simpa [World.next] using hnext
    rcases World.run_cases (load_spec va h) with ⟨p, k, hrun, hr⟩ | ⟨e, hrun, he⟩
    · exact .inl ⟨_, hrun, hr⟩
    · exact .inr ⟨e, hrun, he⟩
  | store va byte =>
    obtain ⟨-, rfl⟩ : va < 2 ^ 32 ∧ w.run (Xv6.store va byte w.proc) = s := by
      simpa [World.next] using hnext
    rcases World.run_cases (store_spec va byte h) with ⟨p, k, hrun, hr⟩ | ⟨e, hrun, he⟩
    · exact .inl ⟨_, hrun, hr⟩
    · exact .inr ⟨e, hrun, he⟩
  | take => exact .inl (World.elsewhere_cases h rfl hnext)
  | give pa => exact .inl (World.elsewhere_cases h rfl hnext)
  | scribble pa page => exact .inl (World.elsewhere_cases h rfl hnext)

theorem Kmem.WellFormed.owned {busy : List ℕ} (hk : k.WellFormed ld busy) :
    Owned ld.Frame { f | f ∈ busy } k.freelist noSlot :=
  ⟨hk.1, fun f hf => (hk.2 f hf).1, fun f hf => (hk.2 f hf).2, nofun, nofun, nofun, nofun⟩

theorem started_image {w : World} (h : Started ld w) :
    Image ld { f | f ∈ w.busy } w.proc w.kmem := by
  obtain ⟨file, phs, k, hk, hexec⟩ := h
  exact (exec_spec hk.owned).of_ok hexec _ rfl

/-- The state is a world with `I` or a panic with `E`. -/
def Holds (I : World → Prop) (E : Panic → Prop) : Except Panic World → Prop
  | .ok w => I w
  | .error x => E x

/-- The system starts when a program of one page has been loaded. -/
theorem started_onePage (file : List ℕ) {busy : List ℕ} {m : ℕ} (hk : k.WellFormed ld busy)
    (hfile : file.length ≤ pgSize) (hmem : kernelPages + 6 + m ≤ k.freelist.length) :
    ∃ w : World, w.busy = busy ∧ exec ld file (onePage file) k = .ok (some w.proc, w.kmem) ∧
      w.proc.sz = onePageSize ∧ m ≤ w.kmem.freelist.length := by
  have hexec := exec_onePage hk.owned hfile (Nat.le_of_add_right_le hmem)
  obtain ⟨r, k', hrun, ⟨d, rfl, hcost⟩⟩ := hexec.exists_ok
  exact ⟨⟨⟨d, onePageSize⟩, busy, k'⟩, rfl, hrun, rfl, by simp only; omega⟩

/-- What every event that meets `ok` preserves holds of every world reached by such events, and the
panics reached are those that such events can cause. -/
theorem system_induct {ok : Except Panic World → Event → Prop} {I : World → Prop} {E : Panic → Prop}
    {s : Except Panic World} (hinit : ∀ w, Image ld { f | f ∈ w.busy } w.proc w.kmem → I w)
    (hmove : ∀ w e w', w.Space ld → I w → ok (.ok w) e → w.Moves e w' → I w')
    (hpanic : ∀ w e x, w.Space ld → I w → ok (.ok w) e → w.Panics e x → E x)
    (hs : (system ld).Reachable ok s) : Holds (fun w => w.Space ld ∧ I w) E s := by
  refine System.Reachable.induct (I := Holds (fun w => w.Space ld ∧ I w) E) (fun s hs => ?_)
    (fun s e t hs hok hnext => ?_) hs
  · obtain ⟨w, hw, rfl⟩ := hs
    exact ⟨(started_image hw).space, hinit w (started_image hw)⟩
  · cases s with
    | error x => cases hnext
    | ok w =>
      obtain ⟨hspace, hI⟩ := hs
      rcases World.next_cases hspace hnext with ⟨w', rfl, hspace', hmoves⟩ | ⟨x, rfl, hpanics⟩
      · exact ⟨hspace', hmove w e w' hspace hI hok hmoves⟩
      · exact hpanic w e x hspace hI hok hpanics

/-- Every world that is reached satisfies the invariant. -/
theorem space_of_reachable {ok : Except Panic World → Event → Prop} {w : World}
    (hs : (system ld).Reachable ok (.ok w)) : w.Space ld :=
  (system_induct (I := fun _ => True) (E := fun _ => True) (fun _ _ => trivial)
    (fun _ _ _ _ _ _ _ => trivial) (fun _ _ _ _ _ _ _ => trivial) hs).1

/-- `sys_mmap` of `n` pages only changes the size. -/
theorem World.next_mmap (ld : Linker) {w : World} {n : ℕ} (hpos : 0 < n) (hn : w.proc.sz + n * pgSize < kernBase) :
    w.next ld (.mmap (n * pgSize : ℕ)) =
      some (.ok { w with proc := ⟨w.proc.pgdir, w.proc.sz + n * pgSize⟩ }) := by
  simp only [pgSize, kernBase] at hn
  have hargs : ¬ (((n * pgSize : ℕ) : ℤ) ≤ 0 ∨ ((n * pgSize : ℕ) : ℤ) % pgSize ≠ 0 ∨
      uint ((n * pgSize : ℕ) + w.proc.sz) > kernBase) := by
    simp only [uint, pgSize, kernBase]
    omega
  have hsize : uint (w.proc.sz + (n * pgSize : ℕ)) = w.proc.sz + n * pgSize := by
    simp only [uint, pgSize]
    omega
  have hmmap : (sysMmap (n * pgSize : ℕ) w.proc).2 = ⟨w.proc.pgdir, w.proc.sz + n * pgSize⟩ := by
    unfold sysMmap
    rw [if_neg hargs, hsize]
  have hrange : -2 ^ 31 ≤ ((n * pgSize : ℕ) : ℤ) ∧ ((n * pgSize : ℕ) : ℤ) < 2 ^ 31 := by
    simp only [pgSize]
    omega
  rw [World.next, if_pos hrange, hmmap]
  rfl

/-- A load faults and the handler maps the page, where that is absent and there is memory. -/
theorem World.load_absent {w : World} (h : w.Space ld) (hva : va < 2 ^ 32)
    (hle : pgRoundDown va ≤ w.proc.sz) (habsent : w.proc.pgdir.pte va = none)
    (hmem : 2 ≤ w.kmem.freelist.length) :
    ∃ w', w.next ld (.load va) = some (.ok w') ∧ w'.Space ld ∧
      Fault (va / pgSize) w.proc w'.proc ∧
      w.kmem.freelist.length ≤ w'.kmem.freelist.length + 2 := by
  have hnext : w.next ld (.load va) = some (w.run (Xv6.load va w.proc)) := by
    rw [World.next, if_pos hva]
  rcases World.next_cases h hnext with ⟨w', hw, hspace, hacc, hcost⟩ | ⟨x, -, -, hpanic⟩
  · rw [hw] at hnext
    rcases hacc with ⟨-, pte, hpte, -⟩ | ⟨-, hfault⟩
    · rw [habsent] at hpte
      cases hpte
    · exact ⟨w', hnext, hspace, hfault, hcost⟩
  · rcases hpanic with ⟨-, hgt⟩ | ⟨-, -, hpte⟩ | ⟨-, hshort⟩
    · exact absurd hle (not_le.mpr hgt)
    · exact absurd habsent hpte
    · exact absurd hmem (not_le.mpr hshort)

/-! ## A sample machine -/

/-- A kernel that ends at `0x1154a8`. -/
def sampleLinker : Linker :=
  ⟨0x109000, 0x1154a8, by decide, by decide, by decide, by decide⟩

/-- 256 free pages. -/
def sampleKmem : Kmem := ⟨(List.range 256).map fun i => 0x116000 + i * pgSize, fun _ _ => 1⟩

/-- The instruction `int 64`. -/
def sampleProgram : List ℕ := [0xcd, 0x40]

theorem sampleKmem_wellFormed : sampleKmem.WellFormed sampleLinker [] := by
  refine ⟨List.Nodup.map (fun i j hij => ?_) List.nodup_range, fun pa hpa => ⟨?_, nofun⟩⟩
  · simp only [pgSize] at hij
    omega
  · obtain ⟨i, hi, rfl⟩ := List.mem_map.mp hpa
    rw [List.mem_range] at hi
    simp only [Linker.Frame, sampleLinker, physTop, pgSize]
    omega

/-- The sample program has been loaded. -/
def Sample (w : World) : Prop :=
  w.busy = [] ∧
    exec sampleLinker sampleProgram (onePage sampleProgram) sampleKmem = .ok (some w.proc, w.kmem)

theorem Sample.started {w : World} (h : Sample w) : Started sampleLinker w := by
  refine ⟨_, _, _, ?_, h.2⟩
  rw [h.1]
  exact sampleKmem_wellFormed

theorem exists_sample : ∃ w, Sample w ∧ w.proc.sz = onePageSize ∧ 170 ≤ w.kmem.freelist.length := by
  have hlength : sampleKmem.freelist.length = 256 :=
    (List.length_map _).trans List.length_range
  obtain ⟨w, hbusy, hexec, hsz, hmem⟩ := started_onePage sampleProgram (m := 170)
    sampleKmem_wellFormed (show 2 ≤ pgSize by decide) (by rw [hlength])
  exact ⟨w, ⟨hbusy, hexec⟩, hsz, hmem⟩

theorem Sample.reachable {ok : Except Panic World → Event → Prop} {w : World} (h : Sample w) :
    (system sampleLinker).Reachable ok (.ok w) :=
  .of_init ⟨w, h.started, rfl⟩

/-- The sample program maps a fourth page. -/
theorem exists_mmapped (ok : Except Panic World → Event → Prop)
    (hok : ∀ w, ok (.ok w) (.mmap pgSize)) :
    ∃ w, (system sampleLinker).Reachable ok (.ok w) ∧ w.proc.sz = 4 * pgSize ∧
      w.proc.pgdir.page 3 = none ∧
      (∀ v < 3, ∃ f, w.proc.pgdir.page v = some ⟨f, ⟨true, decide (v ≠ 1)⟩⟩) ∧
      170 ≤ w.kmem.freelist.length := by
  obtain ⟨w, hw, hsz, hmem⟩ := exists_sample
  have himage := started_image hw.started
  have hnext := World.next_mmap sampleLinker (w := w) (n := 1) (by decide) (by rw [hsz]; decide)
  refine ⟨_, hw.reachable.step (hok w) hnext, ?_, himage.absent 3 (by decide) hsz.le, ?_, hmem⟩
  · show w.proc.sz + 1 * pgSize = 4 * pgSize
    rw [hsz]
    rfl
  · intro v hv
    obtain ⟨f, hpresent⟩ := himage.present v (by rw [hsz]; simp only [onePageSize, pgSize]; omega)
    have hstack : v * pgSize + 2 * pgSize ≠ onePageSize ↔ v ≠ 1 := by
      simp only [onePageSize, pgSize]
      omega
    rw [hsz, decide_eq_decide.mpr hstack] at hpresent
    exact ⟨f, hpresent⟩

end SpringLabs.Xv6
