import SpringLabs.Xv6.AddressSpace

/-!
# Copying an address space

`copyuvm` was written for processes whose pages below the size are all present.  For these `fork`
makes a faithful copy, or reports that memory has run out, and leaves the parent alone.  A process
with a page that `sys_mmap` has promised and nobody has touched makes it panic.
-/

namespace SpringLabs.Xv6

open Interleave

variable {ld : Linker} {busy : Set ℕ} {P d : PgDir} {p : Proc} {k : Kmem} {v sz : ℕ}

/-! ## The copy -/

/-- The pages below page `v` have been copied. -/
def CopiedTo (P d : PgDir) (k : Kmem) (v : ℕ) : Prop :=
  ∀ w < v, ∃ pte pte', P.page w = some pte ∧ d.page w = some pte' ∧ pte'.perm = pte.perm ∧
    k.mem pte'.pa = k.mem pte.pa

/-- The loop of `copyuvm` has copied the pages up to `sz`, if `ok`. -/
structure CopyLoop (ld : Linker) (busy : Set ℕ) (sz n : ℕ) (P : PgDir) (k : Kmem) (ok : Bool)
    (d' : PgDir) (k' : Kmem) : Prop where
  fit : Fit ld busy d' k'
  kept : Kept busy k k'
  copied : ok = true → CopiedTo P d' k' (firstPage sz)
  rest : ok = true → ∀ w < 2 ^ 19, firstPage sz ≤ w → d'.page w = none
  short : ok = false → k.freelist.length < 2 * n

/-- The panics of `copyuvm`, where a page below `sz` is absent. -/
def CopyPanic (sz : ℕ) (P : PgDir) (e : Panic) : Prop :=
  (e = .copyuvmExist ∨ e = .copyuvmPresent) ∧ ∃ w, w * pgSize < sz ∧ P.page w = none

/-- One more page has been copied. -/
theorem CopiedTo.succ {f : ℕ} {list : List ℕ} {pte : Pte} {d₁ : PgDir} {k₁ : Kmem}
    (h : CopiedTo P d k v) (hfit : Fit ld busy d k) (hv : v < 2 ^ 19)
    (hparent : ∀ w < 2 ^ 19, ∀ pte ∈ P.page w, pte.pa ∈ busy) (hlist : k.freelist = f :: list)
    (hpte : P.page v = some pte)
    (hmap : Mapped ld busy v f pte.perm d ⟨list, Function.update k.mem f (k.mem pte.pa)⟩ d₁ k₁) :
    CopiedTo P d₁ k₁ (v + 1) := by
  have hallocs : Allocs k k₁ := (Allocs.cons hlist _).trans hmap.allocs
  have hkept {w : ℕ} (hw : w < 2 ^ 19) {pte : Pte} (hpte : P.page w = some pte) :
      k₁.mem pte.pa = k.mem pte.pa :=
    hallocs.kept _ fun hmem => hfit.idle _ hmem (hparent w hw pte hpte)
  intro w hw
  by_cases hwv : w = v
  · refine ⟨pte, ⟨f, pte.perm⟩, by rw [hwv, hpte], by rw [hwv, hmap.present], rfl, ?_⟩
    have hnodup := hfit.nodup
    rw [hlist, List.nodup_cons] at hnodup
    calc k₁.mem f = Function.update k.mem f (k.mem pte.pa) f := hmap.allocs.kept f hnodup.1
      _ = k.mem pte.pa := Function.update_self ..
      _ = k₁.mem pte.pa := (hkept hv hpte).symm
  · have hlt : w < v := by omega
    obtain ⟨pte', pte'', hpte', hpte'', hperm, hmem⟩ := h w hlt
    have hslot : d.slot (.page w) = some pte''.pa := by
      rw [PgDir.slot, if_pos (hlt.trans hv), hpte'']
      rfl
    refine ⟨pte', pte'', hpte', by rw [hmap.pages w (by omega) hwv, hpte''], hperm, ?_⟩
    rw [hallocs.kept _ (hfit.apart _ _ hslot), hkept (hlt.trans hv) hpte', hmem]

theorem CopyLoop.nil {n : ℕ} (h : Fit ld busy d k) (hv : v ≤ firstPage sz) (hge : sz ≤ v * pgSize)
    (hcopied : CopiedTo P d k v) (habsent : ∀ w < 2 ^ 19, v ≤ w → d.page w = none) :
    CopyLoop ld busy sz n P k true d k := by
  obtain rfl : v = firstPage sz := le_antisymm hv (firstPage_le.mpr hge)
  exact ⟨h, .refl k, fun _ => hcopied, fun _ => habsent, nofun⟩

theorem copyLoop_spec (n : ℕ) (h : Fit ld busy d k) (hsz : sz ≤ kernBase) (hv : v ≤ firstPage sz)
    (hn : sz ≤ (v + n) * pgSize) (hcopied : CopiedTo P d k v)
    (habsent : ∀ w < 2 ^ 19, v ≤ w → d.page w = none)
    (hparent : ∀ w < 2 ^ 19, ∀ pte ∈ P.page w, pte.pa ∈ busy) :
    Spec (copyLoop ld P sz n d (v * pgSize)) k (fun r k' => CopyLoop ld busy sz n P k r.1 r.2 k')
      (CopyPanic sz P) := by
  induction n generalizing d k v with
  | zero => exact Spec.pure (.nil h hv hn hcopied habsent)
  | succ n ih =>
    rw [copyLoop]
    refine Spec.ite (fun hlt => ?_) fun hge => ?_
    · have huser : v < 2 ^ 19 := by
        simp only [pgSize, kernBase] at hlt hsz
        omega
      have hv' : v < 2 ^ 20 := huser.trans (by decide)
      refine Spec.bind (walkpgdir_noalloc hv' (fun _ => ?_) fun htab => ?_)
      · have hpage : P.pte (v * pgSize) = P.page v := rfl
        simp only [hpage]
        cases hpte : P.page v with
        | none => exact Spec.throw ⟨.inr rfl, v, hlt, hpte⟩
        | some pte =>
          refine Spec.bind (kalloc_spec (fun hlist => ?_) fun f list hlist => ?_)
          · refine Spec.pure ⟨h, .refl k, nofun, nofun, fun _ => ?_⟩
            rw [hlist]
            exact Nat.succ_pos _
          · obtain ⟨hframe, hbusy, hlength, htake⟩ := Owned.pop h hlist
            have hfit : Fit ld (insert f busy) d
                ⟨list, Function.update k.mem f (k.mem pte.pa)⟩ := htake
            have hmap := mappages_spec pte.perm hfit hbusy hframe hv'
              fun hle => absurd huser (not_lt.mpr hle)
            refine Spec.bind (memmove_spec (Spec.bind (hmap.mono (fun r k₁ hr => ?_) fun e he => ?_)))
            · obtain ⟨ok, d₁⟩ := r
              cases ok with
              | true =>
                have hnext : v * pgSize + pgSize = (v + 1) * pgSize := (Nat.succ_mul v pgSize).symm
                have hfuel : sz ≤ (v + 1 + n) * pgSize := by rwa [Nat.add_right_comm]
                have hfirst : v + 1 ≤ firstPage sz := by
                  rw [Nat.succ_le_iff, ← not_le, firstPage_le, not_le]
                  exact hlt
                have hallocs : Allocs k k₁ := (Allocs.cons hlist _).trans hr.allocs
                have hcopied₁ := hcopied.succ h huser hparent hlist hpte hr
                have habsent₁ (w : ℕ) (hw : w < 2 ^ 19) (hle : v + 1 ≤ w) : d₁.page w = none := by
                  rw [hr.pages w (hw.trans (by decide)) (by omega)]
                  exact habsent w hw (by omega)
                simp only [if_true]
                rw [hnext]
                have hrest := ih (v := v + 1) hr.fit hfirst hfuel hcopied₁ habsent₁
                refine hrest.mono (fun r' k' hr' => ?_) fun _ h => h
                refine ⟨hr'.fit, (hallocs.keeps h).trans hr'.kept, hr'.copied, hr'.rest, fun hok => ?_⟩
                have hshort := hr'.short hok
                have hcost := hr.cost
                simp only at hcost
                omega
              | false =>
                obtain ⟨rfl, rfl, hempty⟩ := hr
                refine Spec.bind (kfree_spec hframe (Spec.pure ⟨?_, ?_, nofun, nofun, fun _ => ?_⟩))
                · exact Fit.give hfit hbusy hframe _
                · exact (Kept.write hbusy).trans (Kept.write hbusy)
                · simp only at hempty
                  rw [hlength, hempty, List.length_nil]
                  omega
            · exact absurd (habsent v huser le_rfl) he.2
      · exact Spec.throw ⟨.inl rfl, v, hlt, page_of_not_hasTab hv' htab⟩
    · exact Spec.pure (.nil h hv (not_lt.mp hge) hcopied habsent)

/-- A copy of the pages up to `sz`, or the report that memory has run out. -/
theorem copyuvm_spec (h : Owned ld.Frame busy k.freelist noSlot) (hsz : sz ≤ kernBase)
    (hparent : ∀ w < 2 ^ 19, ∀ pte ∈ P.page w, pte.pa ∈ busy) :
    Spec (copyuvm ld P sz) k (fun r k' => Kept busy k k' ∧ match r with
      | none => Owned ld.Frame busy k'.freelist noSlot ∧
          k.freelist.length < kernelPages + 2 * firstPage sz
      | some d => Fit ld busy d k' ∧ CopiedTo P d k' (firstPage sz) ∧
          ∀ w < 2 ^ 19, firstPage sz ≤ w → d.page w = none) (CopyPanic sz P) := by
  unfold copyuvm
  refine Spec.bind ((setupkvm_spec h).mono (fun r k₁ hr => ?_) fun _ h => h.elim)
  cases r with
  | none =>
    obtain ⟨howned, hkept, hshort⟩ := hr
    exact Spec.pure ⟨hkept, howned, hshort.trans_le (Nat.le_add_right _ _)⟩
  | some d =>
    obtain ⟨hfresh, hallocs, hcost⟩ := hr
    have hkept := hallocs.keeps h
    have hloop := copyLoop_spec (v := 0) (pages 0 sz) hfresh.fit hsz (Nat.zero_le _)
      (by simp only [pages, pgSize]; omega) (fun w hw => absurd hw (Nat.not_lt_zero w))
      (fun w hw _ => hfresh.user w hw) hparent
    rw [Nat.zero_mul] at hloop
    refine Spec.bind (hloop.mono (fun r k₂ hr => ?_) fun _ h => h)
    obtain ⟨ok, d'⟩ := r
    cases ok with
    | true => exact Spec.pure ⟨hkept.trans hr.kept, hr.fit, hr.copied rfl, hr.rest rfl⟩
    | false =>
      have hshort := hr.short rfl
      have hpages : pages 0 sz = firstPage sz := rfl
      refine Spec.bind ((freevm_spec hr.fit).mono (fun _ k₃ hr₃ => ?_) fun _ h => h.elim)
      exact Spec.pure ⟨(hkept.trans hr.kept).trans hr₃.2, hr₃.1, by omega⟩

/-! ## `fork` -/

/-- The free pages that a `fork` of a process of size `sz` may need. -/
def forkPages (sz : ℕ) : ℕ := 1 + kernelPages + 2 * firstPage sz

/-- The child of a process: its pages are copies, apart from the parent's. -/
structure Forked (ld : Linker) (busy : Set ℕ) (p : Proc) (k : Kmem) (kstack : ℕ) (child : Proc)
    (k' : Kmem) : Prop where
  sz : child.sz = p.sz
  copied : ∀ v, v * pgSize < p.sz → ∃ pte pte', p.pgdir.page v = some pte ∧
    child.pgdir.page v = some pte' ∧ pte'.perm = pte.perm ∧ k'.mem pte'.pa = k.mem pte.pa
  rest : ∀ v < 2 ^ 19, p.sz ≤ v * pgSize → child.pgdir.page v = none
  parent : Space ld (insert kstack busy ∪ held child.pgdir.slot) p k'

/-- What `fork` returns.  What the parent owns keeps its content. -/
def ForkResult (ld : Linker) (busy : Set ℕ) (unused : Bool) (p : Proc) (k : Kmem)
    (r : Option (ℕ × Proc)) (k' : Kmem) : Prop :=
  Kept (held p.pgdir.slot) k k' ∧ match r with
    | none => Space ld busy p k' ∧ (unused = true → k.freelist.length < forkPages p.sz)
    | some (kstack, child) => Forked ld busy p k kstack child k'

/-- Parent and child after a `fork`: each directory is apart from what the other owns. -/
structure Spawned (ld : Linker) (busy : Set ℕ) (p : Proc) (kstack : ℕ) (child : Proc) (k' : Kmem) :
    Prop where
  sz : child.sz = p.sz
  copied : CopiedTo p.pgdir child.pgdir k' (firstPage p.sz)
  rest : ∀ w < 2 ^ 19, firstPage p.sz ≤ w → child.pgdir.page w = none
  fit : Fit ld (insert kstack busy ∪ held p.pgdir.slot) child.pgdir k'
  parent : Fit ld (insert kstack busy ∪ held child.pgdir.slot) p.pgdir k'

theorem owns_page {w : ℕ} (hw : w < 2 ^ 19) {pte : Pte} (hpte : d.page w = some pte) :
    pte.pa ∈ held d.slot := by
  refine ⟨.page w, ?_⟩
  rw [PgDir.slot, if_pos hw, hpte]
  rfl

theorem fork_fit (h : Fit ld busy p.pgdir k) (hle : p.sz ≤ kernBase) (unused : Bool) :
    Spec (fork ld unused p) k (fun r k' => Kept (held p.pgdir.slot) k k' ∧ match r with
      | none => Fit ld busy p.pgdir k' ∧ (unused = true → k.freelist.length < forkPages p.sz)
      | some (kstack, child) => Spawned ld busy p kstack child k') (CopyPanic p.sz p.pgdir) := by
  refine Spec.ite (fun _ => ?_) fun hno => Spec.pure ⟨.refl k, h, fun hyes => absurd hyes hno⟩
  refine Spec.bind (kalloc_spec (fun hlist => ?_) fun kstack list hlist => ?_)
  · refine Spec.pure ⟨.refl k, h, fun _ => ?_⟩
    rw [hlist, forkPages]
    exact Nat.lt_of_lt_of_le Nat.zero_lt_one (by omega)
  · obtain ⟨hframe, hbusy, hlength, hpop⟩ := Owned.pop h hlist
    have hheld : kstack ∉ held p.pgdir.slot := fun ⟨s, hs⟩ => by
      apply h.apart s _ hs
      rw [hlist]
      exact .head _
    have hcopy := copyuvm_spec (k := ⟨list, k.mem⟩) hpop.share hle
      fun w hw pte hpte => .inr (owns_page hw hpte)
    refine Spec.bind (hcopy.mono (fun r k₁ hr => ?_) fun _ h => h)
    have hkept : Kept (held p.pgdir.slot) k k₁ := fun f hf => hr.1 f (.inr hf)
    cases r with
    | none =>
      obtain ⟨-, howned, hshort⟩ := hr
      have hback : Owned ld.Frame (insert kstack busy ∪ held noSlot) k₁.freelist p.pgdir.slot :=
        hpop.rejoin howned
      have hnothing : held noSlot = ∅ := held_none
      rw [hnothing, Set.union_empty] at hback
      have hfit := Fit.give (k := k₁) hback hbusy hframe fun _ => 1
      refine Spec.bind (kfree_spec hframe (Spec.pure ⟨hkept.trans (Kept.write hheld), hfit, ?_⟩))
      intro _
      rw [forkPages, hlength]
      simp only at hshort
      omega
    | some d =>
      obtain ⟨-, hfit, hcopied, hrest⟩ := hr
      exact Spec.pure ⟨hkept, rfl, hcopied, hrest, hfit, hpop.rejoin hfit⟩

theorem fork_spec (h : Space ld busy p k) (unused : Bool) :
    Spec (fork ld unused p) k (ForkResult ld busy unused p k) (CopyPanic p.sz p.pgdir) := by
  refine (fork_fit h.fit h.le unused).mono (fun r k' hr => ⟨hr.1, ?_⟩) fun _ h => h
  obtain ⟨hkept, hr⟩ := hr
  cases r with
  | none => exact ⟨⟨hr.1, h.le, h.kernel, h.writable⟩, hr.2⟩
  | some r =>
    refine ⟨hr.sz, fun v hv => ?_, fun v hv hge => hr.rest v hv (firstPage_le.mpr hge),
      ⟨hr.parent, h.le, h.kernel, h.writable⟩⟩
    have hlt : v < firstPage p.sz := by
      rwa [← not_le, firstPage_le, not_le]
    have hle := h.le
    have huser : v < 2 ^ 19 := by
      simp only [pgSize, kernBase] at hv hle
      omega
    obtain ⟨pte, pte', hpte, hpte', hperm, hmem⟩ := hr.copied v hlt
    exact ⟨pte, pte', hpte, hpte', hperm, hmem.trans (hkept _ (owns_page huser hpte))⟩

/-! ## Any process that the system reaches -/

/-- Every page below the size is present. -/
def Proc.AllPresent (p : Proc) : Prop := ∀ v, v * pgSize < p.sz → p.pgdir.page v ≠ none

/-- If all pages below the size are present then `fork` returns, and a child is a faithful copy.  If
one is absent there is never a child: `fork` panics, unless memory runs out before. -/
theorem fork_of_all_present {ok : Except Panic World → Event → Prop} {w : World}
    (hs : (system ld).Reachable ok (.ok w)) (unused : Bool) :
    (w.proc.AllPresent → ∃ r k', fork ld unused w.proc w.kmem = .ok (r, k') ∧
      ForkResult ld { f | f ∈ w.busy } unused w.proc w.kmem r k') ∧
    (¬ w.proc.AllPresent →
      (∀ r k', fork ld unused w.proc w.kmem = .ok (r, k') → r = none) ∧
      (forkPages w.proc.sz ≤ w.kmem.freelist.length →
        ∃ e, fork ld true w.proc w.kmem = .error e)) := by
  have hspace := space_of_reachable hs
  have hchild {unused : Bool} {r k'} (habsent : ¬ w.proc.AllPresent)
      (hr : ForkResult ld { f | f ∈ w.busy } unused w.proc w.kmem r k') : r = none := by
    by_contra hsome
    obtain ⟨⟨kstack, child⟩, rfl⟩ := Option.ne_none_iff_exists'.mp hsome
    apply habsent
    intro v hv hpage
    obtain ⟨pte, -, hpte, -⟩ := hr.2.copied v hv
    rw [hpage] at hpte
    cases hpte
  refine ⟨fun hall => ?_, fun habsent => ⟨fun r k' hrun => ?_, fun hmem => ?_⟩⟩
  · have hspec := (fork_spec hspace unused).mono (fun _ _ h => h)
      fun e ⟨_, v, hv, hpage⟩ => hall v hv hpage
    exact hspec.exists_ok
  · exact hchild habsent ((fork_spec hspace unused).of_ok hrun)
  · cases hrun : fork ld true w.proc w.kmem with
    | error e => exact ⟨e, rfl⟩
    | ok r =>
      have hresult := (fork_spec hspace true).of_ok hrun
      have hnone := hchild habsent hresult
      rw [hnone] at hresult
      exact absurd (hresult.2.2 rfl) (not_lt.mpr hmem)

/-- The program maps a fourth page, reads from it and forks. -/
theorem fork_of_all_present_mmapped : ∃ (w : World) (kstack : ℕ) (child : Proc) (k : Kmem),
    w.proc.sz = 4 * pgSize ∧ fork sampleLinker true w.proc w.kmem = .ok (some (kstack, child), k) ∧
      Forked sampleLinker { f | f ∈ w.busy } w.proc w.kmem kstack child k := by
  obtain ⟨w, hs, hsz, habsent, hpages, hmem⟩ := exists_mmapped System.Any fun _ => trivial
  obtain ⟨w', hnext, -, hfault, hcost⟩ := World.load_absent (space_of_reachable hs)
    (show 3 * pgSize < 2 ^ 32 by decide) (by rw [hsz]; decide) habsent (by omega)
  have hthree : 3 * pgSize / pgSize = 3 := by decide
  rw [hthree] at hfault
  have hsz' : w'.proc.sz = 4 * pgSize := hfault.sz.trans hsz
  have hall : w'.proc.AllPresent := by
    intro v hv
    rw [hsz'] at hv
    have hlt : v < 4 := Nat.lt_of_mul_lt_mul_right hv
    by_cases hv3 : v = 3
    · rw [hv3]
      exact hfault.ne_none
    · obtain ⟨f, hpage⟩ := hpages v (by omega)
      rw [hfault.same v (by omega) hv3, hpage]
      simp
  have hs' : (system sampleLinker).Reachable System.Any (.ok w') :=
    hs.step (e := .load (3 * pgSize)) trivial hnext
  obtain ⟨r, k, hrun, hresult⟩ := (fork_of_all_present hs' true).1 hall
  cases r with
  | none =>
    have hshort := hresult.2.2 rfl
    have hneed : forkPages w'.proc.sz = 89 := by
      rw [hsz']
      rfl
    omega
  | some r => exact ⟨w', r.1, r.2, k, hsz', hrun, hresult.2⟩

/-- The program maps a fourth page and forks without having touched it. -/
theorem untouched_fork_panics : ∃ (w : World) (e : Panic),
    (system sampleLinker).Reachable System.Any (.ok w) ∧ w.proc.sz = 4 * pgSize ∧
      w.proc.pgdir.page 3 = none ∧ fork sampleLinker true w.proc w.kmem = .error e ∧
      (e = .copyuvmExist ∨ e = .copyuvmPresent) := by
  obtain ⟨w, hs, hsz, habsent, -, hmem⟩ := exists_mmapped System.Any fun _ => trivial
  have hspec := fork_spec (space_of_reachable hs) true
  cases hrun : fork sampleLinker true w.proc w.kmem with
  | error e => exact ⟨w, e, hs, hsz, habsent, hrun, (hspec.of_error hrun).1⟩
  | ok r =>
    obtain ⟨-, hresult⟩ := hspec.of_ok hrun
    cases hr : r.1 with
    | none =>
      rw [hr] at hresult
      have hshort := hresult.2 rfl
      have hneed : forkPages w.proc.sz = 89 := by
        rw [hsz]
        rfl
      omega
    | some child =>
      rw [hr] at hresult
      obtain ⟨pte, -, hpte, -⟩ := hresult.copied 3 (by rw [hsz]; decide)
      rw [habsent] at hpte
      cases hpte

end SpringLabs.Xv6
