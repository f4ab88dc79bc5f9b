import SpringLabs.Xv6.PageTable
import Mathlib.Order.BooleanAlgebra.Set

/-!
# What the functions of `vm.c` do

Each function on page directories has one specification, in terms of the map from page numbers to
entries: the kernel half that `setupkvm` builds, the pages that `deallocuvm` and `freevm` return,
and the pages that `allocuvm` adds.  The only panic they can reach is `remap`, and only if a page
to be mapped is already there.  Where they report failure the free list was short of pages.
-/

namespace SpringLabs.Xv6

variable {ld : Linker} {busy : Set ℕ} {d : PgDir} {k : Kmem} {v n : ℕ} {perm : Perm}

/-! ## The kernel half -/

/-- The number of page tables that `n` pages from `v` on still need. -/
def newTabs (d : PgDir) (v n : ℕ) : ℕ :=
  if n = 0 then 0 else (v + n - 1) / 1024 - v / 1024 + if d.HasTab v then 0 else 1

/-- After page `v` its page table is there, and serves the pages after it. -/
theorem newTabs_succ {d₁ : PgDir} (h : d₁.HasTab v) :
    newTabs d₁ (v + 1) n + (if d.HasTab v then 0 else 1) ≤ newTabs d v (n + 1) := by
  unfold newTabs
  rw [if_neg (Nat.succ_ne_zero n)]
  by_cases hn : n = 0
  · rw [if_pos hn]
    omega
  · rw [if_neg hn]
    by_cases hdiv : (v + 1) / 1024 = v / 1024
    · have hnext : d₁.HasTab (v + 1) := by
        unfold PgDir.HasTab at h ⊢
        rwa [hdiv]
      rw [if_pos hnext]
      omega
    · have hlast : v / 1024 < (v + (n + 1) - 1) / 1024 := by omega
      have hsame : v + 1 + n - 1 = v + (n + 1) - 1 := by omega
      rw [hsame]
      split <;> omega

/-- `mappages` of `n` kernel pages from `v` on. -/
structure KernelMapped (ld : Linker) (busy : Set ℕ) (perm : Perm) (v n : ℕ) (d : PgDir) (k : Kmem)
    (ok : Bool) (d' : PgDir) (k' : Kmem) : Prop where
  fit : Fit ld busy d' k'
  pages : ∀ w < 2 ^ 20, w < v ∨ v + n ≤ w → d'.page w = d.page w
  present : ok = true → ∀ w, v ≤ w → w < v + n → ∃ pa, d'.page w = some ⟨pa, perm⟩
  allocs : Allocs k k'
  cost : ok = true → k.freelist.length ≤ k'.freelist.length + newTabs d v n
  short : ok = false → k.freelist.length < newTabs d v n

theorem mapLoop_kernel (perm : Perm) (n pa : ℕ) (h : Fit ld busy d k) (hv : 2 ^ 19 ≤ v)
    (hn : v + n ≤ 2 ^ 20) (habsent : ∀ w, v ≤ w → w < v + n → d.page w = none) :
    Spec (mapLoop perm n d (v * pgSize) pa) k
      (fun r k' => KernelMapped ld busy perm v n d k r.1 r.2 k') fun _ => False := by
  induction n generalizing d k v pa with
  | zero =>
    exact Spec.pure ⟨h, fun _ _ _ => rfl, fun _ w _ _ => by omega, .refl k,
      fun _ => Nat.le_add_right _ _, fun hok => absurd hok.symm Bool.false_ne_true⟩
  | succ n ih =>
    have hv' : v < 2 ^ 20 := by omega
    rw [mapLoop]
    refine Spec.bind ((walkpgdir_spec h hv').mono (fun r k₁ hr => ?_) fun _ h => h.elim)
    cases r with
    | none =>
      obtain ⟨rfl, hlist, htab⟩ := hr
      refine Spec.pure ⟨h, fun _ _ _ => rfl, fun hok => absurd hok Bool.false_ne_true, .refl k₁,
        fun hok => absurd hok Bool.false_ne_true, fun _ => ?_⟩
      rw [hlist, newTabs, if_neg (Nat.succ_ne_zero n), if_neg htab]
      exact Nat.succ_pos _
    | some d₁ =>
      have hpage : d₁.pte (v * pgSize) = none :=
        (hr.pages v hv').trans (habsent v le_rfl (by omega))
      simp only [hpage]
      have hset {w : ℕ} (hw : w < 2 ^ 20) := page_setPte (some ⟨pa, perm⟩) hv' hw hr.here
      have hfit : Fit ld busy (d₁.setPte (v * pgSize) (some ⟨pa, perm⟩)) k₁ := by
        unfold Fit
        rw [slot_setPte_kernel hv' hv hr.here]
        exact hr.fit
      have hnext : v * pgSize + pgSize = (v + 1) * pgSize := (Nat.succ_mul v pgSize).symm
      have hrest : ∀ w, v + 1 ≤ w → w < v + 1 + n →
          (d₁.setPte (v * pgSize) (some ⟨pa, perm⟩)).page w = none := fun w hlo hhi => by
        rw [hset (by omega), if_neg (by omega), hr.pages w (by omega)]
        exact habsent w (by omega) (by omega)
      have htabs : newTabs (d₁.setPte (v * pgSize) (some ⟨pa, perm⟩)) (v + 1) n +
          (if d.HasTab v then 0 else 1) ≤ newTabs d v (n + 1) :=
        newTabs_succ (hasTab_setPte.mpr hr.here)
      rw [hnext]
      refine (ih _ hfit (by omega) (by omega) hrest).mono (fun r' k' hr' => ?_) fun _ h => h
      have hcost := hr.cost
      refine ⟨hr'.fit, fun w hw hout => ?_, fun hok w hlo hhi => ?_, hr.allocs.trans hr'.allocs,
        fun hok => ?_, fun hok => ?_⟩
      · rw [hr'.pages w hw (by omega), hset hw, if_neg (by omega), hr.pages w hw]
      · by_cases hw : w = v
        · exact ⟨pa, by rw [hr'.pages w (by omega) (by omega), hset (by omega), if_pos hw]⟩
        · exact hr'.present hok w (by omega) (by omega)
      · have := hr'.cost hok
        omega
      · have := hr'.short hok
        omega

/-- The entries cover pages from `v` on, one after the other. -/
def Laid (v : ℕ) : List Kmap → Prop
  | [] => True
  | m :: ms => ∃ w n, m.virt = w * pgSize ∧ uint (m.physEnd - m.physStart) = n * pgSize ∧
      1 ≤ n ∧ v ≤ w ∧ w + n ≤ 2 ^ 20 ∧ Laid (w + n) ms

/-- A bound on the number of page tables for the entries. -/
def tabsOf : List Kmap → ℕ
  | [] => 0
  | m :: ms => uint (m.physEnd - m.physStart) / pgSize / 1024 + 2 + tabsOf ms

theorem newTabs_le : newTabs d v n ≤ n / 1024 + 2 := by
  unfold newTabs
  split_ifs <;> omega

/-- What the loop of `setupkvm` does. -/
structure KernelLoop (ld : Linker) (busy : Set ℕ) (v : ℕ) (ms : List Kmap) (d : PgDir) (k : Kmem)
    (ok : Bool) (d' : PgDir) (k' : Kmem) : Prop where
  fit : Fit ld busy d' k'
  pages : ∀ w < v, d'.page w = d.page w
  allocs : Allocs k k'
  cost : ok = true → k.freelist.length ≤ k'.freelist.length + tabsOf ms
  short : ok = false → k.freelist.length < tabsOf ms

theorem mapKernel_spec (ms : List Kmap) (h : Fit ld busy d k) (hv : 2 ^ 19 ≤ v) (hv' : v ≤ 2 ^ 20)
    (hlaid : Laid v ms) (habsent : ∀ w, v ≤ w → w < 2 ^ 20 → d.page w = none) :
    Spec (mapKernel ms d) k (fun r k' => KernelLoop ld busy v ms d k r.1 r.2 k' ∧
      (r.1 = true → ∀ m ∈ ms.head?, ∃ pa, r.2.page (m.virt / pgSize) = some ⟨pa, m.perm⟩))
      fun _ => False := by
  induction ms generalizing d k v with
  | nil =>
    exact Spec.pure ⟨⟨h, fun _ _ => rfl, .refl k, fun _ => Nat.le_add_right _ _, nofun⟩, nofun⟩
  | cons m ms ih =>
    obtain ⟨w, n, hvirt, hsize, hn, hvw, hwn, hlaid⟩ := hlaid
    rw [mapKernel, hvirt, hsize, mappages_eq hn hwn]
    have hloop := mapLoop_kernel m.perm n m.physStart h (by omega) hwn
      fun u hlo hhi => habsent u (by omega) (by omega)
    refine Spec.bind (hloop.mono (fun r k₁ hr => ?_) fun _ h => h)
    obtain ⟨ok, d₁⟩ := r
    have htabs : newTabs d w n ≤ tabsOf (m :: ms) - tabsOf ms := by
      have hle := newTabs_le (d := d) (v := w) (n := n)
      have hdiv : n * pgSize / pgSize = n := Nat.mul_div_cancel n (by decide)
      rw [tabsOf, hsize, hdiv]
      omega
    have hbound : tabsOf ms ≤ tabsOf (m :: ms) := Nat.le_add_left _ _
    cases ok with
    | false =>
      refine Spec.pure ⟨⟨hr.fit, fun u hu => hr.pages u (by omega) (by omega), hr.allocs, nofun,
        fun _ => ?_⟩, nofun⟩
      have := hr.short rfl
      omega
    | true =>
      have hrest : ∀ u, w + n ≤ u → u < 2 ^ 20 → d₁.page u = none := fun u hlo hhi =>
        (hr.pages u hhi (.inr hlo)).trans (habsent u (by omega) hhi)
      have hcost := hr.cost rfl
      refine (ih hr.fit (by omega) hwn hlaid hrest).mono (fun r' k' hr' => ?_) fun _ h => h
      obtain ⟨⟨fit, pages, allocs, cost, short⟩, -⟩ := hr'
      refine ⟨⟨fit, fun u hu => ?_, hr.allocs.trans allocs, fun hok => ?_, fun hok => ?_⟩,
        fun _ m' hm' => ?_⟩
      · rw [pages u (by omega), hr.pages u (by omega) (.inl (by omega))]
      · have := cost hok
        omega
      · have := short hok
        omega
      · obtain rfl : m = m' := by simpa using hm'
        have hfirst : w * pgSize / pgSize = w := Nat.mul_div_cancel w (by decide)
        rw [hvirt, hfirst, pages w (by omega)]
        exact hr.present rfl w le_rfl (by omega)

/-! ## Returning pages -/

/-- The first page that is not below `sz`. -/
def firstPage (sz : ℕ) : ℕ := (sz + pgSize - 1) / pgSize

theorem pgRoundUp_eq (sz : ℕ) : pgRoundUp sz = firstPage sz * pgSize := rfl

/-- The pages from `v` up to `sz` are returned. -/
structure Dealloc (ld : Linker) (busy : Set ℕ) (v sz : ℕ) (d d' : PgDir) (k' : Kmem) :
    Prop where
  fit : Fit ld busy d' k'
  gone : ∀ w, v ≤ w → w * pgSize < sz → d'.page w = none
  pages : ∀ w < 2 ^ 20, w < v ∨ sz ≤ w * pgSize → d'.page w = d.page w

theorem Dealloc.done {sz : ℕ} (h : Fit ld busy d k) (hle : sz ≤ v * pgSize) : Dealloc ld busy v sz d d k := by
  refine ⟨h, fun w hlo hhi => ?_, fun _ _ _ => rfl⟩
  simp only [pgSize] at hhi hle
  omega

/-- The page `v` is gone, and then those after it. -/
theorem Dealloc.page {sz : ℕ} {d₁ d' : PgDir} (h : Dealloc ld busy (v + 1) sz d₁ d' k) (hv : v < 2 ^ 20)
    (hlt : v * pgSize < sz) (hgone : d₁.page v = none)
    (hsame : ∀ w < 2 ^ 20, w ≠ v → d₁.page w = d.page w) : Dealloc ld busy v sz d d' k := by
  refine ⟨h.fit, fun w hlo hhi => ?_, fun w hw hout => ?_⟩
  · by_cases hw : w = v
    · rw [hw, h.pages v hv (.inl (by omega)), hgone]
    · exact h.gone w (by omega) hhi
  · have hne : w ≠ v := by
      rintro rfl
      omega
    rw [h.pages w hw (by omega), hsame w hw hne]

/-- Without a page table there is no page up to the next one. -/
theorem Dealloc.table {sz : ℕ} {d' : PgDir} (h : Dealloc ld busy ((v / 1024 + 1) * 1024) sz d d' k)
    (hv : v < 2 ^ 19) (htab : ¬ d.HasTab v) : Dealloc ld busy v sz d d' k := by
  refine ⟨h.fit, fun w hlo hhi => ?_, fun w hw hout => h.pages w hw (by omega)⟩
  by_cases hw : w < (v / 1024 + 1) * 1024
  · have hsame : w / 1024 = v / 1024 := by omega
    have hw' : w < 2 ^ 20 := by omega
    rw [h.pages w hw' (.inl hw), page_of_not_hasTab hw']
    unfold PgDir.HasTab at htab ⊢
    rwa [hsame]
  · exact h.gone w (by omega) hhi

/-- A mapped page is given back and its entry cleared. -/
theorem Fit.clear {pte : Pte} (h : Fit ld busy d k) (hv : v < 2 ^ 19) (htab : d.HasTab v)
    (hslot : d.slot (.page v) = some pte.pa) :
    Fit ld busy (d.setPte (v * pgSize) none)
      ⟨pte.pa :: k.freelist, Function.update k.mem pte.pa fun _ => 1⟩ := by
  unfold Fit
  rw [slot_setPte hv htab]
  exact h.free hslot

theorem deallocLoop_spec {sz : ℕ} (n : ℕ) (h : Fit ld busy d k) (hsz : sz ≤ kernBase)
    (hv : v ≤ 2 ^ 19) (hn : sz ≤ (v + n) * pgSize) :
    Spec (deallocLoop ld sz n d (v * pgSize)) k
      (fun d' k' => Dealloc ld busy v sz d d' k' ∧ Kept busy k k') fun _ => False := by
  induction n generalizing d k v with
  | zero => exact Spec.pure ⟨.done h hn, .refl k⟩
  | succ n ih =>
    simp only [kernBase] at hsz
    rw [deallocLoop]
    split
    · next hlt =>
      have hv' : v < 2 ^ 19 := by
        simp only [pgSize] at hlt
        omega
      have hv'' : v < 2 ^ 20 := by omega
      have hnext : v * pgSize + pgSize = (v + 1) * pgSize := (Nat.succ_mul v pgSize).symm
      have hfuel : sz ≤ (v + 1 + n) * pgSize := by rwa [Nat.add_right_comm]
      refine Spec.bind (walkpgdir_noalloc hv'' (fun htab => ?_) fun htab => ?_)
      · have hpage : d.pte (v * pgSize) = d.page v := rfl
        simp only [hpage]
        cases hd : d.page v with
        | none =>
          rw [hnext]
          have hstep := ih (v := v + 1) h (by omega) hfuel
          refine hstep.mono (fun d' k' hr => ?_) fun _ h => h
          exact ⟨hr.1.page hv'' hlt hd fun _ _ _ => rfl, hr.2⟩
        | some pte =>
          have hslot : d.slot (.page v) = some pte.pa := by
            simp only [PgDir.slot, hv', if_true, hd, Option.map_some]
          have hframe : ld.Frame pte.pa := h.good _ _ hslot
          have hpos : pte.pa ≠ 0 := by
            obtain ⟨-, hend, -⟩ := hframe
            have := ld.extMem_lt
            have := ld.data_le
            omega
          have hset {w : ℕ} (hw : w < 2 ^ 20) := page_setPte none hv'' hw htab
          simp only [hpos, if_false]
          refine Spec.bind (kfree_spec hframe ?_)
          rw [hnext]
          have hstep := ih (v := v + 1) (h.clear hv' htab hslot) (by omega) hfuel
          refine hstep.mono (fun d' k' hr => ?_) fun _ h => h
          refine ⟨hr.1.page hv'' hlt ?_ fun w hw hne => ?_, (Kept.write (h.other _ _ hslot)).trans hr.2⟩
          · rw [hset hv'', if_pos rfl]
          · rw [hset hw, if_neg hne]
      · have hjump : pgAddr (pdx (v * pgSize) + 1) = (v / 1024 + 1) * 1024 * pgSize := by
          rw [pdx_mul hv'', pgAddr]
          simp only [pgSize]
          omega
        simp only [hjump]
        have hahead : v + 1 + n ≤ (v / 1024 + 1) * 1024 + n := by omega
        have hstep := ih (v := (v / 1024 + 1) * 1024) h (by omega)
          (hfuel.trans (Nat.mul_le_mul_right pgSize hahead))
        refine hstep.mono (fun d' k' hr => ?_) fun _ h => h
        exact ⟨hr.1.table hv' htab, hr.2⟩
    · next hge => exact Spec.pure ⟨.done h (Nat.le_of_not_lt hge), .refl k⟩

theorem deallocuvm_spec {oldsz newsz : ℕ} (h : Fit ld busy d k) (hold : oldsz ≤ kernBase)
    (hlt : newsz < oldsz) :
    Spec (deallocuvm ld d oldsz newsz) k
      (fun r k' => r.1 = newsz ∧ Dealloc ld busy (firstPage newsz) oldsz d r.2 k' ∧ Kept busy k k')
      fun _ => False := by
  simp only [kernBase] at hold
  unfold deallocuvm
  rw [if_neg (not_le.mpr hlt)]
  simp only [pgRoundUp_eq]
  refine Spec.bind ((deallocLoop_spec _ h hold ?_ ?_).mono (fun d' k' hr => ?_) fun _ h => h)
  · simp only [firstPage, pgSize]
    omega
  · simp only [pages, firstPage, pgSize]
    omega
  · exact Spec.pure ⟨rfl, hr⟩

/-- What is left of a directory when the user's pages and the page tables below `i` are returned. -/
def PgDir.tabsFrom (d : PgDir) (i : ℕ) : Slot → Option ℕ
  | .dir => some d.frame
  | .tab j => if i ≤ j ∧ j < npdEntries then (d.pde j).map PgTab.frame else none
  | .page _ => none

/-- A directory that does not exist owns nothing. -/
def noSlot : Slot → Option ℕ := fun _ => none

theorem freeTabs_spec (n i : ℕ) (hi : i + n = npdEntries)
    (h : Owned ld.Frame busy k.freelist (d.tabsFrom i)) :
    Spec (freeTabs ld d n i) k (fun _ k' =>
      Owned ld.Frame busy k'.freelist (d.tabsFrom npdEntries) ∧ Kept busy k k') fun _ => False := by
  induction n generalizing i k with
  | zero =>
    obtain rfl : i = npdEntries := hi
    exact Spec.pure ⟨h, .refl k⟩
  | succ n ih =>
    have hlt : i < npdEntries := by omega
    rw [freeTabs]
    cases hd : d.pde i with
    | none =>
      have hsame (s : Slot) : d.tabsFrom (i + 1) s = d.tabsFrom i s := by
        cases s with
        | dir => rfl
        | page w => rfl
        | tab j =>
          by_cases hj : j = i
          · simp only [PgDir.tabsFrom, hj, hd, Option.map_none, ite_self]
          · have hiff : i + 1 ≤ j ↔ i ≤ j := by omega
            simp only [PgDir.tabsFrom, hiff]
      exact Spec.bind (Spec.pure (ih (i + 1) (by omega) (h.congr hsame)))
    | some t =>
      have hslot : d.tabsFrom i (.tab i) = some t.frame := by
        simp only [PgDir.tabsFrom, le_refl, hlt, and_self, if_true, hd, Option.map_some]
      have hsame (s : Slot) :
          d.tabsFrom (i + 1) s = Function.update (d.tabsFrom i) (.tab i) none s := by
        by_cases hs : s = .tab i
        · rw [hs, Function.update_self, PgDir.tabsFrom, if_neg (by omega)]
        · rw [Function.update_of_ne hs]
          cases s with
          | dir => rfl
          | page w => rfl
          | tab j =>
            have hj : j ≠ i := by simpa using hs
            have hiff : i + 1 ≤ j ↔ i ≤ j := by omega
            simp only [PgDir.tabsFrom, hiff]
      refine Spec.bind (kfree_spec (h.good _ _ hslot) ?_)
      have hfree := (h.free hslot).congr hsame
      refine (ih (k := ⟨_, _⟩) (i + 1) (by omega) hfree).mono (fun _ k' hr => ?_) fun _ h => h
      exact ⟨hr.1, (Kept.write (h.other _ _ hslot)).trans hr.2⟩

/-- `freevm` returns everything that the directory owns. -/
theorem freevm_spec (h : Fit ld busy d k) :
    Spec (freevm ld d) k (fun _ k' =>
      Owned ld.Frame busy k'.freelist noSlot ∧ Kept busy k k') fun _ => False := by
  unfold freevm
  refine Spec.bind ((deallocuvm_spec h le_rfl (by decide)).mono (fun r k₁ hr => ?_) fun _ h => h)
  obtain ⟨-, hr, hkept⟩ := hr
  have htabs (s : Slot) : r.2.tabsFrom 0 s = r.2.slot s := by
    cases s with
    | dir => rfl
    | tab j => simp only [PgDir.tabsFrom, PgDir.slot, Nat.zero_le, true_and]
    | page w =>
      simp only [PgDir.tabsFrom, PgDir.slot]
      by_cases hw : w < 2 ^ 19
      · rw [hr.gone w ?_ ?_, Option.map_none, ite_self]
        · simp only [firstPage, pgSize]
          omega
        · simp only [pgSize, kernBase]
          omega
      · rw [if_neg hw]
  have htab := freeTabs_spec npdEntries 0 (Nat.zero_add _) (hr.fit.congr htabs)
  refine Spec.bind (htab.mono (fun _ k₂ hr₂ => ?_) fun _ h => h)
  obtain ⟨howned, hkept₂⟩ := hr₂
  have hslot : r.2.tabsFrom npdEntries .dir = some r.2.frame := rfl
  refine kfree_spec (howned.good _ _ hslot) ⟨(howned.free hslot).congr fun s => ?_, ?_⟩
  · by_cases hs : s = .dir
    · rw [hs, Function.update_self]
      rfl
    · rw [Function.update_of_ne hs]
      cases s with
      | dir => exact absurd rfl hs
      | page w => rfl
      | tab j =>
        rw [PgDir.tabsFrom, if_neg (by omega)]
        rfl
  · exact (hkept.trans hkept₂).trans (Kept.write (howned.other _ _ hslot))

/-! ## `setupkvm` -/

theorem laid_kmap (ld : Linker) : Laid (2 ^ 19) (kmap ld) := by
  obtain ⟨data, kernelEnd, hext, haligned, hdata, hend⟩ := ld
  simp only [extMem, pgSize, physTop] at hext haligned hend
  refine ⟨2 ^ 19, 256, rfl, rfl, by decide, le_rfl, by decide, 2 ^ 19 + 256, (data - extMem) / pgSize,
    rfl, ?_, ?_, by decide, ?_, 2 ^ 19 + data / pgSize, (physTop - data) / pgSize, ?_, ?_, ?_, ?_, ?_,
    0xFE000, 8192, rfl, rfl, by decide, ?_, by decide, trivial⟩
  all_goals
    simp only [uint, extMem, pgSize, physTop, kernBase]
    omega

/-- The pages that a kernel half takes. -/
abbrev kernelPages : ℕ := 80

theorem tabsOf_kmap (ld : Linker) : tabsOf (kmap ld) < kernelPages := by
  obtain ⟨data, kernelEnd, hext, haligned, hdata, hend⟩ := ld
  simp only [extMem, pgSize, physTop] at hext haligned hend
  simp only [kmap, tabsOf, uint, extMem, pgSize, physTop, devSpace, kernelPages]
  omega

/-- The first page of the kernel half is present and closed to the user. -/
def PgDir.KernelPage (d : PgDir) : Prop := ∃ pa, d.page (2 ^ 19) = some ⟨pa, ⟨true, false⟩⟩

theorem PgDir.KernelPage.congr {d' : PgDir} (h : d.KernelPage)
    (heq : d'.page (2 ^ 19) = d.page (2 ^ 19)) : d'.KernelPage := by
  unfold PgDir.KernelPage
  rwa [heq]

theorem PgDir.KernelPage.ne_none (h : d.KernelPage) : d.page (2 ^ 19) ≠ none := by
  obtain ⟨pa, hpage⟩ := h
  rw [hpage]
  simp

/-- A directory with the kernel half only. -/
structure Fresh (ld : Linker) (busy : Set ℕ) (d : PgDir) (k : Kmem) : Prop where
  fit : Fit ld busy d k
  user : ∀ v < 2 ^ 19, d.page v = none
  kernel : d.KernelPage

theorem setupkvm_spec (h : Owned ld.Frame busy k.freelist noSlot) :
    Spec (setupkvm ld) k (fun r k' => match r with
      | none => Owned ld.Frame busy k'.freelist noSlot ∧ Kept busy k k' ∧
          k.freelist.length < kernelPages
      | some d => Fresh ld busy d k' ∧ Allocs k k' ∧
          k.freelist.length ≤ k'.freelist.length + kernelPages) fun _ => False := by
  have hbudget := tabsOf_kmap ld
  unfold setupkvm
  refine Spec.bind (kalloc_spec (fun hlist => ?_) fun f list hlist => ?_)
  · refine Spec.pure ⟨h, fun _ _ => rfl, ?_⟩
    rw [hlist]
    decide
  · have hlength : k.freelist.length = list.length + 1 := by rw [hlist, List.length_cons]
    have halloc : Allocs k ⟨list, Function.update k.mem f fun _ => 0⟩ := .cons hlist _
    have hbusy := halloc.keeps h
    rw [hlist] at h
    have hfit : Fit ld busy ⟨f, fun _ => none⟩ ⟨list, Function.update k.mem f fun _ => 0⟩ := by
      refine (h.alloc (s := .dir) rfl).congr fun s => ?_
      cases s with
      | dir => rw [Function.update_self]; rfl
      | tab i => rw [Function.update_of_ne (by simp)]; exact ite_self _
      | page v => rw [Function.update_of_ne (by simp)]; exact ite_self _
    refine Spec.bind (memset_spec ?_)
    rw [if_neg (by decide)]
    have hloop := mapKernel_spec (kmap ld) hfit le_rfl (by decide) (laid_kmap ld) fun w _ _ => rfl
    refine Spec.bind (hloop.mono (fun r k₁ hr => ?_) fun _ h => h)
    obtain ⟨ok, d⟩ := r
    obtain ⟨hr, hfirst⟩ := hr
    have hallocs := halloc.trans hr.allocs
    cases ok with
    | true =>
      have hcost := hr.cost rfl
      have hkernel := hfirst rfl _ rfl
      refine Spec.pure ⟨⟨hr.fit, fun v hv => hr.pages v hv, hkernel⟩, hallocs, ?_⟩
      simp only at hcost
      omega
    | false =>
      have hshort := hr.short rfl
      refine Spec.bind ((freevm_spec hr.fit).mono (fun _ k₂ hr₂ => ?_) fun _ h => h)
      refine Spec.pure ⟨hr₂.1, (hbusy.trans (hr.allocs.keeps hfit)).trans hr₂.2, ?_⟩
      simp only at hshort
      omega

/-! ## Adding pages -/

/-- The pages from `v` up to `sz` were absent and have been added. -/
structure Alloc (ld : Linker) (busy : Set ℕ) (v sz : ℕ) (d d' : PgDir) (k' : Kmem) : Prop where
  fit : Fit ld busy d' k'
  absent : ∀ w, v ≤ w → w * pgSize < sz → d.page w = none
  present : ∀ w, v ≤ w → w * pgSize < sz → ∃ f, d'.page w = some ⟨f, permWU⟩
  pages : ∀ w < 2 ^ 20, w < v ∨ sz ≤ w * pgSize → d'.page w = d.page w

/-- `n` pages from `v` up to `newsz` are added, or there is no memory for all of them and the pages
from `oldsz` on are returned. -/
def AllocResult (ld : Linker) (busy : Set ℕ) (v oldsz newsz n : ℕ) (d : PgDir) (k : Kmem)
    (r : ℕ × PgDir) (k' : Kmem) : Prop :=
  (r.1 = newsz ∧ Alloc ld busy v newsz d r.2 k' ∧
      k.freelist.length ≤ k'.freelist.length + 2 * n) ∨
    (r.1 = 0 ∧ Dealloc ld busy (firstPage oldsz) newsz d r.2 k' ∧ k.freelist.length < 2 * n)

/-- The panic `remap`, where a page to be mapped from `v` up to `sz` is there. -/
def RemapIn (v sz : ℕ) (d : PgDir) (e : Panic) : Prop :=
  e = .remap ∧ ∃ w, v ≤ w ∧ w * pgSize < sz ∧ d.page w ≠ none

/-- A page that was popped from the free list goes back. -/
theorem Fit.give {f : ℕ} (h : Fit ld (insert f busy) d k) (hf : f ∉ busy) (hframe : ld.Frame f)
    (page : Page) : Fit ld busy d ⟨f :: k.freelist, Function.update k.mem f page⟩ := by
  have hgive := Owned.give h (Set.mem_insert f busy) hframe
  rwa [Set.insert_sdiff_self_of_notMem hf] at hgive

theorem AllocResult.nil {oldsz newsz : ℕ} (h : Fit ld busy d k) (hge : newsz ≤ v * pgSize) :
    AllocResult ld busy v oldsz newsz n d k (newsz, d) k := by
  have hnone (w : ℕ) (hlo : v ≤ w) : ¬ w * pgSize < newsz :=
    not_lt.mpr (hge.trans (Nat.mul_le_mul_right pgSize hlo))
  exact .inl ⟨rfl, ⟨h, fun w hlo hhi => absurd hhi (hnone w hlo),
    fun w hlo hhi => absurd hhi (hnone w hlo), fun _ _ _ => rfl⟩, Nat.le_add_right _ _⟩

/-- Page `v` is mapped, and then the rest. -/
theorem AllocResult.cons {oldsz newsz f : ℕ} {d₁ : PgDir} {k₀ k₁ k' : Kmem} {r : ℕ × PgDir}
    (hnew : newsz < kernBase) (hv : firstPage oldsz ≤ v) (hlt : v * pgSize < newsz)
    (hmap : Mapped ld busy v f permWU d k₀ d₁ k₁)
    (hcost : k.freelist.length ≤ k₁.freelist.length + 2)
    (h : AllocResult ld busy (v + 1) oldsz newsz n d₁ k₁ r k') :
    AllocResult ld busy v oldsz newsz (n + 1) d k r k' := by
  have huser {w : ℕ} (hw : w * pgSize < newsz) : w < 2 ^ 20 := by
    simp only [pgSize, kernBase] at hw hnew
    omega
  rcases h with ⟨hsz, ⟨fit, absent, present, pages⟩, hcost'⟩ | ⟨hsz, ⟨fit, gone, pages⟩, hshort⟩
  · refine .inl ⟨hsz, ⟨fit, fun w hlo hhi => ?_, fun w hlo hhi => ?_, fun w hw hout => ?_⟩, ?_⟩
    · by_cases hw : w = v
      · rw [hw]
        exact hmap.absent
      · rw [← hmap.pages w (huser hhi) hw]
        exact absent w (by omega) hhi
    · by_cases hw : w = v
      · rw [hw, pages v (huser hlt) (.inl (Nat.lt_succ_self v))]
        exact ⟨f, hmap.present⟩
      · exact present w (by omega) hhi
    · have hne : w ≠ v := by
        rintro rfl
        omega
      rw [pages w hw (by omega), hmap.pages w hw hne]
    · omega
  · refine .inr ⟨hsz, ⟨fit, gone, fun w hw hout => ?_⟩, by omega⟩
    have hne : w ≠ v := by
      rintro rfl
      omega
    rw [pages w hw hout, hmap.pages w hw hne]

theorem allocLoop_spec {oldsz newsz : ℕ} (n : ℕ) (h : Fit ld busy d k) (hnew : newsz < kernBase)
    (hv : firstPage oldsz ≤ v) (hn : newsz ≤ (v + n) * pgSize) :
    Spec (allocLoop ld oldsz newsz n d (v * pgSize)) k (AllocResult ld busy v oldsz newsz n d k)
      (RemapIn v newsz d) := by
  induction n generalizing d k v with
  | zero => exact Spec.pure (.nil h hn)
  | succ n ih =>
    rw [allocLoop]
    split
    · next hlt =>
      have hv' : v < 2 ^ 19 := by
        simp only [pgSize, kernBase] at hlt hnew
        omega
      have hgrow : oldsz < newsz := by
        simp only [firstPage, pgSize] at hv hlt
        omega
      -- What `deallocuvm` does when memory runs out at page `v`.
      have hundo {busy' : Set ℕ} {k₁ : Kmem} (hfit : Fit ld busy' d k₁) :=
        deallocuvm_spec hfit hnew.le hgrow
      refine Spec.bind (kalloc_spec (fun hlist => ?_) fun f list hlist => ?_)
      · refine Spec.bind ((hundo h).mono (fun r k' ⟨_, hr, _⟩ => ?_) fun _ h => h.elim)
        refine Spec.pure (.inr ⟨rfl, hr, ?_⟩)
        rw [hlist]
        exact Nat.succ_pos _
      · obtain ⟨hframe, hbusy, hlength, htake⟩ := Owned.pop h hlist
        have hfit : Fit ld (insert f busy) d ⟨list, Function.update k.mem f fun _ => 0⟩ := htake
        have hmap := mappages_spec permWU hfit hbusy hframe (show v < 2 ^ 20 by omega)
          fun hle => absurd hv' (not_lt.mpr hle)
        refine Spec.bind (memset_spec (Spec.bind (hmap.mono (fun r k₁ hr => ?_) ?_)))
        · obtain ⟨ok, d₁⟩ := r
          cases ok with
          | true =>
            have hnext : v * pgSize + pgSize = (v + 1) * pgSize := (Nat.succ_mul v pgSize).symm
            have hfuel : newsz ≤ (v + 1 + n) * pgSize := by rwa [Nat.add_right_comm]
            have hcost : k.freelist.length ≤ k₁.freelist.length + 2 := by
              rw [hlength]
              exact Nat.succ_le_succ hr.cost
            simp only [if_true]
            rw [hnext]
            refine (ih (v := v + 1) hr.fit (by omega) hfuel).mono (fun r' k' hr' => ?_) ?_
            · exact hr'.cons hnew hv hlt hr hcost
            · rintro e ⟨rfl, w, hlo, hhi, hpage⟩
              refine ⟨rfl, w, by omega, hhi, ?_⟩
              rwa [← hr.pages w ?_ (by omega)]
              simp only [pgSize, kernBase] at hhi hnew
              omega
          | false =>
            obtain ⟨rfl, rfl, hempty⟩ := hr
            refine Spec.bind ((hundo hfit).mono (fun r k' ⟨_, hr, _⟩ => ?_) fun _ h => h.elim)
            refine Spec.bind (kfree_spec hframe (Spec.pure (.inr ⟨rfl, ?_, ?_⟩)))
            · exact ⟨Fit.give hr.fit hbusy hframe _, hr.gone, hr.pages⟩
            · simp only at hempty
              rw [hlength, hempty, List.length_nil]
              omega
        · rintro e ⟨rfl, hpage⟩
          exact ⟨rfl, v, le_rfl, hlt, hpage⟩
    · next hge => exact Spec.pure (.nil h (not_lt.mp hge))

theorem allocuvm_spec {oldsz newsz : ℕ} (h : Fit ld busy d k) (hnew : newsz < kernBase)
    (hle : oldsz ≤ newsz) :
    Spec (allocuvm ld d oldsz newsz) k
      (AllocResult ld busy (firstPage oldsz) oldsz newsz (pages (pgRoundUp oldsz) newsz) d k)
      (RemapIn (firstPage oldsz) newsz d) := by
  unfold allocuvm
  rw [if_neg (not_le.mpr hnew), if_neg (not_lt.mpr hle)]
  simp only [pgRoundUp_eq]
  apply allocLoop_spec _ h hnew le_rfl
  simp only [pages, firstPage, pgSize]
  omega

/-- Page `v` is absent, and the handler maps a new page there. -/
theorem allocPage_spec (h : Fit ld busy d k) (hv : v < 2 ^ 20)
    (hkernel : 2 ^ 19 ≤ v → d.page v ≠ none) :
    Spec (allocPage (v * pgSize) d) k (fun d' k' =>
      (∃ f k₀, Mapped ld busy v f permWU d k₀ d' k') ∧
        k.freelist.length ≤ k'.freelist.length + 2)
      fun e => (e = .remap ∧ d.page v ≠ none) ∨ (e ≠ .remap ∧ k.freelist.length < 2) := by
  unfold allocPage
  refine Spec.bind (kalloc_spec (fun hlist => ?_) fun f list hlist => ?_)
  · refine Spec.throw (.inr ⟨by decide, ?_⟩)
    rw [hlist]
    decide
  · obtain ⟨hframe, hbusy, hlength, htake⟩ := Owned.pop h hlist
    have hfit : Fit ld (insert f busy) d ⟨list, Function.update k.mem f fun _ => 0⟩ := htake
    have hmap := mappages_spec permWU hfit hbusy hframe hv hkernel
    refine Spec.bind (memset_spec (Spec.bind (hmap.mono (fun r k₁ hr => ?_) fun e he => .inl he)))
    obtain ⟨ok, d₁⟩ := r
    cases ok with
    | true =>
      refine Spec.pure ⟨⟨f, _, hr⟩, ?_⟩
      rw [hlength]
      exact Nat.succ_le_succ hr.cost
    | false =>
      refine Spec.throw (.inr ⟨by decide, ?_⟩)
      have hempty : list = [] := hr.2.2
      rw [hlength, hempty]
      decide

end SpringLabs.Xv6
