import SpringLabs.Effect
import Mathlib.Algebra.Group.Int.Defs
import Mathlib.Algebra.Group.Nat.Defs
import Mathlib.Logic.Function.Basic

/-!
# Physical memory and page tables

`kalloc.c` and `vm.c` of xv6 as Lab07 changes them.  A physical page is named by its physical
address, so that `V2P` and `P2V` disappear around `kalloc` and `kfree`, and its content is a
function from offsets to bytes.  A page directory is a tree: an absent entry is `none`, a present
one carries the address and the two permission bits that the code sets.  The functions that change
a page directory return it.

The loops count their iterations: `for(a = …; a < sz; a += PGSIZE)` gets one for every page between
`a` and `sz`.
-/

namespace SpringLabs.Xv6

/-! ## Addresses -/

abbrev pgSize : ℕ := 4096
abbrev npdEntries : ℕ := 1024
abbrev kernBase : ℕ := 0x80000000
abbrev extMem : ℕ := 0x100000
abbrev physTop : ℕ := 0xE000000
abbrev devSpace : ℕ := 0xFE000000
abbrev kernLink : ℕ := kernBase + extMem

/-- The value of an `int` or of an arithmetic expression as a `uint`. -/
def uint (n : ℤ) : ℕ := (n % 2 ^ 32).toNat

/-- The value of a `uint` as an `int`. -/
def int (n : ℕ) : ℤ := Int.bmod n (2 ^ 32)

theorem int_of_lt {n : ℕ} (hn : n < 2 ^ 31) : int n = n := by
  refine Int.bmod_eq_of_le_mul_two ?_ ?_ <;> omega

theorem int_ne_neg_one {n : ℕ} (hn : n ≤ kernBase) : int n ≠ -1 := by
  rcases Nat.lt_or_eq_of_le hn with hlt | rfl
  · rw [int_of_lt hlt]
    omega
  · decide

def pdx (va : ℕ) : ℕ := va / 2 ^ 22 % 1024
def ptx (va : ℕ) : ℕ := va / 2 ^ 12 % 1024
def pgRoundUp (sz : ℕ) : ℕ := (sz + pgSize - 1) / pgSize * pgSize
def pgRoundDown (a : ℕ) : ℕ := a / pgSize * pgSize

/-- `PGADDR(d, 0, 0)`. -/
def pgAddr (d : ℕ) : ℕ := d * 2 ^ 22

/-- The number of iterations of a loop over the pages from `a` up to `sz`. -/
def pages (a sz : ℕ) : ℕ := (sz - a + pgSize - 1) / pgSize

/-- The symbols that `kernel.ld` provides, as physical addresses. -/
structure Linker where
  data : ℕ
  kernelEnd : ℕ
  extMem_lt : extMem < data
  aligned : data % pgSize = 0
  data_le : data ≤ kernelEnd
  end_lt : kernelEnd < physTop

/-! ## `kalloc.c` -/

/-- The content of a physical page. -/
abbrev Page := ℕ → ℕ

/-- The free list and the content of physical memory. -/
structure Kmem where
  freelist : List ℕ
  mem : ℕ → Page

/-- The panics of the functions below. -/
inductive Panic where
  | kfree
  | remap
  | physTopTooHigh
  | clearpteu
  | loaduvmAligned
  | loaduvmExist
  | copyuvmExist
  | copyuvmPresent
  | segmentationFault
  | noMemoryForPromisedPage
  | mappagesUnsuccessful
  deriving DecidableEq

/-- Kernel code that uses the allocator. -/
abbrev Kernel (α : Type) := Comp Kmem Panic α

def kalloc : Kernel (Option ℕ) := fun k =>
  match k.freelist with
  | [] => .ok (none, k)
  | r :: next => .ok (some r, { k with freelist := next })

def memset (pa c : ℕ) : Kernel Unit := fun k =>
  .ok ((), { k with mem := Function.update k.mem pa fun _ => c })

def memmove (dst src : ℕ) : Kernel Unit := fun k =>
  .ok ((), { k with mem := Function.update k.mem dst (k.mem src) })

/-- The physical pages that `kfree` accepts. -/
def Linker.Frame (ld : Linker) (pa : ℕ) : Prop :=
  pa % pgSize = 0 ∧ ld.kernelEnd ≤ pa ∧ pa < physTop

instance (ld : Linker) (pa : ℕ) : Decidable (ld.Frame pa) :=
  inferInstanceAs (Decidable (_ ∧ _ ∧ _))

def kfree (ld : Linker) (pa : ℕ) : Kernel Unit := do
  if ¬ ld.Frame pa then throwThe Panic .kfree
  memset pa 1
  fun k => .ok ((), { k with freelist := pa :: k.freelist })

/-! ## Page tables -/

/-- The permission bits `PTE_W` and `PTE_U`. -/
structure Perm where
  write : Bool
  user : Bool
  deriving DecidableEq

/-- A present page table entry. -/
structure Pte where
  pa : ℕ
  perm : Perm
  deriving DecidableEq

/-- A page table in the physical page `frame`. -/
structure PgTab where
  frame : ℕ
  pte : ℕ → Option Pte

/-- A page directory in the physical page `frame`. -/
structure PgDir where
  frame : ℕ
  pde : ℕ → Option PgTab

/-- The entry for `va`, where there is a page table for it. -/
def PgDir.pte (d : PgDir) (va : ℕ) : Option Pte := (d.pde (pdx va)).bind fun t => t.pte (ptx va)

/-- Overwrite the entry for `va` in its page table. -/
def PgDir.setPte (d : PgDir) (va : ℕ) (pte : Option Pte) : PgDir :=
  match d.pde (pdx va) with
  | none => d
  | some t =>
    { d with
      pde := Function.update d.pde (pdx va)
        (some { t with pte := Function.update t.pte (ptx va) pte }) }

/-- Install an empty page table. -/
def PgDir.setPde (d : PgDir) (i frame : ℕ) : PgDir :=
  { d with pde := Function.update d.pde i (some { frame := frame, pte := fun _ => none }) }

/-- `none` where the source returns 0, else the directory, in which the page table for `va` is
present. -/
def walkpgdir (pgdir : PgDir) (va : ℕ) (alloc : Bool) : Kernel (Option PgDir) :=
  match pgdir.pde (pdx va) with
  | some _ => pure (some pgdir)
  | none =>
    if alloc then do
      match ← kalloc with
      | none => pure none
      | some pgtab =>
        memset pgtab 0
        pure (some (pgdir.setPde (pdx va) pgtab))
    else pure none

/-- The loop of `mappages`, with the number of pages left. -/
def mapLoop (perm : Perm) : ℕ → PgDir → ℕ → ℕ → Kernel (Bool × PgDir)
  | 0, pgdir, _, _ => pure (true, pgdir)
  | n + 1, pgdir, a, pa => do
    match ← walkpgdir pgdir a true with
    | none => pure (false, pgdir)
    | some pgdir =>
      match pgdir.pte a with
      | some _ => throwThe Panic .remap
      | none => mapLoop perm n (pgdir.setPte a (some ⟨pa, perm⟩)) (a + pgSize) (pa + pgSize)

/-- `false` where the source returns -1. -/
def mappages (pgdir : PgDir) (va size pa : ℕ) (perm : Perm) : Kernel (Bool × PgDir) :=
  let a := pgRoundDown va
  let last := pgRoundDown (uint (va + size - 1))
  mapLoop perm (uint (last - a) / pgSize + 1) pgdir a pa

/-- The loop of `deallocuvm`. -/
def deallocLoop (ld : Linker) (oldsz : ℕ) : ℕ → PgDir → ℕ → Kernel PgDir
  | 0, pgdir, _ => pure pgdir
  | n + 1, pgdir, a =>
    if a < oldsz then do
      match ← walkpgdir pgdir a false with
      | none => deallocLoop ld oldsz n pgdir (pgAddr (pdx a + 1))
      | some pgdir =>
        match pgdir.pte a with
        | none => deallocLoop ld oldsz n pgdir (a + pgSize)
        | some pte =>
          if pte.pa = 0 then throwThe Panic .kfree
          kfree ld pte.pa
          deallocLoop ld oldsz n (pgdir.setPte a none) (a + pgSize)
    else pure pgdir

def deallocuvm (ld : Linker) (pgdir : PgDir) (oldsz newsz : ℕ) : Kernel (ℕ × PgDir) :=
  if newsz ≥ oldsz then pure (oldsz, pgdir)
  else do
    let a := pgRoundUp newsz
    let pgdir ← deallocLoop ld oldsz (pages a oldsz) pgdir a
    pure (newsz, pgdir)

/-- The loop of `freevm`, from page table `i` on, with the number of page tables left. -/
def freeTabs (ld : Linker) (pgdir : PgDir) : ℕ → ℕ → Kernel Unit
  | 0, _ => pure ()
  | n + 1, i => do
    match pgdir.pde i with
    | none => pure ()
    | some t => kfree ld t.frame
    freeTabs ld pgdir n (i + 1)

def freevm (ld : Linker) (pgdir : PgDir) : Kernel Unit := do
  let (_, pgdir) ← deallocuvm ld pgdir kernBase 0
  freeTabs ld pgdir npdEntries 0
  kfree ld pgdir.frame

/-! ## The kernel half -/

/-- An entry of the table `kmap`. -/
structure Kmap where
  virt : ℕ
  physStart : ℕ
  physEnd : ℕ
  perm : Perm

def kmap (ld : Linker) : List Kmap :=
  [⟨kernBase, 0, extMem, ⟨true, false⟩⟩,
   ⟨kernLink, extMem, ld.data, ⟨false, false⟩⟩,
   ⟨kernBase + ld.data, ld.data, physTop, ⟨true, false⟩⟩,
   ⟨devSpace, devSpace, 0, ⟨true, false⟩⟩]

/-- The loop of `setupkvm`. -/
def mapKernel : List Kmap → PgDir → Kernel (Bool × PgDir)
  | [], pgdir => pure (true, pgdir)
  | k :: ks, pgdir => do
    let (ok, pgdir) ← mappages pgdir k.virt (uint (k.physEnd - k.physStart)) k.physStart k.perm
    if ok then mapKernel ks pgdir else pure (false, pgdir)

def setupkvm (ld : Linker) : Kernel (Option PgDir) := do
  match ← kalloc with
  | none => pure none
  | some frame =>
    memset frame 0
    if kernBase + physTop > devSpace then throwThe Panic .physTopTooHigh
    let (ok, pgdir) ← mapKernel (kmap ld) { frame := frame, pde := fun _ => none }
    if ok then pure (some pgdir)
    else do
      freevm ld pgdir
      pure none

/-! ## The user half -/

/-- The permissions of the user's pages. -/
def permWU : Perm := ⟨true, true⟩

/-- The loop of `allocuvm`. -/
def allocLoop (ld : Linker) (oldsz newsz : ℕ) : ℕ → PgDir → ℕ → Kernel (ℕ × PgDir)
  | 0, pgdir, _ => pure (newsz, pgdir)
  | n + 1, pgdir, a =>
    if a < newsz then do
      match ← kalloc with
      | none =>
        let (_, pgdir) ← deallocuvm ld pgdir newsz oldsz
        pure (0, pgdir)
      | some mem =>
        memset mem 0
        let (ok, pgdir) ← mappages pgdir a pgSize mem permWU
        if ok then allocLoop ld oldsz newsz n pgdir (a + pgSize)
        else do
          let (_, pgdir) ← deallocuvm ld pgdir newsz oldsz
          kfree ld mem
          pure (0, pgdir)
    else pure (newsz, pgdir)

def allocuvm (ld : Linker) (pgdir : PgDir) (oldsz newsz : ℕ) : Kernel (ℕ × PgDir) :=
  if newsz ≥ kernBase then pure (0, pgdir)
  else if newsz < oldsz then pure (oldsz, pgdir)
  else
    let a := pgRoundUp oldsz
    allocLoop ld oldsz newsz (pages a newsz) pgdir a

def clearpteu (pgdir : PgDir) (uva : ℕ) : Kernel PgDir := do
  match ← walkpgdir pgdir uva false with
  | none => throwThe Panic .clearpteu
  | some pgdir =>
    pure (pgdir.setPte uva ((pgdir.pte uva).map fun pte => { pte with perm.user := false }))

/-- Read `n` bytes of a file from `off` on into the page `pa`; the number of bytes read. -/
def readi (file : List ℕ) (pa off n : ℕ) : Kernel ℕ := fun k =>
  let m := min n (file.length - off)
  let page : Page := fun j => if j < m then file.getD (off + j) 0 else k.mem pa j
  .ok (m, { k with mem := Function.update k.mem pa page })

/-- The loop of `loaduvm`, `false` where the source returns -1. -/
def loadLoop (pgdir : PgDir) (addr : ℕ) (file : List ℕ) (offset sz : ℕ) :
    ℕ → ℕ → Kernel Bool
  | 0, _ => pure true
  | c + 1, i =>
    if i < sz then do
      match ← walkpgdir pgdir (addr + i) false with
      | none => throwThe Panic .loaduvmExist
      | some pgdir =>
        let pa := match pgdir.pte (addr + i) with
          | none => 0
          | some pte => pte.pa
        let n := if sz - i < pgSize then sz - i else pgSize
        let m ← readi file pa (offset + i) n
        if m ≠ n then pure false else loadLoop pgdir addr file offset sz c (i + pgSize)
    else pure true

def loaduvm (pgdir : PgDir) (addr : ℕ) (file : List ℕ) (offset sz : ℕ) : Kernel Bool := do
  if addr % pgSize ≠ 0 then throwThe Panic .loaduvmAligned
  loadLoop pgdir addr file offset sz (pages 0 sz) 0

/-- The loop of `copyuvm`, `false` where the source goes to `bad`. -/
def copyLoop (ld : Linker) (pgdir : PgDir) (sz : ℕ) : ℕ → PgDir → ℕ → Kernel (Bool × PgDir)
  | 0, d, _ => pure (true, d)
  | n + 1, d, i =>
    if i < sz then do
      match ← walkpgdir pgdir i false with
      | none => throwThe Panic .copyuvmExist
      | some pgdir =>
        match pgdir.pte i with
        | none => throwThe Panic .copyuvmPresent
        | some pte =>
          match ← kalloc with
          | none => pure (false, d)
          | some mem =>
            memmove mem pte.pa
            let (ok, d) ← mappages d i pgSize mem pte.perm
            if ok then copyLoop ld pgdir sz n d (i + pgSize)
            else do
              kfree ld mem
              pure (false, d)
    else pure (true, d)

def copyuvm (ld : Linker) (pgdir : PgDir) (sz : ℕ) : Kernel (Option PgDir) := do
  match ← setupkvm ld with
  | none => pure none
  | some d =>
    let (ok, d) ← copyLoop ld pgdir sz (pages 0 sz) d 0
    if ok then pure (some d)
    else do
      freevm ld d
      pure none

def allocPage (addr : ℕ) (pgdir : PgDir) : Kernel PgDir := do
  match ← kalloc with
  | none => throwThe Panic .noMemoryForPromisedPage
  | some mem =>
    memset mem 0
    let (ok, pgdir) ← mappages pgdir addr pgSize mem permWU
    if ok then pure pgdir else throwThe Panic .mappagesUnsuccessful

end SpringLabs.Xv6
