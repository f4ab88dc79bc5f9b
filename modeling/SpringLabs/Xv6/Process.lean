import SpringLabs.Xv6.Memory
import SpringLabs.Interleave.Run

/-!
# Processes with lazily allocated memory

What `exec.c`, `proc.c`, `sysproc.c` and `trap.c` of Lab07 Part-B do to the memory of a process:
its page directory and its size.  The rest of `struct proc` is left out.

The system of one process starts when an `exec` has completed.  Its events are the calls of
`sys_mmap` and `sys_sbrk`, the user's loads and stores, with the page faults they cause, and what
the rest of the kernel does meanwhile: it takes pages from the allocator, returns them and writes
to its own.  A panic halts the machine.
-/

namespace SpringLabs.Xv6

open Interleave

/-- The memory of a process. -/
structure Proc where
  pgdir : PgDir
  sz : ℕ

/-! ## `exec.c` -/

/-- A program header of an ELF file. -/
structure ProgHdr where
  type : ℕ
  off : ℕ
  vaddr : ℕ
  filesz : ℕ
  memsz : ℕ

abbrev elfProgLoad : ℕ := 1

/-- The loop of `exec` over the program headers; no size where the source goes to `bad`. -/
def loadSegments (ld : Linker) (file : List ℕ) :
    List ProgHdr → PgDir → ℕ → Kernel (Option ℕ × PgDir)
  | [], pgdir, sz => pure (some sz, pgdir)
  | ph :: phs, pgdir, sz =>
    if ph.type ≠ elfProgLoad then loadSegments ld file phs pgdir sz
    else if ph.memsz < ph.filesz then pure (none, pgdir)
    else if uint (ph.vaddr + ph.memsz) < ph.vaddr then pure (none, pgdir)
    else do
      let (sz, pgdir) ← allocuvm ld pgdir sz (uint (ph.vaddr + ph.memsz))
      if sz = 0 then pure (none, pgdir)
      else if ph.vaddr % pgSize ≠ 0 then pure (none, pgdir)
      else do
        let ok ← loaduvm pgdir ph.vaddr file ph.off ph.filesz
        if ok then loadSegments ld file phs pgdir sz else pure (none, pgdir)

/-- The new image of a process, `none` where the source returns -1.  The arguments, which `copyout`
then puts on the new stack, are left to the user's stores, and freeing the old image to the rest of
the kernel. -/
def exec (ld : Linker) (file : List ℕ) (phs : List ProgHdr) : Kernel (Option Proc) := do
  match ← setupkvm ld with
  | none => pure none
  | some pgdir =>
    let (sz, pgdir) ← loadSegments ld file phs pgdir 0
    match sz with
    | none =>
      freevm ld pgdir
      pure none
    | some sz =>
      let sz := pgRoundUp sz
      let (sz, pgdir) ← allocuvm ld pgdir sz (sz + 2 * pgSize)
      if sz = 0 then do
        freevm ld pgdir
        pure none
      else do
        let pgdir ← clearpteu pgdir (sz - 2 * pgSize)
        pure (some ⟨pgdir, sz⟩)

/-! ## `proc.c` -/

/-- The result of `growproc` and the process after it. -/
def growproc (ld : Linker) (n : ℤ) (p : Proc) : Kernel (ℤ × Proc) :=
  if n > 0 then do
    let (sz, pgdir) ← allocuvm ld p.pgdir p.sz (uint (p.sz + n))
    if sz = 0 then pure (-1, { p with pgdir := pgdir }) else pure (0, ⟨pgdir, sz⟩)
  else if n < 0 then do
    let (sz, pgdir) ← deallocuvm ld p.pgdir p.sz (uint (p.sz + n))
    if sz = 0 then pure (-1, { p with pgdir := pgdir }) else pure (0, ⟨pgdir, sz⟩)
  else pure (0, p)

/-- The child's kernel stack and memory, `none` where `fork` returns -1.  `unused` says whether
`allocproc` finds an unused entry in the process table. -/
def fork (ld : Linker) (unused : Bool) (p : Proc) : Kernel (Option (ℕ × Proc)) :=
  if unused then do
    match ← kalloc with
    | none => pure none
    | some kstack =>
      match ← copyuvm ld p.pgdir p.sz with
      | none =>
        kfree ld kstack
        pure none
      | some pgdir => pure (some (kstack, ⟨pgdir, p.sz⟩))
  else pure none

/-! ## `sysproc.c` -/

def sysSbrk (ld : Linker) (n : ℤ) (p : Proc) : Kernel (ℤ × Proc) := do
  let (r, p') ← growproc ld n p
  if r < 0 then pure (-1, p') else pure (int p.sz, p')

def sysMmap (n : ℤ) (p : Proc) : ℤ × Proc :=
  if n ≤ 0 ∨ n % pgSize ≠ 0 ∨ uint (n + p.sz) > kernBase then (0, p)
  else (int p.sz, { p with sz := uint (p.sz + n) })

/-! ## `trap.c` -/

/-- The case `T_PGFLT` of `trap`. -/
def trapPgflt (cr2 : ℕ) (p : Proc) : Kernel Proc := do
  let addr := pgRoundDown cr2
  if addr > p.sz then throwThe Panic .segmentationFault
  let pgdir ← allocPage addr p.pgdir
  pure { p with pgdir := pgdir }

/-- Whether the processor lets the user access `va`. -/
def Proc.Accessible (p : Proc) (va : ℕ) (write : Bool) : Prop :=
  ∃ pte ∈ p.pgdir.pte va, pte.perm.user ∧ (write → pte.perm.write)

instance (p : Proc) (va : ℕ) (write : Bool) : Decidable (p.Accessible va write) :=
  match h : p.pgdir.pte va with
  | none => isFalse fun ⟨_, hpte, _⟩ => by rw [h] at hpte; cases hpte
  | some pte =>
    decidable_of_iff (pte.perm.user ∧ (write → pte.perm.write)) <| by
      unfold Proc.Accessible
      rw [h]
      exact ⟨fun hperm => ⟨pte, rfl, hperm⟩, fun ⟨_, rfl, hperm⟩ => hperm⟩

/-- A load by the user: it succeeds or faults. -/
def load (va : ℕ) (p : Proc) : Kernel Proc :=
  if p.Accessible va false then pure p else trapPgflt va p

/-- A store of a byte by the user: it succeeds or faults. -/
def store (va byte : ℕ) (p : Proc) : Kernel Proc :=
  if p.Accessible va true then fun k =>
    match p.pgdir.pte va with
    | none => .ok (p, k)
    | some pte =>
      .ok (p, { k with
        mem := Function.update k.mem pte.pa
          (Function.update (k.mem pte.pa) (va % pgSize) byte) })
  else trapPgflt va p

/-! ## The system of one process -/

/-- The process, the physical pages in use elsewhere, and the allocator. -/
structure World where
  proc : Proc
  busy : List ℕ
  kmem : Kmem

inductive Event where
  | mmap (n : ℤ)
  | sbrk (n : ℤ)
  | load (va : ℕ)
  | store (va byte : ℕ)
  | take
  | give (pa : ℕ)
  | scribble (pa : ℕ) (page : Page)

/-- The state after a computation that returns a new process. -/
def World.run (w : World) (x : Kernel Proc) : Except Panic World :=
  match x w.kmem with
  | .ok (p, k) => .ok { w with proc := p, kmem := k }
  | .error e => .error e

/-- The effect of an event; `int` arguments and `uint` addresses are in range. -/
def World.next (ld : Linker) (w : World) : Event → Option (Except Panic World)
  | .mmap n =>
    if -2 ^ 31 ≤ n ∧ n < 2 ^ 31 then some (w.run (pure (sysMmap n w.proc).2)) else none
  | .sbrk n =>
    if -2 ^ 31 ≤ n ∧ n < 2 ^ 31 then some (w.run (Prod.snd <$> sysSbrk ld n w.proc)) else none
  | .load va => if va < 2 ^ 32 then some (w.run (Xv6.load va w.proc)) else none
  | .store va byte => if va < 2 ^ 32 then some (w.run (Xv6.store va byte w.proc)) else none
  | .take =>
    match w.kmem.freelist with
    | [] => none
    | r :: next =>
      some (.ok { w with busy := r :: w.busy, kmem := { w.kmem with freelist := next } })
  | .give pa =>
    if pa ∈ w.busy ∧ ld.Frame pa then
      some ({ w with busy := w.busy.filter (· ≠ pa) }.run (do kfree ld pa; pure w.proc))
    else none
  | .scribble pa page =>
    if pa ∈ w.busy then
      some (.ok { w with kmem := { w.kmem with mem := Function.update w.kmem.mem pa page } })
    else none

/-- The allocator's free list consists of distinct pages that nobody uses. -/
def Kmem.WellFormed (ld : Linker) (busy : List ℕ) (k : Kmem) : Prop :=
  k.freelist.Nodup ∧ ∀ pa ∈ k.freelist, ld.Frame pa ∧ pa ∉ busy

/-- A process that has just completed an `exec`, from any well-formed state of the allocator. -/
def Started (ld : Linker) (w : World) : Prop :=
  ∃ file phs k, k.WellFormed ld w.busy ∧ exec ld file phs k = .ok (some w.proc, w.kmem)

/-- The states are the worlds and the panics. -/
def system (ld : Linker) : System (Except Panic World) Event where
  init s := ∃ w, Started ld w ∧ s = .ok w
  next s e := match s with
    | .ok w => w.next ld e
    | .error _ => none

end SpringLabs.Xv6
