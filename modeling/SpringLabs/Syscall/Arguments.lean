import SpringLabs.Effect
import Mathlib.Algebra.Group.Int.Defs
import Mathlib.Algebra.Group.Nat.Defs
import Mathlib.Data.Int.Notation

/-!
# The arguments of a system call

`fetchint`, `fetchstr`, `argint`, `argptr` and `argstr` of `syscall.c` in Lab04&05.  They read the
memory of the calling process, which the kernel addresses directly: an access to an address that is
not mapped is a page fault of the kernel and panics.  What is written through a pointer that the
process has passed is kept in `written`.
-/

namespace SpringLabs.Syscall

abbrev kernBase : ℕ := 0x80000000

/-- The value of an `int` or of an arithmetic expression as a `uint`. -/
def uint (n : ℤ) : ℕ := (n % 2 ^ 32).toNat

/-- Bytes by their virtual addresses, `none` where nothing is mapped. -/
abbrev Memory := ℕ → Option (BitVec 8)

/-- The calling process: its size, which `allocuvm` keeps within the user half, and the stack pointer
of its trap frame. -/
structure Proc where
  sz : ℕ
  esp : ℕ
  sz_le : sz ≤ kernBase

/-- The memory and the addresses written to, in order. -/
structure State where
  mem : Memory
  written : List ℕ

/-- A page fault in the kernel. -/
inductive Panic where
  | trap
  deriving DecidableEq

/-- Kernel code that accesses the memory of the process. -/
abbrev Kernel (α : Type) := Comp State Panic α

/-- The `int` at an address, low byte first. -/
def Memory.int (mem : Memory) (a : ℕ) : Option ℤ :=
  match mem a, mem (a + 1), mem (a + 2), mem (a + 3) with
  | some b₀, some b₁, some b₂, some b₃ => some (b₃ ++ b₂ ++ b₁ ++ b₀ : BitVec 32).toInt
  | _, _, _, _ => none

def readByte (a : ℕ) : Kernel (BitVec 8) := fun s =>
  match s.mem a with
  | none => .error .trap
  | some b => .ok (b, s)

def readInt (a : ℕ) : Kernel ℤ := fun s =>
  match s.mem.int a with
  | none => .error .trap
  | some v => .ok (v, s)

/-- The `n` bytes from `a` on are mapped. -/
def Memory.Mapped (mem : Memory) (a n : ℕ) : Prop := ∀ j < n, (mem (a + j)).isSome

instance (mem : Memory) (a n : ℕ) : Decidable (mem.Mapped a n) :=
  inferInstanceAs (Decidable (∀ j < n, _))

/-- The memory after the four bytes of an `int` have been stored at `a`. -/
def Memory.store (mem : Memory) (a : ℕ) (v : ℤ) : Memory := fun b =>
  if a ≤ b ∧ b < a + 4 then some (BitVec.extractLsb' (8 * (b - a)) 8 (BitVec.ofInt 32 v)) else mem b

def writeInt (a : ℕ) (v : ℤ) : Kernel Unit := fun s =>
  if s.mem.Mapped a 4 then
    .ok ((), ⟨s.mem.store a v, s.written ++ [a, a + 1, a + 2, a + 3]⟩)
  else .error .trap

/-! ## `syscall.c` -/

/-- `none` where the source returns -1. -/
def fetchint (p : Proc) (addr : ℕ) : Kernel (Option ℤ) :=
  if addr ≥ p.sz ∨ uint (addr + 4) > p.sz then pure none
  else some <$> readInt addr

/-- The loop of `fetchstr`, with the number of bytes left: the address of the first NUL. -/
def fetchstrLoop (ep : ℕ) : ℕ → ℕ → Kernel (Option ℕ)
  | 0, _ => pure none
  | n + 1, s =>
    if s < ep then do
      if (← readByte s) = 0 then pure (some s) else fetchstrLoop ep n (s + 1)
    else pure none

/-- The pointer and the length of the string, `none` where the source returns -1. -/
def fetchstr (p : Proc) (addr : ℕ) : Kernel (Option (ℕ × ℕ)) :=
  if addr ≥ p.sz then pure none
  else do
    match ← fetchstrLoop p.sz (p.sz - addr) addr with
    | none => pure none
    | some s => pure (some (addr, s - addr))

def argint (p : Proc) (n : ℕ) : Kernel (Option ℤ) := fetchint p (uint (p.esp + 4 + 4 * n))

def argptr (p : Proc) (n : ℕ) (size : ℤ) : Kernel (Option ℕ) := do
  match ← argint p n with
  | none => pure none
  | some i =>
    if size < 0 ∨ uint i ≥ p.sz ∨ uint (uint i + size) > p.sz then pure none
    else pure (some (uint i))

def argstr (p : Proc) (n : ℕ) : Kernel (Option (ℕ × ℕ)) := do
  match ← argint p n with
  | none => pure none
  | some addr => fetchstr p (uint addr)

/-! ## What they accept -/

variable {p : Proc} {s : State} {n a e ep : ℕ} {v : ℤ}

/-- The `n`-th argument lies within the memory of the process and is `v`. -/
def Proc.Arg (p : Proc) (mem : Memory) (n : ℕ) (v : ℤ) : Prop :=
  uint (p.esp + 4 + 4 * n) < p.sz ∧ uint (uint (p.esp + 4 + 4 * n) + 4) ≤ p.sz ∧
    mem.int (uint (p.esp + 4 + 4 * n)) = some v

/-- There is a NUL between `a` and `ep`, up to which the memory is mapped. -/
def Memory.Ends (mem : Memory) (a ep : ℕ) : Prop :=
  ∃ e, a ≤ e ∧ e < ep ∧ mem e = some 0 ∧ ∀ b, a ≤ b → b < e → (mem b).isSome

theorem argint_ok (h : p.Arg s.mem n v) : argint p n s = .ok (some v, s) := by
  have ⟨hlt, hle, hint⟩ := h
  unfold argint fetchint
  rw [if_neg (by omega)]
  show (readInt _ s).bind _ = _
  rw [readInt, hint]
  rfl

theorem argint_spec (p : Proc) (n : ℕ) (s : State) :
    Spec (argint p n) s (fun r t => t = s ∧ ∀ v, r = some v → p.Arg s.mem n v) fun _ => True := by
  unfold argint fetchint
  refine Spec.ite (fun _ => Spec.pure ⟨rfl, nofun⟩) fun hin => ?_
  rw [not_or, Nat.not_le, Nat.not_lt] at hin
  rw [map_eq_pure_bind]
  apply Spec.bind
  cases hint : s.mem.int (uint (p.esp + 4 + 4 * n)) with
  | none => exact Spec.intro (fun a t hx => by rw [readInt, hint] at hx; cases hx) fun _ _ => trivial
  | some w =>
    have hread : readInt (uint (p.esp + 4 + 4 * n)) s = .ok (w, s) := by rw [readInt, hint]
    refine Spec.ok hread (Spec.pure ⟨rfl, fun v hv => ?_⟩)
    cases hv
    exact ⟨hin.1, hin.2, hint⟩

/-- A block that `argptr` accepts lies within the memory of the process. -/
theorem argptr_within (p : Proc) (n : ℕ) {size : ℕ} (hsize : size < 2 ^ 31) (s : State) :
    Spec (argptr p n size) s
      (fun r t => t = s ∧ ∀ addr, r = some addr → addr < p.sz ∧ addr + size ≤ p.sz) fun _ => True := by
  refine Spec.bind ((argint_spec p n s).mono (fun r t hr => ?_) fun _ h => h)
  cases r with
  | none => exact Spec.pure ⟨hr.1, nofun⟩
  | some i =>
    refine Spec.ite (fun _ => Spec.pure ⟨hr.1, nofun⟩) fun hin => Spec.pure ⟨hr.1, fun addr h => ?_⟩
    cases h
    have hle := p.sz_le
    have hwrap : uint (uint i + size) = (uint i + size) % 2 ^ 32 := by
      simp only [uint]
      omega
    rw [hwrap] at hin
    simp only [kernBase] at hle
    omega

/-- The loop finds a NUL that is there. -/
theorem fetchstrLoop_ok (c : ℕ) (h : s.mem.Ends a ep) (hc : ep ≤ a + c) :
    ∃ e, fetchstrLoop ep c a s = .ok (some e, s) := by
  induction c generalizing a with
  | zero =>
    have ⟨e, hlo, hhi, _⟩ := h
    omega
  | succ c ih =>
    have ⟨e, hlo, hhi, hzero, hmapped⟩ := h
    have hbyte : ∃ b, s.mem a = some b := by
      by_cases hae : a = e
      · exact ⟨0, by rw [hae, hzero]⟩
      · exact Option.isSome_iff_exists.mp (hmapped a (Nat.le_refl a) (by omega))
    have ⟨b, hb⟩ := hbyte
    have hstep : fetchstrLoop ep (c + 1) a s =
        if b = 0 then .ok (some a, s) else fetchstrLoop ep c (a + 1) s := by
      rw [fetchstrLoop, if_pos (by omega)]
      show (readByte a s).bind _ = _
      rw [readByte, hb]
      show (if b = 0 then _ else _ : Kernel (Option ℕ)) s = _
      split_ifs <;> rfl
    rw [hstep]
    by_cases hzero' : b = 0
    · exact ⟨a, if_pos hzero'⟩
    · rw [if_neg hzero']
      have hne : a ≠ e := fun hae => hzero' (Option.some.inj (by rw [← hb, hae, hzero]))
      apply ih
      · exact ⟨e, by omega, hhi, hzero, fun b' hlo' => hmapped b' (by omega)⟩
      · omega

theorem fetchstrLoop_spec (c : ℕ) (s : State) : Spec (fetchstrLoop ep c a) s
    (fun r t => t = s ∧ (r ≠ none → s.mem.Ends a ep)) fun _ => True := by
  induction c generalizing a with
  | zero => exact Spec.pure ⟨rfl, fun h => absurd rfl h⟩
  | succ c ih =>
    rw [fetchstrLoop]
    refine Spec.ite (fun hlt => Spec.bind ?_) fun _ => Spec.pure ⟨rfl, fun h => absurd rfl h⟩
    cases hb : s.mem a with
    | none => exact Spec.intro (fun _ _ hx => by rw [readByte, hb] at hx; cases hx) fun _ _ => trivial
    | some b =>
      have hread : readByte a s = .ok (b, s) := by rw [readByte, hb]
      refine Spec.ok hread (Spec.ite (fun hzero => Spec.pure ⟨rfl, fun _ => ?_⟩) fun _ => ?_)
      · exact ⟨a, Nat.le_refl a, hlt, by rw [hb, hzero], fun b hlo hhi => by omega⟩
      · refine ih.mono (fun r t hr => ⟨hr.1, fun hsome => ?_⟩) fun _ h => h
        have ⟨e, hlo, hhi, hzero, hmapped⟩ := hr.2 hsome
        refine ⟨e, by omega, hhi, hzero, fun b' hlo' hhi' => ?_⟩
        by_cases hab : b' = a
        · rw [hab, hb]
          rfl
        · exact hmapped b' (by omega) hhi'

/-- `argstr` accepts an address below the size with a NUL between it and the size. -/
theorem argstr_ok (h : p.Arg s.mem n v) (hlt : uint v < p.sz) (hends : s.mem.Ends (uint v) p.sz) :
    ∃ len, argstr p n s = .ok (some (uint v, len), s) := by
  have ⟨e, hloop⟩ := fetchstrLoop_ok (p.sz - uint v) hends (by omega)
  refine ⟨e - uint v, ?_⟩
  show (argint p n s).bind _ = _
  rw [argint_ok h]
  show fetchstr p (uint v) s = _
  unfold fetchstr
  rw [if_neg (by omega)]
  show (fetchstrLoop p.sz (p.sz - uint v) (uint v) s).bind _ = _
  rw [hloop]
  rfl

theorem argstr_spec (p : Proc) (n : ℕ) (s : State) : Spec (argstr p n) s
    (fun r t => t = s ∧ ∀ addr len, r = some (addr, len) →
      ∃ v, p.Arg s.mem n v ∧ addr = uint v ∧ addr < p.sz ∧ s.mem.Ends addr p.sz) fun _ => True := by
  refine Spec.bind ((argint_spec p n s).mono (fun r t hr => ?_) fun _ h => h)
  have ⟨ht, harg⟩ := hr
  subst ht
  cases r with
  | none => exact Spec.pure ⟨rfl, nofun⟩
  | some v =>
    refine Spec.ite (fun _ => Spec.pure ⟨rfl, nofun⟩) fun hlt => ?_
    refine Spec.bind ((fetchstrLoop_spec _ t).mono (fun e t' hr => ?_) fun _ h => h)
    have ⟨ht, hends⟩ := hr
    subst ht
    cases e with
    | none => exact Spec.pure ⟨rfl, nofun⟩
    | some e =>
      refine Spec.pure ⟨rfl, fun addr len haddr => ?_⟩
      cases haddr
      exact ⟨v, harg v rfl, rfl, by omega, hends nofun⟩

end SpringLabs.Syscall
