import SpringLabs.Syscall.Arguments
import Mathlib.Data.Fintype.Basic

/-!
# `sys_getProcInfo` of the solution

The pointer that the process passes for the structure is checked by `argstr`, as if it were a string:
it is accepted when there is a NUL between it and the end of the memory of the process, however close
that end is.  A structure of 12 bytes that begins less than 12 bytes before the end is written beyond
it, as far as the page goes (`confined_iff`); `argptr`, which is given the size, would have refused it
(`argptr_within`).
-/

namespace SpringLabs.Syscall

abbrev nproc : ℕ := 64
abbrev pgSize : ℕ := 4096

/-- An index of the process table. -/
abbrev Slot := Fin nproc

/-- What `getProcInfo` reads of an entry of the process table; the parent may be NULL. -/
structure Entry where
  sz : ℕ
  pid : ℤ
  parent : Option Slot
  switches : ℤ

/-- The offset of `pid` in `struct proc`. -/
abbrev pidOffset : ℕ := 16

/-- `sizeof(struct processInfo)`. -/
abbrev processInfoSize : ℕ := 12

/-- `p->parent->pid`.  A NULL pointer is an address of the process, too. -/
def parentPid (ptable : Slot → Entry) (p : Slot) : Kernel ℤ :=
  match (ptable p).parent with
  | some q => pure (ptable q).pid
  | none => readInt pidOffset

/-- What `getProcInfo` does with the entry it looks for. -/
def report (ptable : Slot → Entry) (p : Slot) (procInfo : ℕ) : Kernel ℤ := do
  let ppid ← parentPid ptable p
  writeInt procInfo ppid
  writeInt (procInfo + 8) (ptable p).switches
  writeInt (procInfo + 4) (ptable p).sz
  if (ptable p).pid = 1 then writeInt procInfo 0
  pure 0

/-- The loop of `getProcInfo`. -/
def procLoop (ptable : Slot → Entry) (pid : ℤ) (procInfo : ℕ) : List Slot → Kernel ℤ
  | [] => pure (-1)
  | p :: ps =>
    if (ptable p).pid = pid then report ptable p procInfo else procLoop ptable pid procInfo ps

def getProcInfo (ptable : Slot → Entry) (pid : ℤ) (procInfo : ℕ) : Kernel ℤ :=
  procLoop ptable pid procInfo (List.finRange nproc)

def sysGetProcInfo (ptable : Slot → Entry) (p : Proc) : Kernel ℤ := do
  match ← argint p 0 with
  | none => pure (-1)
  | some pid =>
    match ← argstr p 1 with
    | none => pure (-1)
    | some (procInfo, _) => getProcInfo ptable pid procInfo

variable {ptable : Slot → Entry} {p : Proc} {q : Slot} {ps : List Slot} {s t : State} {pid v r : ℤ}
variable {a b n : ℕ} {mem : Memory}

/-! ## What is written -/

/-- A page fault is raised where one of the four bytes is not mapped. -/
theorem writeInt_spec (a : ℕ) (v : ℤ) (s : State) : Spec (writeInt a v) s
    (fun _ t => s.mem.Mapped a 4 ∧ t = ⟨s.mem.store a v, s.written ++ [a, a + 1, a + 2, a + 3]⟩)
    fun _ => ¬ s.mem.Mapped a 4 := by
  by_cases h : s.mem.Mapped a 4
  · have hrun : writeInt a v s =
        .ok ((), ⟨s.mem.store a v, s.written ++ [a, a + 1, a + 2, a + 3]⟩) := if_pos h
    exact Spec.ok hrun ⟨h, rfl⟩
  · refine Spec.intro (fun x t hx => ?_) fun _ _ => h
    rw [writeInt, if_neg h] at hx
    cases hx

/-- A store into mapped memory keeps what is mapped. -/
theorem store_mapped (h : mem.Mapped a 4) : (mem.store a v).Mapped b n ↔ mem.Mapped b n := by
  apply forall_congr'
  intro j
  apply imp_congr_right
  intro _
  unfold Memory.store
  split_ifs with hin
  · have hold := h (b + j - a) (by omega)
    have haddr : a + (b + j - a) = b + j := by omega
    rw [haddr] at hold
    exact iff_of_true rfl hold
  · rfl

/-- The structure consists of its three fields. -/
theorem mapped_struct :
    mem.Mapped a processInfoSize ↔ mem.Mapped a 4 ∧ mem.Mapped (a + 8) 4 ∧ mem.Mapped (a + 4) 4 := by
  simp only [processInfoSize]
  constructor
  · intro h
    refine ⟨fun j hj => h j (by omega), fun j hj => ?_, fun j hj => ?_⟩
    · have hbyte := h (8 + j) (by omega)
      rwa [← Nat.add_assoc] at hbyte
    · have hbyte := h (4 + j) (by omega)
      rwa [← Nat.add_assoc] at hbyte
  · rintro ⟨h₀, h₈, h₄⟩ j hj
    rcases Nat.lt_or_ge j 4 with hlt | hge
    · exact h₀ j hlt
    · rcases Nat.lt_or_ge j 8 with hlt | hge'
      · have hbyte := h₄ (j - 4) (by omega)
        have haddr : a + 4 + (j - 4) = a + j := by omega
        rwa [haddr] at hbyte
      · have hbyte := h₈ (j - 8) (by omega)
        have haddr : a + 8 + (j - 8) = a + j := by omega
        rwa [haddr] at hbyte

/-- `p->parent` is a process, or address 0 is mapped. -/
def Readable (ptable : Slot → Entry) (q : Slot) (mem : Memory) : Prop :=
  (ptable q).parent = none → (mem.int pidOffset).isSome

theorem parentPid_spec (ptable : Slot → Entry) (q : Slot) (s : State) :
    Spec (parentPid ptable q) s (fun _ t => t = s ∧ Readable ptable q s.mem)
      fun _ => ¬ Readable ptable q s.mem := by
  unfold parentPid
  cases hq : (ptable q).parent with
  | some q' => exact Spec.pure ⟨rfl, fun h => by rw [hq] at h; cases h⟩
  | none =>
    cases hint : s.mem.int pidOffset with
    | none =>
      refine Spec.intro (fun x t hx => ?_) fun _ _ h => ?_
      · change readInt pidOffset s = _ at hx
        rw [readInt, hint] at hx
        cases hx
      · have hsome := h hq
        rw [hint] at hsome
        cases hsome
    | some w =>
      have hread : readInt pidOffset s = .ok (w, s) := by rw [readInt, hint]
      exact Spec.ok hread ⟨rfl, fun _ => by rw [hint]; rfl⟩

/-- The addresses of the structure, each written once or, for process 1, the first four twice. -/
def structAt (a : ℕ) (pid : ℤ) : List ℕ :=
  [a, a + 1, a + 2, a + 3, a + 8, a + 9, a + 10, a + 11, a + 4, a + 5, a + 6, a + 7] ++
    if pid = 1 then [a, a + 1, a + 2, a + 3] else []

theorem mem_structAt : b ∈ structAt a pid ↔ a ≤ b ∧ b < a + processInfoSize := by
  unfold structAt processInfoSize
  split_ifs <;> simp only [List.mem_append, List.mem_cons, List.not_mem_nil, or_false] <;> omega

/-- The structure is written as a whole, or there is a page fault. -/
theorem report_spec (ptable : Slot → Entry) (q : Slot) (a : ℕ) (s : State) :
    Spec (report ptable q a) s
      (fun r t => r = 0 ∧ t.written = s.written ++ structAt a (ptable q).pid ∧
        Readable ptable q s.mem ∧ s.mem.Mapped a processInfoSize)
      fun _ => ¬ (Readable ptable q s.mem ∧ s.mem.Mapped a processInfoSize) := by
  unfold report
  refine Spec.bind ((parentPid_spec ptable q s).mono (fun ppid t hr => ?_) fun _ he h => he h.1)
  have ⟨ht, hread⟩ := hr
  subst ht
  refine Spec.bind ((writeInt_spec a ppid t).mono (fun _ t₁ hr => ?_)
    fun _ he h => he (mapped_struct.mp h.2).1)
  have ⟨h₀, ht⟩ := hr
  subst ht
  refine Spec.bind ((writeInt_spec (a + 8) _ _).mono (fun _ t₂ hr => ?_)
    fun _ he h => he ((store_mapped h₀).mpr (mapped_struct.mp h.2).2.1))
  have ⟨h₈, ht⟩ := hr
  subst ht
  refine Spec.bind ((writeInt_spec (a + 4) _ _).mono (fun _ t₃ hr => ?_)
    fun _ he h => he ((store_mapped h₈).mpr ((store_mapped h₀).mpr (mapped_struct.mp h.2).2.2)))
  have ⟨h₄, ht⟩ := hr
  subst ht
  have hmapped : t.mem.Mapped a processInfoSize :=
    mapped_struct.mpr ⟨h₀, (store_mapped h₀).mp h₈, (store_mapped h₀).mp ((store_mapped h₈).mp h₄)⟩
  have hwritten : ∀ w : List ℕ, w = (if (ptable q).pid = 1 then [a, a + 1, a + 2, a + 3] else []) →
      t.written ++ [a, a + 1, a + 2, a + 3] ++ [a + 8, a + 8 + 1, a + 8 + 2, a + 8 + 3] ++
        [a + 4, a + 4 + 1, a + 4 + 2, a + 4 + 3] ++ w = t.written ++ structAt a (ptable q).pid := by
    rintro w rfl
    simp only [structAt, List.append_assoc, List.cons_append, List.nil_append, Nat.add_assoc]
  refine Spec.ite (fun hone => ?_) fun hne => ?_
  · refine Spec.bind ((writeInt_spec a 0 _).mono (fun _ t₄ hr => ?_) fun _ he _ => he ?_)
    · have ⟨_, ht⟩ := hr
      subst ht
      exact Spec.pure ⟨rfl, hwritten _ (if_pos hone).symm, hread, hmapped⟩
    · exact (store_mapped h₄).mpr ((store_mapped h₈).mpr ((store_mapped h₀).mpr h₀))
  · refine Spec.pure ⟨rfl, ?_, hread, hmapped⟩
    rw [← hwritten [] (if_neg hne).symm, List.append_nil]

/-! ## The system call -/

/-- The loop reports on the first entry with the process identifier. -/
theorem procLoop_eq (ptable : Slot → Entry) (pid : ℤ) (a : ℕ) (ps : List Slot) :
    procLoop ptable pid a ps =
      match ps.find? fun q => (ptable q).pid = pid with
      | none => pure (-1)
      | some q => report ptable q a := by
  induction ps with
  | nil => rfl
  | cons q ps ih =>
    rw [procLoop]
    by_cases hq : (ptable q).pid = pid
    · rw [if_pos hq, List.find?_cons_of_pos (by simpa using hq)]
    · rw [if_neg hq, List.find?_cons_of_neg (by simpa using hq), ih]

/-- What the call should do: a structure that it fills lies within the memory of the process, and a
call that fails writes nothing. -/
def Confined (sz : ℕ) (r : ℤ) (written : List ℕ) : Prop :=
  (r = 0 → ∀ b ∈ written, b < sz) ∧ (r = -1 → written = [])

/-- The arguments are an identifier in use and a pointer to less than 12 bytes before the end of the
memory, with a NUL among them and mapped memory after them. -/
def Overruns (ptable : Slot → Entry) (p : Proc) (mem : Memory) : Prop :=
  ∃ pid v q, p.Arg mem 0 pid ∧ p.Arg mem 1 v ∧ mem.Ends (uint v) p.sz ∧
    (List.finRange nproc).find? (fun q => (ptable q).pid = pid) = some q ∧
    Readable ptable q mem ∧ mem.Mapped (uint v) processInfoSize ∧
    uint v < p.sz ∧ p.sz < uint v + processInfoSize

/-- The call returns in one of two ways. -/
theorem sysGetProcInfo_spec (ptable : Slot → Entry) (p : Proc) (s : State) :
    Spec (sysGetProcInfo ptable p) s
      (fun r t => r = -1 ∧ t = s ∨ ∃ pid v q, r = 0 ∧ p.Arg s.mem 0 pid ∧ p.Arg s.mem 1 v ∧
        s.mem.Ends (uint v) p.sz ∧
        (List.finRange nproc).find? (fun q => (ptable q).pid = pid) = some q ∧
        Readable ptable q s.mem ∧ s.mem.Mapped (uint v) processInfoSize ∧ uint v < p.sz ∧
        t.written = s.written ++ structAt (uint v) (ptable q).pid) fun _ => True := by
  refine Spec.bind ((argint_spec p 0 s).mono (fun pid t hr => ?_) fun _ h => h)
  have ⟨ht, hpid⟩ := hr
  subst ht
  cases pid with
  | none => exact Spec.pure (.inl ⟨rfl, rfl⟩)
  | some pid =>
    refine Spec.bind ((argstr_spec p 1 t).mono (fun str t' hr => ?_) fun _ h => h)
    have ⟨ht, hstr⟩ := hr
    subst ht
    cases str with
    | none => exact Spec.pure (.inl ⟨rfl, rfl⟩)
    | some str =>
      have ⟨addr, len⟩ := str
      have ⟨v, harg, haddr, hlt, hends⟩ := hstr addr len rfl
      subst haddr
      show Spec (procLoop ptable pid (uint v) (List.finRange nproc)) _ _ _
      rw [procLoop_eq]
      cases hfind : (List.finRange nproc).find? fun q => (ptable q).pid = pid with
      | none => exact Spec.pure (.inl ⟨rfl, rfl⟩)
      | some q =>
        refine (report_spec ptable q (uint v) t').mono (fun r t hr => ?_) fun _ _ => trivial
        have ⟨hr0, hwritten, hread, hmapped⟩ := hr
        exact .inr ⟨pid, v, q, hr0, hpid pid rfl, harg, hends, hfind, hread, hmapped, hlt, hwritten⟩

/-- With such arguments the call returns 0 and has written the structure. -/
theorem sysGetProcInfo_overruns (h : Overruns ptable p mem) :
    ∃ t v, sysGetProcInfo ptable p ⟨mem, []⟩ = .ok (0, t) ∧ uint v < p.sz ∧
      p.sz < uint v + processInfoSize ∧ ∀ b, uint v ≤ b → b < uint v + processInfoSize →
        b ∈ t.written := by
  have ⟨pid, v, q, hpid, harg, hends, hfind, hread, hmapped, hlt, hover⟩ := h
  have ⟨len, hstr⟩ := argstr_ok (s := ⟨mem, []⟩) harg hlt hends
  have hspec : Spec (report ptable q (uint v)) ⟨mem, []⟩
      (fun r t => r = 0 ∧ t.written = structAt (uint v) (ptable q).pid) fun _ => False :=
    (report_spec ptable q (uint v) ⟨mem, []⟩).mono (fun r t hr => ⟨hr.1, hr.2.1⟩)
      fun _ he => he ⟨hread, hmapped⟩
  have ⟨r, t, hrun, hr, hwritten⟩ := hspec.exists_ok
  subst hr
  refine ⟨t, v, ?_, hlt, hover, fun b hlo hhi => ?_⟩
  · show (argint p 0 ⟨mem, []⟩).bind _ = _
    rw [argint_ok (s := ⟨mem, []⟩) hpid]
    show (argstr p 1 ⟨mem, []⟩).bind _ = _
    rw [hstr]
    show procLoop ptable pid (uint v) (List.finRange nproc) ⟨mem, []⟩ = _
    rw [procLoop_eq, hfind]
    exact hrun
  · rw [hwritten]
    exact mem_structAt.mpr ⟨hlo, hhi⟩

/-- Whatever the size, the memory and the arguments of the process and the process table: the call
stays within the memory of the process unless it is given such arguments. -/
theorem confined_iff (ptable : Slot → Entry) (p : Proc) (mem : Memory) :
    (∀ r t, sysGetProcInfo ptable p ⟨mem, []⟩ = .ok (r, t) → Confined p.sz r t.written) ↔
      ¬ Overruns ptable p mem := by
  constructor
  · intro h hover
    have ⟨t, v, hrun, hlt, hend, hwritten⟩ := sysGetProcInfo_overruns hover
    -- The first byte behind the memory of the process is among those written.
    have hlast := (h 0 t hrun).1 rfl p.sz (hwritten p.sz hlt.le hend)
    exact lt_irrefl _ hlast
  · intro hover r t hrun
    rcases (sysGetProcInfo_spec ptable p ⟨mem, []⟩).of_ok hrun with ⟨hr, ht⟩ | ⟨pid, v, q, hr, h⟩
    · subst hr ht
      exact ⟨fun h => absurd h (by decide), fun _ => rfl⟩
    · have ⟨hpid, harg, hends, hfind, hread, hmapped, hlt, hwritten⟩ := h
      subst hr
      refine ⟨fun _ b hb => ?_, fun h => absurd h (by decide)⟩
      rw [hwritten, List.nil_append, mem_structAt] at hb
      by_contra hge
      exact hover ⟨pid, v, q, hpid, harg, hends, hfind, hread, hmapped, hlt, by omega⟩

/-! ## A process of 100 bytes -/

/-- Process 1 alone. -/
def initOnly : Slot → Entry :=
  fun q => if q.val = 0 then ⟨pgSize, 1, none, 0⟩ else ⟨0, 0, none, 0⟩

/-- The process asks for process 1 and passes the address of its last byte, which is NUL. -/
def lastByteMem : Memory := fun b =>
  if b < pgSize then some (if b = 4 then 1 else if b = 8 then 99 else 0) else none

def shortProc : Proc := ⟨100, 0, by decide⟩

theorem last_byte_not_confined : ∃ r t,
    sysGetProcInfo initOnly shortProc ⟨lastByteMem, []⟩ = .ok (r, t) ∧
      ¬ Confined shortProc.sz r t.written := by
  have hover : Overruns initOnly shortProc lastByteMem := by
    refine ⟨1, 99, 0, ⟨by decide, by decide, by decide⟩, ⟨by decide, by decide, by decide⟩, ?_, by decide,
      fun _ => by decide, by decide, by decide, by decide⟩
    exact ⟨99, by decide, by decide, by decide, fun b hlo hhi => absurd hhi (not_lt.mpr hlo)⟩
  have ⟨t, v, hrun, hlt, hend, hwritten⟩ := sysGetProcInfo_overruns hover
  refine ⟨0, t, hrun, fun h => ?_⟩
  exact lt_irrefl _ (h.1 rfl shortProc.sz (hwritten shortProc.sz hlt.le hend))

end SpringLabs.Syscall
