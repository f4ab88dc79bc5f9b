import Mathlib.Data.Fintype.EquivFin
import Mathlib.Data.List.Perm.Basic
import Mathlib.Tactic.Common

/-!
# The children of a process

A process starts children, and reaps those of them that have exited.  The table lists the children that
have not been reaped, each with its pid, what is recorded about it (its job), and whether it has exited.
When the children exit is up to them; invariants of the parent speak of pids and jobs alone (`jobs`), which
no exit changes (`jobs_exit`).
-/

namespace SpringLabs.Children

structure Child (τ : Type*) where
  pid : ℕ
  job : τ
  exited : Bool
  deriving DecidableEq

abbrev Table (τ : Type*) := List (Child τ)

variable {τ : Type*}

/-- The pids and jobs of the children. -/
def jobs (t : Table τ) : List (ℕ × τ) := t.map fun c => (c.pid, c.job)

/-- A new child, with a pid that no child has. -/
def fork (t : Table τ) (pid : ℕ) (job : τ) : Option (Table τ) :=
  if ∃ c ∈ t, c.pid = pid then none else some (⟨pid, job, false⟩ :: t)

/-- A child exits that has not done so. -/
def exit (t : Table τ) (pid : ℕ) : Option (Table τ) :=
  if ∃ c ∈ t, c.pid = pid ∧ c.exited = false then
    some (t.map fun c => if c.pid = pid then { c with exited := true } else c)
  else none

/-- A child that has exited is reaped. -/
def reap (t : Table τ) (pid : ℕ) : Option (Table τ) :=
  if ∃ c ∈ t, c.pid = pid ∧ c.exited = true then some (t.eraseP fun c => c.pid = pid ∧ c.exited = true)
  else none

/-- What is recorded about a child changes. -/
def update (t : Table τ) (pid : ℕ) (f : τ → τ) : Table τ :=
  t.map fun c => if c.pid = pid then { c with job := f c.job } else c

variable {t u : Table τ} {pid : ℕ} {job : τ}

theorem mem_jobs {j : ℕ × τ} : j ∈ jobs t ↔ ∃ c ∈ t, (c.pid, c.job) = j := List.mem_map

theorem jobs_mem {c : Child τ} (h : c ∈ t) : (c.pid, c.job) ∈ jobs t := mem_jobs.mpr ⟨c, h, rfl⟩

theorem jobs_fork (h : fork t pid job = some u) :
    jobs u = (pid, job) :: jobs t ∧ ∀ j ∈ jobs t, j.1 ≠ pid := by
  rw [fork] at h
  split_ifs at h with hused
  cases h
  refine ⟨rfl, ?_⟩
  rintro j hj rfl
  obtain ⟨c, hc, rfl⟩ := mem_jobs.mp hj
  exact hused ⟨c, hc, rfl⟩

theorem jobs_exit (h : exit t pid = some u) : jobs u = jobs t := by
  rw [exit] at h
  split_ifs at h
  cases h
  rw [jobs, List.map_map]
  apply List.map_congr_left
  intro c _
  dsimp only [Function.comp]
  split_ifs <;> rfl

theorem jobs_update (t : Table τ) (pid : ℕ) (f : τ → τ) :
    jobs (update t pid f) = (jobs t).map fun j => if j.1 = pid then (j.1, f j.2) else j := by
  rw [jobs, jobs, update, List.map_map, List.map_map]
  apply List.map_congr_left
  intro c _
  dsimp only [Function.comp]
  split_ifs <;> rfl

/-- One child less. -/
theorem reap_spec (h : reap t pid = some u) : ∃ c ∈ t, c.pid = pid ∧ t.Perm (c :: u) := by
  rw [reap] at h
  split_ifs at h with hexited
  cases h
  obtain ⟨c, hc, hpid⟩ := hexited
  obtain ⟨c, l₁, l₂, -, hpid, rfl, herase⟩ :=
    List.exists_of_eraseP (p := fun c => c.pid = pid ∧ c.exited = true) hc (decide_eq_true hpid)
  refine ⟨c, by simp, (of_decide_eq_true hpid).1, ?_⟩
  rw [herase]
  exact List.perm_middle

theorem jobs_reap (h : reap t pid = some u) : ∃ job, (jobs t).Perm ((pid, job) :: jobs u) := by
  obtain ⟨c, -, rfl, hperm⟩ := reap_spec h
  exact ⟨c.job, hperm.map _⟩

theorem length_exit (h : exit t pid = some u) : u.length = t.length := by
  have hjobs := congrArg List.length (jobs_exit h)
  rwa [jobs, jobs, List.length_map, List.length_map] at hjobs

theorem length_reap (h : reap t pid = some u) : t.length = u.length + 1 := by
  obtain ⟨c, -, -, hperm⟩ := reap_spec h
  rw [hperm.length_eq, List.length_cons]

/-- There is always a pid for a new child. -/
theorem exists_fork (t : Table τ) (job : τ) : ∃ pid, fork t pid job = some (⟨pid, job, false⟩ :: t) := by
  obtain ⟨pid, hpid⟩ := Infinite.exists_notMem_finset (t.map Child.pid).toFinset
  rw [List.mem_toFinset, List.mem_map] at hpid
  exact ⟨pid, by rw [fork, if_neg hpid]⟩

/-- A child that runs may exit and be reaped, and the others are still there. -/
theorem exists_exit_reap {c : Child τ} (hc : c ∈ t) (hrun : c.exited = false) :
    ∃ u v, exit t c.pid = some u ∧ reap u c.pid = some v ∧ ∀ d ∈ t, d.pid ≠ c.pid → d ∈ v := by
  have hmem : { c with exited := true } ∈
      t.map fun d => if d.pid = c.pid then { d with exited := true } else d :=
    List.mem_map.mpr ⟨c, hc, if_pos rfl⟩
  refine ⟨_, _, if_pos ⟨c, hc, rfl, hrun⟩, if_pos ⟨_, hmem, rfl, rfl⟩, fun d hd hne => ?_⟩
  refine (List.mem_eraseP_of_neg ?_).mpr (List.mem_map.mpr ⟨d, hd, if_neg hne⟩)
  simp [hne]

end SpringLabs.Children
