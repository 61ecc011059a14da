import SistOp.ProcTable
import SistOp.TransitionSystem

/-!
# The scheduler

The loop of `scheduler` on each CPU, cut where it takes or gives a lock, where it switches,
and where the boost of another CPU can come between a load and a store.  While a process is
on the CPU, it runs sections of the kernel, and interrupts wake sleeping processes.  The
boost takes no lock.
-/

namespace SistOp.Mlfq

/-- Where a CPU is: in `scheduler`, at the level `i` and the slot `j`, or in the process that
it runs. -/
inductive Cpu (n : ℕ) where
  /-- In front of `acquire`; behind the last slot the level is done. -/
  | scan (i j : ℕ)
  | test (i : ℕ) (j : Fin n)
  /-- Switched to the process, which holds its lock. -/
  | enter (i : ℕ) (j : Fin n)
  | run (i : ℕ) (j : Fin n)
  /-- Switched back, with the lock of the process. -/
  | back (i : ℕ) (j : Fin n)
  | store (i : ℕ) (j : Fin n) (priority : Option ℕ)
  /-- The loop of the boost; `i` is the next level. -/
  | boost (i j : ℕ)
  deriving DecidableEq

namespace Cpu

variable {n : ℕ}

/-- The slot whose lock the CPU holds. -/
def held : Cpu n → Option (Fin n)
  | .test _ j | .enter _ j | .back _ j | .store _ j _ => some j
  | .scan _ _ | .run _ _ | .boost _ _ => none

/-- The process of the CPU, from the dispatch to the update of its priority. -/
def current : Cpu n → Option (Fin n)
  | .enter _ j | .run _ j | .back _ j | .store _ j _ => some j
  | .scan _ _ | .test _ _ | .boost _ _ => none

end Cpu

structure Machine (n : ℕ) (κ : Type) where
  proc : Fin n → Proc n
  lock : Fin n → Option κ
  cpu : κ → Cpu n
  initproc : Fin n

namespace Machine

variable {n : ℕ} {κ : Type}

def setProc (s : Machine n κ) (k : Fin n) (p : Proc n) : Machine n κ :=
  { s with proc := Function.update s.proc k p }

def setLock (s : Machine n κ) (k : Fin n) (holder : Option κ) : Machine n κ :=
  { s with lock := Function.update s.lock k holder }

section Fields

variable (s : Machine n κ) (k : Fin n) (p : Proc n) (holder : Option κ)

@[simp] theorem setProc_proc : (s.setProc k p).proc = Function.update s.proc k p := rfl
@[simp] theorem setProc_lock : (s.setProc k p).lock = s.lock := rfl
@[simp] theorem setProc_cpu : (s.setProc k p).cpu = s.cpu := rfl
@[simp] theorem setLock_proc : (s.setLock k holder).proc = s.proc := rfl
@[simp] theorem setLock_lock :
    (s.setLock k holder).lock = Function.update s.lock k holder := rfl
@[simp] theorem setLock_cpu : (s.setLock k holder).cpu = s.cpu := rfl

end Fields

variable [DecidableEq κ]

def goto (s : Machine n κ) (c : κ) (pc : Cpu n) : Machine n κ :=
  { s with cpu := Function.update s.cpu c pc }

section Fields

variable (s : Machine n κ) (c : κ) (pc : Cpu n)

@[simp] theorem goto_proc : (s.goto c pc).proc = s.proc := rfl
@[simp] theorem goto_lock : (s.goto c pc).lock = s.lock := rfl
@[simp] theorem goto_cpu : (s.goto c pc).cpu = Function.update s.cpu c pc := rfl

end Fields

end Machine

variable {n : ℕ} {κ : Type} [DecidableEq κ]

/-- The test of `while (i < NPRIO)`; the outer loop sets `i` to zero again. -/
def whileTest (nprio i : ℕ) : Event n × Cpu n :=
  if i < nprio then (.quiet, .scan i 0) else (.round, .scan 0 0)

/-- A step of CPU `c`. -/
inductive CpuStep (nprio : ℕ) (c : κ) (s : Machine n κ) : Event n → Machine n κ → Prop where
  | acquire {i j : ℕ} (hcpu : s.cpu c = .scan i j) (hj : j < n)
      (hfree : s.lock ⟨j, hj⟩ = none) :
      CpuStep nprio c s .quiet ((s.setLock ⟨j, hj⟩ (some c)).goto c (.test i ⟨j, hj⟩))
  | skip {i : ℕ} {j : Fin n} (hcpu : s.cpu c = .test i j)
      (hother : ¬ ((s.proc j).state = .runnable ∧ (s.proc j).priority = i)) :
      CpuStep nprio c s .quiet ((s.setLock j none).goto c (.scan i (j + 1)))
  | dispatch {i : ℕ} {j : Fin n} (hcpu : s.cpu c = .test i j)
      (hrunnable : (s.proc j).state = .runnable) (hlevel : (s.proc j).priority = i) :
      CpuStep nprio c s (.dispatch j i)
        ((s.setProc j (s.proc j).dispatched).goto c (.enter i j))
  | enter {i : ℕ} {j : Fin n} (hcpu : s.cpu c = .enter i j) :
      CpuStep nprio c s .quiet
        (((s.setProc j { s.proc j with chan := 0 }).setLock j none).goto c (.run i j))
  | kernel {i : ℕ} {j k : Fin n} {e : Event n} {p : Proc n} (hcpu : s.cpu c = .run i j)
      (hfree : s.lock k = none) (h : KernelSection j k (s.proc k) e p) :
      CpuStep nprio c s e (s.setProc k p)
  | parent {i : ℕ} {j k : Fin n} {parent : Fin n} (hcpu : s.cpu c = .run i j)
      (h : ((s.proc k).state = .used ∧ parent = j) ∨
        ((s.proc k).parent = some j ∧ parent = s.initproc)) :
      CpuStep nprio c s .quiet (s.setProc k { s.proc k with parent := some parent })
  | interrupt {k : Fin n} {e : Event n} {p : Proc n}
      (hcpu : (∃ i j, s.cpu c = .scan i j) ∨ ∃ i j, s.cpu c = .boost i j)
      (hfree : s.lock k = none) (h : WakeupSection none k (s.proc k) e p) :
      CpuStep nprio c s e (s.setProc k p)
  | leave {i : ℕ} {j : Fin n} (how : Leave) (hcpu : s.cpu c = .run i j)
      (hfree : s.lock j = none) (hinit : how.state = .zombie → j ≠ s.initproc) :
      CpuStep nprio c s (.leave j how.state)
        (((s.setProc j ((s.proc j).leave how)).setLock j (some c)).goto c (.back i j))
  | update {i : ℕ} {j : Fin n} (hcpu : s.cpu c = .back i j) :
      CpuStep nprio c s .quiet (s.goto c (.store i j ((s.proc j).newPriority nprio)))
  | store {i : ℕ} {j : Fin n} {priority : Option ℕ} (hcpu : s.cpu c = .store i j priority) :
      CpuStep nprio c s (.updated j)
        (((s.setProc j { s.proc j with
          priority := priority.getD (s.proc j).priority }).setLock j none).goto c
          (.scan i (j + 1)))
  | level {i : ℕ} (ticks : ℕ) (hcpu : s.cpu c = .scan i n) (hticks : ticks % 16 ≠ 0) :
      CpuStep nprio c s (whileTest (n := n) nprio (i + 1)).1
        (s.goto c (whileTest nprio (i + 1)).2)
  | levelBoost {i : ℕ} (ticks : ℕ) (hcpu : s.cpu c = .scan i n) (hticks : ticks % 16 = 0) :
      CpuStep nprio c s .quiet (s.goto c (.boost (i + 1) 0))
  | boost {i j : ℕ} (hcpu : s.cpu c = .boost i j) (hj : j < n) :
      CpuStep nprio c s .quiet
        ((s.setProc ⟨j, hj⟩ { s.proc ⟨j, hj⟩ with priority := 0 }).goto c (.boost i (j + 1)))
  | boosted {i : ℕ} (hcpu : s.cpu c = .boost i n) :
      CpuStep nprio c s (whileTest (n := n) nprio i).1 (s.goto c (whileTest nprio i).2)

def Step (nprio : ℕ) (s : Machine n κ) (e : Event n) (t : Machine n κ) : Prop :=
  ∃ c, CpuStep nprio c s e t

/-- What a step of CPU `c` can do to slot `k`. -/
inductive SlotStep (c : κ) (s : Machine n κ) (e : Event n) (k : Fin n) : Proc n → Prop where
  | keeps {p : Proc n} (h : SectionKeeps k (s.proc k) e p)
      (hlock : s.lock k = none ∨ p.state = (s.proc k).state) : SlotStep c s e k p
  | freed (hstate : (s.proc k).state = .unused ∨ (s.proc k).state = .zombie)
      (hfree : s.lock k = none) : SlotStep c s e k (s.proc k).freeproc
  | dispatched {i : ℕ} (he : e = .dispatch k i) (hcpu : s.cpu c = .test i k)
      (hrunnable : (s.proc k).state = .runnable) (hlevel : (s.proc k).priority = i) :
      SlotStep c s e k (s.proc k).dispatched
  | left {i : ℕ} (how : Leave) (he : e = .leave k how.state) (hcpu : s.cpu c = .run i k)
      (hfree : s.lock k = none) : SlotStep c s e k ((s.proc k).leave how)
  | updated {i : ℕ} {priority : Option ℕ} (he : e = .updated k)
      (hcpu : s.cpu c = .store i k priority) :
      SlotStep c s e k
        { s.proc k with priority := priority.getD (s.proc k).priority }
  | boosted {i : ℕ} (hcpu : s.cpu c = .boost i k) :
      SlotStep c s e k { s.proc k with priority := 0 }

omit [DecidableEq κ] in
theorem SlotStep.same {c : κ} {s : Machine n κ} {e : Event n} {k : Fin n} :
    SlotStep c s e k (s.proc k) :=
  .keeps ⟨rfl, rfl, Or.inl rfl⟩ (Or.inr rfl)

theorem CpuStep.slot {nprio : ℕ} {c : κ} {s t : Machine n κ} {e : Event n}
    (h : CpuStep nprio c s e t) (k : Fin n) : SlotStep c s e k (t.proc k) := by
  -- a step writes at most one slot
  have write : ∀ {j : Fin n} {p : Proc n}, SlotStep c s e j p →
      SlotStep c s e k (Function.update s.proc j p k) := by
    intro j p hp
    by_cases hk : k = j
    · subst hk
      rwa [Function.update_self]
    · rw [Function.update_of_ne hk]
      exact .same
  cases h with
  | acquire => exact .same
  | skip => exact .same
  | update => exact .same
  | level => exact .same
  | levelBoost => exact .same
  | boosted => exact .same
  | dispatch hcpu hrunnable hlevel =>
      exact write (.dispatched rfl hcpu hrunnable hlevel)
  | enter =>
      exact write (.keeps ⟨rfl, rfl, Or.inl rfl⟩ (Or.inr rfl))
  | parent =>
      exact write (.keeps ⟨rfl, rfl, Or.inl rfl⟩ (Or.inr rfl))
  | kernel hcpu hfree hsection =>
      refine write ?_
      rcases hsection.effect with hkeeps | ⟨hstate, -, hfreed⟩
      · exact .keeps hkeeps (Or.inl hfree)
      · rw [hfreed]
        exact .freed hstate hfree
  | interrupt hcpu hfree hsection => exact write (.keeps hsection.keeps (Or.inl hfree))
  | leave how hcpu hfree => exact write (.left how rfl hcpu hfree)
  | store hcpu => exact write (.updated rfl hcpu)
  | boost hcpu hj => exact write (.boosted hcpu)

theorem CpuStep.otherCpu {nprio : ℕ} {c c' : κ} {s t : Machine n κ} {e : Event n}
    (h : CpuStep nprio c s e t) (hne : c' ≠ c) : t.cpu c' = s.cpu c' := by
  cases h <;> simp [hne]

/-- Only a dispatch gives a CPU a process. -/
theorem CpuStep.current {nprio : ℕ} {c : κ} {s t : Machine n κ} {e : Event n}
    (h : CpuStep nprio c s e t) {j : Fin n} (hcur : (t.cpu c).current = some j) :
    (s.cpu c).current = some j ∨
      ∃ i, e = .dispatch j i ∧ s.cpu c = .test i j ∧ (s.proc j).state = .runnable := by
  cases h with
  | @dispatch i j' hcpu hrunnable hlevel =>
      simp only [Machine.goto_cpu, Function.update_self, Cpu.current, Option.some.injEq] at hcur
      subst hcur
      exact Or.inr ⟨i, rfl, hcpu, hrunnable⟩
  | acquire hcpu _ _ => simp [Cpu.current] at hcur
  | skip hcpu _ => simp [Cpu.current] at hcur
  | store hcpu => simp [Cpu.current] at hcur
  | levelBoost => simp [Cpu.current] at hcur
  | boost => simp [Cpu.current] at hcur
  | level => unfold whileTest at hcur; split at hcur <;> simp [Cpu.current] at hcur
  | boosted => unfold whileTest at hcur; split at hcur <;> simp [Cpu.current] at hcur
  | kernel => exact Or.inl hcur
  | parent => exact Or.inl hcur
  | interrupt => exact Or.inl hcur
  | enter hcpu =>
      rw [hcpu]
      simpa [Cpu.current] using hcur
  | leave how hcpu _ _ =>
      rw [hcpu]
      simpa [Cpu.current] using hcur
  | update hcpu =>
      rw [hcpu]
      simpa [Cpu.current] using hcur

/-- What the scheduler is going to store comes from the priority and the state with which the
process came back. -/
theorem CpuStep.stored {nprio : ℕ} {c : κ} {s t : Machine n κ} {e : Event n}
    (h : CpuStep nprio c s e t) {i : ℕ} {j : Fin n} {priority : Option ℕ}
    (hcpu : t.cpu c = .store i j priority) :
    s.cpu c = .store i j priority ∨
      s.cpu c = .back i j ∧ priority = (s.proc j).newPriority nprio := by
  cases h with
  | update hback =>
      simp only [Machine.goto_cpu, Function.update_self, Cpu.store.injEq] at hcpu
      obtain ⟨rfl, rfl, rfl⟩ := hcpu
      exact Or.inr ⟨hback, rfl⟩
  | kernel => exact Or.inl hcpu
  | parent => exact Or.inl hcpu
  | interrupt => exact Or.inl hcpu
  | level => unfold whileTest at hcpu; split at hcpu <;> simp at hcpu
  | boosted => unfold whileTest at hcpu; split at hcpu <;> simp at hcpu
  | _ => simp at hcpu

/-- The table behind `procinit`. -/
def emptyProc : Proc n where
  state := .unused
  chan := 0
  killed := false
  xstate := 0
  pid := 0
  parent := none
  priority := 0
  chosen := 0

/-- The machine behind `userinit`, with every CPU in `scheduler`. -/
def boot (κ : Type) (initproc : Fin n) : Machine n κ where
  proc := Function.update (fun _ => emptyProc) initproc
    { (emptyProc : Proc n).found 1 with state := .runnable }
  lock := fun _ => none
  cpu := fun _ => .scan 0 0
  initproc := initproc

/-- A state that the system reaches. -/
def Reachable (nprio : ℕ) (s : Machine n κ) : Prop :=
  ∃ initproc l, Runs (Step nprio) (boot κ initproc) l s

theorem boot_reachable (nprio : ℕ) (initproc : Fin n) :
    Reachable nprio (boot κ initproc) :=
  ⟨initproc, [], .nil⟩

theorem Reachable.runs {nprio : ℕ} {s t : Machine n κ} {l : List (Event n × Machine n κ)}
    (h : Reachable nprio s) (hrun : Runs (Step nprio) s l t) : Reachable nprio t := by
  obtain ⟨initproc, l', hboot⟩ := h
  exact ⟨initproc, l' ++ l, hboot.trans hrun⟩

end SistOp.Mlfq
