import SistOp.Semaphores

/-!
# Tokens of a semaphore

Processes that repeat `sem_down` and `sem_up` on one semaphore.  The value and the processes
inside add up to the value it was opened with.
-/

namespace SistOp.Xv6

/-- Where a process stands between two sections. -/
inductive Place where
  | outside | waiting | inside
  deriving DecidableEq

structure Sections (n : ℕ) where
  machine : Machine n
  place : Fin n → Place

namespace Sections

variable {n : ℕ} (s : Sections n) (p : Fin n) (sem : Int32)

/-- A process has left `sem_down`, or waits in it. -/
def afterDown (ran : Option Int32 × Machine n) : Sections n where
  machine := ran.2
  place := Function.update s.place p (if ran.1 = none then .waiting else .inside)

def down : Sections n := s.afterDown p (s.machine.semDown p sem)

/-- A process that was made runnable takes the lock again and tests the value again. -/
def retry : Sections n := s.afterDown p ((s.machine.leaveSleep p).semDownLoop p sem)

def up : Sections n where
  machine := (s.machine.semUp p sem).2
  place := Function.update s.place p .outside

def kill : Sections n := { s with machine := s.machine.kill p }

/-- The processes that have completed `sem_down` and not yet `sem_up`. -/
def inside : Finset (Fin n) := Finset.univ.filter fun p => s.place p = .inside

def value : Int32 := (s.machine.semArray sem).value

def initValue : Int32 := (s.machine.semArray sem).initValue

end Sections

inductive SectionStep {n : ℕ} (sem : Int32) : Sections n → Sections n → Prop
  | down {s : Sections n} (p : Fin n) (h : s.place p = .outside) :
      SectionStep sem s (s.down p sem)
  | retry {s : Sections n} (p : Fin n) (h : s.place p = .waiting)
      (hrunnable : (s.machine.procs p).state = .runnable) :
      SectionStep sem s (s.retry p sem)
  | up {s : Sections n} (p : Fin n) (h : s.place p = .inside) : SectionStep sem s (s.up p sem)
  | kill {s : Sections n} (p : Fin n) : SectionStep sem s (s.kill p)

/-- The semaphore has been opened with the value and every process is outside. -/
def openedWith {n : ℕ} (sem k : Int32) (s : Sections n) : Prop :=
  ∃ m : Machine n, s = ⟨(m.semOpen sem k).2, fun _ => .outside⟩

def sectionSystem (n : ℕ) (sem k : Int32) : TransitionSystem (Sections n) where
  start := openedWith sem k
  step := SectionStep sem

/-! ## The number of processes inside -/

section Inside

variable {n : ℕ} {s : Sections n} {p : Fin n}

theorem mem_inside : p ∈ s.inside ↔ s.place p = .inside := by
  simp [Sections.inside]

theorem inside_update_inside (m : Machine n) (h : s.place p ≠ .inside) :
    (Sections.mk m (Function.update s.place p .inside)).inside.card = s.inside.card + 1 := by
  have hinsert : (Sections.mk m (Function.update s.place p .inside)).inside =
      insert p s.inside := by
    ext q
    by_cases hq : q = p
    · simp [mem_inside, hq]
    · simp [mem_inside, hq]
  rw [hinsert, Finset.card_insert_of_notMem (by simpa [mem_inside] using h)]

theorem inside_update_outside (m : Machine n) (h : s.place p = .inside) :
    (Sections.mk m (Function.update s.place p .outside)).inside.card + 1 = s.inside.card := by
  have herase : (Sections.mk m (Function.update s.place p .outside)).inside =
      s.inside.erase p := by
    ext q
    by_cases hq : q = p
    · simp [mem_inside, hq]
    · simp [mem_inside, hq]
  rw [herase]
  exact Finset.card_erase_add_one (by simpa [mem_inside] using h)

theorem inside_update_waiting (m : Machine n) (h : s.place p ≠ .inside) :
    (Sections.mk m (Function.update s.place p .waiting)).inside = s.inside := by
  ext q
  by_cases hq : q = p
  · simp [mem_inside, hq, h]
  · simp [mem_inside, hq]

end Inside

/-! ## The invariant -/

/-- Each token is free or with a process inside. -/
structure TokensKept {n : ℕ} (sem k : Int32) (s : Sections n) : Prop where
  total : (s.value sem).toInt + s.inside.card = k.toInt
  nonneg : 0 ≤ s.value sem
  opened : s.initValue sem = k

namespace TokensKept

variable {n : ℕ} {sem k : Int32} {s : Sections n} {p : Fin n}

theorem value_lt (h : TokensKept sem k s) (hinside : s.place p = .inside) :
    s.value sem < k := by
  have hpos : 0 < s.inside.card := Finset.card_pos.mpr ⟨p, mem_inside.mpr hinside⟩
  have htotal := h.total
  rw [Int32.lt_iff_toInt_lt]
  omega

theorem start (hsem : sem ≤ maxSem) (hk : 0 ≤ k) (h : openedWith sem k s) :
    TokensKept sem k s := by
  obtain ⟨m, rfl⟩ := h
  have hopen : (m.semOpen sem k).2 = (m.setValue sem k).setInitValue sem k := by
    rw [Machine.semOpen, if_neg (by rwa [Int32.not_lt])]
  refine ⟨?_, ?_, ?_⟩
  · simp [hopen, Sections.value, Sections.inside]
  · simpa [hopen, Sections.value] using hk
  · simp [hopen, Sections.initValue]

/-- The loop of `sem_down`, run where the semaphores are as in the state. -/
theorem afterDown (h : TokensKept sem k s) (hplace : s.place p ≠ .inside) {m : Machine n}
    (hm : m.semArray = s.machine.semArray) :
    TokensKept sem k (s.afterDown p (m.semDownLoop p sem)) := by
  by_cases hpos : 0 < s.value sem
  · have hafter : s.afterDown p (m.semDownLoop p sem) =
        ⟨m.setValue sem (s.value sem - 1), Function.update s.place p .inside⟩ := by
      rw [m.semDownLoop_some p sem (by rwa [hm]), Sections.afterDown, hm]
      rfl
    have htotal := h.total
    have hnext := toInt_sub_one hpos
    rw [hafter]
    refine ⟨?_, ?_, ?_⟩
    · rw [inside_update_inside _ hplace]
      simp only [Sections.value, Machine.setValue_semArray] at hnext htotal ⊢
      omega
    · rw [Int32.lt_iff_toInt_lt, Int32.toInt_zero] at hpos
      simp only [Sections.value, Machine.setValue_semArray] at hnext hpos ⊢
      rw [Int32.le_iff_toInt_le, Int32.toInt_zero]
      omega
    · simp only [Sections.initValue, Machine.setValue_semArray, hm]
      exact h.opened
  · have hafter : s.afterDown p (m.semDownLoop p sem) =
        ⟨m.sleep p sem, Function.update s.place p .waiting⟩ := by
      rw [m.semDownLoop_none p sem (by rw [hm]; exact Int32.not_lt.mp hpos)]
      rfl
    rw [hafter]
    refine ⟨?_, ?_, ?_⟩
    · rw [inside_update_waiting _ hplace]
      simpa [Sections.value, hm] using h.total
    · simpa [Sections.value, hm] using h.nonneg
    · simpa [Sections.initValue, hm] using h.opened

/-- A process inside finds the value below the one of the opening. -/
theorem semUp_eq (h : TokensKept sem k s) (hplace : s.place p = .inside) :
    s.machine.semUp p sem =
      (0, (s.machine.setValue sem (s.value sem + 1)).wakeup p sem) := by
  have hlt := h.value_lt hplace
  rw [Machine.semUp, if_neg]
  · rfl
  · intro heq
    have hvalue : s.value sem = k := heq.symm.trans h.opened
    rw [hvalue, Int32.lt_iff_toInt_lt] at hlt
    omega

theorem up (h : TokensKept sem k s) (hplace : s.place p = .inside) :
    TokensKept sem k (s.up p sem) := by
  have hafter : s.up p sem = ⟨(s.machine.setValue sem (s.value sem + 1)).wakeup p sem,
      Function.update s.place p .outside⟩ := by
    rw [Sections.up, h.semUp_eq hplace]
  have htotal := h.total
  have hnext := toInt_add_one (h.value_lt hplace)
  have hnonneg := h.nonneg
  rw [Int32.le_iff_toInt_le, Int32.toInt_zero] at hnonneg
  have hvalue : (Sections.mk ((s.machine.setValue sem (s.value sem + 1)).wakeup p sem)
      (Function.update s.place p .outside)).value sem = s.value sem + 1 := by
    simp [Sections.value]
  rw [hafter]
  refine ⟨?_, ?_, ?_⟩
  · have hcard := inside_update_outside
      ((s.machine.setValue sem (s.value sem + 1)).wakeup p sem) hplace
    rw [hvalue]
    omega
  · rw [hvalue, Int32.le_iff_toInt_le, Int32.toInt_zero]
    omega
  · simp only [Sections.initValue, Machine.wakeup_semArray, Machine.setValue_semArray]
    exact h.opened

theorem step {t : Sections n} (h : TokensKept sem k s) (hstep : SectionStep sem s t) :
    TokensKept sem k t := by
  cases hstep with
  | down p hplace =>
      rw [Sections.down, Machine.semDown_eq_loop]
      exact h.afterDown (by simp [hplace]) rfl
  | retry p hplace _ => exact h.afterDown (by simp [hplace]) rfl
  | up p hplace => exact h.up hplace
  | kill p => exact ⟨h.total, h.nonneg, h.opened⟩

theorem of_reachable (hsem : sem ≤ maxSem) (hk : 0 ≤ k)
    (hs : (sectionSystem n sem k).Reachable s) : TokensKept sem k s :=
  hs.invariant (fun _ hstart => start hsem hk hstart) fun _ _ h hstep => h.step hstep

end TokensKept

/-- In every reachable state the value and the processes inside add up to the value that the
semaphore was opened with, and no process inside gets -1 from `sem_up`. -/
theorem tokens_conserved {n : ℕ} {sem k : Int32} (hsem : 0 ≤ sem ∧ sem < maxSem) (hk : 0 ≤ k)
    {s : Sections n} (hs : (sectionSystem n sem k).Reachable s) :
    (s.value sem).toInt + s.inside.card = k.toInt ∧ (s.inside.card : ℤ) ≤ k.toInt ∧
      0 ≤ s.value sem ∧ s.value sem ≤ s.initValue sem ∧
      ∀ p, s.place p = .inside → (s.machine.semUp p sem).1 = 0 := by
  have hkept := TokensKept.of_reachable (Int32.le_of_lt hsem.2) hk hs
  have htotal := hkept.total
  have hnonneg := hkept.nonneg
  rw [Int32.le_iff_toInt_le, Int32.toInt_zero] at hnonneg
  refine ⟨htotal, by omega, hkept.nonneg, ?_, ?_⟩
  · rw [hkept.opened, Int32.le_iff_toInt_le]
    omega
  · intro p hplace
    rw [hkept.semUp_eq hplace]

def openedState : Sections 2 where
  machine := ((⟨fun _ => ⟨0, 0⟩, fun _ => ⟨.running, none, false⟩⟩ : Machine 2).semOpen 0 1).2
  place := fun _ => .outside

theorem tokens_conserved_afterDown :
    ((openedState.down 0 0).value 0).toInt + (openedState.down 0 0).inside.card = 1 := by
  have hstart : (sectionSystem 2 0 1).Reachable openedState := .of_start ⟨_, rfl⟩
  have hreachable : (sectionSystem 2 0 1).Reachable (openedState.down 0 0) :=
    hstart.tail (SectionStep.down 0 rfl)
  exact (tokens_conserved (by decide) (by decide) hreachable).1

end SistOp.Xv6
