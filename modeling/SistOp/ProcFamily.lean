import SistOp.ProcLifecycle

/-!
# Parents and children

What a process knows of the table at each of its sections, and who can be whose parent.
-/

namespace SistOp.Mlfq

variable {n : ℕ}

namespace Proc

/-- It may still call `exit`. -/
def Live (x : Proc n) : Prop :=
  x.state = .running ∨ x.state = .runnable ∨ x.state = .sleeping

/-- It has the CPU or waits for it. -/
def Ready (x : Proc n) : Prop := x.state = .running ∨ x.state = .runnable

end Proc

/-- The slot that `fork` has set up, and that cannot run yet. -/
def LifePc.forked : LifePc n → Option (Fin n)
  | .forkParent np _ | .forkState np _ => some np
  | _ => none

namespace Procs

/-- Asleep in `wait`. -/
def Asleep (k : Procs n) (p : Fin n) : Prop :=
  (k.proc p).state = .sleeping ∧ k.pc p = .waitReacquire

/-- What a process knows at its next section. -/
def Stands (k : Procs n) (p : Fin n) : Prop :=
  match k.pc p with
  | .user _ =>
      k.waitLock ≠ some p ∧ (k.proc p).state ≠ .zombie ∧
        ((k.proc p).state = .sleeping → n < (k.proc p).chan)
  | .forkScan _ | .killScan _ _ | .waitAcquire => k.waitLock ≠ some p ∧ (k.proc p).Ready
  | .forkParent np pid =>
      k.waitLock ≠ some p ∧ (k.proc p).Ready ∧ (k.proc np).state = .used ∧
        (k.proc np).parent = none ∧ (k.proc np).pid = pid ∧ (k.proc p).pid < pid
  | .forkState np pid =>
      k.waitLock ≠ some p ∧ (k.proc p).Ready ∧ (k.proc np).state = .used ∧
        (k.proc np).parent = some p ∧ (k.proc np).pid = pid
  | .exitAcquire _ => k.waitLock ≠ some p ∧ (k.proc p).Ready ∧ p ≠ k.initproc
  | .exitReparent _ rest | .exitWakeInit _ rest _ =>
      k.waitLock = some p ∧ (k.proc p).state = .running ∧ p ≠ k.initproc ∧
        ∀ q, (k.proc q).parent = some p → q ∈ rest
  | .exitWakeParent _ chan visit =>
      k.waitLock = some p ∧ (k.proc p).state = .running ∧ p ≠ k.initproc ∧
        (∀ q, (k.proc q).parent ≠ some p) ∧ chan = chanOfParent (k.proc p).parent ∧
        ∀ q, (k.proc p).parent = some q → k.Asleep q → q ∈ visit
  | .exitZombie _ =>
      k.waitLock = some p ∧ (k.proc p).state = .running ∧ p ≠ k.initproc ∧
        (∀ q, (k.proc q).parent ≠ some p) ∧ ∀ q, (k.proc p).parent = some q → ¬ k.Asleep q
  | .gone =>
      k.waitLock ≠ some p ∧ (k.proc p).state = .zombie ∧ p ≠ k.initproc ∧
        ∀ q, (k.proc q).parent ≠ some p
  | .waitScan rest havekids =>
      k.waitLock = some p ∧ (k.proc p).state = .running ∧
        (∀ q, (k.proc q).parent = some p →
          q ∈ rest ∨ (havekids = true ∧ (k.proc q).state ≠ .zombie)) ∧
        (havekids = true → ∃ q, (k.proc q).parent = some p)
  | .waitTest havekids =>
      k.waitLock = some p ∧ (k.proc p).state = .running ∧
        (∀ q, (k.proc q).parent = some p → havekids = true ∧ (k.proc q).state ≠ .zombie) ∧
        (havekids = true → ∃ q, (k.proc q).parent = some p)
  | .waitSleep =>
      k.waitLock = some p ∧ (k.proc p).state = .running ∧
        (∀ q, (k.proc q).parent = some p → (k.proc q).state ≠ .zombie) ∧
        ∃ q, (k.proc q).parent = some p
  | .waitReacquire =>
      k.waitLock ≠ some p ∧ (k.proc p).Live ∧ ((k.proc p).state = .sleeping →
        (k.proc p).chan = chanOf p ∧ ∃ q, (k.proc q).parent = some p)

/-- What a section of another process leaves of the table that a process knows. -/
structure Kept (k k' : Procs n) (q : Fin n) : Prop where
  pc : k'.pc q = k.pc q
  waitLock : k'.waitLock = some q ↔ k.waitLock = some q
  initproc : k'.initproc = k.initproc
  pid : (k'.proc q).pid = (k.proc q).pid
  state : (k'.proc q).state = (k.proc q).state ∧ (k'.proc q).chan = (k.proc q).chan ∨
    (k.proc q).state = .sleeping ∧ (k'.proc q).state = .runnable
  child : ∀ r, (k.proc r).parent = some q → (k'.proc r).parent = some q
  children : k.waitLock = some q ∨ q ≠ k.initproc →
    ∀ r, (k'.proc r).parent = some q → (k.proc r).parent = some q
  zombie : k.waitLock = some q → ∀ r, (k'.proc r).state = .zombie → (k.proc r).state = .zombie
  parent : k.waitLock = some q → (k'.proc q).parent = (k.proc q).parent
  asleep : k.waitLock = some q → ∀ r, k'.Asleep r → k.Asleep r
  forked : ∀ r, (k.pc q).forked = some r → (k'.proc r).state = (k.proc r).state ∧
    (k'.proc r).parent = (k.proc r).parent ∧ (k'.proc r).pid = (k.proc r).pid

section Kept

variable {k k' k'' : Procs n} {p q r : Fin n} {x : Proc n}

theorem Stands.kept (h : k.Stands q) (hkept : Kept k k' q) : k'.Stands q := by
  obtain ⟨hpc, hlock, hinit, hpid, hstate, hchild, hchildren, hzombie, hparent, hasleep, hforked⟩ :=
    hkept
  cases hat : k.pc q <;> simp only [Stands, hpc, hat, LifePc.forked] at h hforked ⊢ <;>
    grind [Proc.Ready, Proc.Live]

namespace Kept

theorem trans (h : Kept k k' q) (h' : Kept k' k'' q) : Kept k k'' q where
  pc := h'.pc.trans h.pc
  waitLock := h'.waitLock.trans h.waitLock
  initproc := h'.initproc.trans h.initproc
  pid := h'.pid.trans h.pid
  state := by
    have hfirst := h.state
    have hsecond := h'.state
    grind
  child r hr := h'.child r (h.child r hr)
  children hq r hr := by
    refine h.children hq r (h'.children ?_ r hr)
    rwa [h.waitLock, h.initproc]
  zombie hq r hr := h.zombie hq r (h'.zombie (h.waitLock.mpr hq) r hr)
  parent hq := (h'.parent (h.waitLock.mpr hq)).trans (h.parent hq)
  asleep hq r hr := h.asleep hq r (h'.asleep (h.waitLock.mpr hq) r hr)
  forked r hr := by
    obtain ⟨hstate, hparent, hpid⟩ := h.forked r hr
    obtain ⟨hstate', hparent', hpid'⟩ := h'.forked r (by rwa [h.pc])
    exact ⟨hstate'.trans hstate, hparent'.trans hparent, hpid'.trans hpid⟩

/-- The fields of the slots and the places stay. -/
theorem of_same (hpc : k'.pc q = k.pc q) (hproc : k'.proc = k.proc)
    (hlock : k'.waitLock = some q ↔ k.waitLock = some q) (hinit : k'.initproc = k.initproc)
    (hasleep : k.waitLock = some q → ∀ r, k'.Asleep r → k.Asleep r) : Kept k k' q where
  pc := hpc
  waitLock := hlock
  initproc := hinit
  pid := by rw [hproc]
  state := .inl (by simp [hproc])
  child := by simp [hproc]
  children := by simp [hproc]
  zombie := by simp [hproc]
  parent := by simp [hproc]
  asleep := hasleep
  forked := by simp [hproc]

theorem goto {next : LifePc n} (hq : q ≠ p)
    (hnext : k.waitLock = some q → next = .waitReacquire → (k.proc p).state ≠ .sleeping) :
    Kept k (k.goto p next) q := by
  refine of_same (Function.update_of_ne hq _ _) rfl Iff.rfl rfl fun hheld r hr => ?_
  have hasleep := hnext hheld
  simp only [Asleep, Procs.goto] at hr ⊢
  grind

theorem setWaitLock {holder : Option (Fin n)} (hholder : holder ≠ some q)
    (hheld : k.waitLock ≠ some q) : Kept k (k.setWaitLock holder) q :=
  of_same rfl rfl (iff_of_false hholder hheld) rfl fun hq => absurd hq hheld

theorem allocpid : Kept k k.allocpid q :=
  of_same rfl rfl Iff.rfl rfl fun _ _ hr => hr

/-- A slot changes in a way that the process does not care for. -/
theorem setProc (hself : q = r → x.pid = (k.proc q).pid ∧
      (k.waitLock = some q → x.parent = (k.proc q).parent) ∧
      (x.state = (k.proc q).state ∧ x.chan = (k.proc q).chan ∨
        (k.proc q).state = .sleeping ∧ x.state = .runnable))
    (hchild : (k.proc r).parent = some q → x.parent = some q)
    (hchildren : k.waitLock = some q ∨ q ≠ k.initproc → x.parent = some q →
      (k.proc r).parent = some q)
    (hzombie : k.waitLock = some q → x.state = .zombie → (k.proc r).state = .zombie)
    (hasleep : k.waitLock = some q → (k.setProc r x).Asleep r → k.Asleep r)
    (hforked : (k.pc q).forked = some r → x.state = (k.proc r).state ∧
      x.parent = (k.proc r).parent ∧ x.pid = (k.proc r).pid) : Kept k (k.setProc r x) q where
  pc := rfl
  waitLock := Iff.rfl
  initproc := rfl
  pid := by grind
  state := by grind
  child := by grind
  children hheld := by
    have := hchildren hheld
    grind
  zombie hheld := by
    have := hzombie hheld
    grind
  parent := by grind
  asleep hheld t ht := by
    by_cases htr : t = r
    · exact htr ▸ hasleep hheld (htr ▸ ht)
    · simpa [Asleep, setProc_proc, htr] using ht
  forked := by grind

end Kept

end Kept

/-- What holds of the slots, wherever their processes stand. -/
structure Family (k : Procs n) : Prop where
  parent : ∀ r q, (k.proc r).parent = some q → (k.proc q).Live ∧
    (k.proc q).pid < (k.proc r).pid ∧ (k.proc r).state ≠ .unused ∧ r ≠ k.initproc
  init : (k.proc k.initproc).Live ∧ (k.proc k.initproc).pid = 1
  unused : ∀ r, (k.proc r).state = .unused → (k.proc r).pid = 0
  pid : ∀ r, (k.proc r).state ≠ .unused → (k.proc r).pid < k.nextpid ∧
    (r = k.initproc ∨ 1 < (k.proc r).pid)
  unique : ∀ r q, (k.proc r).state ≠ .unused → (k.proc r).pid = (k.proc q).pid → r = q

namespace Family

variable {k : Procs n} {p q : Fin n} {x : Proc n}

theorem parent_of_unused (h : k.Family) (hq : (k.proc q).state = .unused) :
    (k.proc q).parent = none :=
  Option.eq_none_iff_forall_ne_some.mpr fun r hr => (h.parent q r hr).2.2.1 hq

theorem childless (h : k.Family) (hq : ¬ (k.proc q).Live) (r : Fin n) :
    (k.proc r).parent ≠ some q := fun hr => hq (h.parent r q hr).1

theorem ne_initproc (h : k.Family) (hq : ¬ (k.proc q).Live) : q ≠ k.initproc := by
  rintro rfl
  exact hq h.init.1

theorem pid_lt (h : k.Family) (q : Fin n) : (k.proc q).pid < k.nextpid := by
  by_cases hq : (k.proc q).state = .unused
  · have hinit := h.pid k.initproc (by have := h.init.1; grind [Proc.Live])
    have := h.unused q hq
    omega
  · exact (h.pid q hq).1

/-- Neither the place in the family nor the identifier changes, and who ends has no children. -/
theorem setProc (h : k.Family) (hpid : x.pid = (k.proc q).pid)
    (hparent : x.parent = (k.proc q).parent)
    (hunused : x.state = .unused ↔ (k.proc q).state = .unused)
    (hlive : x.Live ∨ q ≠ k.initproc ∧ ∀ r, (k.proc r).parent ≠ some q) :
    (k.setProc q x).Family := by
  have hpids : ∀ r, ((k.setProc q x).proc r).pid = (k.proc r).pid := by grind
  have hparents : ∀ r, ((k.setProc q x).proc r).parent = (k.proc r).parent := by grind
  have hfree : ∀ r, ((k.setProc q x).proc r).state = .unused ↔ (k.proc r).state = .unused := by
    grind
  have hlives : ∀ r, (k.proc r).Live → (r = k.initproc ∨ ∃ c, (k.proc c).parent = some r) →
      ((k.setProc q x).proc r).Live := by
    intro r hr hneeded
    by_cases hrq : r = q
    · subst hrq
      rcases hlive with hlive | ⟨hne, hchildless⟩
      · simpa [setProc_proc] using hlive
      · rcases hneeded with heq | ⟨c, hc⟩
        · exact absurd heq hne
        · exact absurd hc (hchildless c)
    · simpa [setProc_proc, hrq] using hr
  constructor
  · intro r c hr
    rw [hparents] at hr
    obtain ⟨hc, hlt, hused, hne⟩ := h.parent r c hr
    exact ⟨hlives c hc (.inr ⟨r, hr⟩), by rwa [hpids, hpids], by rwa [ne_eq, hfree], hne⟩
  · exact ⟨hlives _ h.init.1 (.inl rfl), (hpids _).trans h.init.2⟩
  · intro r hr
    rw [hpids]
    exact h.unused r ((hfree r).mp hr)
  · intro r hr
    rw [hpids]
    exact h.pid r (by rwa [ne_eq, ← hfree])
  · intro r c hr hrc
    rw [hpids, hpids] at hrc
    exact h.unique r c (by rwa [ne_eq, ← hfree]) hrc

/-- A slot without a live process is freed. -/
theorem freeproc (h : k.Family) (hq : ¬ (k.proc q).Live) :
    (k.setProc q (k.proc q).freeproc).Family := by
  have hne := h.ne_initproc hq
  have hchildless := h.childless hq
  obtain ⟨hfamily, hinit, hunused, hpids, hunique⟩ := h
  constructor <;> grind [Proc.Live, Proc.freeproc]

theorem allocpid (h : k.Family) : k.allocpid.Family :=
  { h with pid := fun r hr => ⟨Nat.lt_succ_of_lt (h.pid r hr).1, (h.pid r hr).2⟩ }

theorem allocproc (h : k.Family) (hq : (k.proc q).state = .unused) :
    (k.allocpid.setProc q ((k.proc q).found k.nextpid)).Family := by
  have hlt := h.pid_lt
  have hone := h.init.2 ▸ hlt k.initproc
  have hnone := h.parent_of_unused hq
  have hchildless := h.childless (q := q) (by grind [Proc.Live])
  have hne := h.ne_initproc (q := q) (by grind [Proc.Live])
  obtain ⟨hfamily, hinit, hunused, hpids, hunique⟩ := h
  constructor
  · simp only [setProc_proc, allocpid_proc, setProc_initproc, allocpid_initproc]
    grind [Proc.found]
  · simp only [setProc_proc, allocpid_proc, setProc_initproc, allocpid_initproc]
    grind
  · simp only [setProc_proc, allocpid_proc]
    grind [Proc.found]
  · intro r hr
    by_cases hrq : r = q
    · simp [setProc_proc, hrq, Proc.found, hone]
    · simp only [setProc_proc, hrq, if_false, allocpid_proc] at hr ⊢
      exact ⟨Nat.lt_succ_of_lt (hpids r hr).1, (hpids r hr).2⟩
  · intro r c hr hrc
    by_cases hrq : r = q <;> by_cases hcq : c = q <;>
      simp only [setProc_proc, hrq, hcq, if_true, if_false, allocpid_proc, Proc.found] at hr hrc ⊢
    · exact absurd hrc (hlt c).ne'
    · exact absurd hrc (hlt r).ne
    · exact hunique r c hr hrc

theorem setParent (h : k.Family) (hp : (k.proc p).Live) (hq : q ≠ k.initproc)
    (hused : (k.proc q).state ≠ .unused) (hpid : (k.proc p).pid < (k.proc q).pid) :
    (k.setProc q { k.proc q with parent := some p }).Family := by
  obtain ⟨hfamily, hinit, hunused, hpids, hunique⟩ := h
  constructor <;> grind [Proc.Live]

end Family

/-- What holds of the table between any two sections. -/
structure Inv (k : Procs n) : Prop extends Family k where
  stands : ∀ p, k.Stands p
  forker : ∀ p q r, (k.pc p).forked = some r → (k.pc q).forked = some r → p = q
  orphan : ∀ r, (k.proc r).parent = none → (k.proc r).state = .unused ∨ r = k.initproc ∨
    ∃ p, (k.pc p).forked = some r

namespace Inv

variable {k : Procs n} {p q np : Fin n} {x : Proc n} {next : LifePc n}

/-- The lists that the proofs keep are no part of it. -/
theorem withRecords (h : k.Inv) (exited reaped : List (ℕ × ℤ)) (targets : List ℤ)
    (asked : Fin n → ℕ) :
    Inv { k with exited := exited, reaped := reaped, targets := targets, asked := asked } :=
  { h with }

theorem forked_goto (next : LifePc n) (hnext : next.forked = (k.pc p).forked) (q : Fin n) :
    ((k.goto p next).pc q).forked = (k.pc q).forked := by
  by_cases hq : q = p
  · simp [goto_pc, hq, hnext]
  · simp [goto_pc, hq]

/-- A section that only takes or releases `wait_lock`, if anything. -/
theorem move (h : k.Inv) {holder : Option (Fin n)}
    (hholder : ∀ q ≠ p, holder = k.waitLock ∨ holder ≠ some q ∧ k.waitLock ≠ some q)
    (hforked : (k.pc p).forked = none) (hnext : next.forked = none)
    (hasleep : next = .waitReacquire → (k.proc p).state ≠ .sleeping)
    (hstands : ((k.setWaitLock holder).goto p next).Stands p) :
    ((k.setWaitLock holder).goto p next).Inv where
  toFamily := { h.toFamily with }
  stands q := by
    by_cases hq : q = p
    · exact hq ▸ hstands
    · have hgoto : Kept (k.setWaitLock holder) ((k.setWaitLock holder).goto p next) q :=
        .goto hq fun _ => hasleep
      rcases hholder q hq with rfl | ⟨hnot, hheld⟩
      · exact (h.stands q).kept hgoto
      · exact (h.stands q).kept ((Kept.setWaitLock hnot hheld).trans hgoto)
  forker q r s := by
    rw [forked_goto next (by rw [setWaitLock_pc, hforked, hnext]), forked_goto next
      (by rw [setWaitLock_pc, hforked, hnext])]
    exact h.forker q r s
  orphan r hr := by
    simp only [forked_goto (k := k.setWaitLock holder) (p := p) next
      (by rw [setWaitLock_pc, hforked, hnext])]
    exact h.orphan r hr

/-- The next section of a process is another. -/
theorem goto (h : k.Inv) (hforked : (k.pc p).forked = none) (hnext : next.forked = none)
    (hasleep : next ≠ .waitReacquire) (hstands : (k.goto p next).Stands p) :
    (k.goto p next).Inv :=
  h.move (fun _ _ => .inl rfl) hforked hnext (fun heq => absurd heq hasleep) hstands

/-- What changes of a slot is neither its place in the family nor its identifier. -/
theorem setProc (h : k.Inv) (hpid : x.pid = (k.proc q).pid)
    (hparent : x.parent = (k.proc q).parent)
    (hstate : x.state = (k.proc q).state ∨ (k.proc q).Live ∧ x.Live)
    (hasleep : (k.setProc q x).Asleep q → k.Asleep q ∨ k.waitLock = none)
    (hstands : (k.setProc q x).Stands q) : (k.setProc q x).Inv where
  toFamily := by
    refine h.toFamily.setProc hpid hparent (by grind [Proc.Live]) ?_
    by_cases hlive : (k.proc q).Live
    · exact .inl (by grind [Proc.Live])
    · exact .inr ⟨h.ne_initproc hlive, h.childless hlive⟩
  stands r := by
    by_cases hr : r = q
    · exact hr ▸ hstands
    · refine (h.stands r).kept (.setProc (absurd · hr) (hparent ▸ id) (fun _ => hparent ▸ id)
        (by grind [Proc.Live]) (by grind) fun hforked => ⟨?_, hparent, hpid⟩)
      have hused := h.stands r
      cases hat : k.pc r <;> simp only [Stands, hat, LifePc.forked] at hused hforked <;>
        grind [Proc.Live]
  forker := h.forker
  orphan r hr := by
    by_cases hrq : r = q
    · subst hrq
      simp only [setProc_proc, if_true, hparent] at hr ⊢
      rcases h.orphan r hr with hunused | hrest
      · exact .inl (by grind [Proc.Live])
      · exact .inr hrest
    · simp only [setProc_proc, hrq, if_false] at hr ⊢
      exact h.orphan r hr

theorem state_of_forked (h : k.Inv) (hp : (k.pc p).forked = some np) :
    (k.proc np).state = .used := by
  have hstands := h.stands p
  cases hat : k.pc p <;> simp only [Stands, hat, LifePc.forked] at hstands hp <;> grind

/-- A process in one of the calls is no free slot. -/
theorem pc_of_unused (h : k.Inv) (hq : (k.proc q).state = .unused ∨ (k.proc q).state = .used) :
    ∃ ret, k.pc q = .user ret ∧ k.waitLock ≠ some q := by
  have hstands := h.stands q
  cases hat : k.pc q <;> simp only [Stands, hat] at hstands <;> grind [Proc.Ready, Proc.Live]

theorem ready_of_forkScan (h : k.Inv) {rest : List (Fin n)} (hp : k.pc p = .forkScan rest) :
    k.waitLock ≠ some p ∧ (k.proc p).Ready := by
  simpa only [Stands, hp] using h.stands p

theorem forkChild {rest : List (Fin n)} (h : k.Inv) (hp : k.pc p = .forkScan (np :: rest))
    (hunused : (k.proc np).state = .unused) : (k.forkChild p np).Inv where
  toFamily := { h.allocproc hunused with }
  stands q := by
    obtain ⟨hheld, hready⟩ := h.ready_of_forkScan hp
    have hlt := h.pid_lt p
    have hnone := h.parent_of_unused hunused
    have hne : p ≠ np := by
      rintro rfl
      grind [Proc.Ready]
    by_cases hq : q = p
    · subst hq
      simp [Stands, Procs.forkChild, goto_pc, setProc_proc, Proc.found, hne, hheld, hlt, hnone,
        hready]
    by_cases hqnp : q = np
    · subst hqnp
      obtain ⟨ret, hret, hfree⟩ := h.pc_of_unused (.inl hunused)
      simp [Stands, Procs.forkChild, goto_pc, setProc_proc, Proc.found, hq, hret, hfree]
    · have hslot : Kept k.allocpid (k.allocpid.setProc np ((k.proc np).found k.nextpid)) q := by
        refine .setProc (absurd · hqnp) id (fun _ => id) ?_ ?_ fun hforked => ?_
        · simp [Proc.found]
        · simp [Asleep, setProc_proc, Proc.found]
        · simp [h.state_of_forked hforked] at hunused
      exact (h.stands q).kept ((Kept.allocpid.trans hslot).trans (.goto hq (by simp)))
  forker q r s hq hr := by
    have hfree : ∀ t, (k.pc t).forked ≠ some np := fun t ht => by
      simp [h.state_of_forked ht] at hunused
    simp only [Procs.forkChild, goto_pc, setProc_pc, allocpid_pc] at hq hr
    have hforker := h.forker q r s
    grind [LifePc.forked]
  orphan r := by
    by_cases hrnp : r = np
    · exact fun _ => .inr (.inr ⟨p, by simp [Procs.forkChild, goto_pc, LifePc.forked, hrnp]⟩)
    · intro hr
      simp only [Procs.forkChild, goto_proc, setProc_proc, hrnp, if_false] at hr ⊢
      rcases h.orphan r hr with hr | hr | ⟨q, hq⟩
      · exact .inl hr
      · exact .inr (.inl hr)
      · have hqp : q ≠ p := by
          rintro rfl
          simp [hp, LifePc.forked] at hq
        exact .inr (.inr ⟨q, by simpa [goto_pc, hqp] using hq⟩)

/-- The slot was free, or its fork fails, and it is free. -/
theorem freeproc (h : k.Inv) (hq : (k.proc q).state = .unused) (y : Proc n) :
    (k.setProc q y.freeproc).Inv where
  toFamily := h.toFamily.freeproc (q := q) (by grind [Proc.Live])
  stands r := by
    have hnone := h.parent_of_unused hq
    by_cases hrq : r = q
    · subst hrq
      obtain ⟨ret, hret, hfree⟩ := h.pc_of_unused (.inl hq)
      simp [Stands, hret, setProc_proc, Proc.freeproc, hfree]
    · refine (h.stands r).kept (.setProc (absurd · hrq) ?_ ?_ ?_ ?_ fun hforked => ?_)
      · simp [hnone]
      · simp [Proc.freeproc]
      · simp [Proc.freeproc]
      · simp [Asleep, setProc_proc, Proc.freeproc]
      · simp [h.state_of_forked hforked] at hq
  forker := h.forker
  orphan r hr := by
    by_cases hrq : r = q
    · exact .inl (by simp [setProc_proc, hrq, Proc.freeproc])
    · simp only [setProc_proc, hrq, if_false] at hr ⊢
      exact h.orphan r hr

theorem allocpid (h : k.Inv) : k.allocpid.Inv where
  toFamily := h.toFamily.allocpid
  stands q := (h.stands q).kept .allocpid
  forker := h.forker
  orphan := h.orphan

theorem forkFails {rest : List (Fin n)} (h : k.Inv) (hp : k.pc p = .forkScan (np :: rest))
    (hunused : (k.proc np).state = .unused) : (k.forkFails p np).Inv := by
  obtain ⟨hheld, hready⟩ := h.ready_of_forkScan hp
  have hne : p ≠ np := by
    rintro rfl
    grind [Proc.Ready]
  have hfreed : (k.allocpid.setProc np ((k.proc np).found k.nextpid).freeproc).Inv :=
    h.allocpid.freeproc hunused _
  refine hfreed.goto (by simp [hp, LifePc.forked]) rfl (by simp) ?_
  simp only [Stands, goto_pc, if_true]
  refine ⟨hheld, ?_, ?_⟩
  · rcases hready with hready | hready <;> simp [setProc_proc, hne, hready]
  · intro hsleeping
    rcases hready with hready | hready <;> simp [setProc_proc, hne, hready] at hsleeping

/-- A slot that cannot run yet stands where it was put. -/
theorem stands_of_pc_user (ret : Option ℤ) (hq : k.pc q = .user ret)
    (hfree : k.waitLock ≠ some q) (hstate : (k.proc q).state ≠ .zombie)
    (hsleeping : (k.proc q).state ≠ .sleeping) : k.Stands q := by
  simp [Stands, hq, hfree, hstate, hsleeping]

theorem forkParent {pid : ℕ} (h : k.Inv) (hp : k.pc p = .forkParent np pid)
    (hfree : k.waitLock = none) :
    ((k.setProc np { k.proc np with parent := some p }).goto p (.forkState np pid)).Inv := by
  have hstands := h.stands p
  simp only [Stands, hp] at hstands
  obtain ⟨hheld, hready, hused, hnone, hpid, hlt⟩ := hstands
  have hinit : np ≠ k.initproc := h.ne_initproc (by grind [Proc.Live])
  have hne : p ≠ np := by
    rintro rfl
    grind [Proc.Ready]
  have hforked := forked_goto (p := p)
    (k := k.setProc np { k.proc np with parent := some p }) (.forkState np pid)
    (by simp [hp, LifePc.forked])
  refine ⟨?_, fun q => ?_, ?_, fun r hr => ?_⟩
  · exact { h.toFamily.setParent (p := p) (q := np) (by grind [Proc.Live, Proc.Ready]) hinit
      (by simp [hused]) (hpid ▸ hlt) with }
  · by_cases hq : q = p
    · subst hq
      simp [Stands, goto_pc, setProc_proc, hne, hheld, hready, hused, hpid]
    by_cases hqnp : q = np
    · subst hqnp
      obtain ⟨ret, hret, hnot⟩ := h.pc_of_unused (.inr hused)
      apply stands_of_pc_user ret <;> simp [goto_pc, hq, hret, hnot, setProc_proc, hused]
    · have hslot : Kept k (k.setProc np { k.proc np with parent := some p }) q := by
        refine .setProc (absurd · hqnp) ?_ ?_ ?_ ?_ fun hown => ?_
        · simp [hnone]
        · simp [Ne.symm hq]
        · simp
        · simp [hfree]
        · exact absurd (h.forker q p np hown (by simp [hp, LifePc.forked])) hq
      exact (h.stands q).kept (hslot.trans (.goto hq (by simp)))
  · simp only [hforked]
    exact h.forker
  · simp only [hforked]
    by_cases hrnp : r = np
    · simp [setProc_proc, hrnp] at hr
    · simp only [goto_proc, setProc_proc, hrnp, if_false] at hr ⊢
      exact h.orphan r hr

theorem forkState {pid : ℕ} (h : k.Inv) (hp : k.pc p = .forkState np pid) :
    ((k.setProc np { k.proc np with state := .runnable }).goto p (.user (some pid))).Inv := by
  have hstands := h.stands p
  simp only [Stands, hp] at hstands
  obtain ⟨hheld, hready, hused, hparent, hpid⟩ := hstands
  have hinit : np ≠ k.initproc := h.ne_initproc (by grind [Proc.Live])
  have hne : p ≠ np := by
    rintro rfl
    grind [Proc.Ready]
  obtain ⟨ret, hret, hnot⟩ := h.pc_of_unused (.inr hused)
  refine ⟨?_, fun q => ?_, fun q r s hq hr => ?_, fun r hr => ?_⟩
  · have hfamily := h.toFamily.setProc (q := np) (x := { k.proc np with state := .runnable }) rfl
      rfl (by simp [hused]) (.inl (.inr (.inl rfl)))
    exact { hfamily with }
  · by_cases hq : q = p
    · subst hq
      have hstate := hready
      apply stands_of_pc_user (some pid) <;> simp [goto_pc, setProc_proc, hne, hheld] <;>
        grind [Proc.Ready]
    by_cases hqnp : q = np
    · subst hqnp
      apply stands_of_pc_user ret <;> simp [goto_pc, hq, hret, hnot, setProc_proc]
    · have hslot : Kept k (k.setProc np { k.proc np with state := .runnable }) q := by
        refine .setProc (absurd · hqnp) id (fun _ => id) ?_ ?_ fun hown => ?_
        · simp
        · simp [Asleep, setProc_proc]
        · exact absurd (h.forker q p np hown (by simp [hp, LifePc.forked])) hq
      exact (h.stands q).kept (hslot.trans (.goto hq (by simp)))
  · have hforker := h.forker q r s
    simp only [goto_pc, setProc_pc] at hq hr
    grind [LifePc.forked]
  · by_cases hrnp : r = np
    · simp [setProc_proc, hrnp, hparent] at hr
    · simp only [goto_proc, setProc_proc, hrnp, if_false] at hr ⊢
      rcases h.orphan r hr with hunused | hrinit | ⟨q, hq⟩
      · exact .inl hunused
      · exact .inr (.inl hrinit)
      · have hqp : q ≠ p := by
          rintro rfl
          simp [hp, LifePc.forked, Ne.symm hrnp] at hq
        exact .inr (.inr ⟨q, by simpa [goto_pc, hqp] using hq⟩)

/-- A child of the process that exits goes to `initproc`. -/
theorem reparent {status : ℤ} {pp : Fin n} {rest : List (Fin n)} (h : k.Inv)
    (hp : k.pc p = .exitReparent status (pp :: rest)) (hchild : (k.proc pp).parent = some p) :
    ((k.setProc pp { k.proc pp with parent := some k.initproc }).goto p
      (.exitWakeInit status rest (List.finRange n))).Inv := by
  have hstands := h.stands p
  simp only [Stands, hp] at hstands
  obtain ⟨hheld, hrunning, hinit, hrest⟩ := hstands
  obtain ⟨hlive, hlt, hused, hne⟩ := h.parent pp p hchild
  have hforked := forked_goto (p := p)
    (k := k.setProc pp { k.proc pp with parent := some k.initproc })
    (.exitWakeInit status rest (List.finRange n)) (by simp [hp, LifePc.forked])
  have hpp : pp ≠ p := by
    rintro rfl
    simp at hlt
  refine ⟨?_, fun q => ?_, ?_, fun r hr => ?_⟩
  · have hfamily := h.toFamily.setParent (p := k.initproc) (q := pp) h.init.1 hne hused
      (by
        have := (h.pid pp hused).2
        rw [h.init.2]
        grind)
    exact { hfamily with }
  · by_cases hq : q = p
    · subst hq
      simp only [Stands, goto_pc, if_true, goto_waitLock, setProc_waitLock, goto_proc,
        goto_initproc, setProc_initproc]
      grind
    · have hslot : Kept k (k.setProc pp { k.proc pp with parent := some k.initproc }) q := by
        refine .setProc ?_ ?_ ?_ ?_ ?_ fun hown => ?_
        · rintro rfl
          exact ⟨rfl, by simp [hheld, Ne.symm hq], .inl ⟨rfl, rfl⟩⟩
        · simp [hchild, Ne.symm hq]
        · simp [hheld, Ne.symm hq]
          grind
        · simp
        · simp [hheld, Ne.symm hq]
        · have hforks := h.stands q
          cases hat : k.pc q <;> simp only [hat, LifePc.forked, Stands] at hown hforks <;> grind
      exact (h.stands q).kept (hslot.trans (.goto hq (by simp)))
  · simp only [hforked]
    exact h.forker
  · simp only [hforked]
    by_cases hrpp : r = pp
    · simp [setProc_proc, hrpp] at hr
    · simp only [goto_proc, setProc_proc, hrpp, if_false] at hr ⊢
      exact h.orphan r hr

theorem zombie {status : ℤ} (h : k.Inv) (hp : k.pc p = .exitZombie status) :
    (k.zombie p status).Inv := by
  have hstands := h.stands p
  simp only [Stands, hp] at hstands
  obtain ⟨hheld, hrunning, hinit, hchildless, hasleep⟩ := hstands
  have hfamily := h.toFamily.setProc (q := p) (x := (k.proc p).leave (.exit status)) rfl rfl
    (by simp [Proc.leave, hrunning]) (.inr ⟨hinit, hchildless⟩)
  have hforked := forked_goto (p := p)
    (k := (k.setProc p ((k.proc p).leave (.exit status))).setWaitLock none) .gone
    (by simp [hp, LifePc.forked])
  have hinv : (((k.setProc p ((k.proc p).leave (.exit status))).setWaitLock none).goto p
      .gone).Inv := by
    refine ⟨{ hfamily with }, fun q => ?_, ?_, fun r hr => ?_⟩
    · by_cases hq : q = p
      · subst hq
        simp [Stands, goto_pc, setProc_proc, Proc.leave, hinit]
        grind
      · have hne : k.waitLock ≠ some q := by simp [hheld, Ne.symm hq]
        have hslot : Kept k (k.setProc p ((k.proc p).leave (.exit status))) q := by
          refine .setProc (absurd · hq) id (fun _ => id) (absurd · hne) (absurd · hne)
            fun hown => ?_
          simp [h.state_of_forked hown] at hrunning
        exact (h.stands q).kept ((hslot.trans (.setWaitLock (by simp) hne)).trans
          (.goto hq (by simp)))
    · simp only [hforked]
      exact h.forker
    · simp only [hforked]
      by_cases hrp : r = p
      · subst hrp
        exact (h.orphan r (by simpa [setProc_proc, Proc.leave] using hr)).imp_left
          (by simp [hrunning])
      · simp only [goto_proc, setWaitLock_proc, setProc_proc, hrp, if_false] at hr ⊢
        exact h.orphan r hr
  exact hinv.withRecords _ _ _ _

theorem reap {pp : Fin n} (h : k.Inv) (hheld : k.waitLock = some p)
    (hrunning : (k.proc p).state = .running) (hpforked : (k.pc p).forked = none)
    (hchild : (k.proc pp).parent = some p) (hzombie : (k.proc pp).state = .zombie) :
    (k.reap p pp).Inv := by
  have hfamily := h.toFamily.freeproc (q := pp) (by grind [Proc.Live])
  have hne : p ≠ pp := by
    rintro rfl
    simp [hrunning] at hzombie
  have hgone : (k.pc pp).forked = none := by
    have hstands := h.stands pp
    cases hat : k.pc pp <;> simp only [Stands, hat, LifePc.forked] at hstands ⊢ <;>
      grind [Proc.Ready]
  have hforked : ∀ q, ((((((k.setProc pp (k.proc pp).freeproc).goto pp (.user none)).setWaitLock
      none).goto p (.user (some (k.proc pp).pid))).pc q).forked) = (k.pc q).forked := fun q =>
    (forked_goto _ (by simp [goto_pc, hne, hpforked]; rfl) q).trans
      (forked_goto _ (by simp [hgone]; rfl) q)
  have hinv : ((((k.setProc pp (k.proc pp).freeproc).goto pp (.user none)).setWaitLock
      none).goto p (.user (some (k.proc pp).pid))).Inv := by
    refine ⟨{ hfamily with }, fun q => ?_, ?_, fun r hr => ?_⟩
    · by_cases hq : q = p
      · subst hq
        apply stands_of_pc_user (some (k.proc pp).pid) <;>
          simp [goto_pc, setProc_proc, hne, hrunning]
      by_cases hqpp : q = pp
      · subst hqpp
        apply stands_of_pc_user none <;>
          simp [goto_pc, setProc_proc, hq, Proc.freeproc]
      · have hnot : k.waitLock ≠ some q := by simp [hheld, Ne.symm hq]
        have hslot : Kept k (k.setProc pp (k.proc pp).freeproc) q := by
          refine .setProc (absurd · hqpp) ?_ ?_ (absurd · hnot) (absurd · hnot) fun hown => ?_
          · simp [hchild, Ne.symm hq]
          · simp [Proc.freeproc]
          · simp [h.state_of_forked hown] at hzombie
        exact (h.stands q).kept (((hslot.trans (.goto hqpp (by simp))).trans
          (.setWaitLock (by simp) hnot)).trans (.goto hq (by simp)))
    · simp only [hforked]
      exact h.forker
    · simp only [hforked]
      by_cases hrpp : r = pp
      · exact .inl (by simp [setProc_proc, hrpp, Proc.freeproc])
      · simp only [goto_proc, setWaitLock_proc, setProc_proc, hrpp, if_false] at hr ⊢
        exact h.orphan r hr
  exact hinv.withRecords _ _ _ _

/-- A process that slept is awake, and nothing else that matters here changes. -/
theorem setProc_woken (h : k.Inv) (hpid : x.pid = (k.proc q).pid)
    (hparent : x.parent = (k.proc q).parent) (hchan : x.chan = (k.proc q).chan)
    (hstate : x.state = (k.proc q).state ∨
      (k.proc q).state = .sleeping ∧ x.state = .runnable) : (k.setProc q x).Inv := by
  refine h.setProc hpid hparent ?_ ?_ ?_
  · rcases hstate with hstate | ⟨hsleeping, hrunnable⟩
    · exact .inl hstate
    · exact .inr ⟨.inr (.inr hsleeping), .inr (.inl hrunnable)⟩
  · simp only [Asleep, setProc_proc, setProc_pc, if_true]
    grind
  · refine (h.stands q).kept (.setProc (fun _ => ⟨hpid, fun _ => hparent, by grind⟩)
      (hparent ▸ id) (fun _ => hparent ▸ id) (by grind) ?_ fun hforked => ⟨?_, hparent, hpid⟩)
    · simp only [Asleep, setProc_proc, setProc_pc, if_true]
      grind
    · have hused := h.state_of_forked hforked
      grind

/-- A process gets the CPU, or gives it up without going to sleep. -/
theorem setProc_ready (h : k.Inv) (hpid : x.pid = (k.proc q).pid)
    (hparent : x.parent = (k.proc q).parent) (hready : (k.proc q).Ready)
    (hfree : k.waitLock ≠ some q) (hx : x.Ready) : (k.setProc q x).Inv := by
  refine h.setProc hpid hparent (.inr ⟨?_, ?_⟩) ?_ ?_
  · grind [Proc.Ready, Proc.Live]
  · grind [Proc.Ready, Proc.Live]
  · simp only [Asleep, setProc_proc, setProc_pc, if_true]
    grind [Proc.Ready]
  · have hstands := h.stands q
    cases hat : k.pc q <;> simp only [Stands, hat, setProc_pc, setProc_waitLock] at hstands ⊢ <;>
      grind [Proc.Ready, Proc.Live]

theorem kill (h : k.Inv) : (k.setProc q (k.proc q).kill).Inv := by
  by_cases hsleeping : (k.proc q).state = .sleeping
  · exact h.setProc_woken (by simp [Proc.kill, hsleeping]) (by simp [Proc.kill, hsleeping])
      (by simp [Proc.kill, hsleeping]) (.inr ⟨hsleeping, Proc.kill_state_of_sleeping hsleeping⟩)
  · exact h.setProc_woken (by simp [Proc.kill, hsleeping]) (by simp [Proc.kill, hsleeping])
      (by simp [Proc.kill, hsleeping]) (.inl (Proc.kill_state_of_ne hsleeping))

/-- A turn of `wakeup`. -/
theorem wakeSlot {chan : ℕ} (h : k.Inv) : (k.wakeSlot p q chan).Inv := by
  unfold Procs.wakeSlot
  split_ifs with hsleeps
  · exact h.setProc_woken rfl rfl rfl (.inr ⟨hsleeps.2.1, rfl⟩)
  · exact h

end Inv

theorem asleep_of_goto {k : Procs n} {p q : Fin n} {next : LifePc n}
    (hnext : next ≠ .waitReacquire) (h : (k.goto p next).Asleep q) : k.Asleep q := by
  simp only [Asleep, goto_pc, goto_proc] at h ⊢
  grind

section WakeSlot

variable {k : Procs n} {p q r : Fin n} {chan : ℕ}

@[simp] theorem wakeSlot_pc : (k.wakeSlot p q chan).pc = k.pc := by
  unfold wakeSlot
  split_ifs <;> rfl

@[simp] theorem wakeSlot_waitLock : (k.wakeSlot p q chan).waitLock = k.waitLock := by
  unfold wakeSlot
  split_ifs <;> rfl

@[simp] theorem wakeSlot_initproc : (k.wakeSlot p q chan).initproc = k.initproc := by
  unfold wakeSlot
  split_ifs <;> rfl

@[simp] theorem wakeSlot_parent : ((k.wakeSlot p q chan).proc r).parent = (k.proc r).parent := by
  grind [wakeSlot, Proc.woken]

@[simp] theorem wakeSlot_self : (k.wakeSlot p q chan).proc p = k.proc p := by
  grind [wakeSlot]

theorem wakeSlot_state (chan : ℕ) : ((k.wakeSlot p q chan).proc r).state = (k.proc r).state ∨
    (k.proc r).state = .sleeping ∧ ((k.wakeSlot p q chan).proc r).state = .runnable := by
  grind [wakeSlot, Proc.woken]

theorem asleep_of_wakeSlot (h : (k.wakeSlot p q chan).Asleep r) : k.Asleep r := by
  have hstate := wakeSlot_state (k := k) (p := p) (q := q) (r := r) chan
  simp only [Asleep, wakeSlot_pc] at h ⊢
  grind

/-- Who sleeps on the channel is awake behind its turn. -/
theorem ne_of_asleep_wakeSlot (h : (k.wakeSlot p q chan).Asleep r) (hself : r ≠ p)
    (hchan : (k.proc r).chan = chan) : r ≠ q := by
  have hasleep := asleep_of_wakeSlot h
  rintro rfl
  simp [Asleep, wakeSlot, hself, hchan, hasleep.1, setProc_proc, Proc.woken] at h

end WakeSlot

theorem Stands.chan_of_asleep {k : Procs n} {q : Fin n} (h : k.Stands q) (hasleep : k.Asleep q) :
    (k.proc q).chan = chanOf q := by
  rw [Stands, hasleep.2] at h
  exact (h.2.2 hasleep.1).1

theorem inv_userinit (init : Fin n) : (userinit init).Inv := by
  have hproc : ∀ q, (userinit init).proc q =
      if q = init then { freeSlot with pid := 1, state := .runnable } else freeSlot := fun q => by
    simp [userinit, Function.update_apply]
  refine ⟨⟨?_, ?_, ?_, ?_, ?_⟩, fun q => ?_, ?_, ?_⟩
  · grind [freeSlot]
  · simp [userinit, Proc.Live]
  · grind [freeSlot]
  · grind [freeSlot, userinit]
  · grind [freeSlot]
  · apply Inv.stands_of_pc_user (k := userinit init) none rfl <;> grind [freeSlot, userinit]
  · simp [userinit, LifePc.forked]
  · grind [freeSlot, userinit]

variable {k k' : Procs n} {p : Fin n} {ok : Bool}

theorem Inv.advance (h : k.Inv) (hrunning : (k.proc p).state = .running)
    (hstep : k.advance p ok = some k') : k'.Inv := by
  have hstands := h.stands p
  cases hp : k.pc p with
  | user ret | gone => simp [Procs.advance, hp] at hstep
  | forkScan rest =>
      simp only [Stands, hp] at hstands
      cases rest with
      | nil =>
          simp only [Procs.advance, hp, Option.some.injEq] at hstep
          subst hstep
          refine h.goto (by simp [hp, LifePc.forked]) rfl (by simp) ?_
          simp [Stands, goto_pc, hrunning, hstands]
      | cons np rest =>
          simp only [Procs.advance, hp] at hstep
          split_ifs at hstep with hunused hoverflow hok
          · exact Option.some.inj hstep ▸ h.forkChild hp hunused
          · exact Option.some.inj hstep ▸ h.forkFails hp hunused
          · obtain rfl := Option.some.inj hstep
            refine h.goto (by simp [hp, LifePc.forked]) rfl (by simp) ?_
            simp [Stands, goto_pc, hstands]
  | forkParent np pid =>
      simp only [Procs.advance, hp, Option.ite_none_right_eq_some, Option.some.injEq] at hstep
      exact hstep.2 ▸ h.forkParent hp hstep.1
  | forkState np pid =>
      simp only [Procs.advance, hp, Option.some.injEq] at hstep
      exact hstep ▸ h.forkState hp
  | exitAcquire status =>
      simp only [Stands, hp] at hstands
      simp only [Procs.advance, hp, Option.ite_none_right_eq_some, Option.some.injEq] at hstep
      obtain ⟨hfree, rfl⟩ := hstep
      refine h.move (fun q hq => .inr ⟨by simp [Ne.symm hq], by simp [hfree]⟩)
        (by simp [hp, LifePc.forked]) rfl nofun ?_
      simp [Stands, goto_pc, hrunning, hstands]
  | exitReparent status rest =>
      simp only [Stands, hp] at hstands
      cases rest with
      | nil =>
          simp only [Procs.advance, hp, Option.some.injEq] at hstep
          subst hstep
          refine h.goto (by simp [hp, LifePc.forked]) rfl (by simp) ?_
          simpa [Stands, goto_pc] using hstands
      | cons pp rest =>
          simp only [Procs.advance, hp] at hstep
          split_ifs at hstep with hchild
          · exact Option.some.inj hstep ▸ h.reparent hp hchild
          · obtain rfl := Option.some.inj hstep
            refine h.goto (by simp [hp, LifePc.forked]) rfl (by simp) ?_
            simp only [Stands, goto_pc, if_true, goto_waitLock, goto_proc, goto_initproc]
            grind
  | exitWakeInit status rest visit =>
      simp only [Stands, hp] at hstands
      cases visit with
      | nil =>
          simp only [Procs.advance, hp, Option.some.injEq] at hstep
          subst hstep
          refine h.goto (by simp [hp, LifePc.forked]) rfl (by simp) ?_
          simpa [Stands, goto_pc] using hstands
      | cons q visit =>
          simp only [Procs.advance, hp, Option.some.injEq] at hstep
          subst hstep
          refine h.wakeSlot.goto (by simp [hp, LifePc.forked]) rfl (by simp) ?_
          simpa [Stands, goto_pc] using hstands
  | exitWakeParent status chan visit =>
      simp only [Stands, hp] at hstands
      obtain ⟨hheld, -, hinit, hchildless, rfl, hvisit⟩ := hstands
      cases visit with
      | nil =>
          simp only [Procs.advance, hp, Option.some.injEq] at hstep
          subst hstep
          refine h.goto (by simp [hp, LifePc.forked]) rfl (by simp) ?_
          simp only [Stands, goto_pc, if_true]
          refine ⟨hheld, hrunning, hinit, hchildless, fun q hparent hasleep => ?_⟩
          exact absurd (hvisit q hparent (asleep_of_goto (by simp) hasleep)) List.not_mem_nil
      | cons q visit =>
          simp only [Procs.advance, hp, Option.some.injEq] at hstep
          subst hstep
          refine h.wakeSlot.goto (by simp [hp, LifePc.forked]) rfl (by simp) ?_
          simp only [Stands, goto_pc, if_true, goto_waitLock, wakeSlot_waitLock, goto_proc,
            wakeSlot_self, goto_initproc, wakeSlot_initproc, wakeSlot_parent]
          refine ⟨hheld, hrunning, hinit, hchildless, trivial, fun r hparent hasleep => ?_⟩
          have hwoken := asleep_of_goto (by simp) hasleep
          have hslept := asleep_of_wakeSlot hwoken
          have hself : r ≠ p := by
            rintro rfl
            simp [Asleep, hp] at hslept
          have hchan : (k.proc r).chan = chanOfParent (k.proc p).parent := by
            rw [(h.stands r).chan_of_asleep hslept, hparent]
            rfl
          have hne := ne_of_asleep_wakeSlot hwoken hself hchan
          simpa [hne] using hvisit r hparent hslept
  | exitZombie status =>
      simp only [Procs.advance, hp, Option.some.injEq] at hstep
      exact hstep ▸ h.zombie hp
  | waitAcquire | waitReacquire =>
      simp only [Procs.advance, hp, waitLoop, Option.ite_none_right_eq_some,
        Option.some.injEq] at hstep
      obtain ⟨hfree, rfl⟩ := hstep
      refine h.move (fun q hq => .inr ⟨by simp [Ne.symm hq], by simp [hfree]⟩)
        (by simp [hp, LifePc.forked]) rfl nofun ?_
      simp [Stands, goto_pc, hrunning]
  | waitScan rest havekids =>
      simp only [Stands, hp] at hstands
      cases rest with
      | nil =>
          simp only [Procs.advance, hp, Option.some.injEq] at hstep
          subst hstep
          refine h.goto (by simp [hp, LifePc.forked]) rfl (by simp) ?_
          simpa [Stands, goto_pc] using hstands
      | cons pp rest =>
          simp only [Procs.advance, hp] at hstep
          split_ifs at hstep with hchild hzombie hok
          · exact Option.some.inj hstep ▸ h.reap hstands.1 hrunning (by simp [hp, LifePc.forked])
              hchild hzombie
          · obtain rfl := Option.some.inj hstep
            refine h.move (fun q hq => .inr ⟨by simp, by simp [hstands.1, Ne.symm hq]⟩)
              (by simp [hp, LifePc.forked]) rfl nofun ?_
            simp [Stands, goto_pc, hrunning]
          · obtain rfl := Option.some.inj hstep
            refine h.goto (by simp [hp, LifePc.forked]) rfl (by simp) ?_
            simp only [Stands, goto_pc, if_true, goto_waitLock, goto_proc]
            grind
          · obtain rfl := Option.some.inj hstep
            refine h.goto (by simp [hp, LifePc.forked]) rfl (by simp) ?_
            simp only [Stands, goto_pc, if_true, goto_waitLock, goto_proc]
            grind
  | waitTest havekids =>
      simp only [Stands, hp] at hstands
      simp only [Procs.advance, hp] at hstep
      split_ifs at hstep with hreturns
      · obtain rfl := Option.some.inj hstep
        refine h.move (fun q hq => .inr ⟨by simp, by simp [hstands.1, Ne.symm hq]⟩)
          (by simp [hp, LifePc.forked]) rfl nofun ?_
        simp [Stands, goto_pc, hrunning]
      · obtain rfl := Option.some.inj hstep
        refine h.goto (by simp [hp, LifePc.forked]) rfl (by simp) ?_
        simp only [Stands, goto_pc, if_true, goto_waitLock, goto_proc]
        grind
  | waitSleep =>
      simp only [Stands, hp] at hstands
      simp only [Procs.advance, hp, Option.some.injEq] at hstep
      subst hstep
      have hmoved : ((k.setWaitLock none).goto p .waitReacquire).Inv := by
        refine h.move (fun q hq => .inr ⟨by simp, by simp [hstands.1, Ne.symm hq]⟩)
          (by simp [hp, LifePc.forked]) rfl (by simp [hrunning]) ?_
        simp [Stands, goto_pc, hrunning, Proc.Live]
      refine hmoved.setProc (q := p) (x := (k.proc p).leave (.sleep (chanOf p))) rfl rfl
        (.inr ⟨.inl hrunning, .inr (.inr rfl)⟩) (fun _ => .inr rfl) ?_
      simp only [Stands, setProc_pc, goto_pc, if_true]
      obtain ⟨q, hq⟩ := hstands.2.2.2
      refine ⟨by simp, .inr (.inr (by simp [setProc_proc, Proc.leave])), fun _ => ?_⟩
      exact ⟨by simp [setProc_proc, Proc.leave], q, by
        by_cases hqp : q = p <;> simp_all [setProc_proc, Proc.leave]⟩
  | killScan pid rest =>
      simp only [Stands, hp] at hstands
      cases rest with
      | nil =>
          simp only [Procs.advance, hp, Option.some.injEq] at hstep
          subst hstep
          refine h.goto (by simp [hp, LifePc.forked]) rfl (by simp) ?_
          simp [Stands, goto_pc, hrunning, hstands]
      | cons q rest =>
          simp only [Procs.advance, hp] at hstep
          split_ifs at hstep with hpid
          · obtain rfl := Option.some.inj hstep
            refine Inv.withRecords (h.kill.goto (by simp [hp, LifePc.forked]) rfl (by simp) ?_)
              _ _ _ _
            have hkept : ((k.proc q).kill).state = (k.proc q).state ∨ q ≠ p := by
              by_cases hqp : q = p
              · exact .inl (Proc.kill_state_of_ne (by simp [hqp, hrunning]))
              · exact .inr hqp
            simp only [Stands, goto_pc, if_true, goto_waitLock, setProc_waitLock, goto_proc]
            grind
          · obtain rfl := Option.some.inj hstep
            refine h.goto (by simp [hp, LifePc.forked]) rfl (by simp) ?_
            simp [Stands, goto_pc, hstands]

theorem Inv.call {entry : LifePc n} (h : k.Inv) (hstep : k.call p entry = some k')
    (hforked : entry.forked = none) (hasleep : entry ≠ .waitReacquire)
    (hstands : (k.proc p).state = .running → k.waitLock ≠ some p → (k.goto p entry).Stands p) :
    k'.Inv := by
  have hself := h.stands p
  unfold Procs.call at hstep
  cases hp : k.pc p with
  | user ret =>
      simp only [Stands, hp, Option.ite_none_right_eq_some, Option.some.injEq] at hself hstep
      obtain ⟨hrunning, rfl⟩ := hstep
      refine Inv.withRecords (h.goto ?_ hforked hasleep (hstands hrunning hself.1)) _ _ _ _
      simp [hp, LifePc.forked]
  | _ => simp [hp] at hstep

theorem Inv.step {e : LifeEvent n} (h : k.Inv) (hstep : k.Step e k') : k'.Inv := by
  cases e with
  | fork p =>
      refine h.call hstep rfl (by simp) fun hrunning hfree => ?_
      simp [Stands, goto_pc, hfree, Proc.Ready, hrunning]
  | exit p status =>
      simp only [Step, Procs.step, Option.ite_none_left_eq_some] at hstep
      refine h.call hstep.2 rfl (by simp) fun hrunning hfree => ?_
      simp [Stands, goto_pc, hfree, Proc.Ready, hrunning, hstep.1]
  | wait p =>
      refine h.call hstep rfl (by simp) fun hrunning hfree => ?_
      simp [Stands, goto_pc, hfree, Proc.Ready, hrunning]
  | kill p pid =>
      refine h.call hstep rfl (by simp) fun hrunning hfree => ?_
      simp [Stands, goto_pc, hfree, Proc.Ready, hrunning]
  | setkilled p =>
      cases hp : k.pc p with
      | user ret =>
          simp only [Step, Procs.step, hp, Option.ite_none_right_eq_some,
            Option.some.injEq] at hstep
          have hkilled : (k.setProc p { k.proc p with killed := true }).Inv :=
            h.setProc_woken rfl rfl rfl (.inl rfl)
          exact hstep.2 ▸ hkilled.withRecords _ _ _ _
      | _ => simp [Step, Procs.step, hp] at hstep
  | advance p ok =>
      simp only [Step, Procs.step, Option.ite_none_right_eq_some] at hstep
      exact h.advance hstep.1 hstep.2
  | schedule p =>
      simp only [Step, Procs.step, Option.ite_none_right_eq_some, Option.some.injEq] at hstep
      obtain ⟨hrunnable, rfl⟩ := hstep
      refine h.setProc_ready rfl rfl (.inr hrunnable) (fun hheld => ?_) (.inl rfl)
      have hstands := h.stands p
      cases hat : k.pc p <;> simp only [Stands, hat] at hstands <;> grind
  | yield p =>
      simp only [Step, Procs.step, Option.ite_none_right_eq_some, Option.some.injEq] at hstep
      obtain ⟨⟨hrunning, hheld⟩, rfl⟩ := hstep
      exact h.setProc_ready rfl rfl (.inl hrunning) hheld (.inr rfl)
  | sleep p chan =>
      cases hp : k.pc p with
      | user ret =>
          simp only [Step, Procs.step, hp, Option.ite_none_right_eq_some,
            Option.some.injEq] at hstep
          obtain ⟨⟨hrunning, hchan⟩, rfl⟩ := hstep
          have hstands := h.stands p
          simp only [Stands, hp] at hstands
          refine h.setProc rfl rfl (.inr ⟨.inl hrunning, .inr (.inr rfl)⟩) ?_ ?_
          · simp [Asleep, hp]
          · simp [Stands, hp, setProc_proc, Proc.leave, hstands, hchan]
      | _ => simp [Step, Procs.step, hp] at hstep
  | wakeup p chan =>
      simp only [Step, Procs.step, Option.ite_none_right_eq_some, Option.some.injEq] at hstep
      obtain ⟨⟨hsleeping, -⟩, rfl⟩ := hstep
      exact h.setProc_woken rfl rfl rfl (.inr ⟨hsleeping, rfl⟩)

end Procs

end SistOp.Mlfq
