import Mathlib.Algebra.BigOperators.Group.Finset.Basic
import Mathlib.Algebra.Order.Group.Multiset
import SistOp.ProcFamily

/-!
# What `wait` collects

Each status that a process leaves at its exit is collected once, nobody sleeps in `wait` beside
a child that has exited, and `kill` misses nobody who is there.
-/

namespace SistOp.Mlfq

variable {n : ℕ}

/-- What a zombie keeps for its parent. -/
def Proc.remains (x : Proc n) : Multiset (ℕ × ℤ) :=
  if x.state = .zombie then {(x.pid, x.xstate)} else 0

namespace Procs

/-- What the zombies keep. -/
def zombies (k : Procs n) : Multiset (ℕ × ℤ) := ∑ q, (k.proc q).remains

/-- A section that the books of `exit` and `wait` do not notice. -/
structure Unbooked (k k' : Procs n) : Prop where
  pid : ∀ r, (k'.proc r).pid = (k.proc r).pid
  xstate : ∀ r, (k'.proc r).xstate = (k.proc r).xstate
  zombie : ∀ r, (k'.proc r).state = .zombie ↔ (k.proc r).state = .zombie
  unused : ∀ r, (k'.proc r).state = .unused ↔ (k.proc r).state = .unused
  exited : k'.exited = k.exited
  reaped : k'.reaped = k.reaped
  nextpid : k'.nextpid = k.nextpid

/-- Nor does it kill anybody. -/
structure Quiet (k k' : Procs n) : Prop extends Unbooked k k' where
  killed : ∀ r, (k'.proc r).killed = true → (k.proc r).killed = true
  targets : k'.targets = k.targets

/-- What a section can do to the books and to the list of the targets. -/
inductive Booking (k : Procs n) : Procs n → Prop where
  | quiet {k' : Procs n} (h : Quiet k k') : Booking k k'
  | allocate {k' : Procs n} (q : Fin n) (x : Proc n) (hunused : (k.proc q).state = .unused)
      (hx : x.state = .used ∧ x.pid = k.nextpid ∨ x.state = .unused)
      (hkilled : x.killed = true → (k.proc q).killed = true)
      (h : Quiet (k.allocpid.setProc q x) k') : Booking k k'
  | zombie (p : Fin n) (status : ℤ) (hrunning : (k.proc p).state = .running) :
      Booking k (k.zombie p status)
  | reap (p pp : Fin n) (hzombie : (k.proc pp).state = .zombie) : Booking k (k.reap p pp)
  | strike {k' : Procs n} (p q : Fin n) (h : Unbooked k k')
      (hkilled : ∀ r ≠ q, (k'.proc r).killed = true → (k.proc r).killed = true)
      (htargets : k'.targets = ((k.proc q).pid : ℤ) :: k.targets)
      (hfrom : (k.proc q).state = .running ∨ ∃ rest, k.pc p = .killScan (k.proc q).pid rest) :
      Booking k k'

/-- The statuses that were left, those that were collected and those that are to be. -/
structure Books (k : Procs n) : Prop where
  once : (k.exited.map Prod.fst).Nodup
  lt : ∀ x ∈ k.exited, x.1 < k.nextpid
  running : ∀ q, (k.proc q).state ≠ .unused → (k.proc q).state ≠ .zombie →
    ∀ x ∈ k.exited, x.1 ≠ (k.proc q).pid
  balance : (k.exited : Multiset (ℕ × ℤ)) = k.reaped + k.zombies

section Books

variable {k k' k'' : Procs n} {p q : Fin n} {x : Proc n}

theorem unbooked_setProc (hpid : x.pid = (k.proc q).pid) (hxstate : x.xstate = (k.proc q).xstate)
    (hzombie : x.state = .zombie ↔ (k.proc q).state = .zombie)
    (hunused : x.state = .unused ↔ (k.proc q).state = .unused) : Unbooked k (k.setProc q x) where
  pid := by grind
  xstate := by grind
  zombie := by grind
  unused := by grind
  exited := rfl
  reaped := rfl
  nextpid := rfl

theorem unbooked_kill : Unbooked k (k.setProc q (k.proc q).kill) := by
  by_cases hsleeping : (k.proc q).state = .sleeping <;>
    exact unbooked_setProc (by simp [Proc.kill, hsleeping]) (by simp [Proc.kill, hsleeping])
      (by simp [Proc.kill, hsleeping]) (by simp [Proc.kill, hsleeping])

namespace Quiet

theorem trans (h : Quiet k k') (h' : Quiet k' k'') : Quiet k k'' where
  pid r := (h'.pid r).trans (h.pid r)
  xstate r := (h'.xstate r).trans (h.xstate r)
  zombie r := (h'.zombie r).trans (h.zombie r)
  unused r := (h'.unused r).trans (h.unused r)
  exited := h'.exited.trans h.exited
  reaped := h'.reaped.trans h.reaped
  nextpid := h'.nextpid.trans h.nextpid
  killed r hr := h.killed r (h'.killed r hr)
  targets := h'.targets.trans h.targets

theorem of_proc (hproc : k'.proc = k.proc) (hexited : k'.exited = k.exited)
    (hreaped : k'.reaped = k.reaped) (hnextpid : k'.nextpid = k.nextpid)
    (htargets : k'.targets = k.targets) : Quiet k k' := by
  refine ⟨?_, ?_, htargets⟩
  · constructor <;> simp [hproc, hexited, hreaped, hnextpid]
  · simp [hproc]

theorem setProc (hpid : x.pid = (k.proc q).pid) (hxstate : x.xstate = (k.proc q).xstate)
    (hzombie : x.state = .zombie ↔ (k.proc q).state = .zombie)
    (hunused : x.state = .unused ↔ (k.proc q).state = .unused)
    (hkilled : x.killed = (k.proc q).killed) : Quiet k (k.setProc q x) where
  toUnbooked := unbooked_setProc hpid hxstate hzombie hunused
  killed := by grind
  targets := rfl

theorem wakeSlot {chan : ℕ} : Quiet k (k.wakeSlot p q chan) := by
  unfold Procs.wakeSlot
  split_ifs with hsleeps
  · exact setProc rfl rfl (by simp [hsleeps, Proc.woken]) (by simp [hsleeps, Proc.woken]) rfl
  · exact of_proc rfl rfl rfl rfl rfl

end Quiet

theorem Inv.booking_advance {ok : Bool} (h : k.Inv) (hrunning : (k.proc p).state = .running)
    (hstep : k.advance p ok = some k') : Booking k k' := by
  have hstands := h.stands p
  cases hp : k.pc p with
  | forkScan rest =>
      cases rest with
      | nil =>
          simp only [Procs.advance, hp, Option.some.injEq] at hstep
          exact hstep ▸ .quiet (.of_proc rfl rfl rfl rfl rfl)
      | cons np rest =>
          simp only [Procs.advance, hp] at hstep
          split_ifs at hstep with hunused hoverflow hok
          · obtain rfl := Option.some.inj hstep
            exact .allocate np ((k.proc np).found k.nextpid) hunused (.inl ⟨rfl, rfl⟩) id
              (.of_proc rfl rfl rfl rfl rfl)
          · obtain rfl := Option.some.inj hstep
            exact .allocate np ((k.proc np).found k.nextpid).freeproc hunused (.inr rfl)
              (by simp [Proc.freeproc])
              (.of_proc rfl rfl rfl rfl rfl)
          · exact Option.some.inj hstep ▸ .quiet (.of_proc rfl rfl rfl rfl rfl)
  | forkParent np pid =>
      simp only [Procs.advance, hp, Option.ite_none_right_eq_some, Option.some.injEq] at hstep
      have hslot : Quiet k (k.setProc np { k.proc np with parent := some p }) :=
        .setProc rfl rfl Iff.rfl Iff.rfl rfl
      exact hstep.2 ▸ .quiet (hslot.trans (.of_proc rfl rfl rfl rfl rfl))
  | forkState np pid =>
      simp only [Stands, hp] at hstands
      simp only [Procs.advance, hp, Option.some.injEq] at hstep
      have hslot : Quiet k (k.setProc np { k.proc np with state := .runnable }) :=
        .setProc rfl rfl (by simp [hstands]) (by simp [hstands]) rfl
      exact hstep ▸ .quiet (hslot.trans (.of_proc rfl rfl rfl rfl rfl))
  | exitReparent status rest =>
      cases rest with
      | nil =>
          simp only [Procs.advance, hp, Option.some.injEq] at hstep
          exact hstep ▸ .quiet (.of_proc rfl rfl rfl rfl rfl)
      | cons pp rest =>
          simp only [Procs.advance, hp] at hstep
          split_ifs at hstep
          · have hslot : Quiet k (k.setProc pp { k.proc pp with parent := some k.initproc }) :=
              .setProc rfl rfl Iff.rfl Iff.rfl rfl
            exact Option.some.inj hstep ▸ .quiet (hslot.trans (.of_proc rfl rfl rfl rfl rfl))
          · exact Option.some.inj hstep ▸ .quiet (.of_proc rfl rfl rfl rfl rfl)
  | exitWakeInit status rest visit =>
      cases visit <;> simp only [Procs.advance, hp, Option.some.injEq] at hstep
      · exact hstep ▸ .quiet (.of_proc rfl rfl rfl rfl rfl)
      · exact hstep ▸ .quiet (Quiet.wakeSlot.trans (.of_proc rfl rfl rfl rfl rfl))
  | exitWakeParent status chan visit =>
      cases visit <;> simp only [Procs.advance, hp, Option.some.injEq] at hstep
      · exact hstep ▸ .quiet (.of_proc rfl rfl rfl rfl rfl)
      · exact hstep ▸ .quiet (Quiet.wakeSlot.trans (.of_proc rfl rfl rfl rfl rfl))
  | exitZombie status =>
      simp only [Procs.advance, hp, Option.some.injEq] at hstep
      exact hstep ▸ .zombie p status hrunning
  | waitScan rest havekids =>
      cases rest with
      | nil =>
          simp only [Procs.advance, hp, Option.some.injEq] at hstep
          exact hstep ▸ .quiet (.of_proc rfl rfl rfl rfl rfl)
      | cons pp rest =>
          simp only [Procs.advance, hp] at hstep
          split_ifs at hstep with hchild hzombie
          · exact Option.some.inj hstep ▸ .reap p pp hzombie
          all_goals exact Option.some.inj hstep ▸ .quiet (.of_proc rfl rfl rfl rfl rfl)
  | waitSleep =>
      simp only [Procs.advance, hp, Option.some.injEq] at hstep
      have hslot : Quiet k (k.setProc p ((k.proc p).leave (.sleep (chanOf p)))) :=
        .setProc rfl rfl (by simp [hrunning, Proc.leave]) (by simp [hrunning, Proc.leave]) rfl
      exact hstep ▸ .quiet (hslot.trans (.of_proc rfl rfl rfl rfl rfl))
  | killScan pid rest =>
      cases rest with
      | nil =>
          simp only [Procs.advance, hp, Option.some.injEq] at hstep
          exact hstep ▸ .quiet (.of_proc rfl rfl rfl rfl rfl)
      | cons q rest =>
          simp only [Procs.advance, hp] at hstep
          split_ifs at hstep with hpid
          · obtain rfl := Option.some.inj hstep
            exact .strike p q { unbooked_kill with } (fun r hr => by simp [hit, setProc_proc, hr])
              rfl (.inr ⟨q :: rest, by rw [hp, hpid]⟩)
          · exact Option.some.inj hstep ▸ .quiet (.of_proc rfl rfl rfl rfl rfl)
  | user ret | gone => simp [Procs.advance, hp] at hstep
  | exitAcquire status | waitAcquire | waitReacquire =>
      simp only [Procs.advance, hp, waitLoop, Option.ite_none_right_eq_some,
        Option.some.injEq] at hstep
      exact hstep.2 ▸ .quiet (.of_proc rfl rfl rfl rfl rfl)
  | waitTest havekids =>
      simp only [Procs.advance, hp] at hstep
      split_ifs at hstep <;>
        exact Option.some.inj hstep ▸ .quiet (.of_proc rfl rfl rfl rfl rfl)

theorem booking_call {entry : LifePc n} (hstep : k.call p entry = some k') : Booking k k' := by
  unfold Procs.call at hstep
  cases hp : k.pc p with
  | user ret =>
      simp only [hp, Option.ite_none_right_eq_some, Option.some.injEq] at hstep
      exact hstep.2 ▸ .quiet (.of_proc rfl rfl rfl rfl rfl)
  | _ => simp [hp] at hstep

/-- What a step can do to the books. -/
theorem Inv.booking {e : LifeEvent n} (h : k.Inv) (hstep : k.Step e k') : Booking k k' := by
  cases e with
  | fork p | wait p | kill p pid => exact booking_call hstep
  | exit p status =>
      simp only [Step, Procs.step, Option.ite_none_left_eq_some] at hstep
      exact booking_call hstep.2
  | setkilled p =>
      cases hp : k.pc p with
      | user ret =>
          simp only [Step, Procs.step, hp, Option.ite_none_right_eq_some,
            Option.some.injEq] at hstep
          obtain ⟨hrunning, rfl⟩ := hstep
          have hslot : Unbooked k (k.setProc p { k.proc p with killed := true }) :=
            unbooked_setProc rfl rfl Iff.rfl Iff.rfl
          exact .strike p p { hslot with } (fun r hr => by simp [setProc_proc, hr]) rfl
            (.inl hrunning)
      | _ => simp [Step, Procs.step, hp] at hstep
  | advance p ok =>
      simp only [Step, Procs.step, Option.ite_none_right_eq_some] at hstep
      exact h.booking_advance hstep.1 hstep.2
  | schedule p =>
      simp only [Step, Procs.step, Option.ite_none_right_eq_some, Option.some.injEq] at hstep
      obtain ⟨hrunnable, rfl⟩ := hstep
      exact .quiet (.setProc rfl rfl (by simp [Proc.dispatched, hrunnable])
        (by simp [Proc.dispatched, hrunnable]) rfl)
  | yield p =>
      simp only [Step, Procs.step, Option.ite_none_right_eq_some, Option.some.injEq] at hstep
      obtain ⟨⟨hrunning, -⟩, rfl⟩ := hstep
      exact .quiet (.setProc rfl rfl (by simp [Proc.leave, hrunning])
        (by simp [Proc.leave, hrunning]) rfl)
  | sleep p chan =>
      cases hp : k.pc p with
      | user ret =>
          simp only [Step, Procs.step, hp, Option.ite_none_right_eq_some,
            Option.some.injEq] at hstep
          obtain ⟨⟨hrunning, -⟩, rfl⟩ := hstep
          exact .quiet (.setProc rfl rfl (by simp [Proc.leave, hrunning])
            (by simp [Proc.leave, hrunning]) rfl)
      | _ => simp [Step, Procs.step, hp] at hstep
  | wakeup p chan =>
      simp only [Step, Procs.step, Option.ite_none_right_eq_some, Option.some.injEq] at hstep
      obtain ⟨⟨hsleeping, -⟩, rfl⟩ := hstep
      exact .quiet (.setProc rfl rfl (by simp [Proc.woken, hsleeping])
        (by simp [Proc.woken, hsleeping]) rfl)

theorem zombies_setProc :
    (k.setProc q x).zombies + (k.proc q).remains = k.zombies + x.remains := by
  have hothers : ∑ r ∈ Finset.univ.erase q, ((k.setProc q x).proc r).remains =
      ∑ r ∈ Finset.univ.erase q, (k.proc r).remains :=
    Finset.sum_congr rfl fun r hr => by simp [setProc_proc, Finset.ne_of_mem_erase hr]
  unfold zombies
  rw [← Finset.add_sum_erase _ _ (Finset.mem_univ q), hothers,
    ← Finset.add_sum_erase _ (fun r => (k.proc r).remains) (Finset.mem_univ q)]
  simp only [setProc_proc, if_true]
  abel

theorem Unbooked.zombies (h : Unbooked k k') : k'.zombies = k.zombies :=
  Finset.sum_congr rfl fun r _ => by
    simp only [Proc.remains, h.zombie r, h.pid r, h.xstate r]

namespace Books

theorem unbooked (h : k.Books) (hsection : Unbooked k k') : k'.Books where
  once := hsection.exited ▸ h.once
  lt := hsection.exited ▸ hsection.nextpid ▸ h.lt
  running q hunused hzombie := by
    rw [hsection.exited, hsection.pid]
    rw [ne_eq, hsection.unused] at hunused
    rw [ne_eq, hsection.zombie] at hzombie
    exact h.running q hunused hzombie
  balance := by rw [hsection.exited, hsection.reaped, hsection.zombies, h.balance]

/-- A free slot gets a new identifier, and may lose it at once. -/
theorem allocate (h : k.Books) (hunused : (k.proc q).state = .unused)
    (hx : x.state = .used ∧ x.pid = k.nextpid ∨ x.state = .unused) :
    (k.allocpid.setProc q x).Books where
  once := h.once
  lt y hy := Nat.lt_succ_of_lt (h.lt y hy)
  running r hr hzombie y hy := by
    have hlt := h.lt y hy
    by_cases hrq : r = q
    · simp only [setProc_proc, hrq, if_true] at hr ⊢
      grind
    · simp only [setProc_proc, hrq, if_false, allocpid_proc] at hr hzombie ⊢
      exact h.running r hr hzombie y hy
  balance := by
    have hslot := zombies_setProc (k := k.allocpid) (q := q) (x := x)
    have hnone : x.remains = 0 := if_neg (by grind)
    rw [hnone, allocpid_proc, Proc.remains, if_neg (by simp [hunused]), add_zero, add_zero] at hslot
    rw [hslot]
    exact h.balance

theorem zombie {status : ℤ} (h : k.Books) (hinv : k.Inv)
    (hrunning : (k.proc p).state = .running) : (k.zombie p status).Books where
  once := by
    simp only [Procs.zombie, List.map_append, List.map_cons, List.map_nil]
    refine h.once.append (by simp) ?_
    simp only [List.disjoint_singleton, List.mem_map, not_exists, not_and]
    exact fun x hx => h.running p (by simp [hrunning]) (by simp [hrunning]) x hx
  lt y hy := by
    simp only [Procs.zombie, List.mem_append, List.mem_singleton] at hy
    rcases hy with hy | rfl
    · exact h.lt y hy
    · exact hinv.pid_lt p
  running q hq hzombie y hy := by
    have hqp : q ≠ p := by
      rintro rfl
      simp [Procs.zombie, setProc_proc, Proc.leave] at hzombie
    simp only [Procs.zombie, goto_proc, setWaitLock_proc, setProc_proc, hqp, if_false,
      List.mem_append, List.mem_singleton] at hq hzombie hy ⊢
    rcases hy with hy | rfl
    · exact h.running q hq hzombie y hy
    · exact fun heq => hqp (hinv.unique q p hq heq.symm)
  balance := by
    have hslot := zombies_setProc (k := k) (q := p) (x := (k.proc p).leave (.exit status))
    rw [Proc.remains, if_neg (by simp [hrunning]), add_zero] at hslot
    have hzombies : (k.zombie p status).zombies =
        k.zombies + {((k.proc p).pid, status)} := hslot
    simp only [hzombies, ← add_assoc]
    rw [show ((k.zombie p status).reaped : Multiset (ℕ × ℤ)) = k.reaped from rfl, ← h.balance]
    exact Multiset.coe_add _ _

theorem reap {pp : Fin n} (h : k.Books) (hzombie : (k.proc pp).state = .zombie) :
    (k.reap p pp).Books where
  once := h.once
  lt := h.lt
  running q hq hnot := by
    have hqpp : q ≠ pp := by
      rintro rfl
      simp [Procs.reap, setProc_proc, Proc.freeproc] at hq
    simp only [Procs.reap, goto_proc, setWaitLock_proc, setProc_proc, hqpp, if_false] at hq hnot ⊢
    exact h.running q hq hnot
  balance := by
    have hslot := zombies_setProc (k := k) (q := pp) (x := (k.proc pp).freeproc)
    have hnone : (k.proc pp).freeproc.remains = 0 := rfl
    rw [hnone, add_zero, Proc.remains, if_pos hzombie] at hslot
    have hzombies : (k.reap p pp).zombies + {((k.proc pp).pid, (k.proc pp).xstate)} =
        k.zombies := hslot
    have hreaped : ((k.reap p pp).reaped : Multiset (ℕ × ℤ)) =
        k.reaped + {((k.proc pp).pid, (k.proc pp).xstate)} := (Multiset.coe_add _ _).symm
    rw [hreaped, show (k.reap p pp).exited = k.exited from rfl, h.balance, ← hzombies]
    abel

theorem step {e : LifeEvent n} (h : k.Books) (hinv : k.Inv) (hstep : k.Step e k') : k'.Books := by
  cases hinv.booking hstep with
  | quiet hquiet => exact h.unbooked hquiet.toUnbooked
  | allocate q x hunused hx _ hquiet => exact (h.allocate hunused hx).unbooked hquiet.toUnbooked
  | zombie p status hrunning => exact h.zombie hinv hrunning
  | reap p pp hzombie => exact h.reap hzombie
  | strike p q hunbooked => exact h.unbooked hunbooked

end Books

end Books

/-! ## Looking for an identifier -/

/-- A process that looks for an identifier has not passed by whoever had it when it began. -/
structure Scans (k : Procs n) : Prop where
  asked : ∀ p, k.asked p ≤ k.nextpid
  rest : ∀ p pid rest, k.pc p = .killScan pid rest → ∀ q, ((k.proc q).pid : ℤ) = pid →
    (k.proc q).state ≠ .unused → q ∈ rest ∨ k.asked p ≤ (k.proc q).pid

section Scans

variable {k k' : Procs n} {p r : Fin n} {ok : Bool} {pid : ℤ} {rest : List (Fin n)}
  {e : LifeEvent n}

/-- Where the others stand, but for a zombie that is freed. -/
theorem pc_of_advance (hstep : k.advance p ok = some k') :
    k'.asked = k.asked ∧ ∀ r ≠ p, k'.pc r = k.pc r ∨ k'.pc r = .user none := by
  cases hp : k.pc p with
  | forkScan rest =>
      cases rest <;> simp only [advance, hp] at hstep <;> grind [forkChild, forkFails]
  | exitReparent _ rest | waitScan rest _ | killScan _ rest =>
      cases rest <;> simp only [advance, hp] at hstep <;> grind
  | exitWakeInit _ _ visit | exitWakeParent _ _ visit =>
      cases visit <;> simp only [advance, hp] at hstep <;> grind [wakeSlot_pc, wakeSlot]
  | waitSleep =>
      simp only [advance, hp, Option.some.injEq] at hstep
      exact hstep ▸ ⟨rfl, fun r hr => .inl (by simp [goto_pc, hr])⟩
  | _ =>
      simp only [advance, hp, waitLoop] at hstep
      grind

/-- How a process comes to look for an identifier. -/
theorem killScan_of_advance (hstep : k.advance p ok = some k')
    (hp' : k'.pc p = .killScan pid rest) :
    ∃ q, k.pc p = .killScan pid (q :: rest) ∧ ((k.proc q).pid : ℤ) ≠ pid ∧ k'.proc = k.proc := by
  cases hp : k.pc p with
  | forkScan rest =>
      cases rest <;> simp only [advance, hp] at hstep <;> grind [forkChild, forkFails]
  | exitReparent _ rest | waitScan rest _ | killScan _ rest =>
      cases rest <;> simp only [advance, hp] at hstep <;> grind
  | exitWakeInit _ _ visit | exitWakeParent _ _ visit =>
      cases visit <;> simp only [advance, hp] at hstep <;> grind [wakeSlot_pc, wakeSlot]
  | _ =>
      simp only [advance, hp, waitLoop] at hstep
      grind

/-- Identifiers are not given again. -/
theorem Booking.later (h : Booking k k') : k.nextpid ≤ k'.nextpid ∧
    ∀ q, (k'.proc q).state ≠ .unused →
      ((k.proc q).state ≠ .unused ∧ (k'.proc q).pid = (k.proc q).pid) ∨
        k.nextpid ≤ (k'.proc q).pid := by
  cases h with
  | quiet hquiet =>
      exact ⟨hquiet.nextpid.ge, fun q hq => .inl ⟨by rwa [ne_eq, ← hquiet.unused], hquiet.pid q⟩⟩
  | allocate r x hunused hx _ hquiet =>
      refine ⟨hquiet.nextpid ▸ Nat.le_succ _, fun q hq => ?_⟩
      rw [ne_eq, hquiet.unused] at hq
      rw [hquiet.pid]
      by_cases hqr : q = r
      · simp only [setProc_proc, hqr, if_true] at hq ⊢
        rcases hx with ⟨-, hpid⟩ | hx
        · exact .inr hpid.ge
        · exact absurd hx hq
      · simp only [setProc_proc, hqr, if_false, allocpid_proc] at hq ⊢
        exact .inl ⟨hq, trivial⟩
  | zombie p status hrunning =>
      refine ⟨le_rfl, fun q hq => .inl ?_⟩
      by_cases hqp : q = p
      · simp [hqp, hrunning, Procs.zombie, setProc_proc, Proc.leave]
      · simp only [Procs.zombie, goto_proc, setWaitLock_proc, setProc_proc, hqp, if_false] at hq ⊢
        exact ⟨hq, trivial⟩
  | reap p pp hzombie =>
      refine ⟨le_rfl, fun q hq => .inl ?_⟩
      by_cases hqpp : q = pp
      · simp [hqpp, Procs.reap, setProc_proc, Proc.freeproc] at hq
      · simp only [Procs.reap, goto_proc, setWaitLock_proc, setProc_proc, hqpp, if_false] at hq ⊢
        exact ⟨hq, trivial⟩
  | strike p q hunbooked =>
      exact ⟨hunbooked.nextpid.ge, fun q hq =>
        .inl ⟨by rwa [ne_eq, ← hunbooked.unused], hunbooked.pid q⟩⟩

theorem eq_of_call {entry : LifePc n} (hstep : k.call p entry = some k') :
    (k.proc p).state = .running ∧
      k' = { k.goto p entry with asked := Function.update k.asked p k.nextpid } := by
  unfold call at hstep
  cases hp : k.pc p with
  | user ret =>
      simp only [hp, Option.ite_none_right_eq_some, Option.some.injEq] at hstep
      exact ⟨hstep.1, hstep.2.symm⟩
  | _ => simp [hp] at hstep

/-- How a process comes to look for an identifier, and since when. -/
theorem scan_of_step (hstep : k.Step e k') :
    (∀ r, k'.asked r = k.asked r ∨ k'.asked r = k.nextpid) ∧
      ∀ r pid rest, k'.pc r = .killScan pid rest →
        k'.asked r = k.asked r ∧ k.pc r = .killScan pid rest ∨
        (∃ q, k'.asked r = k.asked r ∧ k.pc r = .killScan pid (q :: rest) ∧
          ((k.proc q).pid : ℤ) ≠ pid ∧ k'.proc = k.proc) ∨
        e = .kill r pid ∧ rest = List.finRange n := by
  have hcall : ∀ {p entry}, k.call p entry = some k' →
      (∀ r, k'.asked r = k.asked r ∨ k'.asked r = k.nextpid) ∧
        ∀ r pid rest, k'.pc r = .killScan pid rest →
          k'.asked r = k.asked r ∧ k.pc r = .killScan pid rest ∨
            r = p ∧ entry = .killScan pid rest := by
    intro p entry hcall
    obtain ⟨-, rfl⟩ := eq_of_call hcall
    refine ⟨fun r => ?_, fun r pid rest hr => ?_⟩
    · by_cases hrp : r = p <;> simp [hrp]
    · by_cases hrp : r = p
      · exact .inr ⟨hrp, by simpa [goto_pc, hrp] using hr⟩
      · exact .inl (by simpa [goto_pc, hrp] using hr)
  have hsame : k'.asked = k.asked → k'.pc = k.pc →
      (∀ r, k'.asked r = k.asked r ∨ k'.asked r = k.nextpid) ∧
        ∀ r pid rest, k'.pc r = .killScan pid rest →
          k'.asked r = k.asked r ∧ k.pc r = .killScan pid rest ∨
          (∃ q, k'.asked r = k.asked r ∧ k.pc r = .killScan pid (q :: rest) ∧
            ((k.proc q).pid : ℤ) ≠ pid ∧ k'.proc = k.proc) ∨
          e = .kill r pid ∧ rest = List.finRange n := fun hasked hpc =>
    ⟨fun r => .inl (by rw [hasked]), fun r pid rest hr => .inl ⟨by rw [hasked], by rwa [← hpc]⟩⟩
  cases e with
  | fork p | wait p =>
      refine ⟨(hcall hstep).1, fun r pid rest hr => ?_⟩
      rcases (hcall hstep).2 r pid rest hr with hold | ⟨-, hentry⟩
      · exact .inl hold
      · cases hentry
  | exit p status =>
      simp only [Step, step, Option.ite_none_left_eq_some] at hstep
      refine ⟨(hcall hstep.2).1, fun r pid rest hr => ?_⟩
      rcases (hcall hstep.2).2 r pid rest hr with hold | ⟨-, hentry⟩
      · exact .inl hold
      · cases hentry
  | kill p pid =>
      refine ⟨(hcall hstep).1, fun r pid' rest hr => ?_⟩
      rcases (hcall hstep).2 r pid' rest hr with hold | ⟨rfl, hentry⟩
      · exact .inl hold
      · cases hentry
        exact .inr (.inr ⟨rfl, rfl⟩)
  | advance p ok =>
      simp only [Step, step, Option.ite_none_right_eq_some] at hstep
      obtain ⟨hasked, hothers⟩ := pc_of_advance hstep.2
      refine ⟨fun r => .inl (by rw [hasked]), fun r pid rest hr => ?_⟩
      by_cases hrp : r = p
      · subst hrp
        obtain ⟨q, hq, hne, hproc⟩ := killScan_of_advance hstep.2 hr
        exact .inr (.inl ⟨q, by rw [hasked], hq, hne, hproc⟩)
      · rcases hothers r hrp with hpc | hpc
        · exact .inl ⟨by rw [hasked], by rwa [← hpc]⟩
        · simp [hpc] at hr
  | setkilled p =>
      cases hp : k.pc p with
      | user ret =>
          simp only [Step, step, hp, Option.ite_none_right_eq_some, Option.some.injEq] at hstep
          exact hsame (by simp [← hstep.2]) (by simp [← hstep.2])
      | _ => simp [Step, step, hp] at hstep
  | sleep p chan =>
      cases hp : k.pc p with
      | user ret =>
          simp only [Step, step, hp, Option.ite_none_right_eq_some, Option.some.injEq] at hstep
          exact hsame (by simp [← hstep.2]) (by simp [← hstep.2])
      | _ => simp [Step, step, hp] at hstep
  | schedule p | yield p | wakeup p chan =>
      simp only [Step, step, Option.ite_none_right_eq_some, Option.some.injEq] at hstep
      exact hsame (by simp [← hstep.2]) (by simp [← hstep.2])

theorem Scans.step (h : k.Scans) (hinv : k.Inv) (hstep : k.Step e k') : k'.Scans := by
  obtain ⟨hnextpid, hlater⟩ := (hinv.booking hstep).later
  obtain ⟨hasked, hscans⟩ := scan_of_step hstep
  refine ⟨fun r => ?_, fun r pid rest hr q hpid hq => ?_⟩
  · rcases hasked r with hr | hr <;> rw [hr]
    · exact (h.asked r).trans hnextpid
    · exact hnextpid
  · have hr' := h.asked r
    rcases hlater q hq with ⟨hold, hsame⟩ | hnew
    · rcases hscans r pid rest hr with ⟨heq, hscan⟩ | ⟨c, heq, hscan, hne, hproc⟩ | ⟨-, rfl⟩
      · rw [heq, hsame]
        exact h.rest r pid rest hscan q (hsame ▸ hpid) hold
      · rw [heq, hsame]
        have hcq : q ≠ c := by
          rintro rfl
          exact hne (hsame ▸ hpid)
        simpa [hcq] using h.rest r pid (c :: rest) hscan q (hsame ▸ hpid) hold
      · exact .inl (List.mem_finRange q)
    · rcases hscans r pid rest hr with ⟨heq, -⟩ | ⟨c, heq, -⟩ | ⟨-, rfl⟩
      · exact .inr (heq ▸ hr'.trans hnew)
      · exact .inr (heq ▸ hr'.trans hnew)
      · exact .inl (List.mem_finRange q)

/-- Nobody is killed whose identifier was not asked for. -/
structure Aimed (k : Procs n) : Prop where
  killed : ∀ q, (k.proc q).killed = true → ((k.proc q).pid : ℤ) ∈ k.targets
  zero : (0 : ℤ) ∉ k.targets
  scan : ∀ p pid rest, k.pc p = .killScan pid rest → pid ≠ 0

theorem Inv.pid_ne_zero (h : k.Inv) (hp : (k.proc p).state ≠ .unused) : (k.proc p).pid ≠ 0 := by
  rcases (h.pid p hp).2 with rfl | hlt
  · simp [h.init.2]
  · omega

theorem Aimed.step (h : k.Aimed) (hinv : k.Inv) (he : ∀ p, e ≠ .kill p 0)
    (hstep : k.Step e k') : k'.Aimed := by
  have hscan : ∀ p pid rest, k'.pc p = .killScan pid rest → pid ≠ 0 := by
    intro p pid rest hp
    rcases (scan_of_step hstep).2 p pid rest hp with ⟨-, hold⟩ | ⟨q, -, hold, -⟩ | ⟨hkill, -⟩
    · exact h.scan p pid rest hold
    · exact h.scan p pid (q :: rest) hold
    · rintro rfl
      exact he p hkill
  cases hinv.booking hstep with
  | quiet hquiet =>
      refine ⟨fun q hq => ?_, hquiet.targets ▸ h.zero, hscan⟩
      rw [hquiet.pid, hquiet.targets]
      exact h.killed q (hquiet.killed q hq)
  | allocate r x hunused hx hkilled hquiet =>
      refine ⟨fun q hq => ?_, hquiet.targets ▸ h.zero, hscan⟩
      rw [hquiet.pid, hquiet.targets]
      have hq' := hquiet.killed q hq
      by_cases hqr : q = r
      · -- the free slot was not killed, as its identifier is 0
        simp only [setProc_proc, hqr, if_true] at hq'
        have hzero := h.killed r (hkilled hq')
        rw [hinv.unused r hunused] at hzero
        exact absurd hzero h.zero
      · simp only [setProc_proc, hqr, if_false, allocpid_proc] at hq' ⊢
        exact h.killed q hq'
  | zombie p status hrunning =>
      refine ⟨fun q hq => ?_, h.zero, hscan⟩
      have hslot : (k.zombie p status).proc =
          (k.setProc p ((k.proc p).leave (.exit status))).proc := rfl
      rw [hslot] at hq ⊢
      by_cases hqp : q = p
      · subst hqp
        simp only [setProc_proc, if_true] at hq ⊢
        exact h.killed q hq
      · simp only [setProc_proc, hqp, if_false] at hq ⊢
        exact h.killed q hq
  | reap p pp hzombie =>
      refine ⟨fun q hq => ?_, h.zero, hscan⟩
      have hslot : (k.reap p pp).proc = (k.setProc pp (k.proc pp).freeproc).proc := rfl
      rw [hslot] at hq ⊢
      by_cases hqpp : q = pp
      · simp [setProc_proc, hqpp, Proc.freeproc] at hq
      · simp only [setProc_proc, hqpp, if_false] at hq ⊢
        exact h.killed q hq
  | strike p q hunbooked hkilled htargets hfrom =>
      refine ⟨fun r hr => ?_, ?_, hscan⟩
      · rw [hunbooked.pid, htargets]
        by_cases hrq : r = q
        · exact hrq ▸ List.mem_cons_self
        · exact List.mem_cons_of_mem _ (h.killed r (hkilled r hrq hr))
      · rw [htargets, List.mem_cons, not_or]
        refine ⟨fun hzero => ?_, h.zero⟩
        rcases hfrom with hrunning | ⟨rest, hp⟩
        · exact hinv.pid_ne_zero (p := q) (by simp [hrunning]) (by exact_mod_cast hzero.symm)
        · exact h.scan p _ rest hp hzero.symm

end Scans

end Procs

end SistOp.Mlfq
