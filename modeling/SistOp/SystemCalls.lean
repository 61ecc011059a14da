import SistOp.Command

/-!
# Programs with system calls

A program is the tree of the system calls it can make.  `Sys.run` interprets it in a process
with the descriptor table of `tests/syscall_mock.c`; a `fork` runs the rest of the program
twice, in the child and in the parent.
-/

namespace SistOp.MyBash

/-! ## The table of descriptors -/

inductive MockFileKind where
  | open | pipe | dev
  deriving Repr, DecidableEq

structure MockFile where
  kind : MockFileKind
  name : CString
  readable : Bool
  writable : Bool
  deriving Repr, DecidableEq

def mockFdTableSize : ℕ := 30

/-- A closed descriptor is `none`. -/
abbrev FdTable := ℕ → Option MockFile

inductive AccessMode where
  | rdonly | wronly
  deriving Repr, DecidableEq

def mockFdLookup (t : FdTable) : Option ℕ :=
  (List.range mockFdTableSize).find? fun fd => (t fd).isNone

def isOpenFd (t : FdTable) (fd : ℤ) : Bool :=
  decide (0 ≤ fd) && decide (fd < mockFdTableSize) && (t fd.toNat).isSome

def mockOpen (t : FdTable) (path : CString) (mode : AccessMode) : ℤ × FdTable :=
  match mockFdLookup t with
  | none => (-1, t)
  | some fd => (fd, Function.update t fd (some ⟨.open, path, mode = .rdonly, mode = .wronly⟩))

def mockClose (t : FdTable) (fd : ℤ) : ℤ × FdTable :=
  if isOpenFd t fd then (0, Function.update t fd.toNat none) else (-1, t)

def mockDup2 (t : FdTable) (oldfd newfd : ℤ) : ℤ × FdTable :=
  if isOpenFd t oldfd = false then (-1, t)
  else if newfd < 0 ∨ mockFdTableSize ≤ newfd then (-1, t)
  else if newfd = oldfd then (0, t)
  else (newfd, Function.update t newfd.toNat (t oldfd.toNat))

def pipeName (counter : ℕ) : CString := Nat.toDigits 10 counter

/-- The new table and the two ends, `READ` and `WRITE`. -/
def mockPipe (t : FdTable) (counter : ℕ) : Option (ℕ × ℕ × FdTable) :=
  match mockFdLookup t with
  | none => none
  | some rEnd =>
      let t' := Function.update t rEnd (some ⟨.pipe, pipeName counter, true, false⟩)
      match mockFdLookup t' with
      | none => none
      | some wEnd =>
          some (rEnd, wEnd, Function.update t' wEnd (some ⟨.pipe, pipeName counter, false, true⟩))

/-! ## Processes -/

structure ExecCall where
  argv : List CString
  fds : FdTable

/-- A process: its descriptors, its environment and what it has done. -/
structure Process where
  fds : FdTable
  pipes : ℕ
  forks : ℕ
  chldIgnored : Bool
  home : Option CString
  cwd : CString
  opened : List (CString × AccessMode)
  execs : List ExecCall
  children : List ℕ+
  waited : List ℤ
  chdirs : List (Option CString)
  builtins : List (List CString)

/-- The table that `mock_reset_all` sets up. -/
def mockResetTable : FdTable
  | 0 => some ⟨.dev, ['t', 't', 'y', 'i', 'n'], true, false⟩
  | 1 => some ⟨.dev, ['t', 't', 'y', 'o', 'u', 't'], false, true⟩
  | 2 => some ⟨.dev, ['t', 't', 'y', 'o', 'u', 't'], false, true⟩
  | _ => none

def mockProcess : Process :=
  ⟨mockResetTable, 0, 0, false, some ['/', 'h'], ['/'], [], [], [], [], [], []⟩

/-- What the system answers: whether files open and the pipe is made, the child of the n-th
fork of a process, whether a program is found, and the directory that `chdir` leads to. -/
structure Host where
  openOk : CString → AccessMode → Bool
  pipeOk : Bool
  forkResult : ℕ → Option ℕ+
  execOk : List CString → Bool
  chdirTo : CString → CString → Option CString

inductive SysCall where
  | openFile (path : CString) (mode : AccessMode)
  | close (fd : ℤ)
  | dup2 (oldfd newfd : ℤ)
  | pipe
  | waitpid (pid : ℤ)
  | signalChldIgn
  | chdir (path : Option CString)
  | getenvHome
  | strcatHome (suffix : CString)
  | getcwdHome (size : ℕ)
  | getcwd (size : ℕ)
  | builtinCall (args : List CString)

def SysCall.Result : SysCall → Type
  | .pipe => Option (ℤ × ℤ)
  | .getenvHome | .strcatHome _ | .getcwdHome _ | .getcwd _ => Option CString
  | .builtinCall _ | .signalChldIgn => Unit
  | _ => ℤ

/-- The current directory, when it fits in a buffer of `size` bytes. -/
def Process.cwdFits (s : Process) (size : ℕ) : Option CString :=
  if s.cwd.length + 1 ≤ size then some s.cwd else none

def SysCall.perform (host : Host) : (c : SysCall) → Process → c.Result × Process
  | .openFile path mode, s =>
      if host.openOk path mode then
        let (fd, fds) := mockOpen s.fds path mode
        (fd, { s with fds := fds, opened := s.opened ++ [(path, mode)] })
      else ((-1 : ℤ), s)
  | .close fd, s =>
      let (res, fds) := mockClose s.fds fd
      (res, { s with fds := fds })
  | .dup2 oldfd newfd, s =>
      let (res, fds) := mockDup2 s.fds oldfd newfd
      (res, { s with fds := fds })
  | .pipe, s =>
      if host.pipeOk then
        match mockPipe s.fds s.pipes with
        | none => (none, s)
        | some (rEnd, wEnd, fds) =>
            (some ((rEnd : ℤ), (wEnd : ℤ)), { s with fds := fds, pipes := s.pipes + 1 })
      else (none, s)
  | .waitpid pid, s => (pid, { s with waited := s.waited ++ [pid] })
  | .signalChldIgn, s => ((), { s with chldIgnored := true })
  | .chdir path, s =>
      let s := { s with chdirs := s.chdirs ++ [path] }
      match path.bind (host.chdirTo s.cwd) with
      | none => ((-1 : ℤ), s)
      | some cwd => ((0 : ℤ), { s with cwd := cwd })
  | .getenvHome, s => (s.home, s)
  -- the two calls that write to the string that `getenv` returned
  | .strcatHome suffix, s =>
      match s.home with
      | none => (none, s)
      | some home => (some (home ++ suffix), { s with home := some (home ++ suffix) })
  | .getcwdHome size, s =>
      match s.home, s.cwdFits size with
      | some _, some cwd => (some cwd, { s with home := some cwd })
      | _, cwd => (cwd, s)
  | .getcwd size, s => (s.cwdFits size, s)
  | .builtinCall args, s => ((), { s with builtins := s.builtins ++ [args] })

/-! ## Programs -/

inductive Stop where
  | exited | assertFailed | crashed
  deriving Repr, DecidableEq

inductive Sys (α : Type) where
  | pure (a : α)
  | stop (e : Stop)
  | call (c : SysCall) (k : c.Result → Sys α)
  | fork (k : ℤ → Sys α)
  | execvp (argv : List CString) (k : ℤ → Sys α)

namespace Sys

variable {α β : Type}

def bind : Sys α → (α → Sys β) → Sys β
  | pure a, f => f a
  | stop e, _ => stop e
  | call c k, f => call c fun r => (k r).bind f
  | fork k, f => fork fun pid => (k pid).bind f
  | execvp argv k, f => execvp argv fun err => (k err).bind f

instance : Monad Sys where
  pure := Sys.pure
  bind := Sys.bind

def perform (c : SysCall) : Sys c.Result := call c pure

/-- The value of an operation, or the end of the process in its failing `assert`. -/
def asserting : Option α → Sys α
  | some a => pure a
  | none => stop .assertFailed

theorem bind_assoc' {γ : Type} (m : Sys α) (f : α → Sys β) (g : β → Sys γ) :
    (m.bind f).bind g = m.bind fun a => (f a).bind g := by
  induction m with
  | pure a => rfl
  | stop e => rfl
  | call c k ih => exact congrArg (call c) (funext ih)
  | fork k ih => exact congrArg fork (funext ih)
  | execvp argv k ih => exact congrArg (execvp argv) (funext ih)

theorem bind_pure' (m : Sys α) : m.bind pure = m := by
  induction m with
  | pure a => rfl
  | stop e => rfl
  | call c k ih => exact congrArg (call c) (funext ih)
  | fork k ih => exact congrArg fork (funext ih)
  | execvp argv k ih => exact congrArg (execvp argv) (funext ih)

instance : LawfulMonad Sys :=
  LawfulMonad.mk' Sys (fun m => bind_pure' m) (fun _ _ => rfl) bind_assoc'

end Sys

inductive Ending (α : Type) where
  | returned (a : α)
  | stopped (e : Stop)
  | execed
  deriving Repr, DecidableEq

structure ChildRun (α : Type) where
  pid : ℕ+
  ending : Ending α
  process : Process

/-- How a process ends, and the processes below it. -/
structure Ran (α : Type) where
  ending : Ending α
  process : Process
  descendants : List (ChildRun α)

/-- The child's copy of a process, with nothing done yet. -/
def Process.forked (s : Process) : Process :=
  { s with opened := [], execs := [], children := [], waited := [], chdirs := [], builtins := [] }

def Sys.run {α : Type} (host : Host) : Sys α → Process → Ran α
  | .pure a, s => ⟨.returned a, s, []⟩
  | .stop e, s => ⟨.stopped e, s, []⟩
  | .call c k, s => (k (c.perform host s).1).run host (c.perform host s).2
  | .fork k, s =>
      match host.forkResult s.forks with
      | none => (k (-1)).run host { s with forks := s.forks + 1 }
      | some pid =>
          let s := { s with forks := s.forks + 1 }
          let child := (k 0).run host s.forked
          let parent := (k pid).run host { s with children := s.children ++ [pid] }
          ⟨parent.ending, parent.process,
            ⟨pid, child.ending, child.process⟩ :: child.descendants ++ parent.descendants⟩
  | .execvp argv k, s =>
      let s := { s with execs := s.execs ++ [⟨argv, s.fds⟩] }
      if host.execOk argv then ⟨.execed, s, []⟩ else (k (-1)).run host s

section Run

variable {α β : Type} (host : Host) (s : Process)

@[simp] theorem Sys.run_pure (a : α) :
    Sys.run host (Pure.pure a) s = ⟨.returned a, s, []⟩ := rfl

@[simp] theorem Sys.run_stop (e : Stop) :
    Sys.run host (.stop e : Sys α) s = ⟨.stopped e, s, []⟩ := rfl

@[simp] theorem Sys.run_stop_bind (e : Stop) (k : α → Sys β) :
    Sys.run host (.stop e >>= k) s = ⟨.stopped e, s, []⟩ := rfl

@[simp] theorem Sys.run_perform_bind (c : SysCall) (k : c.Result → Sys β) :
    Sys.run host (Sys.perform c >>= k) s =
      Sys.run host (k (c.perform host s).1) (c.perform host s).2 := rfl

@[simp] theorem Sys.run_map_perform (c : SysCall) (f : c.Result → β) :
    Sys.run host (f <$> Sys.perform c) s =
      ⟨.returned (f (c.perform host s).1), (c.perform host s).2, []⟩ := rfl

@[simp] theorem Sys.asserting_bind (a : α) (k : α → Sys β) :
    Sys.asserting (some a) >>= k = k a := rfl

theorem Sys.run_fork_none {s : Process} (h : host.forkResult s.forks = none) (k : ℤ → Sys β) :
    Sys.run host (Sys.fork Sys.pure >>= k) s =
      Sys.run host (k (-1)) { s with forks := s.forks + 1 } := by
  change Sys.run host (.fork k) s = _
  rw [Sys.run, h]

theorem Sys.run_fork_some {s : Process} {pid : ℕ+} (h : host.forkResult s.forks = some pid)
    (k : ℤ → Sys β) :
    Sys.run host (Sys.fork Sys.pure >>= k) s =
      let child := Sys.run host (k 0) { s with forks := s.forks + 1 }.forked
      let parent := Sys.run host (k pid)
        { s with forks := s.forks + 1, children := s.children ++ [pid] }
      ⟨parent.ending, parent.process,
        ⟨pid, child.ending, child.process⟩ :: child.descendants ++ parent.descendants⟩ := by
  change Sys.run host (.fork k) s = _
  rw [Sys.run, h]

theorem Sys.run_execvp_bind (argv : List CString) (k : ℤ → Sys β) :
    Sys.run host (Sys.execvp argv Sys.pure >>= k) s =
      if host.execOk argv then
        ⟨.execed, { s with execs := s.execs ++ [⟨argv, s.fds⟩] }, []⟩
      else Sys.run host (k (-1)) { s with execs := s.execs ++ [⟨argv, s.fds⟩] } := rfl

end Run

end SistOp.MyBash
