import SistOp.RingBuffer
import SistOp.TransitionSystem

/-!
# Pipes

`pipe.c` with any number of processes at either end.  A process takes a step for each turn of a
loop; `sleep` gives up the lock of the pipe and `wakeup` visits all processes in one step.
-/

namespace SistOp.Xv6

def PIPESIZE : ℕ := 512

structure Pipe where
  data : ℕ → UInt8
  nread : BitVec 32
  nwrite : BitVec 32
  readopen : Bool
  writeopen : Bool

/-- A call with what `copyin` gets for each byte, or whether `copyout` has a place for it. -/
inductive PipeCall where
  | write (src : List (Option UInt8))
  | read (dst : List Bool)
  deriving DecidableEq

/-- The next instruction of a process; in user space, its last call and what that returned. -/
inductive PipePc where
  | user (last : Option (PipeCall × ℤ))
  | writeAcquire (src : List (Option UInt8)) (i : ℕ)
  | writeLoop (src : List (Option UInt8)) (i : ℕ)
  | writeSleep (src : List (Option UInt8)) (i : ℕ)
  | writeEnd (src : List (Option UInt8)) (i : ℕ)
  | readAcquire (dst : List Bool)
  | readLoop (dst : List Bool)
  | readSleep (dst : List Bool)
  | readCopy (dst : List Bool) (i : ℕ)
  | readEnd (dst : List Bool) (i : ℕ)
  deriving DecidableEq

namespace PipePc

def holding : PipePc → Bool
  | .writeLoop _ _ | .writeEnd _ _ | .readLoop _ | .readCopy _ _ | .readEnd _ _ => true
  | _ => false

def writing : PipePc → Bool
  | .writeAcquire _ _ | .writeLoop _ _ | .writeSleep _ _ | .writeEnd _ _ => true
  | _ => false

def reading : PipePc → Bool
  | .readAcquire _ | .readLoop _ | .readSleep _ | .readCopy _ _ | .readEnd _ _ => true
  | _ => false

/-- A process that sleeps on `&pi->nread` or on `&pi->nwrite`, made runnable; it has to take the
lock again. -/
def woken : PipePc → PipePc
  | .writeSleep src i => .writeAcquire src i
  | .readSleep dst => .readAcquire dst
  | pc => pc

def wokenReader : PipePc → PipePc
  | .readSleep dst => .readAcquire dst
  | pc => pc

def wokenWriter : PipePc → PipePc
  | .writeSleep src i => .writeAcquire src i
  | pc => pc

end PipePc

def PipeCall.entry : PipeCall → PipePc
  | .write src => .writeAcquire src 0
  | .read dst => .readAcquire dst

/-- A call of a process, by the number of calls it has made. -/
abbrev PipeTag (n : ℕ) := Fin n × ℕ

/-- A pipe and the processes that have it open, with all bytes that were ever put in and taken
out. -/
structure PipeSystem (n : ℕ) where
  pipe : Pipe
  lock : Option (Fin n)
  freed : Bool
  killed : Fin n → Bool
  pc : Fin n → PipePc
  calls : Fin n → ℕ
  written : List (PipeTag n × UInt8)
  taken : List (PipeTag n × UInt8)

inductive PipeEvent (n : ℕ) where
  | call (p : Fin n) (c : PipeCall)
  | step (p : Fin n)
  | kill (p : Fin n)
  | close (writable : Bool)

namespace PipeSystem

variable {n : ℕ}

/-- `pipealloc` -/
def pipealloc (data : ℕ → UInt8) : PipeSystem n where
  pipe := ⟨data, 0, 0, true, true⟩
  lock := none
  freed := false
  killed _ := false
  pc _ := .user none
  calls _ := 0
  written := []
  taken := []

def goto (s : PipeSystem n) (p : Fin n) (pc : PipePc) : PipeSystem n :=
  { s with pc := Function.update s.pc p pc }

def acquire (s : PipeSystem n) (p : Fin n) (pc : PipePc) : Option (PipeSystem n) :=
  if s.lock = none then some ({ s with lock := some p }.goto p pc) else none

def release (s : PipeSystem n) (p : Fin n) (pc : PipePc) : PipeSystem n :=
  { s with lock := none }.goto p pc

/-- `wakeup(&pi->nread)` -/
def wakeupReaders (s : PipeSystem n) : PipeSystem n :=
  { s with pc := fun p => (s.pc p).wokenReader }

/-- `wakeup(&pi->nwrite)` -/
def wakeupWriters (s : PipeSystem n) : PipeSystem n :=
  { s with pc := fun p => (s.pc p).wokenWriter }

/-- `pi->data[pi->nwrite++ % PIPESIZE] = ch` -/
def put (s : PipeSystem n) (p : Fin n) (ch : UInt8) : PipeSystem n :=
  { s with
    pipe := { s.pipe with
      data := Function.update s.pipe.data (cell PIPESIZE s.pipe.nwrite) ch
      nwrite := s.pipe.nwrite + 1 }
    written := s.written ++ [((p, s.calls p), ch)] }

/-- `ch = pi->data[pi->nread++ % PIPESIZE]` -/
def take (s : PipeSystem n) (p : Fin n) : PipeSystem n :=
  { s with
    pipe := { s.pipe with nread := s.pipe.nread + 1 }
    taken := s.taken ++ [((p, s.calls p), s.pipe.data (cell PIPESIZE s.pipe.nread))] }

/-- A turn of the loop of `pipewrite`. -/
def writeLoop (s : PipeSystem n) (p : Fin n) (src : List (Option UInt8)) (i : ℕ) : PipeSystem n :=
  match src[i]? with
  | none => s.goto p (.writeEnd src i)
  | some byte =>
      if s.pipe.readopen = false ∨ s.killed p = true then
        s.release p (.user (some (.write src, -1)))
      else if s.pipe.nwrite = s.pipe.nread + BitVec.ofNat 32 PIPESIZE then
        s.wakeupReaders.release p (.writeSleep src i)
      else
        match byte with
        | none => s.goto p (.writeEnd src i)
        | some ch => (s.put p ch).goto p (.writeLoop src (i + 1))

/-- A turn of the loop of `piperead` that waits for a byte. -/
def readLoop (s : PipeSystem n) (p : Fin n) (dst : List Bool) : PipeSystem n :=
  if s.pipe.nread = s.pipe.nwrite ∧ s.pipe.writeopen = true then
    if s.killed p then s.release p (.user (some (.read dst, -1)))
    else s.release p (.readSleep dst)
  else s.goto p (.readCopy dst 0)

/-- A turn of the loop of `piperead` that copies. -/
def readCopy (s : PipeSystem n) (p : Fin n) (dst : List Bool) (i : ℕ) : PipeSystem n :=
  match dst[i]? with
  | none => s.goto p (.readEnd dst i)
  | some copied =>
      if s.pipe.nread = s.pipe.nwrite then s.goto p (.readEnd dst i)
      else (s.take p).goto p (if copied then .readCopy dst (i + 1) else .readEnd dst i)

def stepProc (s : PipeSystem n) (p : Fin n) : Option (PipeSystem n) :=
  match s.pc p with
  | .user _ | .writeSleep _ _ | .readSleep _ => none
  | .writeAcquire src i => s.acquire p (.writeLoop src i)
  | .writeLoop src i => some (s.writeLoop p src i)
  | .writeEnd src i => some (s.wakeupReaders.release p (.user (some (.write src, i))))
  | .readAcquire dst => s.acquire p (.readLoop dst)
  | .readLoop dst => some (s.readLoop p dst)
  | .readCopy dst i => some (s.readCopy p dst i)
  | .readEnd dst i => some (s.wakeupWriters.release p (.user (some (.read dst, i))))

/-- `kill` of `proc.c` -/
def kill (s : PipeSystem n) (p : Fin n) : PipeSystem n :=
  { s with killed := Function.update s.killed p true }.goto p (s.pc p).woken

def pipeclose (s : PipeSystem n) (writable : Bool) : PipeSystem n :=
  let s := if writable then { s with pipe := { s.pipe with writeopen := false } }.wakeupReaders
    else { s with pipe := { s.pipe with readopen := false } }.wakeupWriters
  { s with freed := !s.pipe.readopen && !s.pipe.writeopen }

def enter (s : PipeSystem n) (p : Fin n) (c : PipeCall) : PipeSystem n :=
  { s with calls := Function.update s.calls p (s.calls p + 1) }.goto p c.entry

/-- A process calls with an open file, and `fileclose` closes an end when the last file of that
end goes, so that no process is in a call that uses it. -/
def act (s : PipeSystem n) : PipeEvent n → Option (PipeSystem n)
  | .call p c =>
      match s.pc p, c with
      | .user _, .write _ => if s.pipe.writeopen then some (s.enter p c) else none
      | .user _, .read _ => if s.pipe.readopen then some (s.enter p c) else none
      | _, _ => none
  | .step p => s.stepProc p
  | .kill p => some (s.kill p)
  | .close true =>
      if s.lock = none ∧ s.pipe.writeopen = true ∧ ∀ p, (s.pc p).writing = false then
        some (s.pipeclose true)
      else none
  | .close false =>
      if s.lock = none ∧ s.pipe.readopen = true ∧ ∀ p, (s.pc p).reading = false then
        some (s.pipeclose false)
      else none

def Step (s : PipeSystem n) (e : PipeEvent n) (s' : PipeSystem n) : Prop := s.act e = some s'

def isKill : PipeEvent n → Bool
  | .kill _ => true
  | _ => false

/-- What is in the pipe. -/
def contents (s : PipeSystem n) : List UInt8 :=
  segment PIPESIZE s.pipe.data s.pipe.nread s.pipe.nwrite

/-- The bytes that the last call of a process has put in or taken out. -/
def bytesOf (l : List (PipeTag n × UInt8)) (tag : PipeTag n) : List UInt8 :=
  (l.filter fun x => x.1 = tag).map Prod.snd

def sent (s : PipeSystem n) (p : Fin n) : List UInt8 := bytesOf s.written (p, s.calls p)

def got (s : PipeSystem n) (p : Fin n) : List UInt8 := bytesOf s.taken (p, s.calls p)

end PipeSystem

end SistOp.Xv6
