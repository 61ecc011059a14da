import Mathlib.Data.Finset.Card
import Mathlib.Data.Fintype.Card
import Mathlib.Tactic
import SistOp.RedoLog
import SistOp.TransitionSystem

/-!
# The log of the file system

`log.c` over a disk that writes a block at a time.  A process runs from one lock, sleep or disk
transfer to the next in one step; the power can go between any two steps.
-/

namespace SistOp.Xv6

/-! ## State -/

def MAXOPBLOCKS : ℕ := 10

def LOGSIZE : ℕ := MAXOPBLOCKS * 3

/-- The fields of the superblock that the log reads; the log has a block for its header. -/
structure Superblock where
  logstart : ℕ
  nlog : ℕ
  nlog_pos : 0 < nlog

/-- The superblock that `mkfs` writes: the log begins at block 2 and has `LOGSIZE` blocks. -/
def mkfsSuperblock : Superblock := ⟨2, LOGSIZE, Nat.zero_lt_succ 29⟩

/-- The data of a block, in words; over it lies a `struct logheader` with `n` in word 0. -/
abbrev BlockData := ℕ → ℕ

structure Logheader where
  n : ℕ
  block : ℕ → ℕ

/-- `log.start` and `log.size` are those of the superblock. -/
structure Log where
  outstanding : ℕ
  committing : Bool
  lh : Logheader

/-- Where the process in `commit`, or the one that boots, is. -/
inductive LogPc where
  | idle
  | commit
  | writeLog (tail : ℕ)
  | writeHead
  | installTrans (tail : ℕ)
  | eraseHead
  | endCommit
  | readHead
  | recoverTrans (tail : ℕ)
  | eraseRecovered
  deriving DecidableEq

/-- What a process has to do with the log; in an operation, the blocks it has logged, and those
it has changed since it last logged them. -/
inductive Standing where
  | user
  | asleep
  | woken
  | inOp (logged changed : Finset ℕ)
  | committing
  deriving DecidableEq

/-- The disk, the buffers with a valid copy of a block, how often each is pinned and who has its
lock, and the variables of the log. -/
structure Fs (n : ℕ) where
  disk : ℕ → BlockData
  cache : ℕ → Option BlockData
  pins : ℕ → ℕ
  holder : ℕ → Option (Fin n)
  log : Log
  pc : LogPc
  standing : Fin n → Standing
  panic : Option String

def LogPc.booting : LogPc → Bool
  | .readHead | .recoverTrans _ | .eraseRecovered => true
  | _ => false

/-- The block of the log that gets a copy of `lh.block[tail]`. -/
def Superblock.slot (sb : Superblock) (tail : ℕ) : ℕ := sb.logstart + tail + 1

/-- A block outside the log. -/
def Superblock.Home (sb : Superblock) (b : ℕ) : Prop :=
  b < sb.logstart ∨ sb.logstart + sb.nlog ≤ b

instance (sb : Superblock) (b : ℕ) : Decidable (sb.Home b) :=
  inferInstanceAs (Decidable (_ ∨ _))

/-- The header block `hb` with a header copied over it. -/
def Logheader.overlay (lh : Logheader) (hb : BlockData) : BlockData
  | 0 => lh.n
  | i + 1 => if i < lh.n then lh.block i else hb (i + 1)

/-- The entry of a block, or the entry behind the last. -/
def Logheader.find (lh : Logheader) (b : ℕ) : ℕ :=
  ((List.range lh.n).find? fun i => lh.block i = b).getD lh.n

def Standing.running : Standing → Bool
  | .inOp _ _ => true
  | _ => false

def Standing.logged : Standing → Finset ℕ
  | .inOp logged _ => logged
  | _ => ∅

def Standing.changed : Standing → Finset ℕ
  | .inOp _ changed => changed
  | _ => ∅

namespace Fs

variable {n : ℕ}

/-! ## Buffers -/

/-- What `bread` finds in the buffer of a block. -/
def bread (fs : Fs n) (b : ℕ) : BlockData := (fs.cache b).getD (fs.disk b)

def fill (fs : Fs n) (b : ℕ) : Fs n :=
  { fs with cache := Function.update fs.cache b (some (fs.bread b)) }

/-- `bwrite` of the buffer of a block once it has been given this data. -/
def bwrite (fs : Fs n) (b : ℕ) (data : BlockData) : Fs n :=
  { fs with
    cache := Function.update fs.cache b (some data)
    disk := Function.update fs.disk b data }

def bpin (fs : Fs n) (b : ℕ) : Fs n :=
  { fs with pins := Function.update fs.pins b (fs.pins b + 1) }

def bunpin (fs : Fs n) (b : ℕ) : Fs n :=
  { fs with pins := Function.update fs.pins b (fs.pins b - 1) }

def setStanding (fs : Fs n) (p : Fin n) (standing : Standing) : Fs n :=
  { fs with standing := Function.update fs.standing p standing }

/-- `wakeup(&log)` -/
def wakeup (fs : Fs n) : Fs n :=
  { fs with standing := fun p => if fs.standing p = .asleep then .woken else fs.standing p }

def setPc (fs : Fs n) (pc : LogPc) : Fs n := { fs with pc := pc }

def setLh (fs : Fs n) (lh : Logheader) : Fs n := { fs with log := { fs.log with lh := lh } }

/-! ## The functions of the log -/

def beginOp (fs : Fs n) (p : Fin n) : Fs n :=
  if fs.log.committing then fs.setStanding p .asleep
  else if LOGSIZE < fs.log.lh.n + (fs.log.outstanding + 1) * MAXOPBLOCKS then
    fs.setStanding p .asleep
  else
    { fs with log := { fs.log with outstanding := fs.log.outstanding + 1 } }.setStanding p
      (.inOp ∅ ∅)

/-- `end_op` up to the call of `commit`. -/
def endOp (fs : Fs n) (p : Fin n) : Fs n :=
  let fs := { fs with log := { fs.log with outstanding := fs.log.outstanding - 1 } }
  if fs.log.committing then { fs with panic := some "log.committing" }
  else if fs.log.outstanding = 0 then
    { fs with log := { fs.log with committing := true }, pc := .commit }.setStanding p .committing
  else (fs.setStanding p .user).wakeup

/-- `end_op` behind `commit`. -/
def endCommit (fs : Fs n) (p : Fin n) : Fs n :=
  ({ fs with log := { fs.log with committing := false }, pc := .idle }.setStanding p .user).wakeup

def logWrite (sb : Superblock) (fs : Fs n) (p : Fin n) (logged changed : Finset ℕ) (b : ℕ) :
    Fs n :=
  if LOGSIZE ≤ fs.log.lh.n ∨ sb.nlog - 1 ≤ fs.log.lh.n then
    { fs with panic := some "too big a transaction" }
  else if fs.log.outstanding < 1 then { fs with panic := some "log_write outside of trans" }
  else
    let i := fs.log.lh.find b
    let lh := { fs.log.lh with block := Function.update fs.log.lh.block i b }
    (if i = fs.log.lh.n then (fs.bpin b).setLh { lh with n := lh.n + 1 }
      else fs.setLh lh).setStanding p (.inOp (insert b logged) (changed.erase b))

/-- The body of the loop of `write_log`. -/
def writeLog (sb : Superblock) (fs : Fs n) (tail : ℕ) : Fs n :=
  (fs.fill (fs.log.lh.block tail)).bwrite (sb.slot tail) (fs.bread (fs.log.lh.block tail))

def writeHead (sb : Superblock) (fs : Fs n) : Fs n :=
  fs.bwrite sb.logstart (fs.log.lh.overlay (fs.bread sb.logstart))

/-- The body of the loop of `install_trans`. -/
def installTrans (sb : Superblock) (fs : Fs n) (recovering : Bool) (tail : ℕ) : Fs n :=
  let fs' := (fs.fill (sb.slot tail)).bwrite (fs.log.lh.block tail) (fs.bread (sb.slot tail))
  if recovering then fs' else fs'.bunpin (fs.log.lh.block tail)

def readHead (sb : Superblock) (fs : Fs n) : Fs n :=
  let hb := fs.bread sb.logstart
  (fs.fill sb.logstart).setLh {
    n := hb 0
    block := fun i => if i < hb 0 then hb (i + 1) else fs.log.lh.block i }

/-- `log.lh.n = 0` and `write_head` -/
def eraseHead (sb : Superblock) (fs : Fs n) : Fs n :=
  (fs.setLh { fs.log.lh with n := 0 }).writeHead sb

/-- The machine after the power has come back, before `initlog`. -/
def powerOn (disk : ℕ → BlockData) : Fs n where
  disk := disk
  cache _ := none
  pins _ := 0
  holder _ := none
  log := ⟨0, false, 0, fun _ => 0⟩
  pc := .readHead
  standing _ := .user
  panic := none

/-! ## Steps -/

/-- What `commit` does next, when the buffers it needs are free. -/
def commitStep (sb : Superblock) (fs : Fs n) (p : Fin n) : Option (Fs n) :=
  match fs.pc with
  | .commit => some (fs.setPc (if 0 < fs.log.lh.n then .writeLog 0 else .endCommit))
  | .writeLog tail =>
      if tail < fs.log.lh.n then
        if fs.holder (sb.slot tail) = none ∧ fs.holder (fs.log.lh.block tail) = none then
          some ((fs.writeLog sb tail).setPc (.writeLog (tail + 1)))
        else none
      else some (fs.setPc .writeHead)
  | .installTrans tail =>
      if tail < fs.log.lh.n then
        if fs.holder (sb.slot tail) = none ∧ fs.holder (fs.log.lh.block tail) = none then
          some ((fs.installTrans sb false tail).setPc (.installTrans (tail + 1)))
        else none
      else some (fs.setPc .eraseHead)
  | .eraseHead =>
      if fs.holder sb.logstart = none then some ((fs.eraseHead sb).setPc .endCommit) else none
  | .endCommit => some (fs.endCommit p)
  | _ => none

/-- What `recover_from_log` does next. -/
def recoverStep (sb : Superblock) (fs : Fs n) : Option (Fs n) :=
  match fs.pc with
  | .readHead => some ((fs.readHead sb).setPc (.recoverTrans 0))
  | .recoverTrans tail =>
      if tail < fs.log.lh.n then
        some ((fs.installTrans sb true tail).setPc (.recoverTrans (tail + 1)))
      else some (fs.setPc .eraseRecovered)
  | .eraseRecovered => some ((fs.eraseHead sb).setPc .idle)
  | _ => none

end Fs

inductive LogEvent (n : ℕ) where
  | beginOp (p : Fin n)
  | bread (p : Fin n) (b : ℕ)
  | modify (p : Fin n) (b : ℕ) (data : BlockData)
  | logWrite (p : Fin n) (b : ℕ)
  | brelse (p : Fin n) (b : ℕ)
  | endOp (p : Fin n)
  | evict (b : ℕ)
  | commit (p : Fin n)
  | writeHead (p : Fin n)
  | recover
  | crash

namespace Fs

variable {n : ℕ}

/-- A step of a machine that is up.  Only an operation changes a buffer, one that it has locked
and of a block outside the log, and it calls `log_write` before it gives the buffer back. -/
def stepUp (sb : Superblock) (fs : Fs n) : LogEvent n → Option (Fs n)
  | .beginOp p =>
      if fs.standing p = .user ∨ fs.standing p = .woken then some (fs.beginOp p) else none
  | .bread p b =>
      if fs.holder b = none then
        some { fs.fill b with holder := Function.update fs.holder b (some p) }
      else none
  | .modify p b data =>
      match fs.standing p with
      | .inOp logged changed =>
          if fs.holder b = some p ∧ sb.Home b then
            some ({ fs with cache := Function.update fs.cache b (some data) }.setStanding p
              (.inOp logged (insert b changed)))
          else none
      | _ => none
  | .logWrite p b =>
      match fs.standing p with
      | .inOp logged changed =>
          if fs.holder b = some p ∧ sb.Home b then some (fs.logWrite sb p logged changed b)
          else none
      | _ => none
  | .brelse p b =>
      if fs.holder b = some p ∧ b ∉ (fs.standing p).changed then
        some { fs with holder := Function.update fs.holder b none }
      else none
  | .endOp p =>
      match fs.standing p with
      | .inOp _ changed => if changed = ∅ then some (fs.endOp p) else none
      | _ => none
  | .evict b =>
      if fs.holder b = none ∧ fs.pins b = 0 then
        some { fs with cache := Function.update fs.cache b none }
      else none
  | .commit p => if fs.standing p = .committing then fs.commitStep sb p else none
  | .writeHead p =>
      if fs.standing p = .committing ∧ fs.pc = .writeHead ∧ fs.holder sb.logstart = none then
        some ((fs.writeHead sb).setPc (.installTrans 0))
      else none
  | .recover | .crash => none

/-- The power can go at any time; nothing else happens behind a `panic`, and until the log has
been recovered. -/
def step (sb : Superblock) (fs : Fs n) (e : LogEvent n) : Option (Fs n) :=
  match e with
  | .crash => some (powerOn fs.disk)
  | .recover => if fs.panic = none then fs.recoverStep sb else none
  | _ => if fs.panic = none ∧ fs.pc.booting = false then fs.stepUp sb e else none

def Step (sb : Superblock) (fs : Fs n) (e : LogEvent n) (fs' : Fs n) : Prop :=
  fs.step sb e = some fs'

end Fs

end SistOp.Xv6
