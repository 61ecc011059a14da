import SistOp.RingBuffer
import SistOp.TransitionSystem

/-!
# Console input

`consoleintr` and `consoleread` of `console.c` over one ring of characters: behind the lines that
wait for a reader comes the line that is being typed.  Nothing is said of the echo.
-/

namespace SistOp.Xv6

def INPUT_BUF_SIZE : ℕ := 128

/-- `C(x)`: the code of a letter typed with control. -/
def control (x : Char) : UInt8 := x.toUInt8 - '@'.toUInt8

def newline : UInt8 := '\n'.toUInt8

structure Cons where
  buf : ℕ → UInt8
  r : BitVec 32
  w : BitVec 32
  e : BitVec 32

namespace Cons

/-- The loop of control-u, which takes at most as many turns as there are characters to kill. -/
def killLine (cons : Cons) : ℕ → Cons
  | 0 => cons
  | turns + 1 =>
      if cons.e ≠ cons.w ∧ cons.buf (cell INPUT_BUF_SIZE (cons.e - 1)) ≠ newline then
        { cons with e := cons.e - 1 }.killLine turns
      else cons

/-- A character is stored; with a whole line, or when the ring is full, readers are woken. -/
def store (cons : Cons) (c : UInt8) : Cons × Bool :=
  let cons := { cons with
    buf := Function.update cons.buf (cell INPUT_BUF_SIZE cons.e) c
    e := cons.e + 1 }
  if c = newline ∨ c = control 'D' ∨ gap cons.r cons.e = INPUT_BUF_SIZE then
    ({ cons with w := cons.e }, true)
  else (cons, false)

/-- What the interrupt does with a character, and whether it wakes the readers. -/
def consoleintr (cons : Cons) (c : UInt8) : Cons × Bool :=
  if c = control 'P' then (cons, false)
  else if c = control 'U' then (cons.killLine (gap cons.w cons.e), false)
  else if c = control 'H' ∨ c = 0x7f then
    (if cons.e ≠ cons.w then { cons with e := cons.e - 1 } else cons, false)
  else if c ≠ 0 ∧ gap cons.r cons.e < INPUT_BUF_SIZE then
    cons.store (if c = '\r'.toUInt8 then newline else c)
  else (cons, false)

/-- The lines that wait for a reader. -/
def entered (cons : Cons) : List UInt8 := segment INPUT_BUF_SIZE cons.buf cons.r cons.w

/-- The line that is being typed. -/
def editing (cons : Cons) : List UInt8 := segment INPUT_BUF_SIZE cons.buf cons.w cons.e

end Cons

/-! ## Readers -/

/-- The next instruction of a process; in user space, the buffer of its last read, by whether
`copyout` has a place for each byte, and what that returned. -/
inductive ReaderPc where
  | user (last : Option (List Bool × ℤ))
  | acquire (dst : List Bool) (i : ℕ)
  | loop (dst : List Bool) (i : ℕ)
  | sleep (dst : List Bool) (i : ℕ)
  deriving DecidableEq

def ReaderPc.woken : ReaderPc → ReaderPc
  | .sleep dst i => .acquire dst i
  | pc => pc

/-- The console with its readers and the bytes that the last read of each has copied out. -/
structure ConsoleSystem (n : ℕ) where
  cons : Cons
  lock : Option (Fin n)
  killed : Fin n → Bool
  pc : Fin n → ReaderPc
  got : Fin n → List UInt8

inductive ConsoleEvent (n : ℕ) where
  | read (p : Fin n) (dst : List Bool)
  | step (p : Fin n)
  | key (c : UInt8)
  | kill (p : Fin n)

namespace ConsoleSystem

variable {n : ℕ}

def consoleinit (buf : ℕ → UInt8) : ConsoleSystem n where
  cons := ⟨buf, 0, 0, 0⟩
  lock := none
  killed _ := false
  pc _ := .user none
  got _ := []

def goto (s : ConsoleSystem n) (p : Fin n) (pc : ReaderPc) : ConsoleSystem n :=
  { s with pc := Function.update s.pc p pc }

def release (s : ConsoleSystem n) (p : Fin n) (pc : ReaderPc) : ConsoleSystem n :=
  { s with lock := none }.goto p pc

def wakeup (s : ConsoleSystem n) : ConsoleSystem n := { s with pc := fun p => (s.pc p).woken }

def setGot (s : ConsoleSystem n) (p : Fin n) (bytes : List UInt8) : ConsoleSystem n :=
  { s with got := Function.update s.got p bytes }

/-- A turn of the loop of `consoleread`, which has copied out `i` bytes. -/
def readLoop (s : ConsoleSystem n) (p : Fin n) (dst : List Bool) (i : ℕ) : ConsoleSystem n :=
  match dst[i]? with
  | none => s.release p (.user (some (dst, i)))
  | some copied =>
      if s.cons.r = s.cons.w then
        if s.killed p then s.release p (.user (some (dst, -1))) else s.release p (.sleep dst i)
      else
        let c := s.cons.buf (cell INPUT_BUF_SIZE s.cons.r)
        let s' := { s with cons := { s.cons with r := s.cons.r + 1 } }
        if c = control 'D' then
          -- saved for the next read, unless it is the first character of this one
          if 0 < i then { s' with cons := { s'.cons with r := s'.cons.r - 1 } }.release p
            (.user (some (dst, i)))
          else s'.release p (.user (some (dst, i)))
        else if copied = false then s'.release p (.user (some (dst, i)))
        else
          let s' := s'.setGot p (s.got p ++ [c])
          if c = newline then s'.release p (.user (some (dst, i + 1)))
          else s'.goto p (.loop dst (i + 1))

def act (s : ConsoleSystem n) : ConsoleEvent n → Option (ConsoleSystem n)
  | .read p dst =>
      match s.pc p with
      | .user _ => some ((s.setGot p []).goto p (.acquire dst 0))
      | _ => none
  | .step p =>
      match s.pc p with
      | .acquire dst i =>
          if s.lock = none then some ({ s with lock := some p }.goto p (.loop dst i)) else none
      | .loop dst i => some (s.readLoop p dst i)
      | _ => none
  | .key c =>
      if s.lock = none then
        let out := s.cons.consoleintr c
        some (if out.2 then { s with cons := out.1 }.wakeup else { s with cons := out.1 })
      else none
  | .kill p => some ({ s with killed := Function.update s.killed p true }.goto p (s.pc p).woken)

def Step (s : ConsoleSystem n) (e : ConsoleEvent n) (s' : ConsoleSystem n) : Prop :=
  s.act e = some s'

end ConsoleSystem

end SistOp.Xv6
