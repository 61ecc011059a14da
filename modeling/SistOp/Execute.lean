import SistOp.Builtin

/-!
# The execution of a pipeline

`execute.c` as a program with system calls.
-/

namespace SistOp.MyBash

def stdinFileno : ℤ := 0
def stdoutFileno : ℤ := 1

def changeFdIn (redIn : Option CString) : Sys Unit :=
  match redIn with
  | none => pure ()
  | some path => do
      let fileIn ← Sys.perform (.openFile path .rdonly)
      let _ ← Sys.perform (.dup2 fileIn stdinFileno)
      let _ ← Sys.perform (.close fileIn)

def changeFdOut (redOut : Option CString) : Sys Unit :=
  match redOut with
  | none => pure ()
  | some path => do
      let fileOut ← Sys.perform (.openFile path .wronly)
      let _ ← Sys.perform (.dup2 fileOut stdoutFileno)
      let _ ← Sys.perform (.close fileOut)

/-- `execvp` and the `exit` that follows when it fails. -/
def execOrExit (argv : List CString) : Sys Unit := do
  let err ← Sys.execvp argv Sys.pure
  if err = -1 then .stop .exited

/-- The branch for one command; `none` when the function returns in it. -/
def executeSingle (apipe : Pipeline) : Sys (Option Pipeline) := do
  let pid1 ← Sys.fork Sys.pure
  if pid1 < 0 then return none
  let front ← Sys.asserting (pipelineFront apipe)
  let redOut := front.redirOut
  let redIn := front.redirIn
  let argv ← Sys.asserting (scommandToArray front)
  let apipe ← Sys.asserting (pipelinePopFront apipe)
  if pid1 = 0 then
    changeFdOut redOut
    changeFdIn redIn
    execOrExit argv
  if pipelineGetWait apipe then
    let _ ← Sys.perform (.waitpid pid1)
  let _ ← Sys.perform .signalChldIgn
  return some apipe

/-- The branch for two commands. -/
def executePair (apipe : Pipeline) : Sys Unit := do
  match ← Sys.perform .pipe with
  | none => return ()
  | some (fdRead, fdWrite) =>
      let front ← Sys.asserting (pipelineFront apipe)
      let redOut1 := front.redirOut
      let redIn1 := front.redirIn
      let array1 ← Sys.asserting (scommandToArray front)
      let apipe ← Sys.asserting (pipelinePopFront apipe)
      let front ← Sys.asserting (pipelineFront apipe)
      let redOut2 := front.redirOut
      let redIn2 := front.redirIn
      let array2 ← Sys.asserting (scommandToArray front)
      let apipe ← Sys.asserting (pipelinePopFront apipe)
      let pid1 ← Sys.fork Sys.pure
      if pid1 < 0 then return ()
      if pid1 = 0 then
        let _ ← Sys.perform (.dup2 fdWrite stdoutFileno)
        let _ ← Sys.perform (.close fdRead)
        let _ ← Sys.perform (.close fdWrite)
        changeFdOut redOut1
        changeFdIn redIn1
        execOrExit array1
      let pid2 ← Sys.fork Sys.pure
      -- the test is on the first child again
      if pid1 < 0 then return ()
      if pid2 = 0 then
        let _ ← Sys.perform (.dup2 fdRead stdinFileno)
        let _ ← Sys.perform (.close fdWrite)
        let _ ← Sys.perform (.close fdRead)
        changeFdOut redOut2
        changeFdOut redIn2
        execOrExit array2
      let _ ← Sys.perform (.close fdWrite)
      let _ ← Sys.perform (.close fdRead)
      if pipelineGetWait apipe then
        let _ ← Sys.perform (.waitpid pid1)
        let _ ← Sys.perform (.waitpid pid2)
      let _ ← Sys.perform .signalChldIgn

/-- The test for two commands, after the branch for one. -/
def executeRest (isExit : Bool) : Option Pipeline → Sys Bool
  | none => return isExit
  | some apipe => do
      if pipelineLength apipe = 2 then executePair apipe
      return isExit

/-- The new value of `is_exit`. -/
def executePipeline (apipe : Pipeline) (isExit : Bool) : Sys Bool := do
  if pipelineIsEmpty apipe then return isExit
  let front ← Sys.asserting (pipelineFront apipe)
  if ← Sys.asserting (builtinIsInternal front) then
    builtinRun front isExit
  else if pipelineLength apipe = 1 then
    executeSingle apipe >>= executeRest isExit
  else executeRest isExit (some apipe)

end SistOp.MyBash
