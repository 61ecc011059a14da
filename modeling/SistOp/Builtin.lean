import SistOp.SystemCalls

/-!
# Builtin commands

`builtin.c`.  What the commands print is not modelled.
-/

namespace SistOp.MyBash

def maxBuff : ℕ := 512

def cdName : CString := ['c', 'd']
def exitName : CString := ['e', 'x', 'i', 't']
def helpName : CString := ['h', 'e', 'l', 'p']

def cmdIsHelp (cmd : Scommand) : Option Bool :=
  if scommandLength cmd = 1 then (scommandFront cmd).map (· == helpName) else some false

def cmdIsExit (cmd : Scommand) : Option Bool :=
  if scommandLength cmd = 1 then (scommandFront cmd).map (· == exitName) else some false

def cmdIsCd (cmd : Scommand) : Option Bool := (scommandFront cmd).map (· == cdName)

def builtinIsInternal (cmd : Scommand) : Option Bool := do
  if ← cmdIsCd cmd then some true
  else if ← cmdIsExit cmd then some true
  else cmdIsHelp cmd

def builtinAlone (p : Pipeline) : Option Bool :=
  if pipelineLength p = 1 then do builtinIsInternal (← pipelineFront p) else some false

/-- The `cd` branch of `builtin_run` on a path of at least two characters. -/
def cdPath (desired : CString) : Sys Unit :=
  if desired[0]? = some '~' ∧ desired[1]? = some '/' then do
    match ← Sys.perform (.strcatHome (desired.drop 1)) with
    | none => .stop .crashed
    | some path => let _ ← Sys.perform (.chdir (some path))
  else if desired[0]? = some '.' ∧ desired[1]? = some '/' then do
    match ← Sys.perform (.getcwd maxBuff) with
    | none => .stop .crashed
    | some cwd => let _ ← Sys.perform (.chdir (some (cwd ++ desired.drop 1)))
  else do
    let _ ← Sys.perform (.chdir (some desired))

def runCd (cmd : Scommand) : Sys Unit := do
  let cmd ← Sys.asserting (scommandPopFront cmd)
  let homePath ← Sys.perform .getenvHome
  if scommandIsEmpty cmd then
    let _ ← Sys.perform (.chdir homePath)
  else
    let desired ← Sys.asserting (scommandFront cmd)
    if desired.length = 1 then
      if desired = ['~'] then
        let _ ← Sys.perform (.chdir homePath)
      else if desired = ['.'] then
        -- the directory is written over the value of HOME and printed
        let _ ← Sys.perform (.getcwdHome maxBuff)
      else
        let _ ← Sys.perform (.chdir (some desired))
    else if 1 < desired.length then
      cdPath desired
    let _ ← Sys.asserting (scommandPopFront cmd)

/-- The new value of `is_exit`. -/
def builtinRun (cmd : Scommand) (isExit : Bool) : Sys Bool := do
  let _ ← Sys.perform (.builtinCall cmd.args)
  let internal ← Sys.asserting (builtinIsInternal cmd)
  if internal then
    let _isHelp ← Sys.asserting (cmdIsHelp cmd)
    let isExit := (← Sys.asserting (cmdIsExit cmd)) || isExit
    if ← Sys.asserting (cmdIsCd cmd) then
      runCd cmd
    return isExit
  else .stop .assertFailed

end SistOp.MyBash
