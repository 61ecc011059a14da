import SistOp.FileTransfers
import SistOp.FatFuseOps
import Mathlib.Tactic

/-!
# What reads and writes are for

The model of a mounted volume that a client has in mind: every handle names a content,
a write splices bytes into it, a read returns a slice of it, and each of them leaves one
record at the end of the log.
-/

namespace SistOp.FatFuse

variable {env : FuseEnv}

structure FileModel where
  content : ℕ → List UInt8
  path : ℕ → CString
  log : List UInt8

inductive FileRequest where
  | read (buf : ℤ → UInt8) (size offset fh : ℕ)
  | write (buf : ℤ → UInt8) (size offset fh : ℕ)

/-- The result of a request; a read also has the bytes that it left in the buffer. -/
inductive FileResponse where
  | read (result : ℤ) (bytes : List UInt8)
  | written (result : ℤ)

namespace FileRequest

def handle : FileRequest → ℕ
  | read _ _ _ fh => fh
  | write _ _ _ fh => fh

def operation : FileRequest → CString
  | read .. => opRead
  | write .. => opWrite

end FileRequest

/-- A complete record of an operation, with the date of some time. -/
def IsRecord (env : FuseEnv) (operation path record : CString) : Prop :=
  ∃ now, logMessage env now operation path = some record

inductive ModelStep (env : FuseEnv) :
    FileModel → FileRequest → FileResponse → FileModel → Prop
  | read (m : FileModel) (buf : ℤ → UInt8) (size offset fh : ℕ) (record : CString)
      (hrecord : IsRecord env opRead (m.path fh) record) :
      ModelStep env m (.read buf size offset fh)
        (.read (slice (m.content fh) offset size).length (slice (m.content fh) offset size))
        { m with log := m.log ++ record }
  | write (m : FileModel) (buf : ℤ → UInt8) (size offset fh : ℕ) (record : CString)
      (hrecord : IsRecord env opWrite (m.path fh) record) :
      ModelStep env m (.write buf size offset fh) (.written size)
        { m with
          content := Function.update m.content fh
            (splice (m.content fh) (bufferBytes buf size) offset)
          log := m.log ++ record }

inductive ModelRun (env : FuseEnv) :
    FileModel → List FileRequest → List FileResponse → FileModel → Prop
  | nil (m : FileModel) : ModelRun env m [] [] m
  | cons {m m' m'' : FileModel} {request : FileRequest} {response : FileResponse}
      {requests : List FileRequest} {responses : List FileResponse}
      (step : ModelStep env m request response m')
      (rest : ModelRun env m' requests responses m'') :
      ModelRun env m (request :: requests) (response :: responses) m''

/-! ## What a run adds up to -/

/-- The content after the writes of a list of requests to the handle `fh`. -/
def ownWrites (fh : ℕ) : List FileRequest → List UInt8 → List UInt8
  | [], content => content
  | .read .. :: rest, content => ownWrites fh rest content
  | .write buf size offset target :: rest, content =>
      ownWrites fh rest
        (if target = fh then splice content (bufferBytes buf size) offset else content)

theorem ModelStep.path {m m' : FileModel} {request : FileRequest} {response : FileResponse}
    (h : ModelStep env m request response m') : m'.path = m.path := by
  cases h <;> rfl

theorem ModelStep.record {m m' : FileModel} {request : FileRequest}
    {response : FileResponse} (h : ModelStep env m request response m') :
    ∃ record, IsRecord env request.operation (m.path request.handle) record ∧
      m'.log = m.log ++ record := by
  cases h with
  | read buf size offset fh record hrecord => exact ⟨record, hrecord, rfl⟩
  | write buf size offset fh record hrecord => exact ⟨record, hrecord, rfl⟩

theorem ModelStep.ownWrites {m m' : FileModel} {request : FileRequest}
    {response : FileResponse} (h : ModelStep env m request response m') (fh : ℕ)
    (rest : List FileRequest) :
    ownWrites fh (request :: rest) (m.content fh) = ownWrites fh rest (m'.content fh) := by
  cases h with
  | read => rfl
  | write buf size offset target record hrecord =>
      by_cases htarget : target = fh
      · subst htarget
        simp [FatFuse.ownWrites]
      · simp [FatFuse.ownWrites, htarget, Function.update_of_ne (Ne.symm htarget)]

/-- A content is its initial bytes with its own writes applied in order. -/
theorem ModelRun.content {m m' : FileModel} {requests : List FileRequest}
    {responses : List FileResponse} (h : ModelRun env m requests responses m') (fh : ℕ) :
    m'.content fh = ownWrites fh requests (m.content fh) := by
  induction h with
  | nil => rfl
  | cons step rest ih => rw [ih, step.ownWrites]

/-- The log grows by one record for each request, in order. -/
theorem ModelRun.log {m m' : FileModel} {requests : List FileRequest}
    {responses : List FileResponse} (h : ModelRun env m requests responses m') :
    ∃ records : List CString,
      List.Forall₂ (fun request record =>
        IsRecord env request.operation (m.path request.handle) record) requests records ∧
      m'.log = m.log ++ records.flatten := by
  induction h with
  | nil => exact ⟨[], List.Forall₂.nil, by simp⟩
  | cons step rest ih =>
      obtain ⟨record, hrecord, hlog⟩ := step.record
      obtain ⟨records, hrecords, hrest⟩ := ih
      rw [step.path] at hrecords
      refine ⟨record :: records, List.Forall₂.cons hrecord hrecords, ?_⟩
      rw [hrest, hlog, List.flatten_cons, List.append_assoc]

/-- A read returns the slice of what the requests before it wrote. -/
theorem ModelRun.read {m m' : FileModel} {before after : List FileRequest}
    {responses : List FileResponse} {buf : ℤ → UInt8} {size offset fh : ℕ}
    (h : ModelRun env m (before ++ .read buf size offset fh :: after) responses m') :
    let bytes := slice (ownWrites fh before (m.content fh)) offset size
    responses[before.length]? = some (.read bytes.length bytes) := by
  induction before generalizing m responses with
  | nil =>
      cases h with
      | cons step rest =>
          cases step
          rfl
  | cons request before ih =>
      cases h with
      | cons step rest =>
          have hrest := ih rest
          rw [List.length_cons, List.getElem?_cons_succ, step.ownWrites]
          exact hrest

end SistOp.FatFuse
