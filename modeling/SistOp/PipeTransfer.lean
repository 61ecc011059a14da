import SistOp.Pipes

/-!
# What goes through a pipe

Bytes leave a pipe in the order in which they came in, none twice and none lost on the way, and
calls return how many they moved.
-/

namespace SistOp.Xv6

namespace PipeSystem

variable {n : ℕ} {s s' : PipeSystem n} {p q : Fin n} {src : List (Option UInt8)} {dst : List Bool}
  {i : ℕ} {pc : PipePc}

/-! ## What calls know -/

/-- Nothing is in the pipe and nothing will be. -/
def AtEnd (s : PipeSystem n) : Prop :=
  s.pipe.nread = s.pipe.nwrite ∧ s.pipe.writeopen = false

/-- The call has written the first `i` bytes of its buffer. -/
def Wrote (sent : List UInt8) (src : List (Option UInt8)) (i : ℕ) : Prop :=
  sent.map some = src.take i ∧ i ≤ src.length

/-- The call has copied `i` bytes out; a last one is lost when there is no place for it. -/
def Read (s : PipeSystem n) (got : List UInt8) (dst : List Bool) (i : ℕ) : Prop :=
  (∀ j < i, dst[j]? = some true) ∧
    (got.length = i ∧ (i = 0 → dst ≠ [] → s.AtEnd) ∨ got.length = i + 1 ∧ dst[i]? = some false)

def WriteReturns (sent : List UInt8) (src : List (Option UInt8)) (r : ℤ) : Prop :=
  (r = -1 ∧ ∃ i, Wrote sent src i) ∨
    ∃ i : ℕ, r = i ∧ Wrote sent src i ∧ ∀ byte, src[i]? = some byte → byte = none

def ReadReturns (s : PipeSystem n) (got : List UInt8) (dst : List Bool) (r : ℤ) : Prop :=
  (r = -1 ∧ got = []) ∨ ∃ i : ℕ, r = i ∧ s.Read got dst i

def Knows (s : PipeSystem n) (p : Fin n) : PipePc → Prop
  | .user none => True
  | .user (some (.write src, r)) => WriteReturns (s.sent p) src r
  | .user (some (.read dst, r)) => s.ReadReturns (s.got p) dst r
  | .writeAcquire src i | .writeLoop src i | .writeSleep src i => Wrote (s.sent p) src i
  | .writeEnd src i => Wrote (s.sent p) src i ∧ ∀ byte, src[i]? = some byte → byte = none
  | .readAcquire _ | .readLoop _ | .readSleep _ => s.got p = []
  | .readCopy dst i =>
      (s.got p).length = i ∧ (∀ j < i, dst[j]? = some true) ∧
        (i = 0 → s.pipe.nread = s.pipe.nwrite → s.pipe.writeopen = false)
  | .readEnd dst i => s.Read (s.got p) dst i

structure Inv (s : PipeSystem n) : Prop where
  bound : gap s.pipe.nread s.pipe.nwrite ≤ PIPESIZE
  fifo : s.written.map Prod.snd = s.taken.map Prod.snd ++ s.contents
  lock : ∀ p, s.lock = some p ↔ (s.pc p).holding = true
  writeopen : ∀ p, (s.pc p).writing = true → s.pipe.writeopen = true
  readopen : ∀ p, (s.pc p).reading = true → s.pipe.readopen = true
  freed : s.freed = (!s.pipe.readopen && !s.pipe.writeopen)
  writtenTags : ∀ x ∈ s.written, x.1.2 ≤ s.calls x.1.1
  takenTags : ∀ x ∈ s.taken, x.1.2 ≤ s.calls x.1.1
  knows : ∀ p, s.Knows p (s.pc p)

theorem inv_pipealloc (data : ℕ → UInt8) : (pipealloc data : PipeSystem n).Inv where
  bound := by simp [pipealloc]
  fifo := by simp [pipealloc, contents]
  lock := by simp [pipealloc, PipePc.holding]
  writeopen := fun _ _ => rfl
  readopen := fun _ _ => rfl
  freed := rfl
  writtenTags := by simp [pipealloc]
  takenTags := by simp [pipealloc]
  knows := fun _ => trivial

/-- What a process knows lasts while its bytes and, as long as it has the lock, the pipe do. -/
theorem Knows.frame (hsent : s'.sent p = s.sent p) (hgot : s'.got p = s.got p)
    (hend : s.AtEnd → s'.AtEnd) (hpipe : pc.holding = true → s'.pipe = s.pipe)
    (h : s.Knows p pc) : s'.Knows p pc := by
  have hread : ∀ {got dst i}, s.Read got dst i → s'.Read got dst i := by
    rintro got dst i ⟨hcopied, ⟨hlength, hzero⟩ | hlost⟩
    · exact ⟨hcopied, .inl ⟨hlength, fun hi hdst => hend (hzero hi hdst)⟩⟩
    · exact ⟨hcopied, .inr hlost⟩
  cases pc with
  | user last =>
      match last with
      | none => trivial
      | some (.write src, r) => simpa only [Knows, hsent] using h
      | some (.read dst, r) =>
          rw [Knows, hgot]
          exact Or.imp_right (fun ⟨i, hr, hi⟩ => ⟨i, hr, hread hi⟩) h
  | readCopy dst i => simpa only [Knows, hgot, hpipe rfl] using h
  | readEnd dst i =>
      rw [Knows, hgot]
      exact hread h
  | _ => simpa only [Knows, hsent, hgot] using h

theorem knows_wokenReader : s.Knows p pc.wokenReader ↔ s.Knows p pc := by
  cases pc <;> rfl

theorem knows_wokenWriter : s.Knows p pc.wokenWriter ↔ s.Knows p pc := by
  cases pc <;> rfl

theorem knows_woken : s.Knows p pc.woken ↔ s.Knows p pc := by
  cases pc <;> rfl

/-! ## Steps that leave the pipe alone -/

/-- A process goes on and takes, keeps or gives up the lock. -/
theorem Inv.move (h : s.Inv) (lock : Option (Fin n))
    (hlock : ∀ q, lock = some q ↔ (Function.update s.pc p pc q).holding = true)
    (hwriting : pc.writing = true → (s.pc p).writing = true)
    (hreading : pc.reading = true → (s.pc p).reading = true) (hknows : s.Knows p pc) :
    ({ s with lock := lock }.goto p pc).Inv where
  bound := h.bound
  fifo := h.fifo
  lock := hlock
  writeopen q hq := by
    by_cases hqp : q = p
    · simp only [goto, hqp, Function.update_self] at hq
      exact h.writeopen p (hwriting hq)
    · simp only [goto, Function.update_of_ne hqp] at hq
      exact h.writeopen q hq
  readopen q hq := by
    by_cases hqp : q = p
    · simp only [goto, hqp, Function.update_self] at hq
      exact h.readopen p (hreading hq)
    · simp only [goto, Function.update_of_ne hqp] at hq
      exact h.readopen q hq
  freed := h.freed
  writtenTags := h.writtenTags
  takenTags := h.takenTags
  knows q := by
    by_cases hqp : q = p
    · simp only [goto, hqp, Function.update_self]
      exact hknows.frame rfl rfl id fun _ => rfl
    · simp only [goto, Function.update_of_ne hqp]
      exact (h.knows q).frame rfl rfl id fun _ => rfl

theorem Inv.goto (h : s.Inv) (hp : (s.pc p).holding = true) (hpc : pc.holding = true)
    (hwriting : pc.writing = true → (s.pc p).writing = true)
    (hreading : pc.reading = true → (s.pc p).reading = true) (hknows : s.Knows p pc) :
    (s.goto p pc).Inv := by
  refine h.move s.lock (fun q => ?_) hwriting hreading hknows
  by_cases hqp : q = p
  · simpa [hqp, hpc] using (h.lock p).mpr hp
  · simpa [hqp] using h.lock q

theorem Inv.release (h : s.Inv) (hp : (s.pc p).holding = true) (hpc : pc.holding = false)
    (hwriting : pc.writing = true → (s.pc p).writing = true)
    (hreading : pc.reading = true → (s.pc p).reading = true) (hknows : s.Knows p pc) :
    (s.release p pc).Inv := by
  refine h.move none (fun q => ?_) hwriting hreading hknows
  by_cases hqp : q = p
  · simp [hqp, hpc]
  · have hq : ¬ (s.pc q).holding = true := by
      rw [← h.lock q, (h.lock p).mpr hp, Option.some.injEq]
      exact Ne.symm hqp
    simp [hqp, hq]

theorem Inv.acquire (h : s.Inv) (hfree : s.lock = none) (hpc : pc.holding = true)
    (hwriting : pc.writing = true → (s.pc p).writing = true)
    (hreading : pc.reading = true → (s.pc p).reading = true) (hknows : s.Knows p pc) :
    ({ s with lock := some p }.goto p pc).Inv := by
  refine h.move (some p) (fun q => ?_) hwriting hreading hknows
  by_cases hqp : q = p
  · simp [hqp, hpc]
  · have hq : ¬ (s.pc q).holding = true := by
      rw [← h.lock q, hfree]
      simp
    simp [hqp, hq, Ne.symm hqp]

/-- Processes that are woken: what they hold, use and know stays. -/
theorem Inv.wake (h : s.Inv) (wake : PipePc → PipePc)
    (hkept : ∀ pc, (wake pc).holding = pc.holding ∧ (wake pc).writing = pc.writing ∧
      (wake pc).reading = pc.reading)
    (hknows : ∀ p pc, s.Knows p pc → s.Knows p (wake pc)) {pcs : Fin n → PipePc}
    (hpcs : ∀ p, pcs p = s.pc p ∨ pcs p = wake (s.pc p)) (killed : Fin n → Bool) :
    ({ s with pc := pcs, killed := killed } : PipeSystem n).Inv where
  bound := h.bound
  fifo := h.fifo
  lock p := by
    rw [h.lock p]
    rcases hpcs p with hp | hp <;> simp [hp, hkept]
  writeopen p hp := by
    refine h.writeopen p ?_
    rcases hpcs p with hpc | hpc <;> simpa [hpc, hkept] using hp
  readopen p hp := by
    refine h.readopen p ?_
    rcases hpcs p with hpc | hpc <;> simpa [hpc, hkept] using hp
  freed := h.freed
  writtenTags := h.writtenTags
  takenTags := h.takenTags
  knows p := by
    have hold : s.Knows p (pcs p) := by
      rcases hpcs p with hp | hp
      · rw [hp]
        exact h.knows p
      · rw [hp]
        exact hknows p _ (h.knows p)
    exact hold.frame rfl rfl id fun _ => rfl

theorem Inv.wakeupReaders (h : s.Inv) : s.wakeupReaders.Inv :=
  h.wake PipePc.wokenReader (fun pc => by cases pc <;> exact ⟨rfl, rfl, rfl⟩)
    (fun _ _ => knows_wokenReader.mpr) (fun _ => .inr rfl) s.killed

theorem Inv.wakeupWriters (h : s.Inv) : s.wakeupWriters.Inv :=
  h.wake PipePc.wokenWriter (fun pc => by cases pc <;> exact ⟨rfl, rfl, rfl⟩)
    (fun _ _ => knows_wokenWriter.mpr) (fun _ => .inr rfl) s.killed

theorem Inv.kill (h : s.Inv) : (s.kill p).Inv := by
  refine h.wake PipePc.woken (fun pc => by cases pc <;> exact ⟨rfl, rfl, rfl⟩)
    (fun _ _ => knows_woken.mpr) (fun q => ?_) _
  by_cases hq : q = p
  · exact .inr (by simp [hq])
  · exact .inl (by simp [hq])

/-! ## Bytes -/

variable {l : List (PipeTag n × UInt8)} {tag tag' : PipeTag n} {ch : UInt8}

theorem bytesOf_append_self : bytesOf (l ++ [(tag, ch)]) tag = bytesOf l tag ++ [ch] := by
  simp [bytesOf]

theorem bytesOf_append_of_ne (h : tag ≠ tag') :
    bytesOf (l ++ [(tag, ch)]) tag' = bytesOf l tag' := by
  simp [bytesOf, h]

theorem bytesOf_next {calls : Fin n → ℕ} (h : ∀ x ∈ l, x.1.2 ≤ calls x.1.1) :
    bytesOf l (p, calls p + 1) = [] := by
  have hnone : ∀ x ∈ l, ¬ x.1 = (p, calls p + 1) := by
    intro x hx heq
    have hle := h x hx
    rw [heq] at hle
    simp at hle
  simpa [bytesOf] using hnone

/-- A byte comes in at the far end. -/
theorem contents_put (p : Fin n) (ch : UInt8) (hbound : gap s.pipe.nread s.pipe.nwrite < PIPESIZE) :
    (s.put p ch).contents = s.contents ++ [ch] ∧
      gap (s.put p ch).pipe.nread (s.put p ch).pipe.nwrite ≤ PIPESIZE := by
  have hround : gap s.pipe.nread s.pipe.nwrite + 1 < 2 ^ 32 := by
    simp only [PIPESIZE] at hbound
    omega
  refine ⟨segment_push (by decide) hbound hround, ?_⟩
  exact (gap_add_one hround).trans_le hbound

/-- A byte goes out at the near end. -/
theorem contents_take (hempty : s.pipe.nread ≠ s.pipe.nwrite) :
    s.contents = s.pipe.data (cell PIPESIZE s.pipe.nread) :: (s.take p).contents ∧
      gap (s.take p).pipe.nread (s.take p).pipe.nwrite + 1 = gap s.pipe.nread s.pipe.nwrite :=
  ⟨segment_pop (by decide) hempty, gap_add_one_left hempty⟩

theorem Inv.put (h : s.Inv) (hp : s.pc p = .writeLoop src i) (hbyte : src[i]? = some (some ch))
    (hfull : ¬ s.pipe.nwrite = s.pipe.nread + BitVec.ofNat 32 PIPESIZE) :
    ((s.put p ch).goto p (.writeLoop src (i + 1))).Inv := by
  have hbound : gap s.pipe.nread s.pipe.nwrite < PIPESIZE := by
    refine lt_of_le_of_ne h.bound fun heq => hfull ?_
    exact (gap_eq_iff (by decide)).mp heq
  obtain ⟨hcontents, hbound'⟩ := contents_put p ch hbound
  have hholding : (s.pc p).holding = true := by simp [hp, PipePc.holding]
  have hpc : ∀ q, Function.update s.pc p (.writeLoop src (i + 1)) q =
      if q = p then .writeLoop src (i + 1) else s.pc q := fun q => Function.update_apply _ _ _ _
  exact {
    bound := hbound'
    fifo := by
      change (s.written ++ [((p, s.calls p), ch)]).map Prod.snd =
        s.taken.map Prod.snd ++ (s.put p ch).contents
      rw [hcontents, List.map_append, h.fifo, List.append_assoc]
      rfl
    lock := by
      intro q
      change s.lock = some q ↔ (Function.update s.pc p (.writeLoop src (i + 1)) q).holding = true
      rw [hpc, h.lock q]
      split_ifs with hq
      · simp [hq, hp, PipePc.holding]
      · rfl
    writeopen := fun q hq => h.writeopen p (by simp [hp, PipePc.writing])
    readopen := by
      intro q hq
      change (Function.update s.pc p (.writeLoop src (i + 1)) q).reading = true at hq
      rw [hpc] at hq
      split_ifs at hq
      · cases hq
      · exact h.readopen q hq
    freed := h.freed
    writtenTags := by
      intro x hx
      rcases List.mem_append.mp hx with hx | hx
      · exact h.writtenTags x hx
      · rw [List.mem_singleton.mp hx]
        exact le_rfl
    takenTags := h.takenTags
    knows := by
      intro q
      change Knows _ q (Function.update s.pc p (.writeLoop src (i + 1)) q)
      rw [hpc]
      split_ifs with hq
      · obtain ⟨hsent, -⟩ : Wrote (s.sent p) src i := by simpa [hp, Knows] using h.knows p
        rw [hq]
        constructor
        · change (bytesOf (s.written ++ [((p, s.calls p), ch)]) (p, s.calls p)).map some = _
          rw [bytesOf_append_self, List.map_append, List.take_add_one, hbyte]
          exact congrArg (· ++ [some ch]) hsent
        · exact (List.getElem?_eq_some_iff.mp hbyte).1
      · refine Knows.frame (s := s) ?_ rfl (fun hend => ?_) (fun hq' => ?_) (h.knows q)
        · refine bytesOf_append_of_ne fun htag => hq ?_
          exact (congrArg Prod.fst htag).symm
        · have hopen := h.writeopen p (by simp [hp, PipePc.writing])
          simp [hend.2] at hopen
        · refine absurd ?_ hq
          have hlock := (h.lock q).mpr hq'
          rw [(h.lock p).mpr hholding, Option.some.injEq] at hlock
          exact hlock.symm }

/-- A byte that has no place to go is gone all the same. -/
theorem Inv.take {copied : Bool} (h : s.Inv) (hp : s.pc p = .readCopy dst i)
    (hcopied : dst[i]? = some copied) (hempty : s.pipe.nread ≠ s.pipe.nwrite) :
    ((s.take p).goto p (if copied then .readCopy dst (i + 1) else .readEnd dst i)).Inv := by
  obtain ⟨hcontents, hbound⟩ := contents_take (p := p) hempty
  generalize hpc : (if copied then PipePc.readCopy dst (i + 1) else .readEnd dst i) = pc
  have hholding : (s.pc p).holding = true := by simp [hp, PipePc.holding]
  have hkinds : pc.holding = true ∧ pc.writing = false ∧ pc.reading = true := by
    rw [← hpc]
    split_ifs <;> exact ⟨rfl, rfl, rfl⟩
  have hupdate : ∀ q, Function.update s.pc p pc q = if q = p then pc else s.pc q :=
    fun q => Function.update_apply _ _ _ _
  exact {
    bound := by
      have hold := h.bound
      change gap (s.take p).pipe.nread (s.take p).pipe.nwrite ≤ PIPESIZE
      omega
    fifo := by
      change s.written.map Prod.snd =
        (s.taken ++ [((p, s.calls p), s.pipe.data (cell PIPESIZE s.pipe.nread))]).map Prod.snd ++
          (s.take p).contents
      rw [h.fifo, hcontents, List.map_append, List.append_assoc]
      rfl
    lock := by
      intro q
      change s.lock = some q ↔ (Function.update s.pc p pc q).holding = true
      rw [hupdate, h.lock q]
      split_ifs with hq
      · rw [hq]
        exact iff_of_true hholding hkinds.1
      · rfl
    writeopen := by
      intro q hq
      change (Function.update s.pc p pc q).writing = true at hq
      rw [hupdate] at hq
      split_ifs at hq
      · simp [hkinds.2.1] at hq
      · exact h.writeopen q hq
    readopen := fun q hq => h.readopen p (by simp [hp, PipePc.reading])
    freed := h.freed
    writtenTags := h.writtenTags
    takenTags := by
      intro x hx
      rcases List.mem_append.mp hx with hx | hx
      · exact h.takenTags x hx
      · rw [List.mem_singleton.mp hx]
        exact le_rfl
    knows := by
      intro q
      change Knows _ q (Function.update s.pc p pc q)
      rw [hupdate]
      split_ifs with hq
      · obtain ⟨hlength, hall, -⟩ : (s.got p).length = i ∧ (∀ j < i, dst[j]? = some true) ∧
            (i = 0 → s.pipe.nread = s.pipe.nwrite → s.pipe.writeopen = false) := by
          simpa [hp, Knows] using h.knows p
        have hgot : (((s.take p).goto p pc).got p).length = i + 1 := by
          change (bytesOf (s.taken ++ [((p, s.calls p), _)]) (p, s.calls p)).length = _
          rw [bytesOf_append_self, List.length_append]
          exact congrArg (· + 1) hlength
        rw [hq]
        cases copied with
        | true =>
            obtain rfl := hpc.symm
            refine ⟨hgot, fun j hj => ?_, fun hzero => absurd hzero (Nat.succ_ne_zero i)⟩
            rcases Nat.lt_succ_iff_lt_or_eq.mp hj with hj | rfl
            · exact hall j hj
            · exact hcopied
        | false =>
            obtain rfl := hpc.symm
            exact ⟨hall, .inr ⟨hgot, hcopied⟩⟩
      · refine Knows.frame (s := s) rfl ?_ (fun hend => ?_) (fun hq' => ?_) (h.knows q)
        · refine bytesOf_append_of_ne fun htag => hq ?_
          exact (congrArg Prod.fst htag).symm
        · exact absurd hend.1 hempty
        · refine absurd ?_ hq
          have hlock := (h.lock q).mpr hq'
          rw [(h.lock p).mpr hholding, Option.some.injEq] at hlock
          exact hlock.symm }

/-! ## Calls and closing -/

theorem Inv.enter {c : PipeCall} {last : Option (PipeCall × ℤ)} (h : s.Inv)
    (hp : s.pc p = .user last) (hopen : match c with
      | .write _ => s.pipe.writeopen = true
      | .read _ => s.pipe.readopen = true) : (s.enter p c).Inv := by
  have hpc : ∀ q, q ≠ p → (s.enter p c).pc q = s.pc q := fun q hq => Function.update_of_ne hq _ _
  have hentry : (s.enter p c).pc p = c.entry := Function.update_self _ _ _
  have hcalls : ∀ q, q ≠ p → (s.enter p c).calls q = s.calls q := fun q hq =>
    Function.update_of_ne hq _ _
  have hself : (s.enter p c).calls p = s.calls p + 1 := Function.update_self _ _ _
  have hle : ∀ q, s.calls q ≤ (s.enter p c).calls q := by
    intro q
    by_cases hq : q = p
    · rw [hq, hself]
      exact Nat.le_succ _
    · rw [hcalls q hq]
  exact {
    bound := h.bound
    fifo := h.fifo
    lock := by
      intro q
      refine (h.lock q).trans ?_
      by_cases hq : q = p
      · rw [hq, hentry, hp]
        cases c <;> simp [PipeCall.entry, PipePc.holding]
      · rw [hpc q hq]
    writeopen := by
      intro q hq
      by_cases hqp : q = p
      · rw [hqp, hentry] at hq
        cases c with
        | write src => exact hopen
        | read dst => cases hq
      · rw [hpc q hqp] at hq
        exact h.writeopen q hq
    readopen := by
      intro q hq
      by_cases hqp : q = p
      · rw [hqp, hentry] at hq
        cases c with
        | write src => cases hq
        | read dst => exact hopen
      · rw [hpc q hqp] at hq
        exact h.readopen q hq
    freed := h.freed
    writtenTags := fun x hx => (h.writtenTags x hx).trans (hle x.1.1)
    takenTags := fun x hx => (h.takenTags x hx).trans (hle x.1.1)
    knows := by
      intro q
      by_cases hq : q = p
      · have hsent : (s.enter p c).sent p = [] := by
          rw [sent, hself]
          exact bytesOf_next h.writtenTags
        have hgot : (s.enter p c).got p = [] := by
          rw [got, hself]
          exact bytesOf_next h.takenTags
        rw [hq, hentry]
        cases c with
        | write src =>
            rw [PipeCall.entry, Knows, hsent]
            exact ⟨rfl, Nat.zero_le _⟩
        | read dst => exact hgot
      · rw [hpc q hq]
        refine Knows.frame (s := s) ?_ ?_ id (fun _ => rfl) (h.knows q)
        · rw [sent, hcalls q hq]
          rfl
        · rw [got, hcalls q hq]
          rfl }

theorem Inv.pipeclose (h : s.Inv) (hfree : s.lock = none) (writable : Bool)
    (hunused : ∀ p, (if writable then (s.pc p).writing else (s.pc p).reading) = false) :
    (s.pipeclose writable).Inv := by
  have hlock : ∀ p, (s.pc p).holding = false := by
    intro p
    rw [Bool.eq_false_iff, ne_eq, ← h.lock p, hfree]
    simp
  have hclosed : ∀ pipe : Pipe, pipe.data = s.pipe.data → pipe.nread = s.pipe.nread →
      pipe.nwrite = s.pipe.nwrite → (s.pipe.writeopen = false → pipe.writeopen = false) →
      (∀ p, (s.pc p).writing = true → pipe.writeopen = true) →
      (∀ p, (s.pc p).reading = true → pipe.readopen = true) →
      ({ s with pipe := pipe, freed := !pipe.readopen && !pipe.writeopen } :
        PipeSystem n).Inv := by
    intro pipe hdata hnread hnwrite hstays hwriting hreading
    exact {
      bound := by
        rw [hnread, hnwrite]
        exact h.bound
      fifo := by
        simp only [contents, hdata, hnread, hnwrite]
        exact h.fifo
      lock := h.lock
      writeopen := hwriting
      readopen := hreading
      freed := rfl
      writtenTags := h.writtenTags
      takenTags := h.takenTags
      knows := by
        intro p
        refine Knows.frame (s := s) rfl rfl (fun hend => ?_) (fun hp => ?_) (h.knows p)
        · exact ⟨by rw [hnread, hnwrite]; exact hend.1, hstays hend.2⟩
        · simp [hlock p] at hp }
  cases writable with
  | true =>
      refine (hclosed { s.pipe with writeopen := false } rfl rfl rfl (fun _ => rfl)
        (fun p hp => ?_) h.readopen).wakeupReaders
      have hnone : (s.pc p).writing = false := hunused p
      simp [hnone] at hp
  | false =>
      refine (hclosed { s.pipe with readopen := false } rfl rfl rfl id h.writeopen
        (fun p hp => ?_)).wakeupWriters
      have hnone : (s.pc p).reading = false := hunused p
      simp [hnone] at hp

/-! ## Runs -/

theorem Inv.writeLoop (h : s.Inv) (hp : s.pc p = .writeLoop src i) :
    (s.writeLoop p src i).Inv := by
  have hholding : (s.pc p).holding = true := by simp [hp, PipePc.holding]
  have hwriting : (s.pc p).writing = true := by simp [hp, PipePc.writing]
  have hwrote : Wrote (s.sent p) src i := by simpa [hp, Knows] using h.knows p
  cases hbyte : src[i]? with
  | none =>
      simp only [PipeSystem.writeLoop, hbyte]
      exact h.goto hholding rfl (fun _ => hwriting) (fun hr => by cases hr)
        ⟨hwrote, by simp [hbyte]⟩
  | some byte =>
      simp only [PipeSystem.writeLoop, hbyte]
      split_ifs with hgone hfull
      · exact h.release hholding rfl (fun hw => by cases hw) (fun hr => by cases hr)
          (.inl ⟨rfl, i, hwrote⟩)
      · refine h.wakeupReaders.release ?_ rfl (fun _ => ?_) (fun hr => by cases hr) ?_
        · simp [PipeSystem.wakeupReaders, hp, PipePc.wokenReader, PipePc.holding]
        · simp [PipeSystem.wakeupReaders, hp, PipePc.wokenReader, PipePc.writing]
        · exact hwrote
      · cases byte with
        | none =>
            exact h.goto hholding rfl (fun _ => hwriting) (fun hr => by cases hr)
              ⟨hwrote, by simp [hbyte]⟩
        | some ch => exact h.put hp hbyte hfull

theorem Inv.readLoop (h : s.Inv) (hp : s.pc p = .readLoop dst) : (s.readLoop p dst).Inv := by
  have hholding : (s.pc p).holding = true := by simp [hp, PipePc.holding]
  have hreading : (s.pc p).reading = true := by simp [hp, PipePc.reading]
  have hgot : s.got p = [] := by simpa [hp, Knows] using h.knows p
  simp only [PipeSystem.readLoop]
  split_ifs with hwait hkilled
  · exact h.release hholding rfl (fun hw => by cases hw) (fun hr => by cases hr)
      (.inl ⟨rfl, hgot⟩)
  · exact h.release hholding rfl (fun hw => by cases hw) (fun _ => hreading) hgot
  · refine h.goto hholding rfl (fun hw => by cases hw) (fun _ => hreading) ⟨by simp [hgot],
      fun j hj => absurd hj (Nat.not_lt_zero j), fun _ hempty => ?_⟩
    simpa [hempty] using hwait

theorem Inv.readCopy (h : s.Inv) (hp : s.pc p = .readCopy dst i) : (s.readCopy p dst i).Inv := by
  have hholding : (s.pc p).holding = true := by simp [hp, PipePc.holding]
  have hreading : (s.pc p).reading = true := by simp [hp, PipePc.reading]
  obtain ⟨hlength, hall, hend⟩ : (s.got p).length = i ∧ (∀ j < i, dst[j]? = some true) ∧
      (i = 0 → s.pipe.nread = s.pipe.nwrite → s.pipe.writeopen = false) := by
    simpa [hp, Knows] using h.knows p
  cases hcopied : dst[i]? with
  | none =>
      simp only [PipeSystem.readCopy, hcopied]
      refine h.goto hholding rfl (fun hw => by cases hw) (fun _ => hreading)
        ⟨hall, .inl ⟨hlength, fun hi hdst => absurd hcopied ?_⟩⟩
      simpa [hi] using hdst
  | some copied =>
      simp only [PipeSystem.readCopy, hcopied]
      by_cases hempty : s.pipe.nread = s.pipe.nwrite
      · rw [if_pos hempty]
        exact h.goto hholding rfl (fun hw => by cases hw) (fun _ => hreading)
          ⟨hall, .inl ⟨hlength, fun hi _ => ⟨hempty, hend hi hempty⟩⟩⟩
      · rw [if_neg hempty]
        exact h.take hp hcopied hempty

theorem Inv.stepProc (h : s.Inv) (hstep : s.stepProc p = some s') : s'.Inv := by
  cases hp : s.pc p with
  | user last | writeSleep src i | readSleep dst => simp [PipeSystem.stepProc, hp] at hstep
  | writeAcquire src i | readAcquire dst =>
      simp only [PipeSystem.stepProc, hp, PipeSystem.acquire, Option.ite_none_right_eq_some,
        Option.some.injEq] at hstep
      obtain ⟨hfree, rfl⟩ := hstep
      have hknows := h.knows p
      rw [hp] at hknows
      exact h.acquire hfree rfl (by simp [hp, PipePc.writing]) (by simp [hp, PipePc.reading])
        hknows
  | writeLoop src i =>
      simp only [PipeSystem.stepProc, hp, Option.some.injEq] at hstep
      exact hstep ▸ h.writeLoop hp
  | readLoop dst =>
      simp only [PipeSystem.stepProc, hp, Option.some.injEq] at hstep
      exact hstep ▸ h.readLoop hp
  | readCopy dst i =>
      simp only [PipeSystem.stepProc, hp, Option.some.injEq] at hstep
      exact hstep ▸ h.readCopy hp
  | writeEnd src i =>
      simp only [PipeSystem.stepProc, hp, Option.some.injEq] at hstep
      subst hstep
      have hknows := h.knows p
      rw [hp] at hknows
      refine h.wakeupReaders.release ?_ rfl (fun hw => by cases hw) (fun hr => by cases hr) ?_
      · simp [PipeSystem.wakeupReaders, hp, PipePc.wokenReader, PipePc.holding]
      · exact .inr ⟨i, rfl, hknows⟩
  | readEnd dst i =>
      simp only [PipeSystem.stepProc, hp, Option.some.injEq] at hstep
      subst hstep
      have hknows := h.knows p
      rw [hp] at hknows
      refine h.wakeupWriters.release ?_ rfl (fun hw => by cases hw) (fun hr => by cases hr) ?_
      · simp [PipeSystem.wakeupWriters, hp, PipePc.wokenWriter, PipePc.holding]
      · exact .inr ⟨i, rfl, hknows⟩

theorem Inv.step {e : PipeEvent n} (h : s.Inv) (hstep : s.Step e s') : s'.Inv := by
  cases e with
  | call p c =>
      cases hp : s.pc p with
      | user last =>
          cases c <;> simp only [Step, act, hp, Option.ite_none_right_eq_some,
            Option.some.injEq] at hstep <;> exact hstep.2 ▸ h.enter hp hstep.1
      | _ => simp [Step, act, hp] at hstep
  | step p => exact h.stepProc hstep
  | kill p => exact Option.some.inj hstep ▸ h.kill
  | close writable =>
      cases writable <;> simp only [Step, act, Option.ite_none_right_eq_some,
        Option.some.injEq] at hstep <;>
        exact hstep.2 ▸ h.pipeclose hstep.1.1 _ (by simpa using hstep.1.2.2)

section Runs

variable {data : ℕ → UInt8} {l : List (PipeEvent n × PipeSystem n)}

theorem inv_of_runs (h : Runs Step (pipealloc data) l s) : s.Inv :=
  h.invariant (inv_pipealloc data) fun _ _ _ hinv hstep => hinv.step hstep

/-- Whoever reads and writes, and however often the counters go round: the bytes that were
taken out, and then those in the pipe, are the bytes that were put in. -/
theorem pipe_fifo (h : Runs Step (pipealloc data) l s) :
    s.written.map Prod.snd = s.taken.map Prod.snd ++ s.contents ∧
      s.contents.length ≤ PIPESIZE :=
  ⟨(inv_of_runs h).fifo, length_segment.trans_le (inv_of_runs h).bound⟩

/-- One process writes three bytes, of which another takes two. -/
def threeBytes (p q : Fin n) : List (PipeEvent n) :=
  .call p (.write [some 7, some 8, some 9]) :: .replicate 6 (.step p) ++
    .call q (.read [true, true]) :: .replicate 6 (.step q)

theorem pipe_fifo_threeBytes : ∃ s : PipeSystem 2, s.taken.map Prod.snd = [7, 8] ∧
    s.written.map Prod.snd = s.taken.map Prod.snd ++ s.contents ∧
      s.contents.length ≤ PIPESIZE := by
  obtain ⟨l, s, hrun, htaken⟩ := Runs.exists_of_events act (pipealloc fun _ => 0)
    (threeBytes (0 : Fin 2) 1) (fun s => decide (s.taken.map Prod.snd = [7, 8])) (by decide +kernel)
  exact ⟨s, of_decide_eq_true htaken, pipe_fifo hrun⟩

/-- A call of `pipewrite` returns how much of its buffer it put in, and stops early only where
`copyin` fails; with -1 it may have put in some. -/
theorem pipewrite_returns {r : ℤ} (h : Runs Step (pipealloc data) l s)
    (hp : s.pc p = .user (some (.write src, r))) : WriteReturns (s.sent p) src r := by
  have hknows := (inv_of_runs h).knows p
  rwa [hp] at hknows

theorem pipewrite_returns_threeBytes : ∃ s : PipeSystem 2,
    s.pc 0 = .user (some (.write [some 7, some 8, some 9], 3)) ∧
      WriteReturns (s.sent 0) [some 7, some 8, some 9] 3 := by
  obtain ⟨l, s, hrun, hp⟩ := Runs.exists_of_events act (pipealloc fun _ => 0)
    (threeBytes (0 : Fin 2) 1)
    (fun s => decide (s.pc 0 = .user (some (.write [some 7, some 8, some 9], 3))))
    (by decide +kernel)
  exact ⟨s, of_decide_eq_true hp,
    pipewrite_returns hrun (of_decide_eq_true hp)⟩

/-- A call of `piperead` returns how much it copied out; one that returns 0 with a place for a
byte has seen the end of what will ever be written, or lost a byte to `copyout`. -/
theorem piperead_returns {r : ℤ} (h : Runs Step (pipealloc data) l s)
    (hp : s.pc p = .user (some (.read dst, r))) : s.ReadReturns (s.got p) dst r := by
  have hknows := (inv_of_runs h).knows p
  rwa [hp] at hknows

theorem piperead_returns_threeBytes : ∃ s : PipeSystem 2,
    s.pc 1 = .user (some (.read [true, true], 2)) ∧
      s.ReadReturns (s.got 1) [true, true] 2 := by
  obtain ⟨l, s, hrun, hp⟩ := Runs.exists_of_events act (pipealloc fun _ => 0)
    (threeBytes (0 : Fin 2) 1) (fun s => decide (s.pc 1 = .user (some (.read [true, true], 2))))
    (by decide +kernel)
  exact ⟨s, of_decide_eq_true hp,
    piperead_returns hrun (of_decide_eq_true hp)⟩

/-- Once both ends are closed, no call uses the pipe, whose page is free. -/
theorem user_of_freed (h : Runs Step (pipealloc data) l s) (hfreed : s.freed = true) (p : Fin n) :
    (s.pc p).writing = false ∧ (s.pc p).reading = false := by
  have hinv := inv_of_runs h
  rw [hinv.freed, Bool.and_eq_true, Bool.not_eq_true', Bool.not_eq_true'] at hfreed
  constructor
  · by_contra hp
    simp [hinv.writeopen p (by simpa using hp)] at hfreed
  · by_contra hp
    simp [hinv.readopen p (by simpa using hp)] at hfreed

end Runs

end PipeSystem

end SistOp.Xv6
