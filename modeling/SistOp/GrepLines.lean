import SistOp.PatternMatching

/-!
# Lines of `grep`

The loops of `grep` over what `read` brings, chunk by chunk, into a buffer of 1024 bytes, the last
of which is kept for a NUL.
-/

namespace SistOp.Xv6.Grep

/-- `sizeof(buf)` without the NUL. -/
def room : ℕ := 1023

/-- `strchr(p, '\n')`: the line in front of the newline, and what follows.  The search ends at a
NUL. -/
def nextLine : List UInt8 → Option (List UInt8 × List UInt8)
  | [] => none
  | b :: bs =>
      if b = 0 then none
      else if b = newline then some ([], bs)
      else (nextLine bs).map fun r => (b :: r.1, r.2)

theorem nextLine_eq_some {buf line rest : List UInt8} (h : nextLine buf = some (line, rest)) :
    buf = line ++ newline :: rest ∧ newline ∉ line ∧ 0 ∉ line := by
  induction buf generalizing line with
  | nil => simp [nextLine] at h
  | cons b bs ih =>
      rw [nextLine] at h
      split_ifs at h with hnul hnewline
      · obtain ⟨rfl, rfl⟩ := Prod.mk.inj (Option.some.inj h)
        simp [hnewline]
      · obtain ⟨⟨line', rest'⟩, hline, heq⟩ := Option.map_eq_some_iff.mp h
        obtain ⟨rfl, rfl⟩ := Prod.mk.inj heq
        obtain ⟨rfl, hmem, hzero⟩ := ih hline
        simp [hmem, hzero, Ne.symm hnul, Ne.symm hnewline]

/-- The inner loop: what it writes, and what is moved to the front of the buffer. -/
def printLines (re buf : List UInt8) : List UInt8 × List UInt8 :=
  match h : nextLine buf with
  | none => ([], buf)
  | some (line, rest) =>
      have : rest.length < buf.length := by
        rw [(nextLine_eq_some h).1]
        simp
        omega
      ((if matchRe re line then line ++ [newline] else []) ++ (printLines re rest).1,
        (printLines re rest).2)
termination_by buf.length

theorem printLines_of_none {re buf : List UInt8} (h : nextLine buf = none) :
    printLines re buf = ([], buf) := by
  unfold printLines
  split
  · rfl
  · simp_all

theorem printLines_of_some {re buf line rest : List UInt8} (h : nextLine buf = some (line, rest)) :
    printLines re buf = ((if matchRe re line then line ++ [newline] else []) ++
      (printLines re rest).1, (printLines re rest).2) := by
  rw [printLines]
  split
  · simp_all
  · simp_all

/-- The outer loop over the results of `read`, up to the one that is not positive. -/
def grep (re : List UInt8) : List UInt8 → List (List UInt8) → List UInt8
  | _, [] => []
  | held, chunk :: reads =>
      (printLines re (held ++ chunk)).1 ++ grep re (printLines re (held ++ chunk)).2 reads

/-- The results of `read` while there is room in the buffer, until it returns 0: the file is at
its end, or nothing was asked for. -/
def Delivers (re : List UInt8) : List UInt8 → List UInt8 → List (List UInt8) → Prop
  | held, data, [] => data = [] ∨ held.length = room
  | held, data, chunk :: reads => chunk ≠ [] ∧ (held ++ chunk).length ≤ room ∧
      ∃ data', data = chunk ++ data' ∧ Delivers re (printLines re (held ++ chunk)).2 data' reads

/-- The lines that end in a newline. -/
def fileLines (data : List UInt8) : List (List UInt8) := (data.splitOn newline).dropLast

/-- A line that the buffer holds with its newline, and without a NUL. -/
def Fits (line : List UInt8) : Bool := line.length < room && !line.contains 0

/-- What is printed of a file: the lines with the pattern, up to the first that does not fit. -/
def printed (re data : List UInt8) : List UInt8 :=
  (((fileLines data).takeWhile Fits).filter (matchRe re)).flatMap (· ++ [newline])

theorem fileLines_cons {line : List UInt8} (rest : List UInt8) (hline : newline ∉ line) :
    fileLines (line ++ newline :: rest) = line :: fileLines rest := by
  have hsplit : (line ++ newline :: rest).splitOn newline = line :: rest.splitOn newline := by
    rw [List.splitOn_append_cons_of_beq line rest (beq_self_eq_true newline),
      List.splitOn_eq_singleton hline, List.singleton_append]
  rw [fileLines, hsplit, List.dropLast_cons_of_ne_nil (List.splitOn_ne_nil newline rest)]
  rfl

theorem fileLines_eq_nil {data : List UInt8} (hdata : newline ∉ data) : fileLines data = [] := by
  rw [fileLines, List.splitOn_eq_singleton hdata]
  rfl

theorem printed_cons {re line : List UInt8} (rest : List UInt8) (hline : newline ∉ line)
    (hfits : Fits line = true) : printed re (line ++ newline :: rest) =
      (if matchRe re line then line ++ [newline] else []) ++ printed re rest := by
  rw [printed, fileLines_cons rest hline, List.takeWhile_cons_of_pos hfits]
  by_cases hmatch : matchRe re line = true
  · simp [hmatch, printed]
  · simp [hmatch, printed]

/-- Nothing is printed of what begins with the line that does not fit. -/
theorem printed_eq_nil {re data : List UInt8}
    (hdata : ∀ line rest, data = line ++ newline :: rest → newline ∉ line → Fits line = false) :
    printed re data = [] := by
  by_cases hmem : newline ∈ data
  · obtain ⟨line, rest, rfl, hline⟩ := List.eq_append_cons_of_mem hmem
    rw [printed, fileLines_cons rest hline,
      List.takeWhile_cons_of_neg (by simp [hdata line rest rfl hline])]
    rfl
  · rw [printed, fileLines_eq_nil hmem]
    rfl

/-- Where the search for a line fails, none is there, or a NUL is in front of it. -/
theorem zero_mem_of_nextLine {buf line rest more : List UInt8} (h : nextLine buf = none)
    (heq : buf ++ more = line ++ newline :: rest) (hline : newline ∉ line) :
    0 ∈ line ∨ buf.length ≤ line.length := by
  induction buf generalizing line with
  | nil => exact .inr (Nat.zero_le _)
  | cons b bs ih =>
      cases line with
      | nil =>
          obtain ⟨rfl, -⟩ := List.cons.inj heq
          simp [nextLine, newline] at h
      | cons c line =>
          obtain ⟨rfl, heq'⟩ := List.cons.inj heq
          have hline' := not_or.mp (List.mem_cons.not.mp hline)
          rw [nextLine] at h
          split_ifs at h with hnul hnewline
          · exact .inl (hnul ▸ List.mem_cons_self)
          · rw [Option.map_eq_none_iff] at h
            rcases ih h heq' hline'.2 with hzero | hlen
            · exact .inl (List.mem_cons_of_mem b hzero)
            · exact .inr (Nat.succ_le_succ hlen)

theorem nextLine_printLines (re buf : List UInt8) : nextLine (printLines re buf).2 = none := by
  induction buf using printLines.induct with
  | case1 buf h => rwa [printLines_of_none h]
  | case2 buf line rest h hlt ih => rwa [printLines_of_some h]

/-- The inner loop prints the lines of the buffer, all of which fit. -/
theorem printed_append (re more : List UInt8) {buf : List UInt8} (hbuf : buf.length ≤ room) :
    printed re (buf ++ more) =
      (printLines re buf).1 ++ printed re ((printLines re buf).2 ++ more) := by
  induction buf using printLines.induct with
  | case1 buf h =>
      rw [printLines_of_none h]
      rfl
  | case2 buf line rest h hlt ih =>
      obtain ⟨rfl, hline, hzero⟩ := nextLine_eq_some h
      rw [List.length_append, List.length_cons] at hbuf
      have hfits : Fits line = true := by
        rw [Fits, Bool.and_eq_true, decide_eq_true_eq, Bool.not_eq_true', List.contains_eq_mem,
          decide_eq_false_iff_not]
        exact ⟨by omega, hzero⟩
      rw [printLines_of_some h, List.append_assoc, List.cons_append,
        printed_cons (rest ++ more) hline hfits, ih (by omega), List.append_assoc]

/-- What is held back when `read` returns 0 contains no line that fits. -/
theorem printed_eq_nil_of_end {re held data : List UInt8} (hheld : nextLine held = none)
    (hend : data = [] ∨ held.length = room) : printed re (held ++ data) = [] := by
  apply printed_eq_nil
  intro line rest heq hline
  have hlong : 0 ∈ line ∨ room ≤ line.length := by
    rcases zero_mem_of_nextLine hheld heq hline with hzero | hlen
    · exact .inl hzero
    · rcases hend with rfl | hfull
      · -- the held bytes end in front of the newline
        have hlength := congrArg List.length heq
        simp at hlength
        omega
      · exact .inr (hfull ▸ hlen)
  rw [Fits, Bool.and_eq_false_iff, decide_eq_false_iff_not, Bool.not_eq_false',
    List.contains_eq_mem, decide_eq_true_eq]
  exact hlong.symm.imp_left Nat.not_lt.mpr

theorem grep_append {re held data : List UInt8} {reads : List (List UInt8)}
    (hheld : nextLine held = none) (h : Delivers re held data reads) :
    grep re held reads = printed re (held ++ data) := by
  induction reads generalizing held data with
  | nil => exact (printed_eq_nil_of_end hheld h).symm
  | cons chunk reads ih =>
      obtain ⟨-, hroom, data, rfl, hrest⟩ := h
      rw [grep, ih (nextLine_printLines re _) hrest, ← List.append_assoc,
        printed_append re data hroom]

/-- Whatever the sizes of the reads, `grep` prints the lines with the pattern, up to the first that
does not fit. -/
theorem grep_eq_printed {re data : List UInt8} {reads : List (List UInt8)}
    (h : Delivers re [] data reads) : grep re [] reads = printed re data :=
  grep_append rfl h

/-- The second line comes in two reads. -/
theorem grep_eq_printed_twoReads :
    grep [97] [] [[97, 10, 98], [10]] = printed [97] [97, 10, 98, 10] := by
  have hfirst : printLines [97] [97, 10, 98] = ([97, 10], [98]) := by
    rw [printLines_of_some (show nextLine [97, 10, 98] = some ([97], [98]) from rfl),
      printLines_of_none (show nextLine [98] = none from rfl)]
    rfl
  apply grep_eq_printed
  refine ⟨by simp, by decide, [10], rfl, by simp, ?_, [], rfl, .inl rfl⟩
  rw [List.nil_append, hfirst]
  decide

end SistOp.Xv6.Grep
