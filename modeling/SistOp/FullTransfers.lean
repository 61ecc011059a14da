import SistOp.FatTable
import Mathlib.Tactic

/-!
# Interrupted full transfers

`full_pread` and `full_pwrite` share their loop.  What it does is determined by the
outcomes of the calls: the pieces it transfers and the place where it stops.  An
interrupted call takes one byte back, also when there is none to take back.
-/

namespace SistOp.FatFuse

open ByteStore

/-- The pieces of a full transfer (position and length), where it stops, and the outcomes
that it leaves. -/
structure Transfer where
  pieces : List (ℤ × ℕ)
  stop : ℤ
  left : List IoOutcome

/-- The transfer of `count` bytes at `offset` from position `pos` on. -/
def transferFrom (count offset : ℕ) : List IoOutcome → ℤ → Transfer
  | [], pos =>
      if pos = count ∨ (offset : ℤ) + pos < 0 then ⟨[], pos, []⟩
      else ⟨[(pos, (count - pos).toNat)], count, []⟩
  | .bytes n :: io, pos =>
      if pos = count ∨ (offset : ℤ) + pos < 0 then ⟨[], pos, .bytes n :: io⟩
      else if n = 0 then ⟨[], pos, io⟩
      else
        let later := transferFrom count offset io (pos + min n (count - pos).toNat)
        { later with pieces := (pos, min n (count - pos).toNat) :: later.pieces }
  | .error e :: io, pos =>
      if pos = count ∨ (offset : ℤ) + pos < 0 then ⟨[], pos, .error e :: io⟩
      else if ((e : ℕ) : ℤ) = Errno.eintr then transferFrom count offset io (pos - 1)
      else ⟨[], pos, io⟩

def Covered (pieces : List (ℤ × ℕ)) (i : ℤ) : Prop :=
  ∃ piece ∈ pieces, piece.1 ≤ i ∧ i < piece.1 + piece.2

theorem not_covered_nil (i : ℤ) : ¬ Covered [] i := by simp [Covered]

theorem covered_cons {piece : ℤ × ℕ} {pieces : List (ℤ × ℕ)} {i : ℤ} :
    Covered (piece :: pieces) i ↔
      (piece.1 ≤ i ∧ i < piece.1 + piece.2) ∨ Covered pieces i := by
  simp [Covered]

theorem transferFrom_stopped {count offset : ℕ} {pos : ℤ}
    (h : pos = count ∨ (offset : ℤ) + pos < 0) (io : List IoOutcome) :
    transferFrom count offset io pos = ⟨[], pos, io⟩ := by
  cases io with
  | nil => rw [transferFrom, if_pos h]
  | cons outcome io => cases outcome <;> rw [transferFrom, if_pos h]

theorem stop_le {count : ℕ} (offset : ℕ) (io : List IoOutcome) {pos : ℤ} (hpos : pos ≤ count) :
    (transferFrom count offset io pos).stop ≤ count := by
  induction io generalizing pos with
  | nil =>
      unfold transferFrom
      split
      · exact hpos
      · exact le_rfl
  | cons outcome io ih =>
      by_cases hstopped : pos = count ∨ (offset : ℤ) + pos < 0
      · rw [transferFrom_stopped hstopped]
        exact hpos
      · cases outcome with
        | bytes n =>
            unfold transferFrom
            rw [if_neg hstopped]
            split
            · exact hpos
            · exact ih (by omega)
        | error e =>
            unfold transferFrom
            rw [if_neg hstopped]
            split
            · exact ih (by omega)
            · exact hpos

/-- A complete transfer leaves no gap, whatever it does twice. -/
theorem covered_of_complete {count offset : ℕ} {io : List IoOutcome} {pos i : ℤ}
    (h : (transferFrom count offset io pos).stop = count) (hlow : pos ≤ i) (hhigh : i < count) :
    Covered (transferFrom count offset io pos).pieces i := by
  induction io generalizing pos with
  | nil =>
      unfold transferFrom at h ⊢
      split
      · rename_i hstopped
        rw [if_pos hstopped] at h
        simp only at h
        omega
      · rw [covered_cons]
        exact Or.inl ⟨hlow, by simp only; omega⟩
  | cons outcome io ih =>
      by_cases hstopped : pos = count ∨ (offset : ℤ) + pos < 0
      · rw [transferFrom_stopped hstopped] at h
        simp only at h
        omega
      · cases outcome with
        | bytes n =>
            unfold transferFrom at h ⊢
            rw [if_neg hstopped] at h ⊢
            by_cases hzero : n = 0
            · rw [if_pos hzero] at h
              simp only at h
              omega
            · rw [if_neg hzero] at h ⊢
              rw [covered_cons]
              by_cases hfirst : i < pos + (min n (count - pos).toNat : ℕ)
              · exact Or.inl ⟨hlow, hfirst⟩
              · exact Or.inr (ih h (by omega))
        | error e =>
            unfold transferFrom at h ⊢
            rw [if_neg hstopped] at h ⊢
            by_cases heintr : ((e : ℕ) : ℤ) = Errno.eintr
            · rw [if_pos heintr] at h ⊢
              exact ih h (by omega)
            · rw [if_neg heintr] at h
              simp only at h
              omega

/-! ## The common loop -/

section Copied

variable {ι : Type*} {place : ι → ℤ} {source old mid new : ι → UInt8}

/-- `new` is `old` with the bytes of `source` at the covered places. -/
def Copied (pieces : List (ℤ × ℕ)) (place : ι → ℤ) (source old new : ι → UInt8) : Prop :=
  ∀ x, (Covered pieces (place x) → new x = source x) ∧
    (¬ Covered pieces (place x) → new x = old x)

theorem Copied.nil : Copied [] place source old old :=
  fun _ => ⟨fun h => absurd h (not_covered_nil _), fun _ => rfl⟩

theorem Copied.at_place {pieces : List (ℤ × ℕ)} (h : Copied pieces place source old new)
    {x : ι} {i : ℤ} (hplace : place x = i) (hcovered : Covered pieces i) :
    new x = source x := by
  subst hplace
  exact (h x).1 hcovered

theorem Copied.of_empty {pos : ℤ} (h : Copied [(pos, 0)] place source old new) :
    Copied [] place source old new := by
  intro x
  refine ⟨fun hcovered => absurd hcovered (not_covered_nil _), fun _ => (h x).2 ?_⟩
  rw [covered_cons, not_or]
  exact ⟨by simp, not_covered_nil _⟩

/-- A first piece and then the others. -/
theorem Copied.cons {piece : ℤ × ℕ} {pieces : List (ℤ × ℕ)}
    (hfirst : Copied [piece] place source old mid) (h : Copied pieces place source mid new) :
    Copied (piece :: pieces) place source old new := by
  intro x
  constructor
  · intro hcovered
    by_cases hlater : Covered pieces (place x)
    · exact (h x).1 hlater
    · rw [(h x).2 hlater]
      apply (hfirst x).1
      rw [covered_cons] at hcovered ⊢
      exact Or.inl (hcovered.resolve_right hlater)
  · intro hout
    rw [covered_cons, not_or] at hout
    rw [(h x).2 hout.2]
    apply (hfirst x).2
    rw [covered_cons, not_or]
    exact ⟨hout.1, not_covered_nil _⟩

end Copied

section RetryLoop

variable {σ ι : Type*} (call : ℤ → ℕ → σ → ℤ × σ) (eio : σ → σ) (errno : σ → ℤ)

/-- The loop of `full_pread` and `full_pwrite`: a call that moved nothing ends it, and an
interrupted one is repeated from the place that the step of the `for` statement computes. -/
def retryLoop : ℕ → σ → ℤ → ℕ → ℕ × σ
  | 0, s, _, remaining => (remaining, s)
  | fuel + 1, s, pos, remaining =>
      if remaining = 0 then (remaining, s)
      else
        let (moved, s) := call pos remaining s
        if moved ≤ 0 then
          if moved = 0 then (remaining, eio s)
          else if errno s = Errno.eintr then retryLoop fuel s (pos - 1) (remaining + 1)
          else (remaining, s)
        else retryLoop fuel s (pos + moved) (remaining - moved.toNat)

/-- The calls do what the outcomes say: they copy bytes of `source` into the view of the
state, or fail and leave it alone. -/
structure FollowsOutcomes (offset : ℕ) (io : σ → List IoOutcome) (ok : σ → Prop)
    (view : σ → ι → UInt8) (place : ι → ℤ) (source : ι → UInt8) : Prop where
  negative : ∀ s pos n, ok s → (offset : ℤ) + pos < 0 →
    ∃ s', call pos n s = (-1, s') ∧ errno s' ≠ Errno.eintr ∧ io s' = io s ∧ view s' = view s
  all : ∀ s pos n, ok s → 0 ≤ (offset : ℤ) + pos → io s = [] →
    ∃ s', call pos n s = ((n : ℤ), s') ∧ ok s' ∧ io s' = [] ∧
      Copied [(pos, n)] place source (view s) (view s')
  bytes : ∀ s pos n m rest, ok s → 0 ≤ (offset : ℤ) + pos → io s = .bytes m :: rest →
    ∃ s', call pos n s = (((min m n : ℕ) : ℤ), s') ∧ ok s' ∧ io s' = rest ∧
      Copied [(pos, min m n)] place source (view s) (view s')
  error : ∀ s pos n e rest, ok s → 0 ≤ (offset : ℤ) + pos → io s = .error e :: rest →
    ∃ s', call pos n s = (-1, s') ∧ ok s' ∧ errno s' = (e : ℕ) ∧ io s' = rest ∧
      view s' = view s
  eio : ∀ s, io (eio s) = io s ∧ view (eio s) = view s

/-- The loop transfers the pieces that the outcomes determine. -/
theorem retryLoop_transfers {call : ℤ → ℕ → σ → ℤ × σ} {eio : σ → σ} {errno : σ → ℤ}
    {offset : ℕ} {io : σ → List IoOutcome} {ok : σ → Prop} {view : σ → ι → UInt8}
    {place : ι → ℤ} {source : ι → UInt8}
    (h : FollowsOutcomes call eio errno offset io ok view place source) (count fuel : ℕ) (s : σ)
    (pos : ℤ) (hok : ok s) (hpos : pos ≤ count) (hfuel : (io s).length + 2 ≤ fuel) :
    let later := transferFrom count offset (io s) pos
    let result := retryLoop call eio errno fuel s pos (count - pos).toNat
    (result.1 : ℤ) = count - later.stop ∧ io result.2 = later.left ∧
      Copied later.pieces place source (view s) (view result.2) := by
  induction fuel generalizing s pos with
  | zero => omega
  | succ fuel ih =>
      by_cases hdone : pos = count
      · subst hdone
        rw [transferFrom_stopped (Or.inl rfl)]
        simp [retryLoop, Copied.nil]
      · have hremaining : (count - pos).toNat ≠ 0 := by omega
        have hback : (((count - pos).toNat : ℕ) : ℤ) = count - pos := by omega
        by_cases hoffset : (offset : ℤ) + pos < 0
        · obtain ⟨s', hcall, herrno, hio, hview⟩ := h.negative s pos (count - pos).toNat hok
            hoffset
          rw [transferFrom_stopped (Or.inr hoffset)]
          simp only [retryLoop, if_neg hremaining, hcall, if_neg herrno, Int.reduceLE,
            Int.reduceNeg, Int.reduceEq, if_true, if_false]
          exact ⟨hback, hio, hview ▸ Copied.nil⟩
        · have hgoes : ¬ (pos = count ∨ (offset : ℤ) + pos < 0) := by omega
          have hin := not_lt.mp hoffset
          cases hnext : io s with
          | nil =>
              obtain ⟨s', hcall, -, hio, hcopied⟩ := h.all s pos (count - pos).toNat hok hin hnext
              obtain ⟨fuel, rfl⟩ : ∃ n, fuel = n + 1 := ⟨fuel - 1, by omega⟩
              have hmoved : ¬ (((count - pos).toNat : ℕ) : ℤ) ≤ 0 := by omega
              rw [transferFrom, if_neg hgoes]
              simp only [retryLoop, if_neg hremaining, hcall, if_neg hmoved, Int.toNat_natCast,
                Nat.sub_self, if_true]
              exact ⟨by simp, hio, hcopied⟩
          | cons outcome rest =>
              rw [hnext, List.length_cons] at hfuel
              cases outcome with
              | bytes m =>
                  obtain ⟨s', hcall, hok', hio, hcopied⟩ :=
                    h.bytes s pos (count - pos).toNat m rest hok hin hnext
                  rw [transferFrom, if_neg hgoes]
                  by_cases hzero : m = 0
                  · subst hzero
                    rw [if_pos rfl]
                    rw [Nat.zero_min] at hcall hcopied
                    simp only [retryLoop, if_neg hremaining, hcall, Nat.cast_zero, le_refl,
                      if_true]
                    refine ⟨hback, (h.eio s').1.trans hio, ?_⟩
                    rw [(h.eio s').2]
                    exact hcopied.of_empty
                  · have hmoved : ¬ ((min m (count - pos).toNat : ℕ) : ℤ) ≤ 0 := by omega
                    have hlater := ih s' (pos + (min m (count - pos).toNat : ℕ)) hok' (by omega)
                      (by rw [hio]; omega)
                    rw [show (count - (pos + (min m (count - pos).toNat : ℕ))).toNat =
                      (count - pos).toNat - min m (count - pos).toNat by omega, hio] at hlater
                    rw [if_neg hzero]
                    simp only [retryLoop, if_neg hremaining, hcall, if_neg hmoved,
                      Int.toNat_natCast]
                    exact ⟨hlater.1, hlater.2.1, hcopied.cons hlater.2.2⟩
              | error e =>
                  obtain ⟨s', hcall, hok', herrno, hio, hview⟩ :=
                    h.error s pos (count - pos).toNat e rest hok hin hnext
                  rw [transferFrom, if_neg hgoes]
                  by_cases heintr : ((e : ℕ) : ℤ) = Errno.eintr
                  · have hlater := ih s' (pos - 1) hok' (by omega) (by rw [hio]; omega)
                    rw [show (count - (pos - 1)).toNat = (count - pos).toNat + 1 by omega, hio,
                      hview] at hlater
                    rw [if_pos heintr]
                    simp only [retryLoop, if_neg hremaining, hcall, herrno, if_pos heintr,
                      Int.reduceLE, Int.reduceNeg, Int.reduceEq, if_true, if_false]
                    exact hlater
                  · rw [if_neg heintr]
                    simp only [retryLoop, if_neg hremaining, hcall, herrno, if_neg heintr,
                      Int.reduceLE, Int.reduceNeg, Int.reduceEq, if_true, if_false]
                    exact ⟨hback, hio, hview ▸ Copied.nil⟩

end RetryLoop

/-! ## The two loops -/

theorem copied_fillBuffer (buf : ℤ → UInt8) {pos : ℤ} {n : ℕ} (disk : ℕ → UInt8)
    {offset : ℕ} (hin : 0 ≤ (offset : ℤ) + pos) :
    Copied [(pos, n)] id (fun i => disk ((offset : ℤ) + i).toNat) buf
      (fillBuffer buf pos n disk ((offset : ℤ) + pos).toNat) := by
  intro i
  simp only [Covered, List.mem_singleton, exists_eq_left, id, fillBuffer]
  constructor
  · intro hcovered
    rw [if_pos hcovered]
    congr 1
    omega
  · intro hout
    rw [if_neg hout]

theorem copied_store (disk : ℕ → UInt8) {pos : ℤ} {n : ℕ} (buf : ℤ → UInt8) {offset : ℕ}
    (hin : 0 ≤ (offset : ℤ) + pos) :
    Copied [(pos, n)] (fun a : ℕ => (a : ℤ) - offset) (fun a => buf ((a : ℤ) - offset)) disk
      (store disk ((offset : ℤ) + pos).toNat n fun i => buf (pos + i)) := by
  intro a
  simp only [Covered, List.mem_singleton, exists_eq_left, store_apply]
  constructor
  · intro hcovered
    rw [if_pos (by omega)]
    congr 1
    omega
  · intro hout
    rw [if_neg (by omega)]


/-- The call of `full_pread` at a position of the buffer. -/
def preadAt (offset : ℕ) (pos : ℤ) (remaining : ℕ) (s : (ℤ → UInt8) × Volume) :
    ℤ × (ℤ → UInt8) × Volume :=
  pread s.2 s.1 pos remaining (offset + pos)

/-- The call of `full_pwrite` at a position of the buffer. -/
def pwriteAt (buf : ℤ → UInt8) (offset : ℕ) (pos : ℤ) (remaining : ℕ) (v : Volume) :
    ℤ × Volume :=
  pwrite v (fun i => buf (pos + i)) remaining (offset + pos)

theorem fullPreadLoop_eq_retryLoop (offset fuel : ℕ) (v : Volume) (buf : ℤ → UInt8) (pos : ℤ)
    (remaining : ℕ) :
    fullPreadLoop fuel v buf pos remaining (offset + pos) =
      retryLoop (preadAt offset) (fun s => (s.1, { s.2 with errno := Errno.eio }))
        (fun s => s.2.errno) fuel (buf, v) pos remaining := by
  induction fuel generalizing v buf pos remaining with
  | zero => rfl
  | succ fuel ih =>
      obtain ⟨⟨moved, buf', v'⟩, hcall⟩ : ∃ result,
        preadAt offset pos remaining (buf, v) = result := ⟨_, rfl⟩
      have hread : pread v buf pos remaining (offset + pos) = (moved, buf', v') := hcall
      simp only [fullPreadLoop, retryLoop, hcall, hread]
      by_cases hnone : remaining = 0
      · rw [if_pos hnone, if_pos hnone]
      · by_cases hmoved : moved ≤ 0
        · by_cases hzero : moved = 0
          · simp only [if_neg hnone, if_pos hmoved, if_pos hzero]
          · by_cases heintr : v'.errno = Errno.eintr
            · simp only [if_neg hnone, if_pos hmoved, if_neg hzero, if_pos heintr]
              rw [add_sub_assoc]
              exact ih _ _ _ _
            · simp only [if_neg hnone, if_pos hmoved, if_neg hzero, if_neg heintr]
        · simp only [if_neg hnone, if_neg hmoved]
          rw [add_assoc]
          exact ih _ _ _ _

theorem fullPwriteLoop_eq_retryLoop (buf : ℤ → UInt8) (offset fuel : ℕ) (v : Volume) (pos : ℤ)
    (remaining : ℕ) :
    fullPwriteLoop buf fuel v pos remaining (offset + pos) =
      retryLoop (pwriteAt buf offset) (fun v => { v with errno := Errno.eio })
        (fun v => v.errno) fuel v pos remaining := by
  induction fuel generalizing v pos remaining with
  | zero => rfl
  | succ fuel ih =>
      obtain ⟨⟨moved, v'⟩, hcall⟩ : ∃ result,
        pwriteAt buf offset pos remaining v = result := ⟨_, rfl⟩
      have hwrite : pwrite v (fun i => buf (pos + i)) remaining (offset + pos) =
        (moved, v') := hcall
      simp only [fullPwriteLoop, retryLoop, hcall, hwrite]
      by_cases hnone : remaining = 0
      · rw [if_pos hnone, if_pos hnone]
      · by_cases hmoved : moved ≤ 0
        · by_cases hzero : moved = 0
          · simp only [if_neg hnone, if_pos hmoved, if_pos hzero]
          · by_cases heintr : v'.errno = Errno.eintr
            · simp only [if_neg hnone, if_pos hmoved, if_neg hzero, if_pos heintr]
              rw [add_sub_assoc]
              exact ih _ _ _
            · simp only [if_neg hnone, if_pos hmoved, if_neg hzero, if_neg heintr]
        · simp only [if_neg hnone, if_neg hmoved]
          rw [add_assoc]
          exact ih _ _ _

theorem preadAt_followsOutcomes (offset : ℕ) (disk : ℕ → UInt8) :
    FollowsOutcomes (preadAt offset) (fun s => (s.1, { s.2 with errno := Errno.eio }))
      (fun s => s.2.errno) offset (fun s => s.2.io) (fun s => s.2.disk = disk) (fun s => s.1) id
      (fun i => disk ((offset : ℤ) + i).toNat) where
  negative := by
    rintro ⟨buf, v⟩ pos n _ hoffset
    refine ⟨(buf, { v with errno := Errno.einval }), ?_, by simp, rfl, rfl⟩
    simp only [preadAt, pread, if_pos hoffset]
  all := by
    rintro ⟨buf, v⟩ pos n rfl hoffset hio
    refine ⟨(fillBuffer buf pos n v.disk ((offset : ℤ) + pos).toNat, v), ?_, rfl, hio,
      copied_fillBuffer buf v.disk hoffset⟩
    simp only [preadAt, pread, if_neg (not_lt.mpr hoffset), show v.io = [] from hio]
  bytes := by
    rintro ⟨buf, v⟩ pos n m rest rfl hoffset hio
    refine ⟨(fillBuffer buf pos (min m n) v.disk ((offset : ℤ) + pos).toNat,
      { v with io := rest }), ?_, rfl, rfl, copied_fillBuffer buf v.disk hoffset⟩
    simp only [preadAt, pread, if_neg (not_lt.mpr hoffset),
      show v.io = .bytes m :: rest from hio, Nat.cast_min]
  error := by
    rintro ⟨buf, v⟩ pos n e rest rfl hoffset hio
    refine ⟨(buf, { v with errno := (e : ℕ), io := rest }), ?_, rfl, rfl, rfl, rfl⟩
    simp only [preadAt, pread, if_neg (not_lt.mpr hoffset),
      show v.io = .error e :: rest from hio]
  eio := fun s => ⟨rfl, rfl⟩

theorem pwriteAt_followsOutcomes (buf : ℤ → UInt8) (offset : ℕ) :
    FollowsOutcomes (pwriteAt buf offset) (fun v => { v with errno := Errno.eio })
      (fun v => v.errno) offset (fun v => v.io) (fun v => v.writable = true) (fun v => v.disk)
      (fun a : ℕ => (a : ℤ) - offset) (fun a => buf ((a : ℤ) - offset)) where
  negative := by
    intro v pos n hwritable hoffset
    refine ⟨{ v with errno := Errno.einval }, ?_, by simp, rfl, rfl⟩
    simp [pwriteAt, pwrite, hwritable, hoffset]
  all := by
    intro v pos n hwritable hoffset hio
    refine ⟨{ v with disk := store v.disk ((offset : ℤ) + pos).toNat n fun i => buf (pos + i) },
      ?_, hwritable, hio, copied_store v.disk buf hoffset⟩
    simp [pwriteAt, pwrite, hwritable, not_lt.mpr hoffset, hio]
  bytes := by
    intro v pos n m rest hwritable hoffset hio
    refine ⟨{ v with
        disk := store v.disk ((offset : ℤ) + pos).toNat (min m n) fun i => buf (pos + i)
        io := rest }, ?_, hwritable, rfl, copied_store v.disk buf hoffset⟩
    simp [pwriteAt, pwrite, hwritable, not_lt.mpr hoffset, hio]
  error := by
    intro v pos n e rest hwritable hoffset hio
    refine ⟨{ v with errno := (e : ℕ), io := rest }, ?_, hwritable, rfl, rfl, rfl⟩
    simp [pwriteAt, pwrite, hwritable, not_lt.mpr hoffset, hio]
  eio := fun v => ⟨rfl, rfl⟩

/-- `full_pread` transfers the pieces from the file to the buffer. -/
theorem fullPread_transfers (v : Volume) (buf : ℤ → UInt8) (count offset : ℕ) :
    let whole := transferFrom count offset v.io 0
    let result := fullPread v buf count offset
    result.1 = whole.stop ∧ result.2.2.io = whole.left ∧
      Copied whole.pieces id (fun i => v.disk ((offset : ℤ) + i).toNat) buf result.2.1 := by
  obtain ⟨hstop, hleft, hcopied⟩ :=
    retryLoop_transfers (preadAt_followsOutcomes offset v.disk) count (v.io.length + 2)
      (buf, v) 0 rfl (by omega) le_rfl
  dsimp only at hstop hleft hcopied
  have hloop := fullPreadLoop_eq_retryLoop offset (v.io.length + 2) v buf 0 count
  rw [sub_zero, Int.toNat_natCast] at hstop hleft hcopied
  rw [add_zero] at hloop
  rw [← hloop] at hstop hleft hcopied
  exact ⟨by simp only [fullPread]; omega, hleft, hcopied⟩

/-- What a complete `full_pread` leaves in the buffer. -/
theorem fullPread_complete {v : Volume} {buf : ℤ → UInt8} {count offset : ℕ}
    (h : (fullPread v buf count offset).1 = count) {i : ℤ} (hlow : 0 ≤ i) (hhigh : i < count) :
    (fullPread v buf count offset).2.1 i = v.disk ((offset : ℤ) + i).toNat := by
  obtain ⟨hstop, -, hcopied⟩ := fullPread_transfers v buf count offset
  rw [h] at hstop
  exact (hcopied i).1 (covered_of_complete hstop.symm hlow hhigh)

/-- `full_pwrite` transfers the same pieces from the buffer to the file. -/
theorem fullPwrite_transfers (v : Volume) (buf : ℤ → UInt8) (count offset : ℕ)
    (hwritable : v.writable = true) :
    let whole := transferFrom count offset v.io 0
    let result := fullPwrite v buf count offset
    result.1 = whole.stop ∧ result.2.io = whole.left ∧
      Copied whole.pieces (fun a : ℕ => (a : ℤ) - offset) (fun a => buf ((a : ℤ) - offset))
        v.disk result.2.disk := by
  obtain ⟨hstop, hleft, hcopied⟩ :=
    retryLoop_transfers (pwriteAt_followsOutcomes buf offset) count (v.io.length + 2) v 0
      hwritable (by omega) le_rfl
  have hloop := fullPwriteLoop_eq_retryLoop buf offset (v.io.length + 2) v 0 count
  rw [sub_zero, Int.toNat_natCast] at hstop hleft hcopied
  rw [add_zero] at hloop
  rw [← hloop] at hstop hleft hcopied
  exact ⟨by simp only [fullPwrite]; omega, hleft, hcopied⟩

/-! ## Exact transfers -/

/-- An outcome that ends a transfer: nothing was moved, or an error other than `EINTR`. -/
def IoOutcome.Fails : IoOutcome → Prop
  | .bytes n => n = 0
  | .error e => ((e : ℕ) : ℤ) ≠ Errno.eintr

/-- No call is interrupted while all that was moved has been taken back: `done` bytes of
`count` are moved, and an interrupt takes one of them back. -/
def StaysInside (count : ℕ) : List IoOutcome → ℕ → Prop
  | [], _ => True
  | .bytes n :: io, done =>
      done = count ∨ n = 0 ∨ StaysInside count io (done + min n (count - done))
  | .error e :: io, done =>
      done = count ∨ ((e : ℕ) : ℤ) ≠ Errno.eintr ∨ 0 < done ∧ StaysInside count io (done - 1)

/-- The rest of a transfer, of which `done` bytes are moved, stays inside of the range, moves
all bytes in front of the place where it stops, and stops before the end only at an outcome
that fails. -/
structure Transfer.ExactFrom (later : Transfer) (count : ℕ) (io : List IoOutcome)
    (done : ℕ) : Prop where
  stop_nonneg : 0 ≤ later.stop
  inside : ∀ i, Covered later.pieces i → 0 ≤ i ∧ i < count
  moved : ∀ i, (done : ℤ) ≤ i → i < later.stop → Covered later.pieces i
  complete : later.stop = count ∨
    ∃ used, io = used ++ later.left ∧ ∃ outcome ∈ used, outcome.Fails

theorem Transfer.ExactFrom.stopped {count done : ℕ} {io left : List IoOutcome}
    (h : done = count ∨ ∃ used, io = used ++ left ∧ ∃ outcome ∈ used, outcome.Fails) :
    (⟨[], done, left⟩ : Transfer).ExactFrom count io done where
  stop_nonneg := by simp
  inside := fun i hi => absurd hi (not_covered_nil i)
  moved := by
    intro i hlow hhigh
    simp only at hhigh
    omega
  complete := h.imp_left fun heq => by simp [heq]

theorem Transfer.ExactFrom.complete_cons {later : Transfer} {count done : ℕ}
    {io : List IoOutcome} (h : later.ExactFrom count io done) (outcome : IoOutcome) :
    later.stop = count ∨
      ∃ used, outcome :: io = used ++ later.left ∧ ∃ outcome ∈ used, outcome.Fails := by
  rcases h.complete with hstop | ⟨used, hused, failing, hmem, hfails⟩
  · exact Or.inl hstop
  · refine Or.inr ⟨outcome :: used, by rw [hused, List.cons_append], failing, ?_, hfails⟩
    exact List.mem_cons_of_mem _ hmem

theorem StaysInside.exactFrom {count : ℕ} (offset : ℕ) {io : List IoOutcome} {done : ℕ}
    (hdone : done ≤ count) (h : StaysInside count io done) :
    (transferFrom count offset io done).ExactFrom count io done := by
  induction io generalizing done with
  | nil =>
      by_cases hall : done = count
      · rw [transferFrom_stopped (Or.inl (by omega))]
        exact Transfer.ExactFrom.stopped (Or.inl hall)
      · rw [transferFrom, if_neg (by omega)]
        refine ⟨by simp, ?_, ?_, Or.inl rfl⟩
        · intro i hi
          have hfirst := (covered_cons.mp hi).resolve_right (not_covered_nil i)
          simp only at hfirst
          omega
        · intro i hlow hhigh
          refine covered_cons.mpr (Or.inl ?_)
          simp only at hhigh ⊢
          omega
  | cons outcome io ih =>
      by_cases hall : done = count
      · rw [transferFrom_stopped (Or.inl (by omega))]
        exact Transfer.ExactFrom.stopped (Or.inl hall)
      · have hgoes : ¬ ((done : ℤ) = count ∨ (offset : ℤ) + done < 0) := by omega
        cases outcome with
        | bytes n =>
            rw [transferFrom, if_neg hgoes]
            by_cases hzero : n = 0
            · rw [if_pos hzero]
              exact Transfer.ExactFrom.stopped
                (Or.inr ⟨[.bytes n], rfl, _, List.mem_singleton_self _, hzero⟩)
            · have hnext := (h.resolve_left hall).resolve_left hzero
              have hlater := ih (by omega) hnext
              have hmin : min n ((count : ℤ) - done).toNat = min n (count - done) := by omega
              rw [if_neg hzero, hmin, ← Nat.cast_add]
              refine ⟨hlater.stop_nonneg, ?_, ?_, hlater.complete_cons _⟩
              · intro i hi
                rcases covered_cons.mp hi with hfirst | hrest
                · simp only at hfirst
                  omega
                · exact hlater.inside i hrest
              · intro i hlow hhigh
                rw [covered_cons]
                by_cases hfirst : i < done + (min n (count - done) : ℕ)
                · exact Or.inl ⟨hlow, hfirst⟩
                · exact Or.inr (hlater.moved i (by omega) hhigh)
        | error e =>
            rw [transferFrom, if_neg hgoes]
            by_cases heintr : ((e : ℕ) : ℤ) = Errno.eintr
            · have hnext := (h.resolve_left hall).resolve_left (not_not.mpr heintr)
              have hlater := ih (by omega) hnext.2
              rw [if_pos heintr, ← Nat.cast_pred hnext.1]
              refine ⟨hlater.stop_nonneg, hlater.inside, ?_, hlater.complete_cons _⟩
              intro i hlow hhigh
              exact hlater.moved i (by omega) hhigh
            · rw [if_neg heintr]
              exact Transfer.ExactFrom.stopped
                (Or.inr ⟨[.error e], rfl, _, List.mem_singleton_self _, heintr⟩)

/-- A transfer that has left its range stops in front of it or has moved a byte there. -/
theorem outside_of_neg {count : ℕ} (offset : ℕ) (io : List IoOutcome) {pos : ℤ}
    (hpos : pos < 0) :
    (transferFrom count offset io pos).stop < 0 ∨
      ∃ i < 0, 0 ≤ (offset : ℤ) + i ∧
        Covered (transferFrom count offset io pos).pieces i := by
  induction io generalizing pos with
  | nil =>
      unfold transferFrom
      split
      · exact Or.inl hpos
      · refine Or.inr ⟨pos, hpos, by omega, covered_cons.mpr (Or.inl ?_)⟩
        simp only
        omega
  | cons outcome io ih =>
      by_cases hstopped : pos = count ∨ (offset : ℤ) + pos < 0
      · rw [transferFrom_stopped hstopped]
        exact Or.inl hpos
      · cases outcome with
        | bytes n =>
            rw [transferFrom, if_neg hstopped]
            by_cases hzero : n = 0
            · rw [if_pos hzero]
              exact Or.inl hpos
            · rw [if_neg hzero]
              refine Or.inr ⟨pos, hpos, by omega, covered_cons.mpr (Or.inl ?_)⟩
              simp only
              omega
        | error e =>
            rw [transferFrom, if_neg hstopped]
            by_cases heintr : ((e : ℕ) : ℤ) = Errno.eintr
            · rw [if_pos heintr]
              exact ih (by omega)
            · rw [if_neg heintr]
              exact Or.inl hpos

theorem outside_of_not_staysInside {count : ℕ} (offset : ℕ) {io : List IoOutcome} {done : ℕ}
    (h : ¬ StaysInside count io done) :
    (transferFrom count offset io done).stop < 0 ∨
      ∃ i < 0, 0 ≤ (offset : ℤ) + i ∧
        Covered (transferFrom count offset io done).pieces i := by
  induction io generalizing done with
  | nil => exact absurd trivial h
  | cons outcome io ih =>
      cases outcome with
      | bytes n =>
          simp only [StaysInside, not_or] at h
          obtain ⟨hall, hzero, hlater⟩ := h
          have hmin : min n ((count : ℤ) - done).toNat = min n (count - done) := by omega
          rw [transferFrom, if_neg (by omega), if_neg hzero, hmin, ← Nat.cast_add]
          rcases ih hlater with hstop | ⟨i, hi, hin, hcovered⟩
          · exact Or.inl hstop
          · exact Or.inr ⟨i, hi, hin, covered_cons.mpr (Or.inr hcovered)⟩
      | error e =>
          simp only [StaysInside, not_or, not_not, not_and] at h
          obtain ⟨hall, heintr, hlater⟩ := h
          rw [transferFrom, if_neg (by omega), if_pos heintr]
          by_cases hpos : 0 < done
          · have hrest := ih (hlater hpos)
            rwa [Nat.cast_pred hpos] at hrest
          · exact outside_of_neg offset io (by omega)

/-- What the calls have to do with `count` bytes at `offset`, whatever the bytes are: the
result is a length that is not larger than `count`, the bytes in front of it agree, no byte
outside of the range changes, and less than `count` bytes were moved only because of an
outcome that fails. -/
def PreadExact (count offset : ℕ) (io : List IoOutcome) : Prop :=
  ∀ (v : Volume) (buf : ℤ → UInt8), v.io = io →
    let result := fullPread v buf count offset
    ∃ r : ℕ, result.1 = r ∧ r ≤ count ∧
      (∀ i : ℕ, i < r → result.2.1 i = v.disk (offset + i)) ∧
      (∀ i : ℤ, i < 0 ∨ count ≤ i → result.2.1 i = buf i) ∧
      (r = count ∨
        ∃ used, io = used ++ result.2.2.io ∧ ∃ outcome ∈ used, outcome.Fails)

def PwriteExact (count offset : ℕ) (io : List IoOutcome) : Prop :=
  ∀ (v : Volume) (buf : ℤ → UInt8), v.io = io →
    let result := fullPwrite v buf count offset
    ∃ r : ℕ, result.1 = r ∧ r ≤ count ∧
      (∀ i : ℕ, i < r → result.2.disk (offset + i) = buf i) ∧
      (∀ a : ℕ, a < offset ∨ offset + count ≤ a → result.2.disk a = v.disk a) ∧
      (r = count ∨ v.writable = false ∨
        ∃ used, io = used ++ result.2.io ∧ ∃ outcome ∈ used, outcome.Fails)

theorem preadExact_iff (count offset : ℕ) (io : List IoOutcome) :
    PreadExact count offset io ↔ StaysInside count io 0 := by
  constructor
  · intro h
    by_contra hleaves
    -- a file of ones that is read into zeros
    let v : Volume := { smallVolume [] with disk := fun _ => 1, io := io }
    obtain ⟨r, hresult, -, -, houtside, -⟩ := h v (fun _ => 0) rfl
    obtain ⟨hstop, -, hcopied⟩ := fullPread_transfers v (fun _ => 0) count offset
    rcases outside_of_not_staysInside offset hleaves with hneg | ⟨i, hi, -, hcovered⟩
    · have hstop' : (r : ℤ) = (transferFrom count offset io 0).stop := hresult.symm.trans hstop
      simp only [Nat.cast_zero] at hneg
      omega
    · have hone := (hcopied i).1 hcovered
      rw [houtside i (Or.inl hi)] at hone
      exact absurd (show (0 : UInt8) = 1 from hone) (by decide)
  · rintro h v buf rfl
    have hexact := h.exactFrom offset (Nat.zero_le count)
    have hle := stop_le offset v.io (Int.natCast_nonneg count)
    obtain ⟨hstop, hleft, hcopied⟩ := fullPread_transfers v buf count offset
    rw [Nat.cast_zero] at hexact
    obtain ⟨r, hr⟩ := Int.eq_ofNat_of_zero_le hexact.stop_nonneg
    refine ⟨r, hstop.trans hr, by omega, ?_, ?_, ?_⟩
    · intro i hi
      have hmoved := hexact.moved i (by omega) (by omega)
      rw [(hcopied i).1 hmoved]
      congr 1
    · intro i hi
      apply (hcopied i).2
      intro hcovered
      have hin := hexact.inside i hcovered
      omega
    · rw [hleft]
      rcases hexact.complete with hall | hfails
      · exact Or.inl (by omega)
      · exact Or.inr hfails

theorem pwriteExact_iff (count offset : ℕ) (io : List IoOutcome) :
    PwriteExact count offset io ↔ StaysInside count io 0 := by
  constructor
  · intro h
    by_contra hleaves
    -- ones that are written over zeros
    let v : Volume := { smallVolume [] with disk := fun _ => 0, io := io }
    obtain ⟨r, hresult, -, -, houtside, -⟩ := h v (fun _ => 1) rfl
    obtain ⟨hstop, -, hcopied⟩ := fullPwrite_transfers v (fun _ => 1) count offset rfl
    rcases outside_of_not_staysInside offset hleaves with hneg | ⟨i, hi, hin, hcovered⟩
    · have hstop' : (r : ℤ) = (transferFrom count offset io 0).stop := hresult.symm.trans hstop
      simp only [Nat.cast_zero] at hneg
      omega
    · have hplace : (((offset : ℤ) + i).toNat : ℤ) - offset = i := by omega
      have hone := hcopied.at_place hplace hcovered
      rw [houtside _ (Or.inl (by omega))] at hone
      exact absurd (show (0 : UInt8) = 1 from hone) (by decide)
  · rintro h v buf rfl
    by_cases hwritable : v.writable = true
    · have hexact := h.exactFrom offset (Nat.zero_le count)
      have hle := stop_le offset v.io (Int.natCast_nonneg count)
      obtain ⟨hstop, hleft, hcopied⟩ := fullPwrite_transfers v buf count offset hwritable
      rw [Nat.cast_zero] at hexact
      obtain ⟨r, hr⟩ := Int.eq_ofNat_of_zero_le hexact.stop_nonneg
      refine ⟨r, hstop.trans hr, by omega, ?_, ?_, ?_⟩
      · intro i hi
        have hplace : ((offset + i : ℕ) : ℤ) - offset = i := by omega
        have hmoved := hexact.moved i (by omega) (by omega)
        rw [hcopied.at_place hplace hmoved]
        exact congrArg buf hplace
      · intro a ha
        apply (hcopied a).2
        intro hcovered
        have hin := hexact.inside ((a : ℤ) - offset) hcovered
        omega
      · rw [hleft]
        rcases hexact.complete with hall | hfails
        · exact Or.inl (by omega)
        · exact Or.inr (Or.inr hfails)
    · -- without `O_RDWR` the first call fails
      have hfails : v.writable = false := by simpa using hwritable
      refine ⟨0, ?_, Nat.zero_le _, by simp, ?_, Or.inr (Or.inl hfails)⟩
      · by_cases hcount : count = 0
        · simp [fullPwrite, fullPwriteLoop, hcount]
        · simp [fullPwrite, fullPwriteLoop, hcount, pwrite, hfails]
      · intro a _
        by_cases hcount : count = 0
        · simp [fullPwrite, fullPwriteLoop, hcount]
        · simp [fullPwrite, fullPwriteLoop, hcount, pwrite, hfails]

/-- Full transfers are exact just for the outcomes in which no call is interrupted while
nothing is moved. -/
theorem fullTransfers_exact_iff (count offset : ℕ) (io : List IoOutcome) :
    (PreadExact count offset io ↔ StaysInside count io 0) ∧
      (PwriteExact count offset io ↔ StaysInside count io 0) :=
  ⟨preadExact_iff count offset io, pwriteExact_iff count offset io⟩

/-- The numbers 0, 1, 2, .. on disk, and one interrupt. -/
def countingVolume : Volume :=
  { smallVolume [] with disk := fun a => UInt8.ofNat a, io := [.error 4] }

/-- Reading four bytes at 8 stores five, the first in front of the buffer. -/
theorem fullPread_interrupted :
    (fullPread countingVolume (fun _ => 0) 4 8).1 = 4 ∧
      (fullPread countingVolume (fun _ => 0) 4 8).2.1 (-1) = 7 ∧
      (fullPwrite countingVolume (fun _ => 0) 4 8).2.disk 7 = 0 ∧
      ¬ PreadExact 4 8 [.error 4] ∧ ¬ PwriteExact 4 8 [.error 4] := by
  have hleaves : ¬ StaysInside 4 [.error 4] 0 := by simp [StaysInside]
  refine ⟨by decide, by decide, by decide, ?_, ?_⟩
  · rw [preadExact_iff]
    exact hleaves
  · rw [pwriteExact_iff]
    exact hleaves

end SistOp.FatFuse
