import SistOp.FilePwrite
import Mathlib.Tactic

/-!
# `fat_file_pread` reads a slice

The read loop copies the bytes of the chain round by round.  What follows it, the
access date and the entry in the parent, does not change the data that was read.
-/

namespace SistOp.FatFuse

open ByteStore

variable {t : FatTable}

/-- The buffer after `len` bytes of the file from `off` on were copied to `pos`. -/
def readInto (t : FatTable) (disk : ℕ → UInt8) (cs : List ℕ) (buf : ℤ → UInt8)
    (pos off len : ℕ) : ℤ → UInt8 := fun i =>
  if (pos : ℤ) ≤ i ∧ i < pos + len then disk (chainAddr t cs (off + (i - pos).toNat))
  else buf i

theorem readInto_zero (disk : ℕ → UInt8) (cs : List ℕ) (buf : ℤ → UInt8) (pos off : ℕ) :
    readInto t disk cs buf pos off 0 = buf := by
  funext i
  rw [readInto, if_neg (by omega)]

theorem readInto_append (disk : ℕ → UInt8) (cs : List ℕ) (buf : ℤ → UInt8)
    (pos off k len : ℕ) :
    readInto t disk cs (readInto t disk cs buf pos off k) (pos + k) (off + k) len =
      readInto t disk cs buf pos off (k + len) := by
  funext i
  simp only [readInto]
  by_cases hfirst : (pos : ℤ) ≤ i ∧ i < pos + k
  · rw [if_neg (by push_cast; omega), if_pos hfirst, if_pos (by push_cast; omega)]
  · by_cases hsecond : ((pos + k : ℕ) : ℤ) ≤ i ∧ i < (pos + k : ℕ) + len
    · rw [if_pos hsecond, if_pos (by push_cast at hsecond ⊢; omega)]
      congr 2
      push_cast at hsecond ⊢
      omega
    · rw [if_neg hsecond, if_neg hfirst, if_neg (by push_cast at hsecond ⊢; omega)]

/-- One round of the read loop. -/
theorem preadLoop_round {v : Volume} (hio : v.io = []) (buf : ℤ → UInt8)
    (fuel pos : ℕ) {cluster r : ℕ} (hr : 0 < r) (hvalid : fatTableClusterIsValid cluster)
    (off : ℕ) :
    preadLoop t (fuel + 1) v buf pos cluster r off = (do
      let next ← fatTableGetNextCluster t v cluster
      preadLoop t fuel v
        (fun i => fillBuffer (fun j => buf (pos + j)) 0 (roundLen t r off) v.disk
          (fatTableClusterOffset t cluster + off % fatTableBytesPerCluster t) (i - pos))
        (pos + roundLen t r off) next (r - roundLen t r off)
        (off + roundLen t r off)) := by
  have hread := fullPread_of_ioSucceeds hio (fun j => buf (pos + j)) (roundLen t r off)
    (fatTableClusterOffset t cluster + off % fatTableBytesPerCluster t)
  rw [preadLoop, if_neg (by omega), if_neg (not_not.mpr hvalid)]
  simp only [remainingBytes_eq, maskOffset_eq, hread, ne_eq, not_true_eq_false, if_false]

theorem fillBuffer_eq_readInto {v : Volume} {cs : List ℕ} {k off r : ℕ} (buf : ℤ → UInt8)
    (pos : ℕ) (hk : k < cs.length) (hoff : off / fatTableBytesPerCluster t = k) :
    (fun i => fillBuffer (fun j => buf (pos + j)) 0 (roundLen t r off) v.disk
        (fatTableClusterOffset t cs[k] + off % fatTableBytesPerCluster t) (i - pos)) =
      readInto t v.disk cs buf pos off (roundLen t r off) := by
  have hlen : off % fatTableBytesPerCluster t + roundLen t r off ≤
      fatTableBytesPerCluster t := by
    have hmod := Nat.mod_lt off (bytesPerCluster_pos (t := t))
    unfold roundLen
    omega
  funext i
  simp only [fillBuffer, readInto]
  by_cases hin : (pos : ℤ) ≤ i ∧ i < pos + roundLen t r off
  · rw [if_pos (by omega), if_pos hin, chainAddr_add cs (by omega),
      chainAddr_eq cs hk hoff]
    congr 2
    omega
  · rw [if_neg (by omega), if_neg hin]
    congr 1
    omega

/-- Along a chain that reaches to the end of the range, the loop reads all of it. -/
theorem preadLoop_eq [t.Formatted] (hmarks : t.ClusterNumbersBelowMarks) {v : Volume} {cs : List ℕ}
    (h : ClusterChain t v.fatMap cs) (hio : v.io = []) (fuel : ℕ) (buf : ℤ → UInt8)
    (pos k r off : ℕ) (hk : k < cs.length)
    (hoff : off / fatTableBytesPerCluster t = k)
    (hroom : off + r ≤ cs.length * fatTableBytesPerCluster t) (hfuel : r < fuel) :
    preadLoop t fuel v buf pos cs[k] r off =
      some (0, readInto t v.disk cs buf pos off r, v) := by
  induction fuel generalizing buf pos k r off with
  | zero => omega
  | succ fuel ih =>
      rcases Nat.eq_zero_or_pos r with rfl | hr
      · simp [preadLoop, readInto_zero]
      · have hvalid := isValid_of_valid hmarks (h.valid _ (List.getElem_mem hk))
        have hlen : roundLen t r off ≤ r := min_le_right _ _
        have hpos : 0 < roundLen t r off := roundLen_pos hr
        rw [preadLoop_round hio buf fuel pos hr hvalid off,
          fillBuffer_eq_readInto buf pos hk hoff]
        by_cases hmore : 0 < r - roundLen t r off
        · have hdiv := add_roundLen_div hmore
          have hnext : k + 1 < cs.length := by
            have hlt : (off + roundLen t r off) / fatTableBytesPerCluster t < cs.length :=
              div_lt_of_lt_length (by omega)
            omega
          rw [h.getNext_inner hnext]
          simp only [Option.bind_eq_bind, Option.bind_some]
          rw [ih _ _ (k + 1) _ _ hnext (by rw [hdiv, hoff]) (by omega) (by omega),
            readInto_append]
          rw [show roundLen t r off + (r - roundLen t r off) = r by omega]
        · have hall : roundLen t r off = r := by omega
          obtain ⟨next, hnext⟩ : ∃ next, fatTableGetNextCluster t v cs[k] = some next :=
            ⟨_, getNextCluster_eq (valid_lt_entries (h.valid _ (List.getElem_mem hk)))⟩
          rw [hnext, hall]
          cases fuel with
          | zero => omega
          | succ fuel => simp [preadLoop]

/-! ## The whole read -/

/-- The bytes that a read of `size` bytes at `offset` can get. -/
def readSize (file : FatFile) (size offset : ℕ) : ℕ :=
  min size (file.dentry.fileSize - offset)

/-- The entry of a file after it was read. -/
def accessedDentry (v : Volume) (d : FatDirEntry) : FatDirEntry :=
  (fillDentryTimeNow v d false false).1

theorem fatFilePread_of_empty {v : Volume} {file : FatFile} {buf : ℤ → UInt8}
    {size offset : ℕ} {parent : Option FatFile} (hle : offset ≤ file.dentry.fileSize)
    (hempty : readSize file size offset = 0) :
    fatFilePread t v file buf size offset parent = some (0, buf, file, v) := by
  rw [readSize] at hempty
  rw [fatFilePread, if_neg (by omega)]
  simp only [hempty, if_true]

theorem fatFilePread_of_error {v v₁ : Volume} {file : FatFile} {buf : ℤ → UInt8}
    {size offset c : ℕ} {parent : Option FatFile} (hle : offset ≤ file.dentry.fileSize)
    (hsome : readSize file size offset ≠ 0)
    (hseek : fatTableSeekCluster t v file.startCluster offset = some (c, v₁))
    (herrno : v₁.errno ≠ 0) :
    fatFilePread t v file buf size offset parent = some (0, buf, file, v₁) := by
  rw [readSize] at hsome
  rw [fatFilePread, if_neg (by omega)]
  simp only [if_neg hsome, hseek, Option.bind_eq_bind, Option.bind_some, if_pos herrno]

/-- The part of `fat_file_pread` behind the seek. -/
theorem fatFilePread_eq {v v₁ : Volume} {file : FatFile} {buf : ℤ → UInt8}
    {size offset c : ℕ} (parent : Option FatFile) (hle : offset ≤ file.dentry.fileSize)
    (hsome : readSize file size offset ≠ 0)
    (hseek : fatTableSeekCluster t v file.startCluster offset = some (c, v₁))
    (herrno : v₁.errno = 0) :
    fatFilePread t v file buf size offset parent =
      (preadLoop t (readSize file size offset + 1) v₁ buf 0 c (readSize file size offset)
        offset).bind fun r =>
        (writeDirEntry t { r.2.2 with clock := fun n => r.2.2.clock (n + 1) } parent
          { file with dentry := accessedDentry r.2.2 file.dentry }).map fun v' =>
          ((readSize file size offset : ℤ) - r.1, r.2.1,
            { file with dentry := accessedDentry r.2.2 file.dentry }, v') := by
  have hsome' := hsome
  rw [readSize] at hsome'
  rw [fatFilePread, if_neg (by omega)]
  simp only [if_neg hsome', hseek, Option.bind_eq_bind, Option.bind_some, herrno, ne_eq,
    not_true_eq_false, if_false]
  rw [← readSize]
  congr 1
  funext r
  rw [← fillDentryTimeNow_snd r.2.2 file.dentry false false]
  simp only [accessedDentry]
  cases writeDirEntry t (fillDentryTimeNow r.2.2 file.dentry false false).2 parent
    { file with dentry := (fillDentryTimeNow r.2.2 file.dentry false false).1 } <;> rfl

/-- A read on the chain of its file copies what it can get, and then only writes the entry
of the file back. -/
theorem fatFilePread_onChain [t.Formatted] (hmarks : t.ClusterNumbersBelowMarks) {v : Volume}
    {f : FatFile} {cs : List ℕ} (parent : Option FatFile) (buf : ℤ → UInt8) {size offset : ℕ}
    (hchain : FileOnChain t v f cs) (hio : v.io = []) (herrno : v.errno = 0)
    (hoffset : offset ≤ f.dentry.fileSize) (hsome : readSize f size offset ≠ 0) :
    fatFilePread t v f buf size offset parent =
      (writeDirEntry t { v with clock := fun n => v.clock (n + 1) } parent
        { f with dentry := accessedDentry v f.dentry }).map fun v' =>
        ((readSize f size offset : ℤ),
          readInto t v.disk (f.startCluster :: cs) buf 0 offset (readSize f size offset),
          { f with dentry := accessedDentry v f.dentry }, v') := by
  have hle := hchain.size_le
  have hoffset32 : offset < 2 ^ 32 := lt_of_le_of_lt hoffset (FatDirEntry.fileSize_lt _)
  have hread : readSize f size offset ≤ f.dentry.fileSize - offset := min_le_right _ _
  have hk : offset / fatTableBytesPerCluster t < (f.startCluster :: cs).length :=
    div_lt_of_lt_length (by omega)
  have hseek := seekCluster_eq hmarks hchain.chain offset hoffset32
  rw [dif_pos hk] at hseek
  have hloop := preadLoop_eq hmarks hchain.chain hio (readSize f size offset + 1) buf 0
    (offset / fatTableBytesPerCluster t) (readSize f size offset) offset hk rfl
    (by omega) (by omega)
  rw [fatFilePread_eq parent hoffset hsome hseek herrno, hloop, Option.bind_some]
  simp only [Nat.cast_zero, sub_zero]

end SistOp.FatFuse
