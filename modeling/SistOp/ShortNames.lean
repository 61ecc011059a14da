import SistOp.FatFile
import Mathlib.Data.List.GetD
import Mathlib.Data.List.TakeWhile
import Mathlib.Tactic

/-!
# Names of eight and three bytes

A `ShortName` is a name that the format admits.  Its entry is described by
`Encodes`, which leaves open what follows the terminator of the base.  Every
entry that encodes a name is accepted and prints it.  The encoder produces such
an entry except for a base of eight bytes with an extension: its scan for the dot
ends at the eighth byte.
-/

namespace SistOp.FatFuse

/-- A byte that may stand in a name. -/
def NameChar (c : UInt8) : Prop :=
  charLegalInFilename c = true ∧ c ≠ charSpace

instance (c : UInt8) : Decidable (NameChar c) :=
  inferInstanceAs (Decidable (_ ∧ _))

theorem nameChar_of_all {s : CString}
    (h : (s.all fun c => decide (NameChar c)) = true) : ∀ c ∈ s, NameChar c := by
  simpa using h

structure ShortName where
  base : CString
  extension : Option CString
  base_length : 1 ≤ base.length ∧ base.length ≤ 8
  base_chars : ∀ c ∈ base, NameChar c
  base_head : base.head? ≠ some fatFilenameDeletedChar
  extension_length : ∀ e ∈ extension, 1 ≤ e.length ∧ e.length ≤ 3
  extension_chars : ∀ e ∈ extension, ∀ c ∈ e, NameChar c

/-- The bytes of the name: `b` or `b.e`. -/
def ShortName.bytes (n : ShortName) : CString :=
  match n.extension with
  | none => n.base
  | some e => n.base ++ charDot :: e

/-- The memory `src` holds the string `s` and its terminator. -/
structure Stores (src : ℕ → UInt8) (s : CString) : Prop where
  bytes : ∀ i (hi : i < s.length), src i = s[i]
  terminator : src s.length = 0

/-- The memory of a string that is padded with zeros. -/
def zeroPadded (s : CString) : ℕ → UInt8 := fun i => s.getD i 0

theorem stores_zeroPadded (s : CString) : Stores (zeroPadded s) s where
  bytes := fun _ hi => List.getD_eq_getElem _ _ hi
  terminator := List.getD_eq_default _ _ le_rfl

/-- The name is encoded into a valid entry that prints it. -/
def RoundTrips (name : CString) (src : ℕ → UInt8) : Prop :=
  ∃ d, filenameFromPath name src FatDirEntry.zero = some d ∧
    fileBasenameValid d = true ∧ fileExtensionValid d = true ∧
    cString (buildFilename d) = name

/-- A file created under the name is listed under it when its entry is decoded
again. -/
def Reappears (name : CString) : Prop :=
  ∀ (v : Volume) (isDir : Bool) (filepath : CString) (startCluster : ℕ),
    basename filepath = name →
    ∃ d v', fatFileInitDirentry v isDir filepath startCluster = some (d, v') ∧
      isEndOfDirectory d = false ∧ ignoreDentry d = false ∧
      ∀ dir, (initFileFromDentry d dir).name = name

/-- The entry holds the name; bytes behind the terminator of a base without
extension are left open. -/
structure Encodes (d : FatDirEntry) (n : ShortName) : Prop where
  base : ∀ i (hi : i < n.base.length), d.baseName i = n.base[i]
  terminator : n.base.length < 8 → d.baseName n.base.length = 0
  padding : n.extension ≠ none → ∀ i, n.base.length ≤ i → i < 8 → d.baseName i = 0
  extension : ∀ i, i < 3 → d.extension i = (n.extension.getD []).getD i 0

theorem NameChar.ne_zero {c : UInt8} (h : NameChar c) : c ≠ 0 := by
  rintro rfl
  exact absurd h.1 (by decide)

theorem NameChar.ne_dot {c : UInt8} (h : NameChar c) : c ≠ charDot := by
  rintro rfl
  exact absurd h.1 (by decide)

/-! ## Library functions on names -/

theorem strrchr_eq_none {s : CString} {c : UInt8} (h : c ∉ s) :
    strrchr s c = none := by
  induction s with
  | nil => rfl
  | cons x xs ih =>
      rw [List.mem_cons, not_or] at h
      simp [strrchr, ih h.2, Ne.symm h.1]

theorem strrchr_append_cons {s e : CString} {c : UInt8} (h : c ∉ e) :
    strrchr (s ++ c :: e) c = some s.length := by
  induction s with
  | nil => simp [strrchr, strrchr_eq_none h]
  | cons x xs ih => simp [strrchr, ih]

theorem filenameLen_le (name : ℕ → UInt8) (maxLen : ℕ) :
    filenameLen name maxLen ≤ maxLen := by
  induction maxLen with
  | zero => simp [filenameLen]
  | succ len ih =>
      unfold filenameLen
      split
      · exact le_rfl
      · omega

theorem lt_filenameLen (name : ℕ → UInt8) {maxLen i : ℕ} (hi : i < maxLen)
    (hspace : name i ≠ charSpace) (hzero : name i ≠ 0) :
    i < filenameLen name maxLen := by
  induction maxLen with
  | zero => omega
  | succ len ih =>
      unfold filenameLen
      split
      · omega
      · rename_i hblank
        have hne : i ≠ len := by
          rintro rfl
          exact hblank ⟨hspace, hzero⟩
        exact ih (by omega)

theorem filenameLen_eq_of_padding {name : ℕ → UInt8} {maxLen len : ℕ}
    (hle : len ≤ maxLen) (hpad : ∀ i, len ≤ i → i < maxLen → name i = 0)
    (hlast : ∀ i, i + 1 = len → name i ≠ charSpace ∧ name i ≠ 0) :
    filenameLen name maxLen = len := by
  induction maxLen with
  | zero => simp [filenameLen]; omega
  | succ m ih =>
      unfold filenameLen
      by_cases hfull : len = m + 1
      · rw [if_pos (hlast m hfull.symm), hfull]
      · have hzero := hpad m (by omega) (by omega)
        rw [if_neg (by simp [hzero])]
        exact ih (by omega) fun i hlen hi => hpad i hlen (by omega)

/-! ## Decoding -/

theorem fileBasenameLoop_of_encodes {d : FatDirEntry} {n : ShortName}
    (h : Encodes d n) (fuel i : ℕ) (hi : i < n.base.length) :
    fileBasenameLoop d fuel i = true := by
  induction fuel generalizing i with
  | zero => rfl
  | succ fuel ih =>
      have hlegal : charLegalInFilename (d.baseName i) = true := by
        rw [h.base i hi]
        exact (n.base_chars _ (List.getElem_mem hi)).1
      unfold fileBasenameLoop
      rw [if_neg (by simp [hlegal])]
      split
      · rename_i hnext
        -- the loop only goes on while the next byte belongs to the base
        have hmore : i + 1 < n.base.length := by
          by_contra hend
          have heq : i + 1 = n.base.length := by omega
          have hlen := n.base_length.2
          exact hnext.2.1 (heq ▸ h.terminator (by omega))
        exact ih (i + 1) hmore
      · rfl

theorem fileBasenameValid_of_encodes {d : FatDirEntry} {n : ShortName}
    (h : Encodes d n) : fileBasenameValid d = true := by
  have hpos : 0 < n.base.length := n.base_length.1
  have hhead := h.base 0 hpos
  have hchar := n.base_chars _ (List.getElem_mem hpos)
  have hdeleted : n.base[0] ≠ fatFilenameDeletedChar := by
    intro heq
    apply n.base_head
    rw [List.head?_eq_getElem?, List.getElem?_eq_getElem hpos, heq]
  unfold fileBasenameValid
  rw [if_neg]
  · exact fileBasenameLoop_of_encodes h 8 0 hpos
  · rw [hhead]
    rintro (hzero | hspace | hdel)
    · exact hchar.ne_zero hzero
    · exact hchar.2 hspace
    · exact hdeleted hdel

theorem ShortName.extension_getD {n : ShortName} {i : ℕ}
    (hne : (n.extension.getD []).getD i 0 ≠ 0) :
    NameChar ((n.extension.getD []).getD i 0) := by
  cases hext : n.extension with
  | none => simp [hext] at hne
  | some e =>
      rw [hext] at hne
      simp only [Option.getD_some] at hne ⊢
      by_cases hi : i < e.length
      · rw [List.getD_eq_getElem e 0 hi]
        exact n.extension_chars e hext _ (List.getElem_mem hi)
      · exact absurd (List.getD_eq_default _ _ (by omega)) hne

theorem fileExtensionValid_of_encodes {d : FatDirEntry} {n : ShortName}
    (h : Encodes d n) : fileExtensionValid d = true := by
  have hloop : ∀ fuel i, fileExtensionLoop d fuel i = true := by
    intro fuel
    induction fuel with
    | zero => intro i; rfl
    | succ fuel ih =>
        intro i
        unfold fileExtensionLoop
        split
        · rename_i hbyte
          have hext := h.extension i hbyte.1
          have hchar : NameChar (d.extension i) := by
            have hne := hbyte.2.1
            rw [hext] at hne ⊢
            exact ShortName.extension_getD hne
          rw [if_neg (by simp [hchar.1])]
          exact ih (i + 1)
        · rfl
  exact hloop 3 0

theorem filenameLen_extension {d : FatDirEntry} {n : ShortName}
    (h : Encodes d n) :
    filenameLen d.extension 3 = (n.extension.getD []).length := by
  have hlength : (n.extension.getD []).length ≤ 3 := by
    cases hext : n.extension with
    | none => simp
    | some e => exact (n.extension_length e hext).2
  apply filenameLen_eq_of_padding hlength
  · intro i hlen hi
    rw [h.extension i hi]
    exact List.getD_eq_default _ _ hlen
  · intro i hi
    have hlt : i < (n.extension.getD []).length := by omega
    have hchar : NameChar (d.extension i) := by
      rw [h.extension i (by omega)]
      cases hext : n.extension with
      | none => simp [hext] at hlt
      | some e =>
          simp only [hext, Option.getD_some] at hlt ⊢
          rw [List.getD_eq_getElem _ _ hlt]
          exact n.extension_chars e hext _ (List.getElem_mem hlt)
    exact ⟨hchar.2, hchar.ne_zero⟩

theorem lt_filenameLen_base {d : FatDirEntry} {n : ShortName} (h : Encodes d n) :
    n.base.length ≤ filenameLen d.baseName 8 := by
  have hlen := n.base_length
  have hlast : n.base.length - 1 < n.base.length := by omega
  have hchar := n.base_chars _ (List.getElem_mem hlast)
  have hlt := lt_filenameLen d.baseName (show n.base.length - 1 < 8 by omega)
    (by rw [h.base _ hlast]; exact hchar.2)
    (by rw [h.base _ hlast]; exact hchar.ne_zero)
  omega

theorem map_baseName_take {d : FatDirEntry} {n : ShortName} (h : Encodes d n) :
    (List.range n.base.length).map d.baseName = n.base := by
  apply List.ext_getElem (by simp)
  intro i hi hi'
  simp [h.base i hi']

theorem cString_of_ne_zero {s : CString} (h : ∀ c ∈ s, c ≠ 0) : cString s = s := by
  rw [cString, List.takeWhile_eq_self_iff]
  intro c hc
  simpa using h c hc

theorem cString_append_zero {s rest : CString} (h : ∀ c ∈ s, c ≠ 0) :
    cString (s ++ 0 :: rest) = s := by
  unfold cString
  rw [List.takeWhile_append_of_pos (by simpa using h)]
  simp

theorem cString_buildFilename_of_encodes {d : FatDirEntry} {n : ShortName}
    (h : Encodes d n) : cString (buildFilename d) = n.bytes := by
  have hlen := n.base_length
  have hle := lt_filenameLen_base h
  have hbase : ∀ c ∈ n.base, c ≠ 0 := fun c hc => (n.base_chars c hc).ne_zero
  have hpos : filenameLen d.baseName 8 ≠ 0 := by omega
  unfold buildFilename
  simp only [if_neg hpos, filenameLen_extension h]
  cases hext : n.extension with
  | none =>
      simp only [Option.getD_none, List.length_nil, if_true, List.append_nil,
        ShortName.bytes, hext]
      rcases hle.eq_or_lt with heq | hlt
      · rw [← heq, map_baseName_take h, cString_of_ne_zero hbase]
      · -- what follows the base starts with its terminator
        have hmax := filenameLen_le d.baseName 8
        obtain ⟨k, hk⟩ : ∃ k, filenameLen d.baseName 8 = n.base.length + (k + 1) :=
          ⟨filenameLen d.baseName 8 - n.base.length - 1, by omega⟩
        rw [hk, List.range_add, List.map_append, map_baseName_take h,
          List.range_succ_eq_map]
        simp only [List.map_cons, Nat.add_zero, h.terminator (by omega)]
        exact cString_append_zero hbase
  | some e =>
      have helen := n.extension_length e hext
      have heq : filenameLen d.baseName 8 = n.base.length := by
        apply filenameLen_eq_of_padding hlen.2
        · exact h.padding (by simp [hext])
        · intro i hi
          have hlt : i < n.base.length := by omega
          rw [h.base i hlt]
          have hchar := n.base_chars _ (List.getElem_mem hlt)
          exact ⟨hchar.2, hchar.ne_zero⟩
      have hmap : (List.range e.length).map d.extension = e := by
        apply List.ext_getElem (by simp)
        intro i hi hi'
        simp [h.extension i (by omega), hext, List.getElem?_eq_getElem hi']
      have hne : e.length ≠ 0 := by omega
      simp only [Option.getD_some, if_neg hne, heq, map_baseName_take h, hmap,
        ShortName.bytes, hext]
      apply cString_of_ne_zero
      intro c hc
      rcases List.mem_append.mp hc with hmem | hmem
      · exact hbase c hmem
      · rcases List.mem_cons.mp hmem with rfl | hmem
        · decide
        · exact (n.extension_chars e hext c hmem).ne_zero

/-! ## Encoding -/

/-- The copied base ends at `stop`: the length bound or the last dot, whichever
comes first behind `i`. -/
theorem copyBase_spec (src : ℕ → UInt8) {nameLen stop : ℕ} {dotPos : Option ℕ}
    (hstop : stop = nameLen ∨ dotPos = some stop)
    (hfirst : ∀ k, 0 < k → k < stop → dotPos ≠ some k) (hle : stop ≤ nameLen)
    (hmax : nameLen ≤ 8) (fuel i : ℕ) (hi : i < stop) (hfuel : stop ≤ i + fuel)
    (d : FatDirEntry) :
    (copyBase src nameLen dotPos fuel i d).1 = stop ∧
      ∀ k, (copyBase src nameLen dotPos fuel i d).2.byte k =
        if i ≤ k ∧ k < stop then src k else d.byte k := by
  induction fuel generalizing i d with
  | zero => omega
  | succ fuel ih =>
      have hi32 : i < 32 := by omega
      unfold copyBase
      by_cases hend : i + 1 = stop
      · have hstopped : ¬ (i + 1 < nameLen ∧ dotPos ≠ some (i + 1)) := by
          rintro ⟨hlt, hdot⟩
          rcases hstop with hlen | hdotPos
          · omega
          · exact hdot (hend ▸ hdotPos)
        rw [if_neg hstopped]
        refine ⟨hend, fun k => ?_⟩
        rw [FatDirEntry.byte_setByte d hi32]
        by_cases hk : i = k
        · subst hk
          simp [hi]
        · rw [if_neg hk, if_neg (by omega)]
      · have hmore : i + 1 < nameLen ∧ dotPos ≠ some (i + 1) :=
          ⟨by omega, hfirst (i + 1) (by omega) (by omega)⟩
        rw [if_pos hmore]
        obtain ⟨hpos, hbytes⟩ := ih (i + 1) (by omega) (by omega) (d.setByte i (src i))
        refine ⟨hpos, fun k => ?_⟩
        rw [hbytes k, FatDirEntry.byte_setByte d hi32]
        by_cases hk : i = k
        · subst hk
          simp [hi]
        · rw [if_neg hk]
          by_cases hin : i + 1 ≤ k ∧ k < stop
          · rw [if_pos hin, if_pos (by omega)]
          · rw [if_neg hin, if_neg (by omega)]

theorem copyExtension_spec {e : CString} (he : ∀ c ∈ e, c ≠ charSpace ∧ c ≠ 0)
    (j : ℕ) (hlen : 8 + (j + e.length) ≤ 32) (d : FatDirEntry) :
    ∃ d', copyExtension e j d = some (j + e.length, d') ∧
      ∀ k, d'.byte k =
        if 8 + j ≤ k then e.getD (k - (8 + j)) (d.byte k) else d.byte k := by
  induction e generalizing j d with
  | nil => exact ⟨d, rfl, fun k => by simp⟩
  | cons c rest ih =>
      rw [List.length_cons] at hlen
      have hc := he c (by simp)
      have hj : 8 + j < 32 := by omega
      obtain ⟨d', hcopy, hbytes⟩ := ih (fun x hx => he x (List.mem_cons_of_mem c hx))
        (j + 1) (by omega) (d.setByte (8 + j) c)
      refine ⟨d', ?_, fun k => ?_⟩
      · unfold copyExtension
        rw [if_pos hc, if_pos hj, hcopy, List.length_cons]
        congr 2
        omega
      · rw [hbytes k, FatDirEntry.byte_setByte d hj]
        by_cases hk : 8 + j = k
        · subst hk
          rw [if_neg (by omega), if_pos rfl, if_pos le_rfl]
          simp
        · rw [if_neg hk]
          by_cases hlater : 8 + (j + 1) ≤ k
          · rw [if_pos hlater, if_pos (by omega),
              show k - (8 + j) = k - (8 + (j + 1)) + 1 by omega, List.getD_cons_succ]
          · rw [if_neg hlater, if_neg (by omega)]

theorem ShortName.stores_base {n : ShortName} {src : ℕ → UInt8}
    (hsrc : Stores src n.bytes) (i : ℕ) (hi : i < n.base.length) :
    src i = n.base[i] := by
  cases hext : n.extension with
  | none =>
      have hbytes : n.bytes = n.base := by rw [bytes, hext]
      rw [hbytes] at hsrc
      exact hsrc.bytes i hi
  | some e =>
      have hbytes : n.bytes = n.base ++ charDot :: e := by rw [bytes, hext]
      rw [hbytes] at hsrc
      have hlt : i < (n.base ++ charDot :: e).length := by
        rw [List.length_append]
        omega
      rw [hsrc.bytes i hlt, List.getElem_append_left hi]

/-- The length bound of the encoder reaches at least to the end of the base. -/
theorem ShortName.base_le_filenameLen {n : ShortName} {src : ℕ → UInt8}
    (hsrc : Stores src n.bytes) : n.base.length ≤ filenameLen src 8 := by
  have hlen := n.base_length
  have hlast : n.base.length - 1 < n.base.length := by omega
  have hchar := n.base_chars _ (List.getElem_mem hlast)
  have hbyte := ShortName.stores_base hsrc _ hlast
  have hlt := lt_filenameLen src (show n.base.length - 1 < 8 by omega)
    (by rw [hbyte]; exact hchar.2) (by rw [hbyte]; exact hchar.ne_zero)
  omega

theorem filenameFromPath_of_base {name : CString} {src : ℕ → UInt8} {nameLen stop : ℕ}
    {d d' : FatDirEntry} (hlen : filenameLen src 8 = nameLen) (hpos : nameLen ≠ 0)
    (hcopy : copyBase src nameLen (strrchr name charDot) nameLen 0 d = (stop, d'))
    (hend : strrchr name charDot = none ∨ stop = nameLen) :
    filenameFromPath name src d = some (d'.setByte 9 0) := by
  have hskip : ¬ (strrchr name charDot ≠ none ∧ stop < nameLen) := by
    rintro ⟨hdot, hlt⟩
    rcases hend with hnone | heq
    · exact hdot hnone
    · omega
  simp [filenameFromPath, hlen, hpos, hcopy, hskip]

theorem filenameFromPath_of_extension {name : CString} {src : ℕ → UInt8}
    {nameLen stop j : ℕ} {d d' d'' : FatDirEntry}
    (hlen : filenameLen src 8 = nameLen) (hpos : nameLen ≠ 0)
    (hcopy : copyBase src nameLen (strrchr name charDot) nameLen 0 d = (stop, d'))
    (hdot : strrchr name charDot ≠ none) (hlt : stop < nameLen)
    (hext : copyExtension (name.drop (stop + 1)) 0 d' = some (j, d'')) :
    filenameFromPath name src d =
      some (if j < 3 then d''.setByte (8 + (j + 1)) 0 else d'') := by
  simp only [filenameFromPath, hlen, if_neg hpos, hcopy,
    if_pos (show strrchr name charDot ≠ none ∧ stop < nameLen from ⟨hdot, hlt⟩),
    hext, Option.bind_eq_bind, Option.bind_some]
  split <;> rfl

theorem filenameFromPath_without_extension {n : ShortName} {src : ℕ → UInt8}
    (hsrc : Stores src n.bytes) (hext : n.extension = none) :
    ∃ d, filenameFromPath n.bytes src FatDirEntry.zero = some d ∧
      Encodes d n := by
  have hbytes : n.bytes = n.base := by rw [ShortName.bytes, hext]
  have hlen := n.base_length
  have hge := ShortName.base_le_filenameLen hsrc
  have hmax := filenameLen_le src 8
  have hdot : strrchr n.bytes charDot = none := by
    rw [hbytes]
    apply strrchr_eq_none
    intro hmem
    exact (n.base_chars _ hmem).ne_dot rfl
  obtain ⟨hstop, hcopied⟩ := copyBase_spec src
    (show filenameLen src 8 = filenameLen src 8 ∨
      strrchr n.bytes charDot = some (filenameLen src 8) from Or.inl rfl)
    (by simp [hdot]) le_rfl hmax
    (filenameLen src 8) 0 (by omega) (by omega) FatDirEntry.zero
  generalize hcopy : copyBase src (filenameLen src 8) (strrchr n.bytes charDot)
    (filenameLen src 8) 0 FatDirEntry.zero = copied at hstop hcopied
  obtain ⟨stop, d⟩ := copied
  refine ⟨d.setByte 9 0,
    filenameFromPath_of_base rfl (by omega) hcopy (Or.inl hdot), ?_⟩
  have hbyte : ∀ k < 11,
      (d.setByte 9 0).byte k = if k < filenameLen src 8 then src k else 0 := by
    intro k hk
    rw [FatDirEntry.byte_setByte _ (by omega), hcopied k]
    by_cases hnine : 9 = k
    · rw [if_pos hnine, if_neg (by omega)]
    · simp [hnine]
  constructor
  · intro i hi
    rw [FatDirEntry.baseName, hbyte i (by omega), if_pos (by omega)]
    exact ShortName.stores_base hsrc i hi
  · intro hshort
    rw [FatDirEntry.baseName, hbyte _ (by omega)]
    have hterm := hsrc.terminator
    rw [hbytes] at hterm
    simp [hterm]
  · intro hsome
    exact absurd hext hsome
  · intro i hi
    rw [FatDirEntry.extension, hbyte _ (by omega), if_neg (by omega)]
    simp [hext]

section WithExtension

variable {n : ShortName} {e : CString}

theorem ShortName.bytes_of_extension (hext : n.extension = some e) :
    n.bytes = n.base ++ charDot :: e := by
  rw [bytes, hext]

theorem ShortName.strrchr_bytes (hext : n.extension = some e) :
    strrchr n.bytes charDot = some n.base.length := by
  rw [bytes_of_extension hext]
  apply strrchr_append_cons
  intro hmem
  exact (n.extension_chars e hext _ hmem).ne_dot rfl

theorem ShortName.dot_lt_filenameLen {src : ℕ → UInt8} (hsrc : Stores src n.bytes)
    (hext : n.extension = some e) (hshort : n.base.length < 8) :
    n.base.length < filenameLen src 8 := by
  have hlt : n.base.length < n.bytes.length := by
    rw [bytes_of_extension hext, List.length_append, List.length_cons]
    omega
  have hdot : src n.base.length = charDot := by
    rw [hsrc.bytes _ hlt]
    simp [bytes_of_extension hext]
  apply lt_filenameLen _ hshort
  · rw [hdot]
    decide
  · rw [hdot]
    decide

theorem filenameFromPath_with_extension {src : ℕ → UInt8}
    (hsrc : Stores src n.bytes) (hext : n.extension = some e)
    (hshort : n.base.length < 8) :
    ∃ d, filenameFromPath n.bytes src FatDirEntry.zero = some d ∧
      Encodes d n := by
  have hlen := n.base_length
  have helen := n.extension_length e hext
  have hlt := ShortName.dot_lt_filenameLen hsrc hext hshort
  have hmax := filenameLen_le src 8
  have hdot := ShortName.strrchr_bytes hext
  obtain ⟨hstop, hcopied⟩ := copyBase_spec src
    (show n.base.length = filenameLen src 8 ∨
      strrchr n.bytes charDot = some n.base.length from Or.inr hdot)
    (by intro k _ hk; simp only [hdot, ne_eq, Option.some.injEq]; omega)
    (by omega) hmax (filenameLen src 8) 0 (by omega) (by omega) FatDirEntry.zero
  generalize hcopy : copyBase src (filenameLen src 8) (strrchr n.bytes charDot)
    (filenameLen src 8) 0 FatDirEntry.zero = copied at hstop hcopied
  obtain ⟨stop, d⟩ := copied
  simp only at hstop hcopied
  subst hstop
  have hdrop : n.bytes.drop (n.base.length + 1) = e := by
    rw [ShortName.bytes_of_extension hext, List.drop_append]
    simp
  obtain ⟨d', hcopyExt, hextended⟩ := copyExtension_spec (e := e)
    (fun c hc => ⟨(n.extension_chars e hext c hc).2,
      (n.extension_chars e hext c hc).ne_zero⟩) 0 (by omega) d
  rw [← hdrop] at hcopyExt
  refine ⟨_, filenameFromPath_of_extension rfl (by omega) hcopy (by simp [hdot]) hlt
    hcopyExt, ?_⟩
  rw [hdrop] at *
  have hbyte : ∀ k < 11,
      (if 0 + e.length < 3 then d'.setByte (8 + (0 + e.length + 1)) 0 else d').byte k =
        if 8 ≤ k then e.getD (k - 8) 0
        else if k < n.base.length then src k else 0 := by
    intro k hk
    have hd : d.byte k = if k < n.base.length then src k else 0 := by
      rw [hcopied k]
      simp
    have hd' : d'.byte k =
        if 8 ≤ k then e.getD (k - 8) 0
        else if k < n.base.length then src k else 0 := by
      rw [hextended k, hd]
      by_cases hk8 : 8 ≤ k
      · rw [if_pos (by omega), if_pos hk8, if_neg (by omega)]
      · rw [if_neg (by omega), if_neg hk8]
    by_cases hj : 0 + e.length < 3
    · rw [if_pos hj, FatDirEntry.byte_setByte _ (by omega), hd']
      by_cases hend : 8 + (0 + e.length + 1) = k
      · rw [if_pos hend, if_pos (by omega), List.getD_eq_default _ _ (by omega)]
      · rw [if_neg hend]
    · rw [if_neg hj, hd']
  constructor
  · intro i hi
    rw [FatDirEntry.baseName, hbyte i (by omega), if_neg (by omega), if_pos hi]
    exact ShortName.stores_base hsrc i hi
  · intro _
    rw [FatDirEntry.baseName, hbyte _ (by omega), if_neg (by omega),
      if_neg (by omega)]
  · intro _ i hge hi
    rw [FatDirEntry.baseName, hbyte i (by omega), if_neg (by omega),
      if_neg (by omega)]
  · intro i hi
    rw [FatDirEntry.extension, hbyte _ (by omega), if_pos (by omega), hext,
      Nat.add_sub_cancel_left]
    rfl

/-- Eight bytes of base fill the length bound, so the extension is dropped. -/
theorem filenameFromPath_full_base {src : ℕ → UInt8} (hsrc : Stores src n.bytes)
    (hext : n.extension = some e) (hfull : n.base.length = 8) :
    ∃ d, filenameFromPath n.bytes src FatDirEntry.zero = some d ∧
      ∀ i < 3, d.extension i = 0 := by
  have hge := ShortName.base_le_filenameLen hsrc
  have hmax := filenameLen_le src 8
  have heq : filenameLen src 8 = 8 := by omega
  have hdot := ShortName.strrchr_bytes hext
  obtain ⟨hstop, hcopied⟩ := copyBase_spec src
    (show filenameLen src 8 = filenameLen src 8 ∨
      strrchr n.bytes charDot = some (filenameLen src 8) from Or.inl rfl)
    (by intro k _ hk; simp only [hdot, ne_eq, Option.some.injEq]; omega)
    le_rfl hmax (filenameLen src 8) 0 (by omega) (by omega) FatDirEntry.zero
  generalize hcopy : copyBase src (filenameLen src 8) (strrchr n.bytes charDot)
    (filenameLen src 8) 0 FatDirEntry.zero = copied at hstop hcopied
  obtain ⟨stop, d⟩ := copied
  refine ⟨_, filenameFromPath_of_base rfl (by omega) hcopy (Or.inr hstop), ?_⟩
  intro i hi
  rw [FatDirEntry.extension, FatDirEntry.byte_setByte _ (by omega), hcopied]
  by_cases hnine : 9 = 8 + i
  · rw [if_pos hnine]
  · rw [if_neg hnine, if_neg (by omega), FatDirEntry.byte_zero]

end WithExtension

/-- Names whose base leaves room for the scan to see the dot. -/
def ShortName.DotInReach (n : ShortName) : Prop :=
  n.extension = none ∨ n.base.length < 8

theorem filenameFromPath_encodes {n : ShortName} {src : ℕ → UInt8}
    (hsrc : Stores src n.bytes) (hreach : n.DotInReach) :
    ∃ d, filenameFromPath n.bytes src FatDirEntry.zero = some d ∧
      Encodes d n := by
  cases hext : n.extension with
  | none => exact filenameFromPath_without_extension hsrc hext
  | some e =>
      have hshort : n.base.length < 8 := by
        rcases hreach with hnone | hshort
        · simp [hnone] at hext
        · exact hshort
      exact filenameFromPath_with_extension hsrc hext hshort

/-! ## Created entries -/

/-- The other fields of a new entry lie behind the name. -/
theorem fatFileInitDirentry_name {v : Volume} (isDir : Bool)
    {filepath : CString} (startCluster : ℕ) {named : FatDirEntry}
    (hnamed : filenameFromPath (basename filepath) (strdup v (basename filepath)).1
      FatDirEntry.zero = some named) :
    ∃ d v', fatFileInitDirentry v isDir filepath startCluster = some (d, v') ∧
      (∀ i < 11, d.byte i = named.byte i) ∧
      d.attribs =
        if isDir then fileAttributeDirectory else fileAttributeArchive := by
  simp only [fatFileInitDirentry, hnamed, Option.bind_eq_bind, Option.bind_some]
  refine ⟨_, _, rfl, ?_, ?_⟩
  · intro i hi
    rw [FatDirEntry.setFileSize, FatDirEntry.setFirstCluster]
    repeat rw [FatDirEntry.byte_setLe16_of_ne _ (by omega) _ (by omega) (by omega)]
    rw [byte_fillDentryTimeNow _ _ _ _ (by omega), FatDirEntry.setCreateTimeFineRes,
      FatDirEntry.setReserved, FatDirEntry.setAttribs]
    repeat rw [FatDirEntry.byte_setByte _ (by omega), if_neg (by omega)]
  · rw [FatDirEntry.attribs, FatDirEntry.setFileSize, FatDirEntry.setFirstCluster]
    repeat rw [FatDirEntry.byte_setLe16_of_ne _ (by omega) _ (by omega) (by omega)]
    rw [byte_fillDentryTimeNow _ _ _ _ (by omega), FatDirEntry.setCreateTimeFineRes,
      FatDirEntry.setReserved, FatDirEntry.setAttribs]
    simp [FatDirEntry.byte_setByte]

theorem stores_strdup {v : Volume} {s : CString} : Stores (strdup v s).1 s := by
  constructor
  · intro i hi
    simp [strdup, hi]
  · simp [strdup]

theorem Encodes.congr {d d' : FatDirEntry} {n : ShortName} (h : Encodes d n)
    (hsame : ∀ i < 11, d'.byte i = d.byte i) : Encodes d' n := by
  have hlen := n.base_length
  constructor
  · intro i hi
    rw [← h.base i hi]
    exact hsame i (by omega)
  · intro hshort
    rw [← h.terminator hshort]
    exact hsame _ (by omega)
  · intro hext i hge hi
    rw [← h.padding hext i hge hi]
    exact hsame i (by omega)
  · intro i hi
    rw [← h.extension i hi]
    exact hsame (8 + i) (by omega)

theorem isEndOfDirectory_of_encodes {d : FatDirEntry} {n : ShortName}
    (h : Encodes d n) : isEndOfDirectory d = false := by
  have hpos : 0 < n.base.length := n.base_length.1
  have hchar := n.base_chars _ (List.getElem_mem hpos)
  simp [isEndOfDirectory, h.base 0 hpos, hchar.ne_zero]

theorem initFileFromDentry_name {d : FatDirEntry} {n : ShortName} (h : Encodes d n)
    (dir : FatFile) : (initFileFromDentry d dir).name = n.bytes :=
  cString_buildFilename_of_encodes h

theorem reappears_of_dotInReach {n : ShortName} (hreach : n.DotInReach) :
    Reappears n.bytes := by
  intro v isDir filepath startCluster hname
  obtain ⟨named, hnamed, hencodes⟩ :=
    filenameFromPath_encodes (stores_strdup (v := v) (s := n.bytes)) hreach
  rw [← hname] at hnamed
  obtain ⟨d, v', hinit, hsame, hattribs⟩ :=
    fatFileInitDirentry_name isDir startCluster hnamed
  have hd := hencodes.congr hsame
  refine ⟨d, v', hinit, isEndOfDirectory_of_encodes hd, ?_, initFileFromDentry_name hd⟩
  rw [ignoreDentry, hattribs, fileBasenameValid_of_encodes hd,
    fileExtensionValid_of_encodes hd]
  cases isDir <;> decide

theorem ShortName.length_bytes_of_extension {n : ShortName} {e : CString}
    (hext : n.extension = some e) :
    n.bytes.length = n.base.length + 1 + e.length := by
  rw [bytes_of_extension hext, List.length_append, List.length_cons]
  omega

/-- An entry without extension never prints more than eight bytes. -/
theorem length_cString_buildFilename {d : FatDirEntry}
    (hext : ∀ i < 3, d.extension i = 0) : (cString (buildFilename d)).length ≤ 8 := by
  have hmax := filenameLen_le d.baseName 8
  have hzero : filenameLen d.extension 3 = 0 :=
    filenameLen_eq_of_padding (by omega) (fun i _ hi => hext i hi) (by omega)
  have hlength : (buildFilename d).length ≤ 8 := by
    unfold buildFilename
    simp only [hzero]
    split
    · simp
    · simpa using hmax
  exact ((List.takeWhile_sublist _).length_le).trans hlength

/-- Exactly the names whose base has fewer than eight bytes or that have no
extension survive the directory entry. -/
theorem shortName_survives_iff (n : ShortName) (src : ℕ → UInt8)
    (hsrc : Stores src n.bytes) :
    (RoundTrips n.bytes src ∧ Reappears n.bytes) ↔
      n.extension = none ∨ n.base.length < 8 := by
  constructor
  · rintro ⟨⟨d, hd, -, -, hname⟩, -⟩
    by_contra hfar
    rw [not_or] at hfar
    obtain ⟨e, hext⟩ := Option.ne_none_iff_exists'.mp hfar.1
    have hfull : n.base.length = 8 := by
      have := n.base_length.2
      omega
    obtain ⟨d', hd', hzero⟩ := filenameFromPath_full_base hsrc hext hfull
    have heq : d = d' := Option.some.inj (hd.symm.trans hd')
    subst heq
    have hlength := length_cString_buildFilename hzero
    rw [hname, ShortName.length_bytes_of_extension hext] at hlength
    omega
  · intro hreach
    obtain ⟨d, hd, hencodes⟩ := filenameFromPath_encodes hsrc hreach
    exact ⟨⟨d, hd, fileBasenameValid_of_encodes hencodes,
      fileExtensionValid_of_encodes hencodes,
      cString_buildFilename_of_encodes hencodes⟩, reappears_of_dotInReach hreach⟩

/-- The name `a.b`. -/
def oneLetterName : ShortName where
  base := [0x61]
  extension := some [0x62]
  base_length := by decide
  base_chars := nameChar_of_all (by decide)
  base_head := by decide
  extension_length := by
    rintro e ⟨⟩
    decide
  extension_chars := by
    rintro e ⟨⟩
    exact nameChar_of_all (by decide)

theorem oneLetterName_survives :
    RoundTrips oneLetterName.bytes (zeroPadded oneLetterName.bytes) ∧
      Reappears oneLetterName.bytes :=
  (shortName_survives_iff oneLetterName _ (stores_zeroPadded _)).mpr
    (Or.inr (by decide))

/-- The name `abcdefgh.txt`. -/
def fullBaseName : ShortName where
  base := [0x61, 0x62, 0x63, 0x64, 0x65, 0x66, 0x67, 0x68]
  extension := some [0x74, 0x78, 0x74]
  base_length := by decide
  base_chars := nameChar_of_all (by decide)
  base_head := by decide
  extension_length := by
    rintro e ⟨⟩
    decide
  extension_chars := by
    rintro e ⟨⟩
    exact nameChar_of_all (by decide)

/-- A name of full length is printed without its extension. -/
theorem fullBaseName_not_roundTrips :
    ¬ RoundTrips fullBaseName.bytes (zeroPadded fullBaseName.bytes) := by
  rintro ⟨d, hd, -, -, hname⟩
  have hprinted :
      (filenameFromPath fullBaseName.bytes (zeroPadded fullBaseName.bytes)
        FatDirEntry.zero).map (fun d => cString (buildFilename d)) =
        some fullBaseName.base := by
    decide
  rw [hd, Option.map_some, hname] at hprinted
  exact absurd hprinted (by decide)

end SistOp.FatFuse
