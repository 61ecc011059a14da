import SistOp.ShortNames
import Mathlib.Tactic

/-!
# What the encoder of names reads and writes

`filename_from_path` finds the length of a base by looking at eight bytes, however long the name
is, and copies an extension up to the end of the name.  The lists of indices follow the loops of
the model; the bytes at these indices determine the result.
-/

namespace SistOp.FatFuse

/-! ## Indices that are read -/

def filenameLenReads (name : ℕ → UInt8) : ℕ → List ℕ
  | 0 => []
  | len + 1 =>
      len :: if name len ≠ charSpace ∧ name len ≠ 0 then [] else filenameLenReads name len

def copyBaseReads (nameLen : ℕ) (dotPos : Option ℕ) : ℕ → ℕ → List ℕ
  | 0, _ => []
  | fuel + 1, i =>
      i :: if i + 1 < nameLen ∧ dotPos ≠ some (i + 1) then
        copyBaseReads nameLen dotPos fuel (i + 1)
      else []

/-- The `while` loop at index `i` of the name, which it leaves at the terminator at the latest. -/
def copyExtensionReads : CString → ℕ → List ℕ
  | [], i => [i]
  | c :: rest, i =>
      i :: if c ≠ charSpace ∧ c ≠ 0 then copyExtensionReads rest (i + 1) else []

/-- Every index of the source that `filenameFromPath` looks at; `strrchr` reads the whole name. -/
def filenameFromPathReads (name : CString) (src : ℕ → UInt8) : List ℕ :=
  let nameLen := filenameLen src 8
  filenameLenReads src 8 ++
    if nameLen = 0 then []
    else
      let dotPos := strrchr name charDot
      let i := (copyBase src nameLen dotPos nameLen 0 FatDirEntry.zero).1
      List.range (name.length + 1) ++ copyBaseReads nameLen dotPos nameLen 0 ++
        if dotPos ≠ none ∧ i < nameLen then copyExtensionReads (name.drop (i + 1)) (i + 1)
        else []

variable {name : CString} {src src' : ℕ → UInt8}

theorem filenameLen_congr {maxLen : ℕ}
    (hsame : ∀ k ∈ filenameLenReads src maxLen, src k = src' k) :
    filenameLen src maxLen = filenameLen src' maxLen := by
  induction maxLen with
  | zero => rfl
  | succ len ih =>
      have hlast : src len = src' len := hsame len (by simp [filenameLenReads])
      unfold filenameLen
      rw [← hlast]
      split
      · rfl
      · rename_i hblank
        apply ih
        intro k hk
        apply hsame
        rw [filenameLenReads, if_neg hblank]
        exact List.mem_cons_of_mem _ hk

theorem copyBase_congr {nameLen : ℕ} {dotPos : Option ℕ} (fuel i : ℕ) (d : FatDirEntry)
    (hsame : ∀ k ∈ copyBaseReads nameLen dotPos fuel i, src k = src' k) :
    copyBase src nameLen dotPos fuel i d = copyBase src' nameLen dotPos fuel i d := by
  induction fuel generalizing i d with
  | zero => rfl
  | succ fuel ih =>
      have hbyte : src i = src' i := hsame i (by simp [copyBaseReads])
      unfold copyBase
      rw [← hbyte]
      dsimp only
      split
      · rename_i hmore
        apply ih
        intro k hk
        apply hsame
        rw [copyBaseReads, if_pos hmore]
        exact List.mem_cons_of_mem _ hk
      · rfl

/-- The bytes at the indices that are read determine the encoding. -/
theorem filenameFromPath_congr
    (hsame : ∀ k ∈ filenameFromPathReads name src, src k = src' k) (d : FatDirEntry) :
    filenameFromPath name src d = filenameFromPath name src' d := by
  have hlen : filenameLen src 8 = filenameLen src' 8 := by
    apply filenameLen_congr
    intro k hk
    exact hsame k (List.mem_append_left _ hk)
  unfold filenameFromPath
  rw [← hlen]
  by_cases hzero : filenameLen src 8 = 0
  · simp only [hzero, if_true]
  · have hbase : copyBase src (filenameLen src 8) (strrchr name charDot) (filenameLen src 8) 0 d =
        copyBase src' (filenameLen src 8) (strrchr name charDot) (filenameLen src 8) 0 d := by
      apply copyBase_congr
      intro k hk
      apply hsame
      rw [filenameFromPathReads, if_neg hzero]
      apply List.mem_append_right
      apply List.mem_append_left
      exact List.mem_append_right _ hk
    simp only [hbase]

/-! ## Reads stay in front of the terminator -/

theorem lt_of_mem_filenameLenReads {maxLen k : ℕ} (hk : k ∈ filenameLenReads src maxLen) :
    k < maxLen := by
  induction maxLen with
  | zero => simp [filenameLenReads] at hk
  | succ len ih =>
      rw [filenameLenReads] at hk
      rcases List.mem_cons.mp hk with rfl | hk
      · exact k.lt_succ_self
      · split at hk
        · simp at hk
        · exact (ih hk).trans len.lt_succ_self

theorem lt_of_mem_copyBaseReads {nameLen : ℕ} {dotPos : Option ℕ} {fuel i k : ℕ}
    (hi : i < nameLen) (hk : k ∈ copyBaseReads nameLen dotPos fuel i) : k < nameLen := by
  induction fuel generalizing i with
  | zero => simp [copyBaseReads] at hk
  | succ fuel ih =>
      rw [copyBaseReads] at hk
      rcases List.mem_cons.mp hk with rfl | hk
      · exact hi
      · split at hk
        · rename_i hmore
          exact ih hmore.1 hk
        · simp at hk

theorem le_of_mem_copyExtensionReads {rest : CString} {i k : ℕ}
    (hk : k ∈ copyExtensionReads rest i) : k ≤ i + rest.length := by
  induction rest generalizing i with
  | nil => simp_all [copyExtensionReads]
  | cons c rest ih =>
      rw [copyExtensionReads] at hk
      rcases List.mem_cons.mp hk with rfl | hk
      · omega
      · split at hk
        · have hle := ih hk
          rw [List.length_cons]
          omega
        · simp at hk

/-- The last byte that the length bound looks at may be the terminator. -/
theorem Stores.filenameLen_le_length (hsrc : Stores src name) (hlong : 7 ≤ name.length) :
    filenameLen src 8 ≤ name.length := by
  rcases hlong.eq_or_lt with hseven | hlt
  · have hterm : src 7 = 0 := hseven ▸ hsrc.terminator
    rw [filenameLen, if_neg (by simp [hterm]), ← hseven]
    exact filenameLen_le src 7
  · exact (filenameLen_le src 8).trans hlt

theorem le_of_mem_filenameFromPathReads (hsrc : Stores src name) (hlong : 7 ≤ name.length)
    {k : ℕ} (hk : k ∈ filenameFromPathReads name src) : k ≤ name.length := by
  have hlen := hsrc.filenameLen_le_length hlong
  rw [filenameFromPathReads] at hk
  rcases List.mem_append.mp hk with hk | hk
  · have hlt := lt_of_mem_filenameLenReads hk
    omega
  · split at hk
    · simp at hk
    · rename_i hzero
      rcases List.mem_append.mp hk with hk | hk
      · rcases List.mem_append.mp hk with hk | hk
        · exact Nat.lt_succ_iff.mp (List.mem_range.mp hk)
        · have hlt := lt_of_mem_copyBaseReads (by omega) hk
          omega
      · split at hk
        · rename_i hext
          have hle := le_of_mem_copyExtensionReads hk
          rw [List.length_drop] at hle
          omega
        · simp at hk

theorem Stores.eq_of_le (hsrc : Stores src name) (hsrc' : Stores src' name) {k : ℕ}
    (hk : k ≤ name.length) : src k = src' k := by
  rcases hk.eq_or_lt with rfl | hlt
  · rw [hsrc.terminator, hsrc'.terminator]
  · rw [hsrc.bytes k hlt, hsrc'.bytes k hlt]

/-! ## Bytes that are written -/

/-- The bytes that are copied to the extension: they follow the last dot, where it lies among the
first eight bytes and not in front of them all, and end before a space. -/
def copiedExtension (name : CString) : CString :=
  match strrchr name charDot with
  | some p => if 0 < p ∧ p < 8 then (name.drop (p + 1)).takeWhile (· != charSpace) else []
  | none => []

theorem getElem?_of_strrchr {s : CString} {c : UInt8} {p : ℕ} (h : strrchr s c = some p) :
    s[p]? = some c := by
  induction s generalizing p with
  | nil => simp [strrchr] at h
  | cons x xs ih =>
      rw [strrchr] at h
      cases hlast : strrchr xs c with
      | some i =>
          simp only [hlast, Option.some.injEq] at h
          subst h
          rw [List.getElem?_cons_succ]
          exact ih hlast
      | none =>
          simp only [hlast] at h
          split at h
          · rename_i hx
            simp only [Option.some.injEq] at h
            subst h
            rw [List.getElem?_cons_zero, hx]
          · simp at h

/-- A dot among the first eight bytes is below the length bound. -/
theorem Stores.dot_lt_filenameLen (hsrc : Stores src name) {p : ℕ}
    (hdot : strrchr name charDot = some p) (hp : p < 8) : p < filenameLen src 8 := by
  have hbyte := getElem?_of_strrchr hdot
  have hlt : p < name.length := (List.getElem?_eq_some_iff.mp hbyte).1
  have hsrcp : src p = charDot := by
    rw [hsrc.bytes p hlt]
    exact Option.some.inj ((List.getElem?_eq_getElem hlt).symm.trans hbyte)
  apply lt_filenameLen src hp
  · rw [hsrcp]
    decide
  · rw [hsrcp]
    decide

theorem copyExtension_takeWhile {s : CString} (hs : ∀ c ∈ s, c ≠ 0) (j : ℕ) (d : FatDirEntry) :
    copyExtension s j d = copyExtension (s.takeWhile (· != charSpace)) j d := by
  induction s generalizing j d with
  | nil => rfl
  | cons c rest ih =>
      have hc : c ≠ 0 := hs c (by simp)
      have hrest := ih fun x hx => hs x (List.mem_cons_of_mem c hx)
      by_cases hspace : c = charSpace
      · rw [List.takeWhile_cons_of_neg (by simp [hspace]), copyExtension, copyExtension,
          if_neg (by simp [hspace])]
      · rw [List.takeWhile_cons_of_pos (by simp [hspace]), copyExtension, copyExtension, hrest]

/-- Behind the last byte of the entry the copy is a fault. -/
theorem copyExtension_eq_none {e : CString} (he : ∀ c ∈ e, c ≠ charSpace ∧ c ≠ 0) (j : ℕ)
    (hlen : 32 < 8 + (j + e.length)) (hj : 8 + j ≤ 32) (d : FatDirEntry) :
    copyExtension e j d = none := by
  induction e generalizing j d with
  | nil =>
      rw [List.length_nil] at hlen
      omega
  | cons c rest ih =>
      rw [List.length_cons] at hlen
      rw [copyExtension, if_pos (he c (by simp))]
      split
      · rename_i hin
        apply ih fun x hx => he x (List.mem_cons_of_mem c hx)
        · omega
        · exact hin
      · rfl

/-- What the encoder leaves behind the eleven bytes of the name. -/
structure WritesBehind (e : CString) (d d' : FatDirEntry) : Prop where
  bytes : ∀ k, 11 ≤ k →
    d'.byte k = if e.length = 2 ∧ k = 11 then 0 else e.getD (k - 8) (d.byte k)

variable (src) in
/-- The copied base lies in the first eight bytes. -/
theorem copyBase_name {stop : ℕ}
    (hstop : stop = filenameLen src 8 ∨ strrchr name charDot = some stop)
    (hfirst : ∀ k, 0 < k → k < stop → strrchr name charDot ≠ some k)
    (hpos : 0 < stop) (hle : stop ≤ filenameLen src 8) (d : FatDirEntry) :
    ∃ d', copyBase src (filenameLen src 8) (strrchr name charDot) (filenameLen src 8) 0 d =
        (stop, d') ∧ ∀ k, 8 ≤ k → d'.byte k = d.byte k := by
  have hmax := filenameLen_le src 8
  obtain ⟨hend, hcopied⟩ := copyBase_spec src hstop hfirst hle hmax (filenameLen src 8) 0 hpos
    (by omega) d
  refine ⟨_, Prod.ext hend rfl, fun k hk => ?_⟩
  rw [hcopied k, if_neg (by omega)]

theorem filenameFromPath_without_dot
    (hdot : ∀ p, strrchr name charDot = some p → p = 0 ∨ 8 ≤ p) (d : FatDirEntry) :
    ∃ d', filenameFromPath name src d = some d' ∧ WritesBehind [] d d' := by
  by_cases hzero : filenameLen src 8 = 0
  · refine ⟨(d.setByte 0 0).setByte 8 0, by simp [filenameFromPath, hzero], ⟨fun k hk => ?_⟩⟩
    rw [FatDirEntry.byte_setByte _ (by omega), if_neg (by omega),
      FatDirEntry.byte_setByte _ (by omega), if_neg (by omega)]
    simp
  · have hmax := filenameLen_le src 8
    obtain ⟨d', hcopy, hkept⟩ := copyBase_name src (.inl rfl)
      (fun k hk hlt heq => by have := hdot k heq; omega) (by omega) le_rfl d
    refine ⟨d'.setByte 9 0, filenameFromPath_of_base rfl hzero hcopy (.inr rfl),
      ⟨fun k hk => ?_⟩⟩
    rw [FatDirEntry.byte_setByte _ (by omega), if_neg (by omega), hkept k (by omega)]
    simp

theorem filenameFromPath_with_dot (hsrc : Stores src name) (hname : ∀ c ∈ name, c ≠ 0) {p : ℕ}
    (hdot : strrchr name charDot = some p) (hp : 0 < p) (hp8 : p < 8) {e : CString}
    (he : e = (name.drop (p + 1)).takeWhile (· != charSpace)) (d : FatDirEntry) :
    if e.length ≤ 24 then ∃ d', filenameFromPath name src d = some d' ∧ WritesBehind e d d'
    else filenameFromPath name src d = none := by
  have hlt := hsrc.dot_lt_filenameLen hdot hp8
  obtain ⟨d', hcopy, hkept⟩ := copyBase_name src (.inr hdot)
    (fun k _ hk => by simp only [hdot, ne_eq, Option.some.injEq]; omega) hp hlt.le d
  have hchars : ∀ c ∈ e, c ≠ charSpace ∧ c ≠ 0 := by
    intro c hc
    rw [he] at hc
    have hmem := (List.takeWhile_sublist _).mem hc
    exact ⟨by simpa using List.mem_takeWhile_imp hc, hname c (List.mem_of_mem_drop hmem)⟩
  have hext : ∀ j, copyExtension (name.drop (p + 1)) j d' = copyExtension e j d' := by
    intro j
    rw [he]
    exact copyExtension_takeWhile (fun c hc => hname c (List.mem_of_mem_drop hc)) j d'
  split
  · rename_i hfits
    obtain ⟨d'', hcopyExt, hbytes⟩ := copyExtension_spec hchars 0 (by omega) d'
    rw [← hext] at hcopyExt
    refine ⟨_, filenameFromPath_of_extension rfl (by omega) hcopy (by simp [hdot]) hlt hcopyExt,
      ⟨fun k hk => ?_⟩⟩
    have hcopied : d''.byte k = e.getD (k - 8) (d.byte k) := by
      rw [hbytes k, if_pos (by omega), hkept k (by omega)]
    split
    · rw [FatDirEntry.byte_setByte _ (by omega), hcopied]
      by_cases htwo : e.length = 2 ∧ k = 11
      · rw [if_pos htwo, if_pos (by omega)]
      · rw [if_neg htwo, if_neg (by omega)]
    · rw [hcopied, if_neg (by omega)]
  · rename_i hlong
    have hnone := copyExtension_eq_none hchars 0 (by omega) (by omega) d'
    rw [← hext] at hnone
    simp only [filenameFromPath, if_neg (show filenameLen src 8 ≠ 0 by omega), hcopy,
      if_pos (show strrchr name charDot ≠ none ∧ p < filenameLen src 8 from ⟨by simp [hdot], hlt⟩),
      hnone, Option.bind_eq_bind, Option.bind_none]

theorem filenameFromPath_writesBehind (hsrc : Stores src name) (hname : ∀ c ∈ name, c ≠ 0)
    (d : FatDirEntry) :
    if (copiedExtension name).length ≤ 24 then
      ∃ d', filenameFromPath name src d = some d' ∧ WritesBehind (copiedExtension name) d d'
    else filenameFromPath name src d = none := by
  rw [copiedExtension]
  cases hdot : strrchr name charDot with
  | none => exact filenameFromPath_without_dot (by simp [hdot]) d
  | some p =>
      by_cases hp : 0 < p ∧ p < 8
      · simp only [if_pos hp]
        exact filenameFromPath_with_dot hsrc hname hdot hp.1 hp.2 rfl d
      · simp only [if_neg hp]
        apply filenameFromPath_without_dot
        intro q hq
        rw [hdot, Option.some.injEq] at hq
        omega

/-! ## Names that are encoded inside the entry -/

/-- Whatever lies in memory behind the name, the encoder writes the eleven bytes of base and
extension only, reads up to the terminator, and its result depends on the name alone. -/
structure EncodesInside (name : CString) : Prop where
  writes : ∀ src, Stores src name → ∀ d, ∃ d', filenameFromPath name src d = some d' ∧
    ∀ k, 11 ≤ k → d'.byte k = d.byte k
  reads : ∀ src, Stores src name → ∀ k ∈ filenameFromPathReads name src, k ≤ name.length
  depends : ∀ src src', Stores src name → Stores src' name → ∀ d,
    filenameFromPath name src d = filenameFromPath name src' d

theorem mem_of_mem_copiedExtension {c : UInt8} (hc : c ∈ copiedExtension name) : c ∈ name := by
  rw [copiedExtension] at hc
  split at hc
  · split at hc
    · exact List.mem_of_mem_drop ((List.takeWhile_sublist _).mem hc)
    · simp at hc
  · simp at hc

/-- The byte behind the extension is the first one that an extension of two bytes or of more than
three would change. -/
theorem EncodesInside.attribs_kept (h : EncodesInside name) (hname : ∀ c ∈ name, c ≠ 0)
    (d : FatDirEntry) :
    (if (copiedExtension name).length = 2 then 0
      else (copiedExtension name).getD 3 (d.byte 11)) = d.byte 11 := by
  have hbehind := filenameFromPath_writesBehind (stores_zeroPadded name) hname d
  obtain ⟨d', hd', hkept⟩ := h.writes (zeroPadded name) (stores_zeroPadded name) d
  rw [hd'] at hbehind
  split at hbehind
  · obtain ⟨_, hsame, hbytes⟩ := hbehind
    cases hsame
    have hbyte := hbytes.bytes 11 le_rfl
    rw [hkept 11 le_rfl] at hbyte
    simpa using hbyte.symm
  · simp at hbehind

theorem EncodesInside.copiedExtension_length (h : EncodesInside name)
    (hname : ∀ c ∈ name, c ≠ 0) :
    (copiedExtension name).length ≤ 3 ∧ (copiedExtension name).length ≠ 2 := by
  have htwo : (copiedExtension name).length ≠ 2 := by
    intro htwo
    have hbyte := h.attribs_kept hname (FatDirEntry.zero.setByte 11 1)
    rw [if_pos htwo] at hbyte
    exact absurd hbyte (by decide)
  refine ⟨?_, htwo⟩
  by_contra hlong
  have hthree : 3 < (copiedExtension name).length := not_le.mp hlong
  have hbyte := h.attribs_kept hname FatDirEntry.zero
  rw [if_neg htwo, List.getD_eq_getElem _ _ hthree, FatDirEntry.byte_zero] at hbyte
  exact hname _ (mem_of_mem_copiedExtension (List.getElem_mem hthree)) hbyte

/-- Exactly the names of seven bytes or more whose copied extension has no byte, one or three
are encoded inside the entry. -/
theorem encodesInside_iff (hname : ∀ c ∈ name, c ≠ 0) :
    EncodesInside name ↔
      7 ≤ name.length ∧
        (copiedExtension name).length ≤ 3 ∧ (copiedExtension name).length ≠ 2 := by
  constructor
  · intro h
    refine ⟨?_, h.copiedExtension_length hname⟩
    apply h.reads (zeroPadded name) (stores_zeroPadded name) 7
    simp [filenameFromPathReads, filenameLenReads]
  · rintro ⟨hlong, hext⟩
    refine ⟨fun src hsrc d => ?_, fun src hsrc k => le_of_mem_filenameFromPathReads hsrc hlong,
      fun src src' hsrc hsrc' d => ?_⟩
    · have hbehind := filenameFromPath_writesBehind hsrc hname d
      rw [if_pos (by omega)] at hbehind
      obtain ⟨d', hd', hbytes⟩ := hbehind
      refine ⟨d', hd', fun k hk => ?_⟩
      rw [hbytes.bytes k hk, if_neg (by omega), List.getD_eq_default _ _ (by omega)]
    · apply filenameFromPath_congr
      intro k hk
      exact hsrc.eq_of_le hsrc' (le_of_mem_filenameFromPathReads hsrc hlong hk)

/-- The name `archivos.txt`: its dot is the ninth byte. -/
def nameOfTwelve : CString :=
  [0x61, 0x72, 0x63, 0x68, 0x69, 0x76, 0x6f, 0x73, 0x2e, 0x74, 0x78, 0x74]

/-- The name `archivo.md`. -/
def nameWithShortExtension : CString :=
  [0x61, 0x72, 0x63, 0x68, 0x69, 0x76, 0x6f, 0x2e, 0x6d, 0x64]

theorem encodesInside_iff_twelve : EncodesInside nameOfTwelve :=
  (encodesInside_iff (by decide +kernel)).mpr (by decide)

/-- An extension of two bytes clears the attributes behind it. -/
theorem not_encodesInside_shortExtension :
    (∀ c ∈ nameWithShortExtension, c ≠ 0) ∧ ¬ EncodesInside nameWithShortExtension := by
  refine ⟨by decide +kernel, fun h => ?_⟩
  obtain ⟨d', hd', hkept⟩ := h.writes _ (stores_zeroPadded nameWithShortExtension)
    (FatDirEntry.zero.setByte 11 fileAttributeArchive)
  have hcleared : (filenameFromPath nameWithShortExtension (zeroPadded nameWithShortExtension)
      (FatDirEntry.zero.setByte 11 fileAttributeArchive)).map (fun d => d.byte 11) = some 0 := by
    decide
  rw [hd', Option.map_some, hkept 11 le_rfl] at hcleared
  exact absurd hcleared (by decide)

end SistOp.FatFuse
