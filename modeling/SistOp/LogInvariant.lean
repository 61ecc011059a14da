import SistOp.DiskLog

/-!
# The invariant of the log

What a recovery would leave on the disk is what is durable, and what the buffers hold is what
the operations have written.  Each function of `log.c` keeps this.
-/

namespace SistOp.Xv6

/-! ## Headers -/

namespace Logheader

/-- The blocks in the log. -/
def entries (lh : Logheader) : List ℕ := (List.range lh.n).map lh.block

variable {lh lh' : Logheader} {b : ℕ}

@[simp] theorem length_entries : lh.entries.length = lh.n := by simp [entries]

@[simp] theorem getElem_entries {i : ℕ} (h : i < lh.entries.length) :
    lh.entries[i] = lh.block i := by
  simp [entries]

theorem mem_entries : b ∈ lh.entries ↔ ∃ i < lh.n, lh.block i = b := by
  simp [entries]

theorem entries_congr (hn : lh.n = lh'.n) (hblock : ∀ i < lh'.n, lh.block i = lh'.block i) :
    lh.entries = lh'.entries := by
  apply List.ext_getElem
  · simp [hn]
  · intro i _ hi
    simpa using hblock i (by simpa using hi)

theorem find_of_notMem (h : b ∉ lh.entries) : lh.find b = lh.n := by
  rw [mem_entries] at h
  push Not at h
  rw [find, List.find?_eq_none.mpr]
  · rfl
  · simpa using h

theorem find_of_mem (h : b ∈ lh.entries) : lh.find b < lh.n ∧ lh.block (lh.find b) = b := by
  obtain ⟨i, hi, hb⟩ := mem_entries.mp h
  cases hfind : (List.range lh.n).find? fun i => lh.block i = b with
  | none =>
      rw [List.find?_eq_none] at hfind
      exact absurd hb (by simpa using hfind i (List.mem_range.mpr hi))
  | some j =>
      have hblock : lh.block j = b := by simpa using List.find?_some hfind
      have hmem : j < lh.n := List.mem_range.mp (List.mem_of_find?_eq_some hfind)
      simp [find, hfind, hblock, hmem]

theorem entries_push (h : b ∉ lh.entries) :
    ({ n := lh.n + 1, block := Function.update lh.block (lh.find b) b } : Logheader).entries =
      lh.entries ++ [b] := by
  have hfront : ∀ i ∈ List.range lh.n, Function.update lh.block lh.n b i = lh.block i := by
    intro i hi
    exact Function.update_of_ne (List.mem_range.mp hi).ne _ _
  rw [find_of_notMem h]
  simp [entries, List.range_succ, List.map_congr_left hfront]

theorem update_find (h : b ∈ lh.entries) : Function.update lh.block (lh.find b) b = lh.block := by
  nth_rewrite 2 [← (find_of_mem h).2]
  exact Function.update_eq_self _ _

end Logheader

namespace Superblock

variable {sb : Superblock} {disk disk' : ℕ → BlockData} {blocks : List ℕ} {b i j : ℕ}

theorem not_home_slot (sb : Superblock) (h : i + 1 < sb.nlog) : ¬ sb.Home (sb.slot i) := by
  simp only [Home, slot]
  omega

theorem not_home_logstart : ¬ sb.Home sb.logstart := by
  have := sb.nlog_pos
  simp only [Home]
  omega

/-- The header on a disk. -/
def header (sb : Superblock) (disk : ℕ → BlockData) : Logheader :=
  ⟨disk sb.logstart 0, fun i => disk sb.logstart (i + 1)⟩

/-- The copies of these blocks in the log. -/
def writes (sb : Superblock) (disk : ℕ → BlockData) (blocks : List ℕ) : List (ℕ × BlockData) :=
  blocks.zipIdx.map fun entry => (entry.1, disk (sb.slot entry.2))

/-- What a recovery would leave on the disk. -/
def recovered (sb : Superblock) (disk : ℕ → BlockData) : ℕ → BlockData :=
  redo (sb.writes disk (sb.header disk).entries) disk

/-- The header of a disk fits in the log and in memory, and names blocks outside of the log. -/
structure ValidHeader (sb : Superblock) (disk : ℕ → BlockData) : Prop where
  fits : (sb.header disk).n < sb.nlog
  sized : (sb.header disk).n ≤ LOGSIZE
  home : ∀ b ∈ (sb.header disk).entries, sb.Home b

@[simp] theorem length_writes : (sb.writes disk blocks).length = blocks.length := by
  simp [writes]

@[simp] theorem map_fst_writes : (sb.writes disk blocks).map Prod.fst = blocks := by
  simp [writes, Function.comp_def]

theorem drop_writes (sb : Superblock) (disk : ℕ → BlockData) (h : i < blocks.length) :
    (sb.writes disk blocks).drop i =
      (blocks[i], disk (sb.slot i)) :: (sb.writes disk blocks).drop (i + 1) := by
  rw [List.drop_eq_getElem_cons (by simpa using h)]
  simp [writes]

theorem writes_congr (h : ∀ i < blocks.length, disk (sb.slot i) = disk' (sb.slot i)) :
    sb.writes disk blocks = sb.writes disk' blocks := by
  apply List.ext_getElem
  · simp
  · intro i hi _
    simp [writes, h i (by simpa using hi)]

theorem mem_writes (sb : Superblock) (disk : ℕ → BlockData) (h : i < blocks.length) :
    (blocks[i], disk (sb.slot i)) ∈ sb.writes disk blocks := by
  have hmem : (blocks[i], disk (sb.slot i)) ∈ (sb.writes disk blocks).drop i := by
    rw [drop_writes sb disk h]
    exact List.mem_cons_self
  exact List.mem_of_mem_drop hmem

theorem exists_of_mem_writes {write : ℕ × BlockData} (h : write ∈ sb.writes disk blocks) :
    ∃ (i : ℕ) (hi : i < blocks.length), write = (blocks[i], disk (sb.slot i)) := by
  obtain ⟨i, hi, rfl⟩ := List.getElem_of_mem h
  refine ⟨i, by simpa using hi, ?_⟩
  simp [writes]

theorem recovered_of_header (h : (sb.header disk).n = 0) : sb.recovered disk = disk := by
  have hentries : (sb.header disk).entries = [] := by simp [Logheader.entries, h]
  simp [recovered, hentries, writes]

/-- A write to a block that the log has does not change what a recovery leaves. -/
theorem recovered_install (hvalid : sb.ValidHeader disk) (hi : i < (sb.header disk).n)
    (hb : (sb.header disk).block i = b) (data : BlockData) :
    sb.recovered (Function.update disk b data) = sb.recovered disk ∧
      sb.header (Function.update disk b data) = sb.header disk ∧
      sb.writes (Function.update disk b data) (sb.header disk).entries =
        sb.writes disk (sb.header disk).entries := by
  have hhome : sb.Home b := hvalid.home b (Logheader.mem_entries.mpr ⟨i, hi, hb⟩)
  have hstart : sb.logstart ≠ b := by
    rintro rfl
    exact not_home_logstart hhome
  have hheader : sb.header (Function.update disk b data) = sb.header disk := by
    simp [header, Function.update_of_ne hstart]
  have hwrites : sb.writes (Function.update disk b data) (sb.header disk).entries =
      sb.writes disk (sb.header disk).entries := by
    refine writes_congr fun j hj => Function.update_of_ne ?_ _ _
    rintro rfl
    have hfits := hvalid.fits
    rw [Logheader.length_entries] at hj
    exact sb.not_home_slot (by omega) hhome
  refine ⟨?_, hheader, hwrites⟩
  have hmem := mem_writes sb disk (show i < (sb.header disk).entries.length by simpa using hi)
  rw [Logheader.getElem_entries, hb] at hmem
  rw [recovered, hheader, hwrites, redo_update_of_mem hmem]
  rfl

end Superblock

/-! ## What the log stands for -/

def LogEvent.storeAct {n : ℕ} : LogEvent n → Option (StoreAct ℕ BlockData)
  | .modify _ b data => some (.write b data)
  | .writeHead _ => some .commit
  | .crash => some .crash
  | _ => none

/-- The store behind these events. -/
def storeAfter {n : ℕ} (store : AtomicStore ℕ BlockData) (events : List (LogEvent n)) :
    AtomicStore ℕ BlockData :=
  store.run (events.filterMap LogEvent.storeAct)

namespace Fs

variable {n : ℕ}

/-- The blocks whose new data are in the log and not yet at home. -/
def pending (fs : Fs n) : List ℕ :=
  match fs.pc with
  | .installTrans tail => fs.log.lh.entries.drop tail
  | .eraseHead => []
  | _ => fs.log.lh.entries

/-- The log holds what is in the buffers of its blocks from one entry to another. -/
def Copied (sb : Superblock) (fs : Fs n) (i j : ℕ) : Prop :=
  ∀ tail, i ≤ tail → tail < j → fs.disk (sb.slot tail) = fs.bread (fs.log.lh.block tail)

/-- What is durable is at home once the rest of the log is copied there. -/
def Installing (sb : Superblock) (fs : Fs n) (store : AtomicStore ℕ BlockData) (tail : ℕ) :
    Prop :=
  (sb.header fs.disk).entries = fs.log.lh.entries ∧
    ∀ b, sb.Home b →
      redo ((sb.writes fs.disk fs.log.lh.entries).drop tail) fs.disk b = store.durable b

/-- What holds where `commit` is, or where the machine is in booting. -/
def Phase (sb : Superblock) (fs : Fs n) (store : AtomicStore ℕ BlockData) : LogPc → Prop
  | .idle => (sb.header fs.disk).n = 0 ∧ (fs.log.outstanding = 0 → fs.log.lh.n = 0)
  | .commit => (sb.header fs.disk).n = 0
  | .writeLog tail => (sb.header fs.disk).n = 0 ∧ tail ≤ fs.log.lh.n ∧ fs.Copied sb 0 tail
  | .writeHead => (sb.header fs.disk).n = 0 ∧ fs.Copied sb 0 fs.log.lh.n
  | .installTrans tail =>
      fs.Installing sb store tail ∧ fs.Copied sb tail fs.log.lh.n ∧
        ∀ b, sb.Home b → store.durable b = store.volatile b
  | .eraseHead => ∀ b, sb.Home b → fs.disk b = store.durable b ∧ fs.disk b = store.volatile b
  | .endCommit => (sb.header fs.disk).n = 0 ∧ fs.log.lh.n = 0
  | .readHead => True
  | .recoverTrans tail => fs.Installing sb store tail
  | .eraseRecovered => ∀ b, sb.Home b → fs.disk b = store.durable b

/-- What holds while the machine is up: what the buffers hold, which of them differ from the
disk, and what the operations and `commit` have done. -/
structure Up (sb : Superblock) (fs : Fs n) (store : AtomicStore ℕ BlockData) : Prop where
  view : ∀ b, sb.Home b → fs.bread b = store.volatile b
  clean : ∀ b ∉ fs.pending, (∀ p, b ∉ (fs.standing p).changed) → fs.bread b = fs.disk b
  pinned : ∀ b ∈ fs.pending, 0 < fs.pins b ∧ (fs.cache b).isSome
  changed : ∀ p, ∀ b ∈ (fs.standing p).changed, fs.holder b = some p ∧ sb.Home b
  held : ∀ b p, fs.holder b = some p → (fs.cache b).isSome
  home : ∀ b ∈ fs.log.lh.entries, sb.Home b
  nodup : fs.log.lh.entries.Nodup
  room : fs.log.lh.n < sb.nlog
  sized : fs.log.lh.n ≤ LOGSIZE
  count : fs.log.outstanding =
    (Finset.univ.filter fun p => (fs.standing p).running = true).card
  quiet : fs.pc ≠ .idle → ∀ p, (fs.standing p).running = false
  committing : fs.log.committing = true ↔ fs.pc ≠ .idle
  phase : fs.Phase sb store fs.pc

/-- What holds while the machine boots. -/
structure Booting (sb : Superblock) (fs : Fs n) (store : AtomicStore ℕ BlockData) : Prop where
  view : ∀ b, fs.bread b = fs.disk b
  rebooted : store.volatile = store.durable
  user : ∀ p, fs.standing p = .user
  holder : ∀ b, fs.holder b = none
  log : fs.log.outstanding = 0 ∧ fs.log.committing = false
  phase : fs.Phase sb store fs.pc

structure Recoverable (sb : Superblock) (fs : Fs n) (store : AtomicStore ℕ BlockData) : Prop where
  durable : ∀ b, sb.Home b → sb.recovered fs.disk b = store.durable b
  valid : sb.ValidHeader fs.disk
  up : fs.panic = none → fs.pc.booting = false → fs.Up sb store
  boot : fs.panic = none → fs.pc.booting = true → fs.Booting sb store

/-! ## Buffers -/

variable {sb : Superblock} {fs fs' : Fs n} {store : AtomicStore ℕ BlockData} {p q : Fin n}
  {b c tail : ℕ} {data : BlockData}

@[simp] theorem bread_fill : (fs.fill c).bread b = fs.bread b := by
  by_cases h : b = c <;> simp [bread, fill, h]

@[simp] theorem bread_bwrite :
    (fs.bwrite c data).bread b = if b = c then data else fs.bread b := by
  by_cases h : b = c <;> simp [bread, bwrite, h]

theorem isSome_fill (h : (fs.cache b).isSome) : ((fs.fill c).cache b).isSome := by
  by_cases hb : b = c
  · simp [fill, hb]
  · simpa [fill, hb] using h

theorem isSome_bwrite (h : (fs.cache b).isSome) : ((fs.bwrite c data).cache b).isSome := by
  by_cases hb : b = c
  · simp [bwrite, hb]
  · simpa [bwrite, hb] using h

theorem running_setStanding (standing : Standing) :
    ((fs.setStanding p standing).standing q).running =
      if q = p then standing.running else (fs.standing q).running := by
  by_cases h : q = p <;> simp [setStanding, h]

theorem changed_setStanding (standing : Standing) :
    ((fs.setStanding p standing).standing q).changed =
      if q = p then standing.changed else (fs.standing q).changed := by
  by_cases h : q = p <;> simp [setStanding, h]

theorem running_wakeup : (fs.wakeup.standing q).running = (fs.standing q).running := by
  by_cases h : fs.standing q = .asleep <;> simp [wakeup, h, Standing.running]

theorem changed_wakeup : (fs.wakeup.standing q).changed = (fs.standing q).changed := by
  by_cases h : fs.standing q = .asleep <;> simp [wakeup, h, Standing.changed]

/-! ## Steps that neither write to the disk nor change what a buffer holds -/

theorem Phase.frame (hdisk : fs'.disk = fs.disk) (hbread : ∀ b, fs'.bread b = fs.bread b)
    (hlh : fs'.log.lh = fs.log.lh)
    (hidle : fs.pc = .idle → fs'.log.outstanding = 0 → fs.log.lh.n = 0)
    (h : fs.Phase sb store fs.pc) : fs'.Phase sb store fs.pc := by
  cases hpc : fs.pc <;>
    simp only [Phase, Installing, Copied, hpc, hdisk, hbread, hlh] at h ⊢ <;>
    first
    | exact ⟨h.1, hidle hpc⟩
    | exact h

theorem Up.frame (h : fs.Up sb store) (hdisk : fs'.disk = fs.disk)
    (hbread : ∀ b, fs'.bread b = fs.bread b) (hlh : fs'.log.lh = fs.log.lh)
    (hpc : fs'.pc = fs.pc) (hcommitting : fs'.log.committing = fs.log.committing)
    (hchanged : ∀ p, (fs'.standing p).changed = (fs.standing p).changed)
    (hpinned : ∀ b ∈ fs.pending, 0 < fs'.pins b ∧ (fs'.cache b).isSome)
    (hholder : ∀ p, ∀ b ∈ (fs.standing p).changed, fs'.holder b = some p)
    (hheld : ∀ b p, fs'.holder b = some p → (fs'.cache b).isSome)
    (hcount : fs'.log.outstanding =
      (Finset.univ.filter fun p => (fs'.standing p).running = true).card)
    (hquiet : fs.pc ≠ .idle → ∀ p, (fs'.standing p).running = false)
    (hidle : fs.pc = .idle → fs'.log.outstanding = 0 → fs.log.lh.n = 0) :
    fs'.Up sb store := by
  have hpending : fs'.pending = fs.pending := by simp only [pending, hpc, hlh]
  exact {
    view := fun b hb => (hbread b).trans (h.view b hb)
    clean := by
      intro b hb hclean
      rw [hbread, hdisk]
      exact h.clean b (hpending ▸ hb) fun p => hchanged p ▸ hclean p
    pinned := by rwa [hpending]
    changed := by
      intro p b hb
      rw [hchanged] at hb
      exact ⟨hholder p b hb, (h.changed p b hb).2⟩
    held := hheld
    home := by
      rw [hlh]
      exact h.home
    nodup := by
      rw [hlh]
      exact h.nodup
    room := by
      rw [hlh]
      exact h.room
    sized := by
      rw [hlh]
      exact h.sized
    count := hcount
    quiet := by rwa [hpc]
    committing := by
      rw [hcommitting, hpc]
      exact h.committing
    phase := by
      rw [hpc]
      exact h.phase.frame hdisk hbread hlh hidle }

theorem Up.idle_of_running (h : fs.Up sb store) (hp : (fs.standing p).running = true) :
    fs.pc = .idle := by
  by_contra hpc
  simp [h.quiet hpc p] at hp

/-- A process joins or leaves the running operations. -/
theorem card_running_set (standing : Standing) (hp : (fs.standing p).running = false)
    (hstanding : standing.running = true) :
    (Finset.univ.filter fun q => ((fs.setStanding p standing).standing q).running = true).card =
      (Finset.univ.filter fun q => (fs.standing q).running = true).card + 1 := by
  have hset : (Finset.univ.filter fun q =>
      ((fs.setStanding p standing).standing q).running = true) =
        insert p (Finset.univ.filter fun q => (fs.standing q).running = true) := by
    ext q
    by_cases hq : q = p <;> simp [running_setStanding, hq, hstanding]
  rw [hset, Finset.card_insert_of_notMem (by simp [hp])]

theorem card_running_leave (standing : Standing) (hp : (fs.standing p).running = true)
    (hstanding : standing.running = false) :
    (Finset.univ.filter fun q => ((fs.setStanding p standing).standing q).running = true).card +
      1 = (Finset.univ.filter fun q => (fs.standing q).running = true).card := by
  have hset : (Finset.univ.filter fun q =>
      ((fs.setStanding p standing).standing q).running = true) =
        (Finset.univ.filter fun q => (fs.standing q).running = true).erase p := by
    ext q
    by_cases hq : q = p <;> simp [running_setStanding, hq, hstanding]
  rw [hset, Finset.card_erase_add_one (by simp [hp])]

theorem card_running_same (standing : Standing)
    (hstanding : standing.running = (fs.standing p).running) :
    (Finset.univ.filter fun q => ((fs.setStanding p standing).standing q).running = true).card =
      (Finset.univ.filter fun q => (fs.standing q).running = true).card := by
  congr 1
  ext q
  by_cases hq : q = p <;> simp [running_setStanding, hq, hstanding]

theorem changed_of_not_running (h : (fs.standing p).running = false) :
    (fs.standing p).changed = ∅ := by
  cases hp : fs.standing p <;> simp [hp, Standing.running, Standing.changed] at h ⊢

/-- A process that is in no operation and joins none. -/
theorem Up.setStanding (h : fs.Up sb store) (standing : Standing)
    (hp : (fs.standing p).running = false) (hstanding : standing.running = false)
    (hchanged : standing.changed = ∅) : (fs.setStanding p standing).Up sb store := by
  refine h.frame rfl (fun _ => rfl) rfl rfl rfl (fun q => ?_) h.pinned
    (fun q b hb => (h.changed q b hb).1) h.held ?_ (fun hpc q => ?_) fun hidle hout => ?_
  · rw [changed_setStanding]
    split_ifs with hq
    · rw [hchanged, hq, changed_of_not_running hp]
    · rfl
  · rw [card_running_same standing (hstanding.trans hp.symm)]
    exact h.count
  · rw [running_setStanding]
    split_ifs
    · exact hstanding
    · exact h.quiet hpc q
  · have hphase := h.phase
    rw [hidle] at hphase
    exact hphase.2 hout

theorem Up.beginOp (h : fs.Up sb store) (hp : fs.standing p = .user ∨ fs.standing p = .woken) :
    (fs.beginOp p).Up sb store := by
  have hout : (fs.standing p).running = false := by
    rcases hp with hp | hp <;> simp [hp, Standing.running]
  simp only [Fs.beginOp]
  split_ifs with hcommitting hroom
  · exact h.setStanding .asleep hout rfl rfl
  · exact h.setStanding .asleep hout rfl rfl
  · have hidle : fs.pc = .idle := by
      by_contra hpc
      exact hcommitting (h.committing.mpr hpc)
    refine h.frame rfl (fun _ => rfl) rfl rfl rfl (fun q => ?_) h.pinned
      (fun q b hb => (h.changed q b hb).1) h.held ?_ (fun hpc => absurd hidle hpc) fun _ hzero => ?_
    · rw [changed_setStanding]
      split_ifs with hq
      · rw [hq, changed_of_not_running hout]
        rfl
      · rfl
    · exact (congrArg (· + 1) h.count).trans (card_running_set (.inOp ∅ ∅) hout rfl).symm
    · exact absurd hzero (Nat.succ_ne_zero _)

theorem Up.outstanding_idle (h : fs.Up sb store) (hidle : fs.pc = .idle)
    (hout : fs.log.outstanding = 0) : fs.log.lh.n = 0 := by
  have hphase := h.phase
  rw [hidle] at hphase
  exact hphase.2 hout

theorem Up.bread (h : fs.Up sb store) (hb : fs.holder b = none) :
    ({ fs.fill b with holder := Function.update fs.holder b (some p) } : Fs n).Up sb store := by
  refine h.frame rfl (fun _ => bread_fill) rfl rfl rfl (fun _ => rfl)
    (fun c hc => ⟨(h.pinned c hc).1, isSome_fill (h.pinned c hc).2⟩) (fun q c hc => ?_)
    (fun c q hc => ?_) h.count h.quiet h.outstanding_idle
  · have hheld := (h.changed q c hc).1
    have hne : c ≠ b := by
      rintro rfl
      simp [hb] at hheld
    rw [← hheld]
    exact Function.update_of_ne hne _ _
  · by_cases hcb : c = b
    · simp [fill, hcb]
    · refine isSome_fill (h.held c q ?_)
      rw [← hc]
      exact (Function.update_of_ne hcb _ _).symm

theorem Up.brelse (h : fs.Up sb store) (hb : fs.holder b = some p)
    (hchanged : b ∉ (fs.standing p).changed) :
    ({ fs with holder := Function.update fs.holder b none } : Fs n).Up sb store := by
  refine h.frame rfl (fun _ => rfl) rfl rfl rfl (fun _ => rfl) h.pinned (fun q c hc => ?_)
    (fun c q hc => ?_) h.count h.quiet h.outstanding_idle
  · have hheld := (h.changed q c hc).1
    have hne : c ≠ b := by
      rintro rfl
      rw [hb, Option.some.injEq] at hheld
      exact hchanged (hheld ▸ hc)
    rw [← hheld]
    exact Function.update_of_ne hne _ _
  · by_cases hcb : c = b
    · simp [hcb] at hc
    · refine h.held c q ?_
      rw [← hc]
      exact (Function.update_of_ne hcb _ _).symm

/-- Only a buffer that nobody holds or has pinned is given to another block; it has what the
disk has. -/
theorem Up.evict (h : fs.Up sb store) (hb : fs.holder b = none) (hpins : fs.pins b = 0) :
    ({ fs with cache := Function.update fs.cache b none } : Fs n).Up sb store := by
  have hpending : b ∉ fs.pending := fun hmem => (h.pinned b hmem).1.ne' hpins
  have hclean : fs.bread b = fs.disk b := by
    refine h.clean b hpending fun q hq => ?_
    have hheld := (h.changed q b hq).1
    simp [hb] at hheld
  refine h.frame rfl (fun c => ?_) rfl rfl rfl (fun _ => rfl) (fun c hc => ?_)
    (fun q c hc => (h.changed q c hc).1) (fun c q hc => ?_) h.count h.quiet h.outstanding_idle
  · by_cases hcb : c = b
    · rw [hcb, hclean]
      simp [Fs.bread]
    · simp [Fs.bread, hcb]
  · have hne : c ≠ b := by
      rintro rfl
      exact hpending hc
    simpa [hne] using h.pinned c hc
  · have hne : c ≠ b := by
      rintro rfl
      simp [hb] at hc
    simpa [hne] using h.held c q hc

theorem Up.pending_idle (hidle : fs.pc = .idle) : fs.pending = fs.log.lh.entries := by
  simp [pending, hidle]

theorem Up.modify {logged changed : Finset ℕ} (h : fs.Up sb store)
    (hp : fs.standing p = .inOp logged changed) (hb : fs.holder b = some p) (hhome : sb.Home b) :
    (({ fs with cache := Function.update fs.cache b (some data) } : Fs n).setStanding p
      (.inOp logged (insert b changed))).Up sb
        { store with volatile := Function.update store.volatile b data } := by
  have hrun : (fs.standing p).running = true := by simp [hp, Standing.running]
  have hidle := h.idle_of_running hrun
  generalize hfs' : (({ fs with cache := Function.update fs.cache b (some data) } :
    Fs n).setStanding p (.inOp logged (insert b changed))) = fs'
  have hbread : ∀ c, fs'.bread c = if c = b then data else fs.bread c := by
    intro c
    by_cases hc : c = b <;> simp [← hfs', Fs.setStanding, Fs.bread, hc]
  have hcache : ∀ c, (fs.cache c).isSome → (fs'.cache c).isSome := by
    intro c hc
    by_cases hcb : c = b
    · simp [← hfs', Fs.setStanding, hcb]
    · simpa [← hfs', Fs.setStanding, hcb] using hc
  have hchanged : ∀ q c, c ∈ (fs'.standing q).changed ↔
      c ∈ (fs.standing q).changed ∨ q = p ∧ c = b := by
    intro q c
    by_cases hq : q = p
    · simp [← hfs', Fs.setStanding, hq, hp, Standing.changed, or_comm]
    · simp [← hfs', Fs.setStanding, hq]
  have hpending : fs'.pending = fs.pending := by simp only [← hfs', pending, Fs.setStanding]
  exact {
    view := by
      intro c hc
      rw [hbread, h.view c hc]
      exact (Function.update_apply _ _ _ _).symm
    clean := by
      intro c hc hclean
      have hcb : c ≠ b := fun hcb => hclean p ((hchanged p c).mpr (.inr ⟨rfl, hcb⟩))
      rw [hbread, if_neg hcb, h.clean c (hpending ▸ hc) fun q hq =>
        hclean q ((hchanged q c).mpr (.inl hq))]
      subst hfs'
      rfl
    pinned := by
      intro c hc
      have hold := h.pinned c (hpending ▸ hc)
      subst hfs'
      exact ⟨hold.1, hcache c hold.2⟩
    changed := by
      intro q c hc
      have hholder : fs'.holder = fs.holder := by subst hfs'; rfl
      rw [hholder]
      rcases (hchanged q c).mp hc with hc | ⟨rfl, rfl⟩
      · exact h.changed q c hc
      · exact ⟨hb, hhome⟩
    held := by
      intro c q hc
      subst hfs'
      exact hcache c (h.held c q hc)
    home := by
      subst hfs'
      exact h.home
    nodup := by
      subst hfs'
      exact h.nodup
    room := by
      subst hfs'
      exact h.room
    sized := by
      subst hfs'
      exact h.sized
    count := by
      subst hfs'
      exact h.count.trans (card_running_same (.inOp logged (insert b changed)) hrun.symm).symm
    quiet := by
      subst hfs'
      exact fun hpc => absurd hidle hpc
    committing := by
      subst hfs'
      exact h.committing
    phase := by
      subst hfs'
      have hphase := h.phase
      rw [hidle] at hphase
      change Phase sb _ _ fs.pc
      rw [hidle]
      exact hphase }

/-- What `log_write` does in either case: the log has the block, whose buffer is pinned. -/
theorem Up.logged {logged changed : Finset ℕ} {lh : Logheader} {pins : ℕ → ℕ}
    (h : fs.Up sb store) (hp : fs.standing p = .inOp logged changed)
    (hb : fs.holder b = some p) (hhome : sb.Home b)
    (hentries : ∀ c, c ∈ lh.entries ↔ c ∈ fs.log.lh.entries ∨ c = b) (hnodup : lh.entries.Nodup)
    (hroom : lh.n < sb.nlog) (hsized : lh.n ≤ LOGSIZE) (hpins : ∀ c ∈ lh.entries, 0 < pins c) :
    ((({ fs with pins := pins } : Fs n).setLh lh).setStanding p
      (.inOp (insert b logged) (changed.erase b))).Up sb store := by
  have hrun : (fs.standing p).running = true := by simp [hp, Standing.running]
  have hidle := h.idle_of_running hrun
  have hpending := Up.pending_idle hidle
  generalize hfs' : ((({ fs with pins := pins } : Fs n).setLh lh).setStanding p
    (.inOp (insert b logged) (changed.erase b))) = fs'
  have hlh : fs'.log.lh = lh := by subst hfs'; rfl
  have hpending' : fs'.pending = lh.entries := by
    rw [← hlh]
    refine Up.pending_idle ?_
    subst hfs'
    exact hidle
  have hchanged : ∀ q c, c ∈ (fs'.standing q).changed ↔
      c ∈ (fs.standing q).changed ∧ ¬ (q = p ∧ c = b) := by
    intro q c
    by_cases hq : q = p
    · simp [← hfs', Fs.setStanding, hq, hp, Standing.changed, and_comm]
    · simp [← hfs', Fs.setStanding, Fs.setLh, hq]
  exact {
    view := by
      subst hfs'
      exact h.view
    clean := by
      intro c hc hclean
      rw [hpending', hentries, not_or] at hc
      have hold : fs.bread c = fs.disk c := by
        refine h.clean c (hpending ▸ hc.1) fun q hq => ?_
        exact hclean q ((hchanged q c).mpr ⟨hq, fun hqc => hc.2 hqc.2⟩)
      subst hfs'
      exact hold
    pinned := by
      intro c hc
      rw [hpending'] at hc
      have hcached : (fs.cache c).isSome := by
        rcases (hentries c).mp hc with hc | rfl
        · exact (h.pinned c (hpending ▸ hc)).2
        · exact h.held c p hb
      subst hfs'
      exact ⟨hpins c hc, hcached⟩
    changed := by
      intro q c hc
      have hold := h.changed q c ((hchanged q c).mp hc).1
      subst hfs'
      exact hold
    held := by
      subst hfs'
      exact h.held
    home := by
      intro c hc
      rw [hlh, hentries] at hc
      rcases hc with hc | rfl
      · exact h.home c hc
      · exact hhome
    nodup := by rwa [hlh]
    room := by rwa [hlh]
    sized := by rwa [hlh]
    count := by
      subst hfs'
      exact h.count.trans
        (card_running_same (.inOp (insert b logged) (changed.erase b)) hrun.symm).symm
    quiet := by
      subst hfs'
      exact fun hpc => absurd hidle hpc
    committing := by
      subst hfs'
      exact h.committing
    phase := by
      have hheader := h.phase
      rw [hidle] at hheader
      have hpos : fs.log.outstanding ≠ 0 := by
        rw [h.count, Finset.card_ne_zero]
        exact ⟨p, by simp [hrun]⟩
      subst hfs'
      change Phase sb _ _ fs.pc
      rw [hidle]
      exact ⟨hheader.1, fun hzero => absurd hzero hpos⟩ }

theorem Up.logWrite {logged changed : Finset ℕ} (h : fs.Up sb store)
    (hp : fs.standing p = .inOp logged changed) (hb : fs.holder b = some p) (hhome : sb.Home b)
    (hpanic : (fs.logWrite sb p logged changed b).panic = none) :
    (fs.logWrite sb p logged changed b).Up sb store := by
  have hidle := h.idle_of_running (p := p) (by simp [hp, Standing.running])
  have hpinned : ∀ c ∈ fs.log.lh.entries, 0 < fs.pins c := fun c hc =>
    (h.pinned c (Up.pending_idle hidle ▸ hc)).1
  simp only [Fs.logWrite] at hpanic ⊢
  split_ifs at hpanic ⊢ with hfull hout hnew
  · have hmem : b ∉ fs.log.lh.entries := fun hmem =>
      (Logheader.find_of_mem hmem).1.ne hnew
    have hentries := Logheader.entries_push hmem
    refine h.logged hp hb hhome (fun c => ?_) ?_ ?_ ?_ fun c hc => ?_
    · rw [hentries]
      simp
    · rw [hentries]
      exact h.nodup.append (List.nodup_singleton b) (List.disjoint_singleton.mpr hmem)
    · change fs.log.lh.n + 1 < sb.nlog
      omega
    · change fs.log.lh.n + 1 ≤ LOGSIZE
      omega
    · rw [hentries] at hc
      by_cases hcb : c = b
      · simp [hcb]
      · simpa [hcb] using hpinned c (by simpa [hcb] using hc)
  · have hmem : b ∈ fs.log.lh.entries := by
      by_contra hmem
      exact hnew (Logheader.find_of_notMem hmem)
    rw [Logheader.update_find hmem]
    refine h.logged hp hb hhome (fun c => ?_) h.nodup h.room h.sized hpinned
    constructor
    · exact .inl
    · rintro (hc | rfl)
      · exact hc
      · exact hmem

/-- The last operation to end leaves a commit behind. -/
theorem Up.endOp {logged : Finset ℕ} (h : fs.Up sb store) (hp : fs.standing p = .inOp logged ∅)
    (hpanic : (fs.endOp p).panic = none) : (fs.endOp p).Up sb store := by
  have hrun : (fs.standing p).running = true := by simp [hp, Standing.running]
  have hidle := h.idle_of_running hrun
  have hchanged : (fs.standing p).changed = ∅ := by simp [hp, Standing.changed]
  simp only [Fs.endOp] at hpanic ⊢
  split_ifs at hpanic ⊢ with hcommitting hlast
  · have hcount := h.count
    rw [← card_running_leave .committing hrun rfl] at hcount
    have hnone : ∀ q, ((fs.setStanding p .committing).standing q).running = false := by
      have hzero : (Finset.univ.filter fun q =>
          ((fs.setStanding p .committing).standing q).running = true).card = 0 := by omega
      rw [Finset.card_eq_zero, Finset.filter_eq_empty_iff] at hzero
      exact fun q => Bool.eq_false_iff.mpr (hzero (Finset.mem_univ q))
    have hpending := Up.pending_idle hidle
    have hall : ∀ q, (fs.standing q).changed = ∅ := by
      intro q
      have hq := hnone q
      rw [running_setStanding] at hq
      split_ifs at hq with hqp
      · rw [hqp, hchanged]
      · exact changed_of_not_running hq
    have hchanged' : ∀ q, ((fs.setStanding p .committing).standing q).changed = ∅ := fun q =>
      changed_of_not_running (hnone q)
    exact {
      view := h.view
      clean := by
        intro b hb _
        exact h.clean b (hpending ▸ hb) (by simp [hall])
      pinned := by
        intro b hb
        exact h.pinned b (hpending ▸ hb)
      changed := by
        intro q b hb
        have hempty : b ∈ (∅ : Finset ℕ) := (hchanged' q) ▸ hb
        simp at hempty
      held := h.held
      home := h.home
      nodup := h.nodup
      room := h.room
      sized := h.sized
      count := by
        refine hlast.trans (Finset.card_eq_zero.mpr ?_).symm
        rw [Finset.filter_eq_empty_iff]
        exact fun q _ => Bool.eq_false_iff.mp (hnone q)
      quiet := fun _ => hnone
      committing := by simp [Fs.setStanding]
      phase := by
        have hphase := h.phase
        rw [hidle] at hphase
        exact hphase.1 }
  · refine h.frame rfl (fun _ => rfl) rfl rfl rfl (fun q => ?_) h.pinned
      (fun q b hb => (h.changed q b hb).1) h.held ?_ (fun hpc => absurd hidle hpc)
      fun _ hzero => absurd hzero hlast
    · rw [changed_wakeup, changed_setStanding]
      split_ifs with hq
      · rw [hq, hchanged]
        rfl
      · rfl
    · simp only [running_wakeup]
      have hcount := h.count
      rw [← card_running_leave .user hrun rfl] at hcount
      exact (congrArg (· - 1) hcount).trans (Nat.add_sub_cancel _ _)

/-! ## Committing -/

theorem Up.changed_empty (h : fs.Up sb store) (hpc : fs.pc ≠ .idle) (q : Fin n) :
    (fs.standing q).changed = ∅ :=
  changed_of_not_running (h.quiet hpc q)

/-- A step of `commit` that is not its last. -/
theorem Up.commitFrame {store' : AtomicStore ℕ BlockData} (h : fs.Up sb store)
    (hpc : fs.pc ≠ .idle) (hpc' : fs'.pc ≠ .idle) (hstanding : fs'.standing = fs.standing)
    (hholder : fs'.holder = fs.holder) (hout : fs'.log.outstanding = fs.log.outstanding)
    (hcommitting : fs'.log.committing = fs.log.committing)
    (hentries : fs'.log.lh.entries.Sublist fs.log.lh.entries)
    (hcached : ∀ b, (fs.cache b).isSome → (fs'.cache b).isSome)
    (hpending : ∀ b ∈ fs'.pending, b ∈ fs.pending ∧ fs'.pins b = fs.pins b)
    (hview : ∀ b, sb.Home b → fs'.bread b = store'.volatile b)
    (hclean : ∀ b ∉ fs'.pending, fs'.bread b = fs'.disk b)
    (hphase : fs'.Phase sb store' fs'.pc) : fs'.Up sb store' where
  view := hview
  clean b hb _ := hclean b hb
  pinned b hb := by
    rw [(hpending b hb).2]
    have hold := h.pinned b (hpending b hb).1
    exact ⟨hold.1, hcached b hold.2⟩
  changed q b hb := by
    rw [hstanding, h.changed_empty hpc] at hb
    simp at hb
  held b q hb := by
    rw [hholder] at hb
    exact hcached b (h.held b q hb)
  home b hb := h.home b (hentries.subset hb)
  nodup := h.nodup.sublist hentries
  room := by
    have hlength := hentries.length_le
    rw [Logheader.length_entries, Logheader.length_entries] at hlength
    exact hlength.trans_lt h.room
  sized := by
    have hlength := hentries.length_le
    rw [Logheader.length_entries, Logheader.length_entries] at hlength
    exact hlength.trans h.sized
  count := by
    rw [hout, hstanding]
    exact h.count
  quiet _ := by
    rw [hstanding]
    exact h.quiet hpc
  committing := by
    rw [hcommitting]
    exact iff_of_true (h.committing.mpr hpc) hpc'
  phase := hphase

theorem Up.clean_commit (h : fs.Up sb store) (hpc : fs.pc ≠ .idle) (hb : b ∉ fs.pending) :
    fs.bread b = fs.disk b :=
  h.clean b hb (by simp [h.changed_empty hpc])

/-- `commit` goes on without touching a block. -/
theorem Up.setPc {pc : LogPc} (h : fs.Up sb store) (hpc : fs.pc ≠ .idle) (hpc' : pc ≠ .idle)
    (hpending : (fs.setPc pc).pending = fs.pending) (hphase : fs.Phase sb store pc) :
    (fs.setPc pc).Up sb store := by
  refine h.commitFrame hpc hpc' rfl rfl rfl rfl (List.Sublist.refl _) (fun _ => id)
    (fun b hb => ⟨hpending ▸ hb, rfl⟩) h.view (fun b hb => ?_) ?_
  · exact h.clean_commit hpc (hpending ▸ hb)
  · cases pc <;> exact hphase

theorem Up.writeLog (h : fs.Up sb store) (hpc : fs.pc = .writeLog tail)
    (htail : tail < fs.log.lh.n) :
    ((fs.writeLog sb tail).setPc (.writeLog (tail + 1))).Up sb store := by
  have hbusy : fs.pc ≠ .idle := by simp [hpc]
  have hphase := h.phase
  rw [hpc] at hphase
  obtain ⟨hheader, -, hcopied⟩ := hphase
  have hslot : ∀ i < fs.log.lh.n, ¬ sb.Home (sb.slot i) := by
    intro i hi
    have hroom := h.room
    exact sb.not_home_slot (by omega)
  have hpending : ((fs.writeLog sb tail).setPc (.writeLog (tail + 1))).pending = fs.pending := by
    simp [pending, hpc, Fs.setPc, Fs.writeLog, Fs.bwrite, Fs.fill]
  have hbread : ∀ b, ((fs.writeLog sb tail).setPc (.writeLog (tail + 1))).bread b =
      if b = sb.slot tail then fs.bread (fs.log.lh.block tail) else fs.bread b := by
    intro b
    exact (bread_bwrite).trans (by rw [bread_fill])
  have hdisk : ((fs.writeLog sb tail).setPc (.writeLog (tail + 1))).disk =
      Function.update fs.disk (sb.slot tail) (fs.bread (fs.log.lh.block tail)) := rfl
  refine h.commitFrame hbusy (by simp [Fs.setPc]) rfl rfl rfl rfl (List.Sublist.refl _)
    (fun b hb => isSome_bwrite (isSome_fill hb)) (fun b hb => ⟨hpending ▸ hb, rfl⟩)
    (fun b hb => ?_) (fun b hb => ?_) ?_
  · have hne : b ≠ sb.slot tail := by
      rintro rfl
      exact hslot tail htail hb
    rw [hbread, if_neg hne]
    exact h.view b hb
  · rw [hbread, hdisk, Function.update_apply]
    split_ifs
    · rfl
    · exact h.clean_commit hbusy (hpending ▸ hb)
  · refine ⟨?_, htail, fun i _ hi => ?_⟩
    · rw [hdisk]
      have hne : sb.logstart ≠ sb.slot tail := by
        simp only [Superblock.slot]
        omega
      simpa [Superblock.header, Function.update_of_ne hne] using hheader
    · have hblock : fs.log.lh.block i ≠ sb.slot tail := by
        intro heq
        refine hslot tail htail (heq ▸ h.home _ ?_)
        exact Logheader.mem_entries.mpr ⟨i, by omega, rfl⟩
      rw [hdisk, hbread]
      change _ = if fs.log.lh.block i = _ then _ else _
      rw [if_neg hblock, Function.update_apply]
      split_ifs with heq
      · obtain rfl : i = tail := by
          simp only [Superblock.slot] at heq
          omega
        rfl
      · refine hcopied i (Nat.zero_le _) ?_
        have hne : i ≠ tail := fun hit => heq (hit ▸ rfl)
        omega

/-- The header that `write_head` leaves on the disk. -/
theorem header_writeHead (sb : Superblock) (fs : Fs n) :
    (sb.header (fs.writeHead sb).disk).entries = fs.log.lh.entries ∧
      (sb.header (fs.writeHead sb).disk).n = fs.log.lh.n := by
  refine ⟨Logheader.entries_congr ?_ fun i hi => ?_, ?_⟩
  · simp [Superblock.header, writeHead, bwrite, Logheader.overlay]
  · simp [Superblock.header, writeHead, bwrite, Logheader.overlay, hi]
  · simp [Superblock.header, writeHead, bwrite, Logheader.overlay]

/-- The header is on the disk: what the buffers hold has become durable. -/
theorem Up.writeHead (h : fs.Up sb store) (hpc : fs.pc = .writeHead) :
    ((fs.writeHead sb).setPc (.installTrans 0)).Up sb { store with durable := store.volatile } ∧
      sb.ValidHeader (fs.writeHead sb).disk ∧
      ∀ b, sb.Home b → sb.recovered (fs.writeHead sb).disk b = store.volatile b := by
  have hbusy : fs.pc ≠ .idle := by simp [hpc]
  have hphase := h.phase
  rw [hpc] at hphase
  obtain ⟨-, hcopied⟩ := hphase
  obtain ⟨hentries, hn⟩ := header_writeHead sb fs
  have hpending : fs.pending = fs.log.lh.entries := by simp [pending, hpc]
  have hpending' : ((fs.writeHead sb).setPc (.installTrans 0)).pending = fs.log.lh.entries := by
    simp [pending, Fs.setPc, Fs.writeHead, bwrite]
  have hdisk : ∀ b, b ≠ sb.logstart → (fs.writeHead sb).disk b = fs.disk b := fun b hb =>
    Function.update_of_ne hb _ _
  have hbread : ∀ b, b ≠ sb.logstart → (fs.writeHead sb).bread b = fs.bread b := fun b hb =>
    bread_bwrite.trans (if_neg hb)
  have hhome : ∀ b, sb.Home b → b ≠ sb.logstart := by
    rintro b hb rfl
    exact Superblock.not_home_logstart hb
  have hslot : ∀ i, sb.slot i ≠ sb.logstart := by
    intro i
    simp only [Superblock.slot]
    omega
  have hredo : ∀ b, sb.Home b →
      redo (sb.writes (fs.writeHead sb).disk fs.log.lh.entries) (fs.writeHead sb).disk b =
        store.volatile b := by
    intro b hb
    refine redo_eq_of_forall_mem (fun write hwrite => ?_) fun hrest => ?_
    · obtain ⟨i, hi, rfl⟩ := Superblock.exists_of_mem_writes hwrite
      have hmem : fs.log.lh.entries[i] ∈ fs.log.lh.entries := List.getElem_mem hi
      rw [← h.view _ (h.home _ hmem), hdisk _ (hslot i),
        hcopied i (Nat.zero_le i) (by simpa using hi), Logheader.getElem_entries]
    · rw [Superblock.map_fst_writes] at hrest
      rw [hdisk b (hhome b hb), ← h.view b hb]
      exact (h.clean_commit hbusy (hpending ▸ hrest)).symm
  refine ⟨?_, ⟨?_, ?_, ?_⟩, ?_⟩
  · refine h.commitFrame hbusy (by simp [Fs.setPc]) rfl rfl rfl rfl (List.Sublist.refl _)
      (fun b hb => isSome_bwrite hb) (fun b hb => ⟨?_, rfl⟩) (fun b hb => ?_) (fun b hb => ?_) ?_
    · rwa [hpending, ← hpending']
    · exact (hbread b (hhome b hb)).trans (h.view b hb)
    · by_cases hstart : b = sb.logstart
      · rw [hstart]
        exact bread_bwrite.trans (by simp [Fs.setPc, Fs.writeHead, bwrite])
      · rw [hpending', ← hpending] at hb
        exact (hbread b hstart).trans ((h.clean_commit hbusy hb).trans (hdisk b hstart).symm)
    · refine ⟨⟨hentries, hredo⟩, fun i _ hi => ?_, fun _ _ => rfl⟩
      have hblock : fs.log.lh.block i ≠ sb.logstart :=
        hhome _ (h.home _ (Logheader.mem_entries.mpr ⟨i, hi, rfl⟩))
      calc (fs.writeHead sb).disk (sb.slot i) = fs.disk (sb.slot i) := hdisk _ (hslot i)
        _ = fs.bread (fs.log.lh.block i) := hcopied i (Nat.zero_le i) hi
        _ = (fs.writeHead sb).bread (fs.log.lh.block i) := (hbread _ hblock).symm
  · rw [hn]
    exact h.room
  · rw [hn]
    exact h.sized
  · rw [hentries]
    exact h.home
  · rw [Superblock.recovered, hentries]
    exact hredo

/-! ## Copying home -/

/-- One more block is home, of the log that the header on the disk describes. -/
theorem Installing.step (hinstalling : fs.Installing sb store tail)
    (hvalid : sb.ValidHeader fs.disk) (htail : tail < fs.log.lh.n)
    (hdisk : fs'.disk =
      Function.update fs.disk (fs.log.lh.block tail) (fs.disk (sb.slot tail)))
    (hlh : fs'.log.lh = fs.log.lh) :
    fs'.Installing sb store (tail + 1) ∧ sb.header fs'.disk = sb.header fs.disk ∧
      sb.recovered fs'.disk = sb.recovered fs.disk := by
  obtain ⟨hentries, hredo⟩ := hinstalling
  have hlength := congrArg List.length hentries
  rw [Logheader.length_entries, Logheader.length_entries] at hlength
  have hblock : (sb.header fs.disk).block tail = fs.log.lh.block tail := by
    have hget := congrArg (fun l : List ℕ => l[tail]?) hentries
    simpa [Logheader.entries, hlength, htail] using hget
  obtain ⟨hrecovered, hheader, hwrites⟩ := Superblock.recovered_install hvalid
    (hlength.symm ▸ htail) hblock (fs.disk (sb.slot tail))
  rw [← hdisk] at hrecovered hheader hwrites
  rw [hentries] at hwrites
  refine ⟨⟨?_, fun b hb => ?_⟩, hheader, hrecovered⟩
  · rw [hheader, hlh]
    exact hentries
  · have hdrop := sb.drop_writes fs.disk
      (show tail < fs.log.lh.entries.length by simpa using htail)
    rw [← hredo b hb, hlh, hwrites, hdrop, redo_cons, hdisk, Logheader.getElem_entries]

/-- All of the log is home. -/
theorem Installing.disk_eq (hinstalling : fs.Installing sb store tail)
    (htail : ¬ tail < fs.log.lh.n) (hb : sb.Home b) : fs.disk b = store.durable b := by
  have hdone := hinstalling.2 b hb
  rwa [List.drop_of_length_le (by simpa using htail), redo_nil] at hdone

theorem Up.installTrans (h : fs.Up sb store) (hvalid : sb.ValidHeader fs.disk)
    (hpc : fs.pc = .installTrans tail) (htail : tail < fs.log.lh.n) :
    ((fs.installTrans sb false tail).setPc (.installTrans (tail + 1))).Up sb store ∧
      sb.header (fs.installTrans sb false tail).disk = sb.header fs.disk ∧
      sb.recovered (fs.installTrans sb false tail).disk = sb.recovered fs.disk := by
  have hbusy : fs.pc ≠ .idle := by simp [hpc]
  have hphase := h.phase
  rw [hpc] at hphase
  obtain ⟨hinstalling, hcopied, hdurable⟩ := hphase
  have hroom := h.room
  have hslot : fs.bread (sb.slot tail) = fs.disk (sb.slot tail) := by
    refine h.clean_commit hbusy fun hmem => ?_
    refine sb.not_home_slot (i := tail) (by omega) (h.home _ ?_)
    rw [pending, hpc] at hmem
    exact List.mem_of_mem_drop hmem
  have hdisk : (fs.installTrans sb false tail).disk =
      Function.update fs.disk (fs.log.lh.block tail) (fs.disk (sb.slot tail)) := by
    rw [← hslot]
    rfl
  -- the data that are copied are those that the buffer has already
  have hbread : ∀ b, (fs.installTrans sb false tail).bread b = fs.bread b := by
    intro b
    refine Eq.trans (@bread_bwrite n (fs.fill (sb.slot tail)) b _ _) ?_
    rw [hslot, bread_fill]
    split_ifs with hb
    · rw [hb]
      exact hcopied tail le_rfl htail
    · rfl
  have hpending : fs.pending = fs.log.lh.entries.drop tail := by simp only [pending, hpc]
  have hdrop : fs.log.lh.entries.drop tail =
      fs.log.lh.block tail :: fs.log.lh.entries.drop (tail + 1) := by
    rw [List.drop_eq_getElem_cons (by simpa using htail), Logheader.getElem_entries]
  obtain ⟨hinstalling', hheader, hrecovered⟩ := hinstalling.step hvalid htail hdisk rfl
  refine ⟨?_, hheader, hrecovered⟩
  refine h.commitFrame hbusy (by simp [Fs.setPc]) rfl rfl rfl rfl (List.Sublist.refl _)
    (fun b hb => isSome_bwrite (isSome_fill hb)) (fun b hb => ?_)
    (fun b hb => (hbread b).trans (h.view b hb)) (fun b hb => ?_) ?_
  · change b ∈ fs.log.lh.entries.drop (tail + 1) at hb
    refine ⟨?_, Function.update_of_ne ?_ _ _⟩
    · rw [hpending, hdrop]
      exact List.mem_cons_of_mem _ hb
    · rintro rfl
      have hnodup := h.nodup.sublist (List.drop_sublist tail _)
      rw [hdrop] at hnodup
      exact (List.nodup_cons.mp hnodup).1 hb
  · change b ∉ fs.log.lh.entries.drop (tail + 1) at hb
    refine (hbread b).trans ?_
    change _ = (fs.installTrans sb false tail).disk b
    rw [hdisk, Function.update_apply]
    split_ifs with hblock
    · rw [hblock]
      exact (hcopied tail le_rfl htail).symm
    · exact h.clean_commit hbusy (by simp [hpending, hdrop, hblock, hb])
  · refine ⟨hinstalling', fun i hi hin => ?_, hdurable⟩
    change (fs.installTrans sb false tail).disk (sb.slot i) =
      (fs.installTrans sb false tail).bread (fs.log.lh.block i)
    have hne : sb.slot i ≠ fs.log.lh.block tail := by
      intro heq
      refine sb.not_home_slot (i := i) (Nat.lt_of_le_of_lt hin hroom) ?_
      rw [heq]
      exact h.home _ (Logheader.mem_entries.mpr ⟨tail, htail, rfl⟩)
    rw [hbread, hdisk, Function.update_of_ne hne]
    exact hcopied i (by omega) hin

theorem Up.installed (h : fs.Up sb store) (hpc : fs.pc = .installTrans tail)
    (htail : ¬ tail < fs.log.lh.n) : (fs.setPc .eraseHead).Up sb store := by
  have hphase := h.phase
  rw [hpc] at hphase
  obtain ⟨hinstalling, -, hdurable⟩ := hphase
  refine h.setPc (by simp [hpc]) (by simp) ?_ fun b hb => ?_
  · rw [pending, pending, hpc]
    exact (List.drop_of_length_le (by simpa using htail)).symm
  · have hdisk := hinstalling.disk_eq htail hb
    exact ⟨hdisk, hdisk.trans (hdurable b hb)⟩

/-- An empty header leaves what is at home. -/
theorem eraseHead_spec (sb : Superblock) (fs : Fs n) : (sb.header (fs.eraseHead sb).disk).n = 0 ∧
    (∀ b, sb.Home b → (fs.eraseHead sb).disk b = fs.disk b) ∧
      ∀ b, sb.Home b → (fs.eraseHead sb).bread b = fs.bread b := by
  have hne : ∀ b, sb.Home b → b ≠ sb.logstart := by
    rintro b hb rfl
    exact Superblock.not_home_logstart hb
  refine ⟨?_, fun b hb => Function.update_of_ne (hne b hb) _ _, fun b hb => ?_⟩
  · simp [Superblock.header, Fs.eraseHead, Fs.writeHead, bwrite, Logheader.overlay, setLh]
  · exact bread_bwrite.trans (if_neg (hne b hb))

theorem Up.eraseHead (h : fs.Up sb store) (hpc : fs.pc = .eraseHead) :
    ((fs.eraseHead sb).setPc .endCommit).Up sb store := by
  have hbusy : fs.pc ≠ .idle := by simp [hpc]
  obtain ⟨hheader, hdisk, hbread⟩ := eraseHead_spec sb fs
  have hentries : ((fs.eraseHead sb).setPc .endCommit).log.lh.entries = [] := by
    simp [Logheader.entries, Fs.setPc, Fs.eraseHead, Fs.writeHead, bwrite, setLh]
  have hpending : ((fs.eraseHead sb).setPc .endCommit).pending = [] := hentries
  refine h.commitFrame hbusy (by simp [Fs.setPc]) rfl rfl rfl rfl ?_
    (fun b hb => isSome_bwrite hb) (fun b hb => ?_)
    (fun b hb => (hbread b hb).trans (h.view b hb)) (fun b _ => ?_) ⟨hheader, rfl⟩
  · rw [hentries]
    exact List.nil_sublist _
  · simp [hpending] at hb
  · by_cases hstart : b = sb.logstart
    · rw [hstart]
      exact bread_bwrite.trans (by simp [Fs.setPc, Fs.eraseHead, Fs.writeHead, bwrite])
    · refine (bread_bwrite.trans (if_neg hstart)).trans ?_
      refine Eq.trans (h.clean_commit hbusy (by simp [pending, hpc])) ?_
      exact (Function.update_of_ne hstart _ _).symm

theorem Up.endCommit (h : fs.Up sb store) (hpc : fs.pc = .endCommit) :
    (fs.endCommit p).Up sb store := by
  have hbusy : fs.pc ≠ .idle := by simp [hpc]
  have hphase := h.phase
  rw [hpc] at hphase
  have hrunning : ∀ q, ((fs.endCommit p).standing q).running = false := by
    intro q
    rw [Fs.endCommit, running_wakeup, running_setStanding]
    split_ifs
    · rfl
    · exact h.quiet hbusy q
  have hpending : fs.pending = fs.log.lh.entries := by simp [pending, hpc]
  exact {
    view := h.view
    clean := fun b hb _ => h.clean_commit hbusy (hpending ▸ hb)
    pinned := fun b hb => h.pinned b (hpending ▸ hb)
    changed := by
      intro q b hb
      rw [changed_of_not_running (hrunning q)] at hb
      simp at hb
    held := h.held
    home := h.home
    nodup := h.nodup
    room := h.room
    sized := h.sized
    count := by
      refine h.count.trans ?_
      congr 1
      ext q
      simp [hrunning, h.quiet hbusy q]
    quiet := fun hpc => absurd rfl hpc
    committing := by simp [Fs.endCommit, Fs.wakeup, Fs.setStanding]
    phase := ⟨hphase.1, fun _ => hphase.2⟩ }

/-! ## Booting -/

theorem powerOn_booting {disk : ℕ → BlockData} (h : store.volatile = store.durable) :
    (powerOn disk : Fs n).Booting sb store :=
  ⟨fun _ => rfl, h, fun _ => rfl, fun _ => rfl, ⟨rfl, rfl⟩, trivial⟩

theorem Booting.readHead (h : fs.Booting sb store)
    (hdurable : ∀ b, sb.Home b → sb.recovered fs.disk b = store.durable b) :
    ((fs.readHead sb).setPc (.recoverTrans 0)).Booting sb store := by
  refine ⟨fun b => bread_fill.trans (h.view b), h.rebooted, h.user, h.holder, h.log, ?_⟩
  have hentries : (sb.header fs.disk).entries = (fs.readHead sb).log.lh.entries := by
    refine Logheader.entries_congr ?_ fun i hi => ?_
    · simp [Fs.readHead, Superblock.header, h.view, setLh]
    · simp only [Fs.readHead, setLh] at hi ⊢
      simp [Superblock.header, h.view] at hi ⊢
      simp [hi]
  refine ⟨hentries, fun b hb => ?_⟩
  rw [← hdurable b hb, Superblock.recovered, hentries]
  rfl

theorem Booting.recoverTrans (h : fs.Booting sb store) (hvalid : sb.ValidHeader fs.disk)
    (hpc : fs.pc = .recoverTrans tail) (htail : tail < fs.log.lh.n) :
    ((fs.installTrans sb true tail).setPc (.recoverTrans (tail + 1))).Booting sb store ∧
      sb.header (fs.installTrans sb true tail).disk = sb.header fs.disk ∧
      sb.recovered (fs.installTrans sb true tail).disk = sb.recovered fs.disk := by
  have hphase := h.phase
  rw [hpc] at hphase
  have hdisk : (fs.installTrans sb true tail).disk =
      Function.update fs.disk (fs.log.lh.block tail) (fs.disk (sb.slot tail)) := by
    rw [← h.view]
    rfl
  obtain ⟨hinstalling, hheader, hrecovered⟩ := Installing.step hphase hvalid htail hdisk rfl
  refine ⟨⟨fun b => ?_, h.rebooted, h.user, h.holder, h.log, hinstalling⟩, hheader, hrecovered⟩
  refine Eq.trans (@bread_bwrite n (fs.fill (sb.slot tail)) b _ _) ?_
  change _ = (fs.installTrans sb true tail).disk b
  rw [hdisk, h.view, bread_fill, h.view, Function.update_apply]

theorem Booting.recovered (h : fs.Booting sb store) (hpc : fs.pc = .recoverTrans tail)
    (htail : ¬ tail < fs.log.lh.n) : (fs.setPc .eraseRecovered).Booting sb store := by
  have hphase := h.phase
  rw [hpc] at hphase
  exact ⟨h.view, h.rebooted, h.user, h.holder, h.log, fun b hb => hphase.disk_eq htail hb⟩

theorem Booting.eraseHead (h : fs.Booting sb store) (hpc : fs.pc = .eraseRecovered) :
    ((fs.eraseHead sb).setPc .idle).Up sb store := by
  have hphase := h.phase
  rw [hpc] at hphase
  obtain ⟨hheader, hdisk, hbread⟩ := eraseHead_spec sb fs
  have hentries : ((fs.eraseHead sb).setPc .idle).log.lh.entries = [] := by
    simp [Logheader.entries, Fs.setPc, Fs.eraseHead, Fs.writeHead, bwrite, setLh]
  have hpending : ((fs.eraseHead sb).setPc .idle).pending = [] := hentries
  exact {
    view := by
      intro b hb
      rw [h.rebooted, ← hphase b hb, ← h.view]
      exact hbread b hb
    clean := by
      intro b _ _
      by_cases hstart : b = sb.logstart
      · rw [hstart]
        exact bread_bwrite.trans (by simp [Fs.setPc, Fs.eraseHead, Fs.writeHead, bwrite])
      · refine (bread_bwrite.trans (if_neg hstart)).trans ?_
        exact (h.view b).trans (Function.update_of_ne hstart _ _).symm
    pinned := by simp [hpending]
    changed := by
      intro q b hb
      have hq : fs.standing q = .user := h.user q
      change b ∈ (fs.standing q).changed at hb
      simp [hq, Standing.changed] at hb
    held := by
      intro b q hb
      have hnone : fs.holder b = none := h.holder b
      change fs.holder b = some q at hb
      simp [hnone] at hb
    home := by simp [hentries]
    nodup := by simp [hentries]
    room := sb.nlog_pos
    sized := Nat.zero_le _
    count := by
      refine h.log.1.trans (Finset.card_eq_zero.mpr ?_).symm
      rw [Finset.filter_eq_empty_iff]
      intro q _
      change ¬ (fs.standing q).running = true
      simp [h.user q, Standing.running]
    quiet := fun hpc => absurd rfl hpc
    committing := by
      have hlog : fs.log.committing = false := h.log.2
      simpa [Fs.eraseHead, Fs.writeHead, bwrite, setLh, Fs.setPc] using hlog
    phase := ⟨hheader, fun _ => rfl⟩ }

end Fs

end SistOp.Xv6
