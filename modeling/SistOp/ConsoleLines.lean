import SistOp.Console

/-!
# Lines typed at the console

The ring is a queue of entered characters and a line that is being typed: keys edit that line, and
a read takes no more than a line of what was entered.
-/

namespace SistOp.Xv6

/-! ## The ring as two lists -/

structure Terminal where
  entered : List UInt8
  editing : List UInt8

namespace Terminal

def submit (t : Terminal) (c : UInt8) : Terminal :=
  if c = newline ∨ c = control 'D' ∨ t.entered.length + t.editing.length + 1 = INPUT_BUF_SIZE then
    ⟨t.entered ++ t.editing ++ [c], []⟩
  else ⟨t.entered, t.editing ++ [c]⟩

/-- What a key does to the line. -/
def key (t : Terminal) (c : UInt8) : Terminal :=
  if c = control 'P' then t
  else if c = control 'U' then ⟨t.entered, []⟩
  else if c = control 'H' ∨ c = 0x7f then ⟨t.entered, t.editing.dropLast⟩
  else if c ≠ 0 ∧ t.entered.length + t.editing.length < INPUT_BUF_SIZE then
    t.submit (if c = '\r'.toUInt8 then newline else c)
  else t

end Terminal

namespace Cons

variable {cons : Cons} {c : UInt8} {k : ℕ}

def terminal (cons : Cons) : Terminal := ⟨cons.entered, cons.editing⟩

/-- The characters fit in the ring, with room for one more behind a line that has not been
ended. -/
structure Inv (cons : Cons) : Prop where
  bound : gap cons.r cons.w + gap cons.w cons.e ≤ INPUT_BUF_SIZE
  room : cons.w ≠ cons.e → gap cons.r cons.w + gap cons.w cons.e < INPUT_BUF_SIZE
  open_line : ∀ c ∈ cons.editing, c ≠ newline ∧ c ≠ control 'D'

theorem Inv.gap_eq (h : cons.Inv) : gap cons.r cons.e = gap cons.r cons.w + gap cons.w cons.e := by
  refine gap_add (lt_of_le_of_lt h.bound ?_)
  decide

theorem dvd_round : INPUT_BUF_SIZE ∣ 2 ^ 32 := by decide

/-- The line loses its last character. -/
theorem editing_back (h : cons.w ≠ cons.e) :
    cons.editing = ({ cons with e := cons.e - 1 } : Cons).editing ++
      [cons.buf (cell INPUT_BUF_SIZE (cons.e - 1))] :=
  segment_unpush dvd_round h

theorem editing_nil (h : cons.w = cons.e) : cons.editing = [] := by simp [editing, h]

theorem killLine_eq : ∀ {k : ℕ} {cons : Cons}, gap cons.w cons.e = k →
    (∀ c ∈ cons.editing, c ≠ newline) → cons.killLine k = { cons with e := cons.w } := by
  intro k
  induction k with
  | zero =>
      intro cons hk _
      have hempty := gap_eq_zero.mp hk
      cases cons
      simp_all [killLine]
  | succ k ih =>
      intro cons hk hline
      have hne : cons.w ≠ cons.e := by
        intro heq
        rw [heq, gap_self] at hk
        cases hk
      have hback := editing_back hne
      have hlast : cons.buf (cell INPUT_BUF_SIZE (cons.e - 1)) ≠ newline :=
        hline _ (hback ▸ List.mem_append_right _ (List.mem_singleton_self _))
      rw [killLine, if_pos ⟨hne.symm, hlast⟩, ih]
      · have hgap := gap_sub_one hne
        change gap cons.w (cons.e - 1) = k
        omega
      · exact fun c hc => hline c (hback ▸ List.mem_append_left _ hc)

/-- A new character leaves the others where they are. -/
theorem segments_push (h : cons.Inv) (hroom : gap cons.r cons.e < INPUT_BUF_SIZE) :
    segment INPUT_BUF_SIZE (Function.update cons.buf (cell INPUT_BUF_SIZE cons.e) c) cons.r
        cons.w = cons.entered ∧
      segment INPUT_BUF_SIZE (Function.update cons.buf (cell INPUT_BUF_SIZE cons.e) c) cons.w
        (cons.e + 1) = cons.editing ++ [c] ∧
      gap cons.w (cons.e + 1) = gap cons.w cons.e + 1 := by
  have hbound := h.bound
  have hgap := h.gap_eq
  simp only [INPUT_BUF_SIZE] at hroom hbound
  have hline : gap cons.w (cons.e + 1) = gap cons.w cons.e + 1 := gap_add_one (by omega)
  have hfront : segment INPUT_BUF_SIZE cons.buf cons.r cons.e = cons.entered ++ cons.editing :=
    segment_append dvd_round (by omega)
  have hall := @segment_push UInt8 32 INPUT_BUF_SIZE cons.buf cons.r cons.e c dvd_round hroom
    (by omega)
  rw [segment_append (j := cons.w) dvd_round (by omega), hfront, List.append_assoc] at hall
  obtain ⟨hentered, hediting⟩ := List.append_inj hall (by simp [entered])
  exact ⟨hentered, hediting, hline⟩

theorem store_spec (h : cons.Inv) (hroom : gap cons.r cons.e < INPUT_BUF_SIZE) :
    (cons.store c).1.Inv ∧ (cons.store c).1.terminal = cons.terminal.submit c ∧
      (cons.store c).1.r = cons.r ∧ ((cons.store c).2 = false → (cons.store c).1.w = cons.w) := by
  obtain ⟨hentered, hediting, hline⟩ := segments_push (c := c) h hroom
  have hgap := h.gap_eq
  have hround : gap cons.r (cons.e + 1) = gap cons.r cons.e + 1 := by
    refine gap_add_one ?_
    simp only [INPUT_BUF_SIZE] at hroom
    omega
  have hlength : cons.entered.length + cons.editing.length = gap cons.r cons.e := by
    rw [hgap]
    simp [entered, editing]
  have hsubmit : cons.terminal.submit c =
      if c = newline ∨ c = control 'D' ∨ gap cons.r (cons.e + 1) = INPUT_BUF_SIZE then
        ⟨cons.entered ++ cons.editing ++ [c], []⟩
      else ⟨cons.entered, cons.editing ++ [c]⟩ := by
    simp only [Terminal.submit, terminal, hlength, hround]
  rw [hsubmit]
  simp only [store]
  by_cases hend : c = newline ∨ c = control 'D' ∨ gap cons.r (cons.e + 1) = INPUT_BUF_SIZE
  · rw [if_pos hend, if_pos hend]
    refine ⟨⟨?_, fun hne => absurd rfl hne, ?_⟩, ?_, rfl, fun hwake => by cases hwake⟩
    · change gap cons.r (cons.e + 1) + gap (cons.e + 1) (cons.e + 1) ≤ INPUT_BUF_SIZE
      rw [gap_self, hround]
      exact hroom
    · simp [editing]
    · have hsplit : gap cons.r cons.w + gap cons.w (cons.e + 1) < 2 ^ 32 := by
        simp only [INPUT_BUF_SIZE] at hroom
        omega
      simp only [terminal, entered, editing, segment_self]
      rw [segment_append (j := cons.w) dvd_round hsplit, hentered, hediting,
        List.append_assoc]
      rfl
  · rw [if_neg hend, if_neg hend]
    rw [not_or, not_or] at hend
    have hfits : gap cons.r cons.w + gap cons.w (cons.e + 1) < INPUT_BUF_SIZE := by
      rw [hline]
      omega
    refine ⟨⟨hfits.le, fun _ => hfits, ?_⟩, ?_, rfl, fun _ => rfl⟩
    · intro x hx
      have hx : x ∈ cons.editing ++ [c] := hediting ▸ hx
      rcases List.mem_append.mp hx with hx | hx
      · exact h.open_line x hx
      · rw [List.mem_singleton.mp hx]
        exact ⟨hend.1, hend.2.1⟩
    · simp only [terminal, entered, editing] at hentered hediting ⊢
      rw [hentered, hediting]

/-- The interrupt does to the ring what the key does to the line. -/
theorem consoleintr_spec (h : cons.Inv) (c : UInt8) :
    (cons.consoleintr c).1.Inv ∧ (cons.consoleintr c).1.terminal = cons.terminal.key c ∧
      (cons.consoleintr c).1.r = cons.r ∧
      ((cons.consoleintr c).2 = false → (cons.consoleintr c).1.w = cons.w) := by
  rw [consoleintr, Terminal.key]
  by_cases hlist : c = control 'P'
  · rw [if_pos hlist, if_pos hlist]
    exact ⟨h, rfl, rfl, fun _ => rfl⟩
  rw [if_neg hlist, if_neg hlist]
  by_cases hkill : c = control 'U'
  · rw [if_pos hkill, if_pos hkill, killLine_eq rfl fun c hc => (h.open_line c hc).1]
    refine ⟨⟨?_, fun hne => absurd rfl hne, by simp [editing]⟩, ?_, rfl, fun _ => rfl⟩
    · have hbound := h.bound
      change gap cons.r cons.w + gap cons.w cons.w ≤ INPUT_BUF_SIZE
      rw [gap_self]
      omega
    · simp [terminal, entered, editing]
  rw [if_neg hkill, if_neg hkill]
  by_cases hback : c = control 'H' ∨ c = 0x7f
  · rw [if_pos hback, if_pos hback]
    by_cases hempty : cons.e = cons.w
    · rw [if_neg (not_not.mpr hempty)]
      exact ⟨h, by simp [terminal, editing_nil hempty.symm], rfl, fun _ => rfl⟩
    · rw [if_pos hempty]
      have hline := editing_back (Ne.symm hempty)
      have hbound := h.bound
      have hgap := gap_sub_one (Ne.symm hempty)
      have hfits : gap cons.r cons.w + gap cons.w (cons.e - 1) < INPUT_BUF_SIZE := by omega
      refine ⟨⟨hfits.le, fun _ => hfits,
        fun x hx => h.open_line x (hline ▸ List.mem_append_left _ hx)⟩, ?_, rfl, fun _ => rfl⟩
      simp only [terminal]
      rw [hline, List.dropLast_concat]
      rfl
  · rw [if_neg hback, if_neg hback]
    have hlength : cons.terminal.entered.length + cons.terminal.editing.length =
        gap cons.r cons.e := by
      rw [h.gap_eq]
      simp [terminal, entered, editing]
    rw [hlength]
    split_ifs with hroom hreturn
    · exact store_spec h hroom.2
    · exact store_spec h hroom.2
    · exact ⟨h, rfl, rfl, fun _ => rfl⟩

/-- A character is taken from the lines that wait. -/
theorem consume_spec (h : cons.Inv) (hready : cons.r ≠ cons.w) :
    ({ cons with r := cons.r + 1 } : Cons).Inv ∧
      cons.entered = cons.buf (cell INPUT_BUF_SIZE cons.r) ::
        ({ cons with r := cons.r + 1 } : Cons).entered := by
  have hbound := h.bound
  have hgap := gap_add_one_left hready
  have hfits : gap (cons.r + 1) cons.w + gap cons.w cons.e < INPUT_BUF_SIZE := by omega
  exact ⟨⟨hfits.le, fun _ => hfits, h.open_line⟩, segment_pop dvd_round hready⟩

end Cons

/-! ## Reads -/

namespace ConsoleSystem

variable {n : ℕ} {s s' : ConsoleSystem n} {p q : Fin n} {dst : List Bool} {i : ℕ} {c : UInt8}
  {pc : ReaderPc} {got : List UInt8}

/-- The read has copied out `i` characters of a line that goes on. -/
def ReadSome (got : List UInt8) (dst : List Bool) (i : ℕ) : Prop :=
  got.length = i ∧ (∀ j < i, dst[j]? = some true) ∧ ∀ c ∈ got, c ≠ newline ∧ c ≠ control 'D'

/-- A read returns how many characters it has copied out, of one line at most and without the
control-d that ends it. -/
def ReadReturns (got : List UInt8) (dst : List Bool) (r : ℤ) : Prop :=
  r = -1 ∨ r = got.length ∧ (∀ j < got.length, dst[j]? = some true) ∧
    control 'D' ∉ got ∧ newline ∉ got.dropLast

def Knows (got : List UInt8) : ReaderPc → Prop
  | .user none => True
  | .user (some (dst, r)) => ReadReturns got dst r
  | .acquire dst i | .loop dst i | .sleep dst i => ReadSome got dst i

structure Inv (s : ConsoleSystem n) : Prop where
  cons : s.cons.Inv
  lock : ∀ p dst i, s.pc p = .loop dst i → s.lock = some p
  waits : ∀ p dst i, s.pc p = .sleep dst i → s.cons.r = s.cons.w
  knows : ∀ p, Knows (s.got p) (s.pc p)

theorem ReadSome.returns (h : ReadSome got dst i) : ReadReturns got dst i := by
  obtain ⟨rfl, hcopied, hline⟩ := h
  exact .inr ⟨rfl, hcopied, fun hc => (hline _ hc).2 rfl,
    fun hc => (hline _ (List.mem_of_mem_dropLast hc)).1 rfl⟩

theorem knows_woken : Knows got pc.woken ↔ Knows got pc := by
  cases pc <;> rfl

/-- The process with the lock, or on its way to it, goes on. -/
theorem Inv.goto (h : s.Inv) (cons : Cons) (hcons : cons.Inv) (lock : Option (Fin n))
    (hlock : ∀ q, q ≠ p → ∀ dst i, s.pc q = .loop dst i → lock = some q)
    (hloop : ∀ dst i, pc = .loop dst i → lock = some p)
    (hwaits : ∀ q dst i, q ≠ p → s.pc q = .sleep dst i → cons.r = cons.w)
    (hsleep : ∀ dst i, pc = .sleep dst i → cons.r = cons.w) (bytes : List UInt8)
    (hknows : Knows bytes pc) :
    ((({ s with cons := cons, lock := lock } : ConsoleSystem n).setGot p bytes).goto p pc).Inv where
  cons := hcons
  lock q dst i hq := by
    by_cases hqp : q = p
    · subst hqp
      simp only [ConsoleSystem.goto, Function.update_self] at hq
      exact hloop dst i hq
    · simp only [ConsoleSystem.goto, Function.update_of_ne hqp] at hq
      exact hlock q hqp dst i hq
  waits q dst i hq := by
    by_cases hqp : q = p
    · subst hqp
      simp only [ConsoleSystem.goto, Function.update_self] at hq
      exact hsleep dst i hq
    · simp only [ConsoleSystem.goto, Function.update_of_ne hqp] at hq
      exact hwaits q dst i hqp hq
  knows q := by
    by_cases hqp : q = p
    · subst hqp
      simpa [ConsoleSystem.goto, setGot] using hknows
    · simpa [ConsoleSystem.goto, setGot, hqp] using h.knows q

theorem Inv.wake (h : s.Inv) (cons : Cons) (hcons : cons.Inv) (killed : Fin n → Bool)
    {pcs : Fin n → ReaderPc} (hpcs : ∀ p, pcs p = s.pc p ∨ pcs p = (s.pc p).woken)
    (hwaits : ∀ p dst i, pcs p = .sleep dst i → cons.r = cons.w) :
    ({ s with cons := cons, killed := killed, pc := pcs } : ConsoleSystem n).Inv where
  cons := hcons
  lock p dst i hp := by
    refine h.lock p dst i ?_
    change pcs p = .loop dst i at hp
    rcases hpcs p with hpc | hpc
    · rwa [hpc] at hp
    · cases hpcp : s.pc p <;> simp_all [ReaderPc.woken]
  waits := hwaits
  knows p := by
    rcases hpcs p with hpc | hpc
    · simp only [hpc]
      exact h.knows p
    · simp only [hpc]
      exact knows_woken.mpr (h.knows p)

theorem Inv.key (h : s.Inv) (hstep : s.act (.key c) = some s') : s'.Inv := by
  simp only [act, Option.ite_none_right_eq_some, Option.some.injEq] at hstep
  obtain ⟨-, rfl⟩ := hstep
  obtain ⟨hcons, -, hr, hw⟩ := Cons.consoleintr_spec h.cons c
  split_ifs with hwake
  · refine h.wake _ hcons s.killed (fun p => .inr rfl) fun p dst i hp => ?_
    cases hpc : s.pc p <;> simp [ReaderPc.woken, hpc] at hp
  · refine h.wake _ hcons s.killed (fun p => .inl rfl) fun p dst i hp => ?_
    rw [hr, hw (by simpa using hwake)]
    exact h.waits p dst i hp

theorem Inv.kill (h : s.Inv) (hstep : s.act (.kill p) = some s') : s'.Inv := by
  obtain rfl := Option.some.inj hstep
  refine h.wake s.cons h.cons _ (fun q => ?_) fun q dst i hq => ?_
  · by_cases hqp : q = p
    · exact .inr (by simp [hqp])
    · exact .inl (by simp [hqp])
  · refine h.waits q dst i ?_
    by_cases hqp : q = p
    · subst hqp
      simp only [Function.update_self] at hq
      cases hpc : s.pc q <;> simp [ReaderPc.woken, hpc] at hq
    · simpa [hqp] using hq

theorem Inv.readLoop (h : s.Inv) (hp : s.pc p = .loop dst i) : (s.readLoop p dst i).Inv := by
  have hread : ReadSome (s.got p) dst i := by simpa [hp, Knows] using h.knows p
  have hlock := h.lock p dst i hp
  have hother : ∀ q, q ≠ p → ∀ dst i, s.pc q ≠ .loop dst i := by
    intro q hqp dst' i' hq
    have hq := h.lock q dst' i' hq
    rw [hlock, Option.some.injEq] at hq
    exact hqp hq.symm
  -- giving up the lock with the ring as it is, or with a character taken from it
  have hrelease : ∀ (cons : Cons) (pc : ReaderPc) (bytes : List UInt8), cons.Inv →
      (∀ q dst i, q ≠ p → s.pc q = .sleep dst i → cons.r = cons.w) →
      (∀ dst i, pc ≠ .loop dst i) → (∀ dst i, pc = .sleep dst i → cons.r = cons.w) →
      Knows bytes pc → ((({ s with cons := cons, lock := none } : ConsoleSystem n).setGot p
        bytes).goto p pc).Inv := by
    intro cons pc bytes hcons hwaits hloop hsleep hknows
    exact h.goto cons hcons none (fun q hqp dst i hq => absurd hq (hother q hqp dst i))
      (fun dst i hpc => absurd hpc (hloop dst i)) hwaits hsleep bytes hknows
  have hkept : ∀ (cons : Cons) (pc : ReaderPc), cons.Inv →
      (∀ q dst i, q ≠ p → s.pc q = .sleep dst i → cons.r = cons.w) →
      (∀ dst i, pc ≠ .loop dst i) → (∀ dst i, pc = .sleep dst i → cons.r = cons.w) →
      Knows (s.got p) pc → (({ s with cons := cons } : ConsoleSystem n).release p pc).Inv := by
    intro cons pc hcons hwaits hloop hsleep hknows
    have hkept := hrelease cons pc (s.got p) hcons hwaits hloop hsleep hknows
    have hgot : Function.update s.got p (s.got p) = s.got := Function.update_eq_self p s.got
    simpa [setGot, hgot, ConsoleSystem.release] using hkept
  have hwaits : ∀ q dst i, q ≠ p → s.pc q = .sleep dst i → s.cons.r = s.cons.w :=
    fun q dst i _ hq => h.waits q dst i hq
  cases hcopied : dst[i]? with
  | none =>
      simp only [ConsoleSystem.readLoop, hcopied]
      exact hkept s.cons _ h.cons hwaits (by simp) (by simp) hread.returns
  | some copied =>
      simp only [ConsoleSystem.readLoop, hcopied]
      by_cases hempty : s.cons.r = s.cons.w
      · rw [if_pos hempty]
        split_ifs
        · exact hkept s.cons _ h.cons hwaits (by simp) (by simp) (.inl rfl)
        · exact hkept s.cons _ h.cons hwaits (by simp) (fun _ _ _ => hempty) hread
      · rw [if_neg hempty]
        obtain ⟨hcons, -⟩ := Cons.consume_spec h.cons hempty
        have hnobody : ∀ q dst i, q ≠ p → s.pc q = .sleep dst i →
            s.cons.r + 1 = s.cons.w := fun q dst i _ hq => absurd (h.waits q dst i hq) hempty
        have hreturns := hread.returns
        obtain ⟨hlength, hall, hline⟩ := hread
        generalize hc : s.cons.buf (cell INPUT_BUF_SIZE s.cons.r) = c
        by_cases heof : c = control 'D'
        · rw [if_pos heof]
          have hback : s.cons.r + 1 - 1 = s.cons.r := by ring
          split_ifs with hfirst
          · simp only [hback]
            exact hkept s.cons _ h.cons hwaits (by simp) (by simp) hreturns
          · exact hkept _ _ hcons hnobody (by simp) (by simp) hreturns
        · rw [if_neg heof]
          by_cases hfault : copied = false
          · rw [if_pos hfault]
            exact hkept _ _ hcons hnobody (by simp) (by simp) hreturns
          · rw [if_neg hfault]
            have hcopied' : ∀ j < i + 1, dst[j]? = some true := by
              intro j hj
              rcases Nat.lt_succ_iff_lt_or_eq.mp hj with hj | rfl
              · exact hall j hj
              · simpa using hcopied.trans (by simpa using hfault)
            split_ifs with hend
            · refine hrelease _ _ _ hcons hnobody (by simp) (by simp) (.inr ⟨?_, ?_, ?_, ?_⟩)
              · simp [hlength]
              · simpa [hlength] using hcopied'
              · simp only [List.mem_append, List.mem_singleton, not_or]
                exact ⟨fun hmem => (hline _ hmem).2 rfl, Ne.symm heof⟩
              · rw [List.dropLast_concat]
                exact fun hmem => (hline _ hmem).1 rfl
            · refine h.goto _ hcons s.lock (fun q hqp dst i hq => absurd hq (hother q hqp dst i))
                (fun _ _ _ => hlock) hnobody (by simp) _ ⟨by simp [hlength], hcopied', ?_⟩
              intro x hx
              rcases List.mem_append.mp hx with hx | hx
              · exact hline x hx
              · rw [List.mem_singleton.mp hx]
                exact ⟨hend, heof⟩

theorem Inv.step {e : ConsoleEvent n} (h : s.Inv) (hstep : s.Step e s') : s'.Inv := by
  cases e with
  | read p dst =>
      cases hp : s.pc p with
      | user last =>
          simp only [Step, act, hp, Option.some.injEq] at hstep
          subst hstep
          refine h.goto s.cons h.cons s.lock (fun q _ dst i hq => h.lock q dst i hq) (by simp)
            (fun q dst i _ hq => h.waits q dst i hq) (by simp) [] ⟨rfl, by simp, by simp⟩
      | _ => simp [Step, act, hp] at hstep
  | step p =>
      cases hp : s.pc p with
      | acquire dst i =>
          simp only [Step, act, hp, Option.ite_none_right_eq_some, Option.some.injEq] at hstep
          obtain ⟨hfree, rfl⟩ := hstep
          have hread : ReadSome (s.got p) dst i := by simpa [hp, Knows] using h.knows p
          have hgot : Function.update s.got p (s.got p) = s.got := Function.update_eq_self p s.got
          have hnext := h.goto (p := p) s.cons h.cons (some p)
            (fun q _ dst i hq => by simp [h.lock q dst i hq] at hfree) (fun _ _ _ => rfl)
            (fun q dst i _ hq => h.waits q dst i hq) (by simp) (s.got p)
            (show Knows (s.got p) (.loop dst i) from hread)
          simpa [setGot, hgot] using hnext
      | loop dst i =>
          simp only [Step, act, hp, Option.some.injEq] at hstep
          exact hstep ▸ h.readLoop hp
      | user last | sleep dst i => simp [Step, act, hp] at hstep
  | key c => exact h.key hstep
  | kill p => exact h.kill hstep

section Runs

variable {buf : ℕ → UInt8} {l : List (ConsoleEvent n × ConsoleSystem n)}

theorem inv_of_runs (h : Runs Step (consoleinit buf) l s) : s.Inv := by
  refine h.invariant ⟨⟨?_, fun hne => absurd rfl hne, ?_⟩, ?_, ?_, fun _ => trivial⟩
    fun _ _ _ hinv hstep => hinv.step hstep
  · simp [consoleinit]
  · simp [consoleinit, Cons.editing]
  · simp [consoleinit]
  · simp [consoleinit]

theorem cons_readLoop (s : ConsoleSystem n) (p : Fin n) (dst : List Bool) (i : ℕ) :
    (s.readLoop p dst i).cons = s.cons ∨
      s.cons.r ≠ s.cons.w ∧ (s.readLoop p dst i).cons = { s.cons with r := s.cons.r + 1 } := by
  have hback : s.cons.r + 1 - 1 = s.cons.r := by ring
  cases hcopied : dst[i]? with
  | none =>
      simp only [ConsoleSystem.readLoop, hcopied]
      exact .inl rfl
  | some copied =>
      simp only [ConsoleSystem.readLoop, hcopied, hback]
      split_ifs with hempty
      · exact .inl rfl
      · exact .inl rfl
      · exact .inl rfl
      · exact .inr ⟨hempty, rfl⟩
      · exact .inr ⟨hempty, rfl⟩
      · exact .inr ⟨hempty, rfl⟩
      · exact .inr ⟨hempty, rfl⟩

/-- A line with two mistakes taken back, and a line behind it, are typed, and a read gets the
first. -/
def twoLines (p : Fin n) : List (ConsoleEvent n) :=
  [.key 99, .key 8, .key 108, .key 0x7f, .key 108, .key 115, .key 13, .key 100, .key 10,
    .read p [true, true, true, true]] ++ .replicate 4 (.step p)

/-- A key edits the line that is being typed, or ends it; everything else leaves the lines alone
or takes the first character of those that were entered. -/
theorem terminal_of_consoleintr {e : ConsoleEvent n} (h : Runs Step (consoleinit buf) l s)
    (hstep : s.Step e s') :
    match e with
    | .key c => s'.cons.terminal = s.cons.terminal.key c
    | _ => s'.cons.terminal = s.cons.terminal ∨ ∃ c, s.cons.terminal.entered =
        c :: s'.cons.terminal.entered ∧ s'.cons.terminal.editing = s.cons.terminal.editing := by
  have hinv := inv_of_runs h
  cases e with
  | read p dst =>
      cases hp : s.pc p with
      | user last =>
          simp only [Step, act, hp, Option.some.injEq] at hstep
          exact .inl (hstep ▸ rfl)
      | _ => simp [Step, act, hp] at hstep
  | step p =>
      cases hp : s.pc p with
      | acquire dst i =>
          simp only [Step, act, hp, Option.ite_none_right_eq_some, Option.some.injEq] at hstep
          exact .inl (hstep.2 ▸ rfl)
      | loop dst i =>
          simp only [Step, act, hp, Option.some.injEq] at hstep
          subst hstep
          rcases cons_readLoop s p dst i with hcons | ⟨hready, hcons⟩
          · exact .inl (congrArg Cons.terminal hcons)
          · rw [hcons]
            exact .inr ⟨_, (Cons.consume_spec hinv.cons hready).2, rfl⟩
      | user last | sleep dst i => simp [Step, act, hp] at hstep
  | key c =>
      simp only [Step, act, Option.ite_none_right_eq_some, Option.some.injEq] at hstep
      obtain ⟨-, rfl⟩ := hstep
      have hspec := (Cons.consoleintr_spec hinv.cons c).2.1
      split_ifs <;> exact hspec
  | kill p => exact .inl (Option.some.inj hstep ▸ rfl)

theorem terminal_of_consoleintr_twoLines : ∃ s s' : ConsoleSystem 1,
    s.cons.entered = [100, 10] ∧ s.Step (.key 104) s' ∧
      s'.cons.terminal = s.cons.terminal.key 104 := by
  obtain ⟨l, s, hrun, hend⟩ := Runs.exists_of_events act (consoleinit fun _ => 0)
    (twoLines (0 : Fin 1)) (fun s => decide (s.cons.entered = [100, 10] ∧
      (s.act (.key 104)).isSome)) (by decide +kernel)
  obtain ⟨hentered, hkey⟩ := of_decide_eq_true hend
  obtain ⟨s', hstep⟩ := Option.isSome_iff_exists.mp hkey
  exact ⟨s, s', hentered, hstep, terminal_of_consoleintr hrun hstep⟩

/-- What is returned is what was copied out: one line at most, and no control-d. -/
theorem consoleread_returns {r : ℤ} (h : Runs Step (consoleinit buf) l s)
    (hp : s.pc p = .user (some (dst, r))) : ReadReturns (s.got p) dst r := by
  have hknows := (inv_of_runs h).knows p
  rwa [hp] at hknows

theorem consoleread_returns_twoLines : ∃ s : ConsoleSystem 1, s.got 0 = [108, 115, 10] ∧
    ReadReturns (s.got 0) [true, true, true, true] 3 := by
  obtain ⟨l, s, hrun, hend⟩ := Runs.exists_of_events act (consoleinit fun _ => 0)
    (twoLines (0 : Fin 1)) (fun s => decide (s.got 0 = [108, 115, 10] ∧
      s.pc 0 = .user (some ([true, true, true, true], 3)))) (by decide +kernel)
  obtain ⟨hgot, hp⟩ := of_decide_eq_true hend
  exact ⟨s, hgot, consoleread_returns hrun hp⟩

/-- No reader sleeps once a line has been entered, and the ring is never full of a line that
cannot be ended. -/
theorem consoleread_asleep (h : Runs Step (consoleinit buf) l s) :
    (∀ p dst i, s.pc p = .sleep dst i → s.cons.entered = []) ∧
      (s.cons.entered = [] → s.cons.editing.length < INPUT_BUF_SIZE) := by
  have hinv := inv_of_runs h
  refine ⟨fun p dst i hp => ?_, fun hentered => ?_⟩
  · simp [Cons.entered, hinv.waits p dst i hp]
  · have hempty : gap s.cons.r s.cons.w = 0 := by
      simpa [Cons.entered] using congrArg List.length hentered
    rw [Cons.editing, length_segment]
    by_cases hline : s.cons.w = s.cons.e
    · rw [hline, gap_self]
      decide
    · have hroom := hinv.cons.room hline
      omega

/-- A read gets a line, the next one sleeps, and a key of the next line is typed. -/
theorem consoleread_asleep_nextLine : ∃ s : ConsoleSystem 1, s.cons.editing = [97] ∧
    s.pc 0 = .sleep [true] 0 ∧ s.cons.entered = [] ∧
      s.cons.editing.length < INPUT_BUF_SIZE := by
  obtain ⟨l, s, hrun, hend⟩ := Runs.exists_of_events act (consoleinit fun _ => 0)
    [.key 99, .key 10, .read 0 [true, true, true, true], .step 0, .step 0, .step 0,
      .read 0 [true], .step 0, .step 0, .key 97]
    (fun s : ConsoleSystem 1 => decide (s.cons.editing = [97] ∧ s.pc 0 = .sleep [true] 0))
    (by decide +kernel)
  obtain ⟨hediting, hsleep⟩ := of_decide_eq_true hend
  have hentered := (consoleread_asleep hrun).1 0 _ _ hsleep
  exact ⟨s, hediting, hsleep, hentered, (consoleread_asleep hrun).2 hentered⟩

end Runs

end ConsoleSystem

end SistOp.Xv6
