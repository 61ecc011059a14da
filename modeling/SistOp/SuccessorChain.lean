import Mathlib.Tactic

/-!
# Chains of a successor map

A partial successor map `next : α → Option α` links cells into chains.
`IsChain next cs` says that `cs` follows the map from its head to a cell without
successor.  A chain is determined by its head and visits no cell twice, it
survives changes of the map off its cells, and it grows at its end by linking a
new cell.
-/

namespace SistOp.SuccessorChain

variable {α : Type*} {next next' : α → Option α}

/-- `cs` is a non-empty list that follows `next` and ends where it stops. -/
def IsChain (next : α → Option α) : List α → Prop
  | [] => False
  | [c] => next c = none
  | c :: d :: cs => next c = some d ∧ IsChain next (d :: cs)

instance [DecidableEq α] (next : α → Option α) :
    (cs : List α) → Decidable (IsChain next cs)
  | [] => isFalse id
  | [c] => inferInstanceAs (Decidable (next c = none))
  | c :: d :: cs =>
      have := instDecidableIsChainOfDecidableEq next (d :: cs)
      inferInstanceAs (Decidable (next c = some d ∧ IsChain next (d :: cs)))

@[simp] theorem isChain_singleton (c : α) :
    IsChain next [c] ↔ next c = none := Iff.rfl

@[simp] theorem isChain_cons_cons (c d : α) (cs : List α) :
    IsChain next (c :: d :: cs) ↔ next c = some d ∧ IsChain next (d :: cs) :=
  Iff.rfl

theorem IsChain.ne_nil {cs : List α} (h : IsChain next cs) : cs ≠ [] := by
  rintro rfl
  exact h

theorem IsChain.tail {c d : α} {cs : List α} (h : IsChain next (c :: d :: cs)) :
    IsChain next (d :: cs) := h.2

/-- A chain is determined by its head. -/
theorem IsChain.unique {c : α} {cs ds : List α}
    (hcs : IsChain next (c :: cs)) (hds : IsChain next (c :: ds)) : cs = ds := by
  induction cs generalizing c ds with
  | nil =>
      cases ds with
      | nil => rfl
      | cons d ds =>
          rw [isChain_singleton] at hcs
          rw [isChain_cons_cons, hcs] at hds
          exact absurd hds.1 (by simp)
  | cons d cs ih =>
      cases ds with
      | nil =>
          rw [isChain_singleton] at hds
          rw [isChain_cons_cons, hds] at hcs
          exact absurd hcs.1 (by simp)
      | cons e ds =>
          have hde : d = e := by
            rw [isChain_cons_cons] at hcs hds
            exact Option.some.inj (hcs.1.symm.trans hds.1)
          subst hde
          rw [ih hcs.tail hds.tail]

theorem IsChain.append_right {cs ds : List α} (h : IsChain next (cs ++ ds))
    (hds : ds ≠ []) : IsChain next ds := by
  induction cs with
  | nil => exact h
  | cons c cs ih =>
      cases cs with
      | nil =>
          cases ds with
          | nil => contradiction
          | cons d ds => exact h.2
      | cons d cs => exact ih h.2

/-- A chain visits no cell twice. -/
theorem IsChain.nodup {cs : List α} (h : IsChain next cs) : cs.Nodup := by
  induction cs with
  | nil => exact List.nodup_nil
  | cons c cs ih =>
      rw [List.nodup_cons]
      cases cs with
      | nil => simp
      | cons d ds =>
          refine ⟨?_, ih h.tail⟩
          intro hmem
          -- a second visit of `c` would start a chain that is a proper suffix
          obtain ⟨front, back, hsplit⟩ := List.append_of_mem hmem
          have hback : IsChain next (c :: back) := by
            have htail := h.tail
            rw [hsplit] at htail
            exact htail.append_right (by simp)
          have hlength := congrArg List.length (h.unique hback)
          rw [hsplit] at hlength
          simp only [List.length_append, List.length_cons] at hlength
          omega

theorem IsChain.next_getElem {cs : List α} (h : IsChain next cs) {i : ℕ}
    (hi : i + 1 < cs.length) : next cs[i] = some cs[i + 1] := by
  induction cs generalizing i with
  | nil => simp at hi
  | cons c cs ih =>
      cases cs with
      | nil => simp at hi
      | cons d ds =>
          cases i with
          | zero => simpa using h.1
          | succ i =>
              have hi' : i + 1 < (d :: ds).length := by
                simpa using hi
              simpa using ih h.tail hi'

theorem IsChain.next_last {cs : List α} (h : IsChain next cs) {i : ℕ}
    (hi : i < cs.length) (hlast : i + 1 = cs.length) : next cs[i] = none := by
  induction cs generalizing i with
  | nil => simp at hi
  | cons c cs ih =>
      cases cs with
      | nil =>
          have hzero : i = 0 := by simpa using hlast
          subst hzero
          simpa using h
      | cons d ds =>
          cases i with
          | zero => simp at hlast
          | succ i =>
              have hi' : i < (d :: ds).length := by simpa using hi
              simpa using ih h.tail hi' (by simpa using hlast)

/-- A chain only depends on the map at its own cells. -/
theorem IsChain.congr {cs : List α} (h : IsChain next cs)
    (hsame : ∀ c ∈ cs, next' c = next c) : IsChain next' cs := by
  induction cs with
  | nil => exact h
  | cons c cs ih =>
      cases cs with
      | nil =>
          rw [isChain_singleton] at h ⊢
          rw [hsame c (by simp), h]
      | cons d ds =>
          refine ⟨?_, ih h.tail fun e he => hsame e (List.mem_cons_of_mem c he)⟩
          rw [hsame c (by simp)]
          exact h.1

/-- Linking a new cell behind the last one makes the chain one cell longer. -/
theorem IsChain.extend {cs : List α} {last new : α}
    (h : IsChain next (cs ++ [last])) (hlast : next' last = some new)
    (hnew : next' new = none) (hsame : ∀ c ∈ cs, next' c = next c) :
    IsChain next' (cs ++ [last, new]) := by
  induction cs with
  | nil => exact ⟨hlast, hnew⟩
  | cons c cs ih =>
      have hrest : ∀ e ∈ cs, next' e = next e := fun e he =>
        hsame e (List.mem_cons_of_mem c he)
      cases cs with
      | nil =>
          refine ⟨?_, ih h.tail hrest⟩
          rw [hsame c (by simp)]
          exact h.1
      | cons d ds =>
          refine ⟨?_, ih h.tail hrest⟩
          rw [hsame c (by simp)]
          exact h.1

/-! ## Reachable cells -/

/-- The second cell is reached from the first by following the map. -/
def Reaches (next : α → Option α) : α → α → Prop :=
  Relation.ReflTransGen fun c d => next c = some d

theorem reaches_of_none {c x : α} (hc : next c = none) : Reaches next c x ↔ x = c := by
  rw [Reaches, Relation.ReflTransGen.cases_head_iff]
  simp [hc, eq_comm]

theorem reaches_of_some {c d x : α} (hc : next c = some d) :
    Reaches next c x ↔ x = c ∨ Reaches next d x := by
  rw [Reaches, Relation.ReflTransGen.cases_head_iff]
  simp [hc, eq_comm]

/-- From the head of a chain exactly its cells are reached. -/
theorem IsChain.reaches_iff {c x : α} {cs : List α} (h : IsChain next (c :: cs)) :
    Reaches next c x ↔ x ∈ c :: cs := by
  induction cs generalizing c with
  | nil => rw [reaches_of_none h, List.mem_singleton]
  | cons d cs ih => simp [reaches_of_some h.1, ih h.tail]

/-- A walk does not need the link of a cell that it has left for good. -/
theorem reaches_unlinked {c d x : α} (hc : next c = some d) (hnone : next' c = none)
    (hsame : ∀ y ≠ c, next' y = next y) :
    Reaches next c x ↔ x = c ∨ Reaches next' d x := by
  constructor
  · intro h
    induction h with
    | refl => exact .inl rfl
    | @tail y z _ hstep ih =>
        by_cases hy : y = c
        · subst hy
          obtain rfl := Option.some.inj (hc.symm.trans hstep)
          exact .inr Relation.ReflTransGen.refl
        · have hstep' : next' y = some z := (hsame y hy).trans hstep
          exact .inr ((ih.resolve_left hy).tail hstep')
  · rintro (rfl | h)
    · exact Relation.ReflTransGen.refl
    · refine Relation.ReflTransGen.head hc (Relation.ReflTransGen.mono (fun y z hstep => ?_) _ _ h)
      have hy : y ≠ c := by
        rintro rfl
        simp [hnone] at hstep
      exact (hsame y hy).symm.trans hstep

/-! ## Cycles -/

/-- Some cell that is reached from the first is reached again from its successor. -/
def LeadsToCycle (next : α → Option α) (c : α) : Prop :=
  ∃ d e, Reaches next c d ∧ next d = some e ∧ Reaches next e d

theorem LeadsToCycle.of_next {c d : α} (hc : next c = some d) (h : LeadsToCycle next d) :
    LeadsToCycle next c := by
  obtain ⟨x, y, hx, hy, hback⟩ := h
  exact ⟨x, y, Relation.ReflTransGen.head hc hx, hy, hback⟩

theorem IsChain.not_leadsToCycle {c : α} {cs : List α} (h : IsChain next (c :: cs)) :
    ¬ LeadsToCycle next c := by
  induction cs generalizing c with
  | nil =>
      rintro ⟨d, e, hd, he, -⟩
      obtain rfl := (reaches_of_none h).mp hd
      exact absurd ((isChain_singleton d).mp h) (by simp [he])
  | cons d ds ih =>
      rintro ⟨x, y, hx, hy, hback⟩
      rcases (reaches_of_some h.1).mp hx with rfl | hx
      · -- the head would be visited again
        obtain rfl := Option.some.inj (hy.symm.trans h.1)
        exact (List.nodup_cons.mp h.nodup).1 ((h.tail.reaches_iff).mp hback)
      · exact ih h.tail ⟨x, y, hx, hy, hback⟩

/-- A walk among finitely many cells ends unless it leads to a cycle. -/
theorem exists_isChain {c : α} (hfinite : {x | Reaches next c x}.Finite)
    (hcycle : ¬ LeadsToCycle next c) : ∃ cs, IsChain next (c :: cs) := by
  induction hcard : {x | Reaches next c x}.ncard using Nat.strong_induction_on generalizing c with
  | _ n ih =>
      subst hcard
      cases hnext : next c with
      | none => exact ⟨[], hnext⟩
      | some d =>
          have hsubset : {x | Reaches next d x} ⊆ {x | Reaches next c x} := fun x hx =>
            Relation.ReflTransGen.head hnext hx
          have hleft : c ∉ {x | Reaches next d x} := fun hback =>
            hcycle ⟨c, d, Relation.ReflTransGen.refl, hnext, hback⟩
          have hless : {x | Reaches next d x}.ncard < {x | Reaches next c x}.ncard :=
            Set.ncard_lt_ncard
              ⟨hsubset, fun hall => hleft (hall Relation.ReflTransGen.refl)⟩ hfinite
          obtain ⟨cs, hcs⟩ := ih _ hless (hfinite.subset hsubset)
            (fun h => hcycle (h.of_next hnext)) rfl
          exact ⟨d :: cs, hnext, hcs⟩

theorem exists_isChain_iff {c : α} (hfinite : {x | Reaches next c x}.Finite) :
    (∃ cs, IsChain next (c :: cs)) ↔ ¬ LeadsToCycle next c := by
  constructor
  · rintro ⟨cs, hcs⟩
    exact hcs.not_leadsToCycle
  · exact exists_isChain hfinite

end SistOp.SuccessorChain
