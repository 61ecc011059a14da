import SistOp.PointerHeap
import Mathlib.Tactic

/-!
# Linked cells of a heap

`ListFrom h link start as` says that following `link` from `start` visits the live
cells `as` and then ends at a null pointer.  Such a list is determined by its start,
it survives changes of other cells, and a cell can be taken out of it.
-/

namespace SistOp.Heap

variable {β : Type*} {h h' : Heap β} {link : β → Option ℕ}

def ListFrom (h : Heap β) (link : β → Option ℕ) : Option ℕ → List ℕ → Prop
  | start, [] => start = none
  | start, a :: as => start = some a ∧ ∃ x, h.get a = some x ∧ ListFrom h link (link x) as

theorem ListFrom.live {start : Option ℕ} {as : List ℕ} (hlist : ListFrom h link start as)
    {a : ℕ} (ha : a ∈ as) : ∃ x, h.get a = some x := by
  induction as generalizing start with
  | nil => simp at ha
  | cons b as ih =>
      obtain ⟨-, x, hx, hrest⟩ := hlist
      rcases List.mem_cons.mp ha with rfl | hmem
      · exact ⟨x, hx⟩
      · exact ih hrest hmem

theorem ListFrom.unique {start : Option ℕ} {as bs : List ℕ}
    (has : ListFrom h link start as) (hbs : ListFrom h link start bs) : as = bs := by
  induction as generalizing start bs with
  | nil =>
      cases bs with
      | nil => rfl
      | cons b bs =>
          rw [show start = none from has] at hbs
          exact absurd hbs.1 (by simp)
  | cons a as ih =>
      obtain ⟨hstart, x, hx, hrest⟩ := has
      cases bs with
      | nil =>
          rw [show start = none from hbs] at hstart
          contradiction
      | cons b bs =>
          obtain ⟨hstart', y, hy, hrest'⟩ := hbs
          obtain rfl : a = b := Option.some.inj (hstart.symm.trans hstart')
          obtain rfl := Option.some.inj (hx.symm.trans hy)
          rw [ih hrest hrest']

theorem ListFrom.of_append {start : Option ℕ} {front rest : List ℕ} {a : ℕ}
    (hlist : ListFrom h link start (front ++ a :: rest)) :
    ListFrom h link (some a) (a :: rest) := by
  induction front generalizing start with
  | nil =>
      obtain ⟨-, hrest⟩ := hlist
      exact ⟨rfl, hrest⟩
  | cons b front ih =>
      obtain ⟨-, x, -, hrest⟩ := hlist
      exact ih hrest

/-- A list that ends visits no cell twice. -/
theorem ListFrom.nodup {start : Option ℕ} {as : List ℕ} (hlist : ListFrom h link start as) :
    as.Nodup := by
  induction as generalizing start with
  | nil => exact List.nodup_nil
  | cons a as ih =>
      obtain ⟨-, x, hx, hrest⟩ := hlist
      refine List.nodup_cons.mpr ⟨fun hmem => ?_, ih hrest⟩
      obtain ⟨front, rest, rfl⟩ := List.append_of_mem hmem
      have hall : ListFrom h link (some a) (a :: (front ++ a :: rest)) := ⟨rfl, x, hx, hrest⟩
      have hagain := hrest.of_append.unique hall
      have hlength := congrArg List.length hagain
      simp only [List.length_cons, List.length_append] at hlength
      omega

/-- A list only depends on the links of its own cells. -/
theorem ListFrom.congr {start : Option ℕ} {as : List ℕ} (hlist : ListFrom h link start as)
    (hsame : ∀ a ∈ as, (h'.get a).map link = (h.get a).map link) :
    ListFrom h' link start as := by
  induction as generalizing start with
  | nil => exact hlist
  | cons a as ih =>
      obtain ⟨hstart, x, hx, hrest⟩ := hlist
      have hlink := hsame a (by simp)
      rw [hx, Option.map_some, Option.map_eq_some_iff] at hlink
      obtain ⟨y, hy, hxy⟩ := hlink
      refine ⟨hstart, y, hy, ?_⟩
      rw [hxy]
      exact ih hrest fun b hb => hsame b (List.mem_cons_of_mem a hb)

/-- Taking the cell `c` out, by letting the cell in front of it skip it. -/
theorem ListFrom.unlink {start : Option ℕ} {front rest : List ℕ} {prev c : ℕ} {x : β}
    (hlist : ListFrom h link start (front ++ prev :: c :: rest)) (hc : h.get c = some x)
    (hprev : (h'.get prev).map link = some (link x))
    (hsame : ∀ a ∈ front ++ rest, (h'.get a).map link = (h.get a).map link) :
    ListFrom h' link start (front ++ prev :: rest) := by
  induction front generalizing start with
  | nil =>
      obtain ⟨hstart, y, -, hnext, z, hz, hrest⟩ := hlist
      obtain rfl := Option.some.inj (hc.symm.trans hz)
      rw [Option.map_eq_some_iff] at hprev
      obtain ⟨w, hw, hlink⟩ := hprev
      refine ⟨hstart, w, hw, ?_⟩
      rw [hlink]
      exact hrest.congr fun a ha => hsame a (by simpa using ha)
  | cons b front ih =>
      obtain ⟨hstart, y, hy, hrest⟩ := hlist
      have hlink := hsame b (by simp)
      rw [hy, Option.map_some, Option.map_eq_some_iff] at hlink
      obtain ⟨z, hz, hyz⟩ := hlink
      refine ⟨hstart, z, hz, ?_⟩
      rw [hyz]
      exact ih hrest fun a ha => hsame a (List.mem_cons_of_mem b ha)

/-- Following links that lead to older live cells ends. -/
theorem exists_listFrom_of_older (hlive : ∀ a x b, h.get a = some x → link x = some b →
      b < a ∧ ∃ y, h.get b = some y) {start : Option ℕ}
    (hstart : ∀ a, start = some a → ∃ x, h.get a = some x) :
    ∃ as, ListFrom h link start as ∧ as.Pairwise (· > ·) ∧ ∀ a b, start = some a → b ∈ as →
      b ≤ a := by
  cases start with
  | none => exact ⟨[], rfl, List.Pairwise.nil, by simp⟩
  | some a =>
      induction a using Nat.strong_induction_on with
      | _ a ih =>
          obtain ⟨x, hx⟩ := hstart a rfl
          cases hnext : link x with
          | none =>
              refine ⟨[a], ⟨rfl, x, hx, hnext⟩, List.pairwise_singleton _ _, ?_⟩
              rintro c b hc hb
              obtain rfl := Option.some.inj hc
              simp at hb
              omega
          | some b =>
              obtain ⟨hlt, hb⟩ := hlive a x b hx hnext
              obtain ⟨as, hlist, hdecreasing, hle⟩ :=
                ih b hlt fun c hc => by obtain rfl := Option.some.inj hc; exact hb
              refine ⟨a :: as, ⟨rfl, x, hx, by rw [hnext]; exact hlist⟩,
                List.pairwise_cons.mpr ⟨fun c hc => ?_, hdecreasing⟩, ?_⟩
              · have := hle b c rfl hc
                omega
              · intro c d hc hd
                obtain rfl := Option.some.inj hc
                rcases List.mem_cons.mp hd with rfl | hd
                · exact le_rfl
                · have := hle b d rfl hd
                  omega

end SistOp.Heap
