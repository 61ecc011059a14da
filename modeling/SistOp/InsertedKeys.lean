import SistOp.TreeShape
import Mathlib.Tactic

/-!
# Searching after an insertion

`h_tree_insert` takes the way of a search for the key of its data.  If that search ends
at a node, only sizes are written again; if it ends at a null link, the new node hangs
there, a search finds it, and searches for other absent keys still fail.  Nothing is
supposed about the order of the tree.
-/

namespace SistOp.FatFuse

variable {α κ : Type}

/-- A search only depends on the comparisons it makes. -/
theorem hTreeSearchLoop_mono {cmp cmp' : α → κ → Option Ordering}
    {nodes : Heap (HNode α)} {key : κ} {fuel : ℕ} {root found : HTree}
    (hcmp : ∀ x o, cmp x key = some o → cmp' x key = some o)
    (h : hTreeSearchLoop cmp nodes key fuel root = some found) :
    hTreeSearchLoop cmp' nodes key fuel root = some found := by
  induction fuel generalizing root with
  | zero => simp [hTreeSearchLoop] at h
  | succ fuel ih =>
      cases root with
      | none => exact h
      | some a =>
          simp only [hTreeSearchLoop, Option.bind_eq_bind, Option.bind_eq_some_iff] at h ⊢
          obtain ⟨n, hn, o, ho, h⟩ := h
          refine ⟨n, hn, o, hcmp _ _ ho, ?_⟩
          cases o with
          | lt => exact ih h
          | gt => exact ih h
          | eq => exact h

section Links

variable {nodes nodes' nodes₁ nodes₂ : Heap (HNode α)}

/-- What storing the root of a subtree and updating the size write. -/
structure Relinked (nodes nodes' : Heap (HNode α)) (a : ℕ) (m m' : HNode α) : Prop where
  before : nodes.get a = some m
  self : ∃ size, nodes'.get a = some { m' with size := size }
  others : ∀ b, b ≠ a → nodes'.get b = nodes.get b
  next : nodes'.next = nodes.next
  sizes : SizesPositive nodes → SizesPositive nodes'

theorem relinked_of_eq_some {a : ℕ} {f : HNode α → HNode α}
    (hlink : nodes.modify a f = some nodes₁) (hsize : updateSize nodes₁ a = some nodes')
    (hkept : ∀ m, (f m).size = m.size) : ∃ m, Relinked nodes nodes' a m (f m) := by
  obtain ⟨m, hm, hwrite⟩ := Heap.modify_eq_some hlink
  obtain ⟨-, hnext, hself, hothers⟩ := Heap.write_eq_some hwrite
  obtain ⟨n, leftSize, rightSize, hn, -, -, hwriteSize⟩ := updateSize_eq_some hsize
  obtain ⟨-, hnextSize, hselfSize, hothersSize⟩ := Heap.write_eq_some hwriteSize
  obtain rfl := Option.some.inj (hself.symm.trans hn)
  refine ⟨m, hm, ⟨_, hselfSize⟩, fun b hb => (hothersSize b hb).trans (hothers b hb),
    hnextSize.trans hnext, fun hsizes => (updateSize_same hsize).1.sizes fun b n hb => ?_⟩
  by_cases heq : b = a
  · subst heq
    obtain rfl := Option.some.inj (hself.symm.trans hb)
    rw [hkept]
    exact hsizes b m hm
  · exact hsizes b n ((hothers b heq).symm.trans hb)

theorem Relinked.grown {a : ℕ} {m m' : HNode α} (h : Relinked nodes nodes' a m m')
    (hgrown : m.Grown m') : TreeGrown nodes nodes' := by
  refine ⟨h.next.ge, fun b n hn => ?_, h.sizes⟩
  by_cases hb : b = a
  · subst hb
    obtain rfl := Option.some.inj (h.before.symm.trans hn)
    obtain ⟨size, hself⟩ := h.self
    exact ⟨_, hself, hgrown.data, hgrown.hParent, hgrown.hNextSibling, hgrown.left,
      hgrown.right⟩
  · exact ⟨n, (h.others b hb).trans hn, HNode.Grown.refl n⟩

theorem Relinked.sameHierarchy {a : ℕ} {m m' : HNode α} (h : Relinked nodes nodes' a m m')
    (hlinks : m'.links = m.links) : SameHierarchy nodes nodes' := by
  refine ⟨h.next, fun b => ?_⟩
  by_cases hb : b = a
  · subst hb
    obtain ⟨size, hself⟩ := h.self
    rw [hself, h.before, Option.map_some, Option.map_some]
    exact congrArg some hlinks
  · rw [h.others b hb]

/-- The links of the search tree are as before. -/
def SameLinks (nodes nodes' : Heap (HNode α)) : Prop :=
  ∀ a n', nodes'.get a = some n' →
    ∃ n, nodes.get a = some n ∧ n'.left = n.left ∧ n'.right = n.right

theorem SameLinks.relinked {a : ℕ} {n m m' : HNode α} (h : SameLinks nodes nodes₁)
    (hn : nodes.get a = some n) (hrelinked : Relinked nodes₁ nodes' a m m')
    (hleft : m'.left = n.left) (hright : m'.right = n.right) : SameLinks nodes nodes' := by
  intro b n' hn'
  by_cases hb : b = a
  · subst hb
    obtain ⟨size, hself⟩ := hrelinked.self
    obtain rfl := Option.some.inj (hself.symm.trans hn')
    exact ⟨n, hn, hleft, hright⟩
  · rw [hrelinked.others b hb] at hn'
    exact h b n' hn'

/-- A link that was null is null or leads to `new`. -/
def LinkGrown (new : ℕ) (link link' : HTree) : Prop :=
  link' = link ∨ link = none ∧ link' = some new

/-- Beyond the links of before there is at most one, to the leaf `new`. -/
structure LeafAdded (nodes nodes' : Heap (HNode α)) (new : ℕ) : Prop where
  links : ∀ a n', a ≠ new → nodes'.get a = some n' → ∃ n, nodes.get a = some n ∧
    LinkGrown new n.left n'.left ∧ LinkGrown new n.right n'.right
  leaf : ∀ n', nodes'.get new = some n' → n'.left = none ∧ n'.right = none

theorem LeafAdded.relinked {a new : ℕ} {n m m' : HNode α} (h : LeafAdded nodes nodes₁ new)
    (hne : a ≠ new) (hn : nodes.get a = some n) (hrelinked : Relinked nodes₁ nodes' a m m')
    (hleft : LinkGrown new n.left m'.left) (hright : LinkGrown new n.right m'.right) :
    LeafAdded nodes nodes' new := by
  refine ⟨fun b n' hb hn' => ?_, fun n' hn' => ?_⟩
  · by_cases hba : b = a
    · subst hba
      obtain ⟨size, hself⟩ := hrelinked.self
      obtain rfl := Option.some.inj (hself.symm.trans hn')
      exact ⟨n, hn, hleft, hright⟩
    · rw [hrelinked.others b hba] at hn'
      exact h.links b n' hb hn'
  · rw [hrelinked.others new hne.symm] at hn'
    exact h.leaf n' hn'

theorem NodeAdded.leafAdded {newData : α} {hParent : HTree}
    (h : NodeAdded nodes nodes' newData hParent) : LeafAdded nodes nodes' nodes.next := by
  refine ⟨fun a n' ha hn' => ?_, fun n' hn' => ?_⟩
  · by_cases hpa : hParent = some a
    · obtain ⟨m, hm⟩ := h.parentLive a hpa
      rw [h.parent a m hpa hm, Option.some.injEq] at hn'
      exact ⟨m, hm, Or.inl (by rw [← hn']), Or.inl (by rw [← hn'])⟩
    · rw [h.others a ha hpa] at hn'
      exact ⟨n', hn', Or.inl rfl, Or.inl rfl⟩
  · obtain ⟨n, hn, hleft, hright, -⟩ := h.new
    obtain rfl := Option.some.inj (hn.symm.trans hn')
    exact ⟨hleft, hright⟩

end Links

/-! ## The key of the insertion -/

section Insertion

variable {dataCmp : α → α → Option Ordering} {dataCmpKey : α → κ → Option Ordering}
  {newData : α} {key : κ} {hParent : HTree} {fuel : ℕ} {nodes nodes' : Heap (HNode α)}
  {root root' : HTree}

/-- The search for the key of the new data had found a node. -/
structure KeyKnown (dataCmpKey : α → κ → Option Ordering) (key : κ) (fuel : ℕ)
    (nodes nodes' : Heap (HNode α)) (root root' : HTree) : Prop where
  found : ∃ a, hTreeSearchLoop dataCmpKey nodes key fuel root = some (some a)
  keepsRoot : root' = root
  hierarchy : SameHierarchy nodes nodes'
  links : SameLinks nodes nodes'

/-- The search had found nothing, and now finds the new node. -/
structure KeyAdded (dataCmpKey : α → κ → Option Ordering) (newData : α) (key : κ)
    (hParent : HTree) (fuel : ℕ) (nodes nodes' : Heap (HNode α)) (root root' : HTree) :
    Prop where
  absent : hTreeSearchLoop dataCmpKey nodes key fuel root = some none
  found : hTreeSearchLoop dataCmpKey nodes' key fuel root' = some (some nodes.next)
  keepsRoot : LinkGrown nodes.next root root'
  hierarchy : ∃ added, NodeAdded nodes added newData hParent ∧ SameHierarchy added nodes'
  links : LeafAdded nodes nodes' nodes.next

/-- At a node that sends the search to `sub`, an insertion below `sub` shows. -/
theorem KeyKnown.relink {a : ℕ} {n m m' : HNode α} {nodes₁ : Heap (HNode α)} {sub sub' : HTree}
    (h : KeyKnown dataCmpKey key fuel nodes nodes₁ sub sub') (hn : nodes.get a = some n)
    (hrelinked : Relinked nodes₁ nodes' a m m') (hlinks : m'.links = m.links)
    (hsides : m.left = n.left → m.right = n.right →
      m'.left = n.left ∧ m'.right = n.right)
    (hsearch : ∀ found, hTreeSearchLoop dataCmpKey nodes key fuel sub = some found →
      hTreeSearchLoop dataCmpKey nodes key (fuel + 1) (some a) = some found) :
    KeyKnown dataCmpKey key (fuel + 1) nodes nodes' (some a) (some a) := by
  obtain ⟨b, hb⟩ := h.found
  obtain ⟨n₀, hn₀, hleft, hright⟩ := h.links a m hrelinked.before
  obtain rfl := Option.some.inj (hn.symm.trans hn₀)
  obtain ⟨hleft', hright'⟩ := hsides hleft hright
  exact ⟨⟨b, hsearch _ hb⟩, rfl, h.hierarchy.trans (hrelinked.sameHierarchy hlinks),
    h.links.relinked hn hrelinked hleft' hright'⟩

theorem KeyAdded.relink {a : ℕ} {n m m' : HNode α} {nodes₁ : Heap (HNode α)} {sub sub' : HTree}
    (h : KeyAdded dataCmpKey newData key hParent fuel nodes nodes₁ sub sub')
    (hn : nodes.get a = some n) (hrelinked : Relinked nodes₁ nodes' a m m')
    (hlinks : m'.links = m.links) (hgrown : m.Grown m')
    (hsides : LinkGrown nodes.next n.left m.left → LinkGrown nodes.next n.right m.right →
      LinkGrown nodes.next n.left m'.left ∧ LinkGrown nodes.next n.right m'.right)
    (hsearch : ∀ found, hTreeSearchLoop dataCmpKey nodes key fuel sub = some found →
      hTreeSearchLoop dataCmpKey nodes key (fuel + 1) (some a) = some found)
    (hsearch' : ∀ found, hTreeSearchLoop dataCmpKey nodes' key fuel sub' = some found →
      hTreeSearchLoop dataCmpKey nodes' key (fuel + 1) (some a) = some found) :
    KeyAdded dataCmpKey newData key hParent (fuel + 1) nodes nodes' (some a) (some a) := by
  have hne : a ≠ nodes.next := ne_of_lt (Heap.lt_next hn)
  obtain ⟨n₀, hn₀, hleft, hright⟩ := h.links.links a m hne hrelinked.before
  obtain rfl := Option.some.inj (hn.symm.trans hn₀)
  obtain ⟨hleft', hright'⟩ := hsides hleft hright
  obtain ⟨added, hadded, hsame⟩ := h.hierarchy
  have hfound := hTreeSearchLoop_more (hrelinked.grown hgrown) le_rfl (fun _ _ ho => ho) h.found
  exact ⟨hsearch _ h.absent, hsearch' _ hfound, Or.inl rfl,
    ⟨added, hadded, hsame.trans (hrelinked.sameHierarchy hlinks)⟩,
    h.links.relinked hne hn hrelinked hleft' hright'⟩

/-- Both ways of storing the root of a subtree keep a link that there was. -/
theorem LinkGrown.keeps {new x : ℕ} {link link₁ sub : HTree} (h : LinkGrown new link link₁)
    (hsub : ∀ y, link = some y → sub = some y) (hnull : link = none → sub = some new)
    (hx : link₁ = some x) : sub = some x := by
  rcases h with rfl | ⟨hnone, rfl⟩
  · exact hsub x hx
  · rw [hnull hnone, ← hx]

theorem hTreeInsertLoop_key
    (hmirror : ∀ x o, dataCmp newData x = some o → dataCmpKey x key = some o.swap)
    (hself : dataCmpKey newData key = some .eq)
    (h : hTreeInsertLoop dataCmp newData hParent fuel nodes root = some (nodes', root')) :
    KeyKnown dataCmpKey key fuel nodes nodes' root root' ∨
      KeyAdded dataCmpKey newData key hParent fuel nodes nodes' root root' := by
  induction fuel generalizing nodes nodes' root root' with
  | zero => simp [hTreeInsertLoop] at h
  | succ fuel ih =>
      cases root with
      | none =>
          simp only [hTreeInsertLoop, Option.bind_eq_bind, Option.bind_eq_some_iff,
            Option.some.injEq, Prod.mk.injEq, Prod.exists] at h
          obtain ⟨nodes₁, new, hinit, rfl, rfl⟩ := h
          obtain ⟨rfl, hadded⟩ := hNodeInit_eq_some hinit
          obtain ⟨n, hn, -, -, -, hdata, -⟩ := hadded.new
          refine Or.inr ⟨rfl, ?_, Or.inr ⟨rfl, rfl⟩, ⟨_, hadded, SameHierarchy.refl _⟩,
            hadded.leafAdded⟩
          simp [hTreeSearchLoop, hn, hdata, hself]
      | some a =>
          simp only [hTreeInsertLoop, Option.bind_eq_bind, Option.bind_eq_some_iff] at h
          obtain ⟨n, hn, cmp, hcmp, h⟩ := h
          have hcmpKey := hmirror _ _ hcmp
          have hne : a ≠ nodes.next := ne_of_lt (Heap.lt_next hn)
          cases cmp with
          | gt =>
              simp only [Option.bind_eq_some_iff, Prod.exists, Option.some.injEq,
                Prod.mk.injEq] at h
              obtain ⟨nodes₁, right, hrec, nodes₂, hlink, nodes₃, hsize, rfl, rfl⟩ := h
              have hinserted := hTreeInsertLoop_eq_some hrec
              obtain ⟨m, hrelinked⟩ := relinked_of_eq_some hlink hsize fun _ => rfl
              obtain ⟨m₀, hm₀, hgrown⟩ := hinserted.grown.node a n hn
              obtain rfl := Option.some.inj (hm₀.symm.trans hrelinked.before)
              obtain ⟨size, hself'⟩ := hrelinked.self
              have hsearch : ∀ found,
                  hTreeSearchLoop dataCmpKey nodes key fuel n.right = some found →
                    hTreeSearchLoop dataCmpKey nodes key (fuel + 1) (some a) = some found := by
                intro found hfound
                simpa [hTreeSearchLoop, hn, hcmpKey] using hfound
              rcases ih hrec with hknown | hadded
              · exact Or.inl (hknown.relink hn hrelinked rfl
                  (fun hleft _ => ⟨hleft, hknown.keepsRoot⟩) hsearch)
              · refine Or.inr (hadded.relink hn hrelinked rfl ⟨rfl, rfl, rfl, fun _ hx => hx,
                  fun x hx => ?_⟩ (fun hleft _ => ⟨hleft, hadded.keepsRoot⟩) hsearch ?_)
                · obtain ⟨n₀, hn₀, -, hright⟩ := hadded.links.links a m₀ hne hm₀
                  obtain rfl := Option.some.inj (hn.symm.trans hn₀)
                  exact hright.keeps hinserted.keepsRoot
                    (fun hnull => (hinserted.atNull hnull).1) hx
                · intro found hfound
                  simpa [hTreeSearchLoop, hself', hgrown.data, hcmpKey] using hfound
          | lt =>
              simp only [Option.bind_eq_some_iff, Prod.exists, Option.some.injEq,
                Prod.mk.injEq] at h
              obtain ⟨nodes₁, left, hrec, nodes₂, hlink, nodes₃, hsize, rfl, rfl⟩ := h
              have hinserted := hTreeInsertLoop_eq_some hrec
              obtain ⟨m, hrelinked⟩ := relinked_of_eq_some hlink hsize fun _ => rfl
              obtain ⟨m₀, hm₀, hgrown⟩ := hinserted.grown.node a n hn
              obtain rfl := Option.some.inj (hm₀.symm.trans hrelinked.before)
              obtain ⟨size, hself'⟩ := hrelinked.self
              have hsearch : ∀ found,
                  hTreeSearchLoop dataCmpKey nodes key fuel n.left = some found →
                    hTreeSearchLoop dataCmpKey nodes key (fuel + 1) (some a) = some found := by
                intro found hfound
                simpa [hTreeSearchLoop, hn, hcmpKey] using hfound
              rcases ih hrec with hknown | hadded
              · exact Or.inl (hknown.relink hn hrelinked rfl
                  (fun _ hright => ⟨hknown.keepsRoot, hright⟩) hsearch)
              · refine Or.inr (hadded.relink hn hrelinked rfl ⟨rfl, rfl, rfl, fun x hx => ?_,
                  fun _ hx => hx⟩ (fun _ hright => ⟨hadded.keepsRoot, hright⟩) hsearch ?_)
                · obtain ⟨n₀, hn₀, hleft, -⟩ := hadded.links.links a m₀ hne hm₀
                  obtain rfl := Option.some.inj (hn.symm.trans hn₀)
                  exact hleft.keeps hinserted.keepsRoot
                    (fun hnull => (hinserted.atNull hnull).1) hx
                · intro found hfound
                  simpa [hTreeSearchLoop, hself', hgrown.data, hcmpKey] using hfound
          | eq =>
              simp only [Option.bind_some, Option.bind_eq_some_iff, Option.some.injEq,
                Prod.mk.injEq] at h
              obtain ⟨nodes₁, hsize, rfl, rfl⟩ := h
              obtain ⟨-, hsame⟩ := updateSize_same hsize
              obtain ⟨n₀, leftSize, rightSize, hn₀, -, -, hwrite⟩ := updateSize_eq_some hsize
              obtain rfl := Option.some.inj (hn.symm.trans hn₀)
              obtain ⟨-, -, hself', hothers⟩ := Heap.write_eq_some hwrite
              refine Or.inl ⟨⟨a, by simp [hTreeSearchLoop, hn, hcmpKey]⟩, rfl, hsame,
                fun b n' hn' => ?_⟩
              by_cases hb : b = a
              · subst hb
                obtain rfl := Option.some.inj (hself'.symm.trans hn')
                exact ⟨n, hn, rfl, rfl⟩
              · rw [hothers b hb] at hn'
                exact ⟨n', hn', rfl, rfl⟩

/-! ## Other keys -/

/-- A search that failed fails in front of the new leaf too. -/
theorem LeafAdded.absent {k : κ} {o : Ordering} {n' : HNode α}
    (hgrown : TreeGrown nodes nodes') (h : LeafAdded nodes nodes' nodes.next)
    (hnew : nodes'.get nodes.next = some n') (ho : dataCmpKey n'.data k = some o)
    (hne : o ≠ .eq) (hroot : LinkGrown nodes.next root root')
    (habsent : hTreeSearchLoop dataCmpKey nodes k fuel root = some none) :
    hTreeSearchLoop dataCmpKey nodes' k (fuel + 1) root' = some none := by
  induction fuel generalizing root root' with
  | zero => simp [hTreeSearchLoop] at habsent
  | succ fuel ih =>
      obtain ⟨hleft, hright⟩ := h.leaf n' hnew
      rcases hroot with rfl | ⟨rfl, rfl⟩
      · cases root' with
        | none => rfl
        | some a =>
            simp only [hTreeSearchLoop, Option.bind_eq_bind, Option.bind_eq_some_iff] at habsent
            obtain ⟨n, hn, cmp, hcmp, habsent⟩ := habsent
            obtain ⟨m, hm, hdata⟩ := hgrown.node a n hn
            obtain ⟨n₀, hn₀, hleft', hright'⟩ :=
              h.links a m (ne_of_lt (Heap.lt_next hn)) hm
            obtain rfl := Option.some.inj (hn.symm.trans hn₀)
            rw [hTreeSearchLoop]
            simp only [hm, hdata.data, hcmp, Option.bind_eq_bind, Option.bind_some]
            cases cmp with
            | lt => exact ih hright' habsent
            | gt => exact ih hleft' habsent
            | eq => simp at habsent
      · cases o with
        | lt => simp [hTreeSearchLoop, hnew, ho, hright]
        | gt => simp [hTreeSearchLoop, hnew, ho, hleft]
        | eq => contradiction

theorem SameLinks.absent {k : κ} (hsame : SameHierarchy nodes nodes')
    (h : SameLinks nodes nodes')
    (habsent : hTreeSearchLoop dataCmpKey nodes k fuel root = some none) :
    hTreeSearchLoop dataCmpKey nodes' k fuel root = some none := by
  induction fuel generalizing root with
  | zero => simp [hTreeSearchLoop] at habsent
  | succ fuel ih =>
      cases root with
      | none => rfl
      | some a =>
          simp only [hTreeSearchLoop, Option.bind_eq_bind, Option.bind_eq_some_iff] at habsent ⊢
          obtain ⟨n, hn, cmp, hcmp, habsent⟩ := habsent
          obtain ⟨m, hm, hlinks⟩ := hsame.get hn
          obtain ⟨n₀, hn₀, hleft, hright⟩ := h a m hm
          obtain rfl := Option.some.inj (hn.symm.trans hn₀)
          refine ⟨m, hm, cmp, ?_, ?_⟩
          · rw [show m.data = n.data from (Prod.mk.inj hlinks).1]
            exact hcmp
          · cases cmp with
            | lt =>
                rw [hright]
                exact ih habsent
            | gt =>
                rw [hleft]
                exact ih habsent
            | eq => exact habsent

end Insertion

end SistOp.FatFuse
