import Mathlib.Data.List.Basic
import Mathlib.Order.Lattice

/-!
# Forests of labelled nodes

Forests are lists of nodes with ordered children. The view of a node is its label
together with the labels of its children; the views of a forest list all nodes in
preorder. Every change used here appends one leaf below the first node, in preorder,
that satisfies a test; its effect on the views is exact. A forest is reordered by
permutations of its top and of the children of any node.
-/

namespace Ctguard

universe u

structure RoseTree (α : Type u) where
  root : α
  children : List (RoseTree α)

namespace RoseTree

variable {α : Type u}

mutual

def height : RoseTree α → ℕ
  | ⟨_, cs⟩ => forestHeight cs + 1

/-- The number of levels of a forest. -/
def forestHeight : List (RoseTree α) → ℕ
  | [] => 0
  | t :: ts => max t.height (forestHeight ts)

end

mutual

def nodes : RoseTree α → List (RoseTree α)
  | ⟨a, cs⟩ => ⟨a, cs⟩ :: forestNodes cs

/-- All nodes of a forest in preorder, each with everything below it. -/
def forestNodes : List (RoseTree α) → List (RoseTree α)
  | [] => []
  | t :: ts => t.nodes ++ forestNodes ts

end

mutual

def find? (p : α → Bool) : RoseTree α → Option (RoseTree α)
  | ⟨a, cs⟩ => if p a then some ⟨a, cs⟩ else forestFind? p cs

/-- The first node in preorder whose label satisfies the test. -/
def forestFind? (p : α → Bool) : List (RoseTree α) → Option (RoseTree α)
  | [] => none
  | t :: ts =>
    match t.find? p with
    | some s => some s
    | none => forestFind? p ts

end

mutual

def appendBelow (p : α → Bool) (x : α) : RoseTree α → Option (RoseTree α)
  | ⟨a, cs⟩ =>
    if p a then some ⟨a, cs ++ [⟨x, []⟩]⟩
    else (forestAppendBelow p x cs).map (⟨a, ·⟩)

/-- The forest with a leaf appended to the children of the node that is found. -/
def forestAppendBelow (p : α → Bool) (x : α) : List (RoseTree α) → Option (List (RoseTree α))
  | [] => none
  | t :: ts =>
    match t.appendBelow p x with
    | some s => some (s :: ts)
    | none => (forestAppendBelow p x ts).map (t :: ·)

end

/-- Induction over forests: the children of the first tree, and the other trees. -/
theorem forestInduction {P : List (RoseTree α) → Prop} (nil : P [])
    (cons : ∀ a cs ts, P cs → P ts → P (⟨a, cs⟩ :: ts)) : ∀ ts, P ts
  | [] => nil
  | ⟨a, cs⟩ :: ts =>
    cons a cs ts (forestInduction nil cons cs) (forestInduction nil cons ts)

@[simp] theorem forestNodes_nil : forestNodes ([] : List (RoseTree α)) = [] := rfl

@[simp] theorem forestNodes_cons (a : α) (cs ts : List (RoseTree α)) :
    forestNodes (⟨a, cs⟩ :: ts) = ⟨a, cs⟩ :: (forestNodes cs ++ forestNodes ts) := rfl

@[simp] theorem forestNodes_append (ts us : List (RoseTree α)) :
    forestNodes (ts ++ us) = forestNodes ts ++ forestNodes us := by
  induction ts with
  | nil => rfl
  | cons t ts ih => simp [forestNodes, ih]

theorem mem_forestNodes_of_mem {t : RoseTree α} {ts : List (RoseTree α)} (h : t ∈ ts) :
    t ∈ forestNodes ts := by
  obtain ⟨xs, ys, rfl⟩ := List.append_of_mem h
  cases t
  simp

/-- A tree in the middle of a forest. -/
theorem mem_forestNodes_insert {s t : RoseTree α} {front back : List (RoseTree α)} :
    s ∈ forestNodes (front ++ t :: back) ↔
      s ∈ forestNodes (front ++ back) ∨ s = t ∨ s ∈ forestNodes t.children := by
  obtain ⟨a, cs⟩ := t
  simp only [forestNodes_append, forestNodes_cons, List.mem_append, List.mem_cons]
  tauto

/-- The children of a node of a forest are nodes of it, with everything below them. -/
theorem forestNodes_children_subset {t : RoseTree α} {ts : List (RoseTree α)}
    (h : t ∈ forestNodes ts) : forestNodes t.children ⊆ forestNodes ts := by
  induction ts using forestInduction with
  | nil => simp at h
  | cons a cs ts ihc iht =>
    rw [forestNodes_cons, List.mem_cons, List.mem_append] at h
    rw [forestNodes_cons]
    rcases h with rfl | h | h
    · intro s hs
      exact List.mem_cons_of_mem _ (List.mem_append_left _ hs)
    · intro s hs
      exact List.mem_cons_of_mem _ (List.mem_append_left _ (ihc h hs))
    · intro s hs
      exact List.mem_cons_of_mem _ (List.mem_append_right _ (iht h hs))

theorem height_le_forestHeight {t : RoseTree α} {ts : List (RoseTree α)} (h : t ∈ ts) :
    t.height ≤ forestHeight ts := by
  induction ts with
  | nil => simp at h
  | cons s ts ih =>
    rw [forestHeight]
    rcases List.mem_cons.mp h with rfl | h
    · exact le_max_left _ _
    · exact (ih h).trans (le_max_right _ _)

theorem forestHeight_children_lt {t : RoseTree α} {ts : List (RoseTree α)} (h : t ∈ ts) :
    forestHeight t.children < forestHeight ts := by
  have hlt : forestHeight t.children < t.height := by
    cases t
    simp [height]
  exact hlt.trans_le (height_le_forestHeight h)

theorem forestHeight_eq_zero {ts : List (RoseTree α)} : forestHeight ts = 0 ↔ ts = [] := by
  cases ts with
  | nil => simp [forestHeight]
  | cons t ts => cases t; simp [forestHeight, height]

/-- The label of a node and the labels of its children. -/
def view (t : RoseTree α) : α × List α := (t.root, t.children.map root)

/-- The views of all nodes in preorder. -/
def views (ts : List (RoseTree α)) : List (α × List α) := (forestNodes ts).map view

@[simp] theorem views_nil : views ([] : List (RoseTree α)) = [] := rfl

@[simp] theorem views_cons (a : α) (cs ts : List (RoseTree α)) :
    views (⟨a, cs⟩ :: ts) = (a, cs.map root) :: (views cs ++ views ts) := by
  simp [views, view]

@[simp] theorem views_append (ts us : List (RoseTree α)) :
    views (ts ++ us) = views ts ++ views us := by
  simp [views]

theorem view_mem_views {t : RoseTree α} {ts : List (RoseTree α)} (h : t ∈ ts) :
    t.view ∈ views ts :=
  List.mem_map_of_mem (mem_forestNodes_of_mem h)

/-- What has a view is at the top or a child that is seen in a view. -/
theorem root_or_child_of_view {v : α × List α} {ts : List (RoseTree α)} (hv : v ∈ views ts) :
    v.1 ∈ ts.map root ∨ ∃ u ∈ views ts, v.1 ∈ u.2 := by
  induction ts using forestInduction with
  | nil => simp at hv
  | cons a cs ts ihc iht =>
    rw [views_cons, List.mem_cons, List.mem_append] at hv
    rw [views_cons]
    rcases hv with rfl | hv | hv
    · exact .inl (by simp)
    · rcases ihc hv with hroot | ⟨u, hu, hmem⟩
      · exact .inr ⟨_, List.mem_cons_self, hroot⟩
      · exact .inr ⟨u, List.mem_cons_of_mem _ (List.mem_append_left _ hu), hmem⟩
    · rcases iht hv with hroot | ⟨u, hu, hmem⟩
      · exact .inl (List.mem_cons_of_mem _ hroot)
      · exact .inr ⟨u, List.mem_cons_of_mem _ (List.mem_append_right _ hu), hmem⟩

/-- A child that is seen in a view has a view of its own. -/
theorem exists_view_of_child {v : α × List α} {ts : List (RoseTree α)} (hv : v ∈ views ts)
    {c : α} (hc : c ∈ v.2) : ∃ w ∈ views ts, w.1 = c := by
  obtain ⟨t, ht, rfl⟩ := List.mem_map.mp hv
  obtain ⟨s, hs, rfl⟩ := List.mem_map.mp hc
  have hmem := forestNodes_children_subset ht (mem_forestNodes_of_mem hs)
  exact ⟨s.view, List.mem_map_of_mem hmem, rfl⟩

theorem forestFind?_eq_find? (p : α → Bool) (ts : List (RoseTree α)) :
    forestFind? p ts = (forestNodes ts).find? (fun t => p t.root) := by
  induction ts using forestInduction with
  | nil => rfl
  | cons a cs ts ihc iht =>
    rw [forestNodes_cons, List.find?_cons]
    cases h : p a with
    | true => simp [forestFind?, find?, h]
    | false =>
      simp only [forestFind?, find?, h, List.find?_append, ← ihc, ← iht]
      cases forestFind? p cs <;> simp

theorem forestFind?_isSome_iff (p : α → Bool) (ts : List (RoseTree α)) :
    (forestFind? p ts).isSome ↔ ∃ v ∈ views ts, p v.1 = true := by
  simp [forestFind?_eq_find?, views, view]

theorem forestAppendBelow_eq_none_iff (p : α → Bool) (x : α) (ts : List (RoseTree α)) :
    forestAppendBelow p x ts = none ↔ ∀ v ∈ views ts, p v.1 = false := by
  induction ts using forestInduction with
  | nil => simp [forestAppendBelow]
  | cons a cs ts ihc iht =>
    rw [views_cons, List.forall_mem_cons, List.forall_mem_append, ← ihc, ← iht]
    cases hp : p a <;> cases hcs : forestAppendBelow p x cs <;>
      cases hts : forestAppendBelow p x ts <;>
      simp [forestAppendBelow, appendBelow, hp, hcs, hts]

/-- Below the first node that passes the test, and nowhere else, one leaf is new. -/
theorem views_forestAppendBelow {p : α → Bool} {x : α} {ts us : List (RoseTree α)}
    (h : forestAppendBelow p x ts = some us) :
    ∃ pre a cs mid post, p a = true ∧ (∀ v ∈ pre, p v.1 = false) ∧
      views ts = pre ++ (a, cs) :: (mid ++ post) ∧
      views us = pre ++ (a, cs ++ [x]) :: (mid ++ (x, []) :: post) ∧
      us.map root = ts.map root := by
  induction ts using forestInduction generalizing us with
  | nil => simp [forestAppendBelow] at h
  | cons a cs ts ihc iht =>
    cases hp : p a with
    | true =>
      simp only [forestAppendBelow, appendBelow, hp, if_true] at h
      cases h
      exact ⟨[], a, cs.map root, views cs, views ts, hp, by simp, by simp, by simp, by simp⟩
    | false =>
      cases hcs : forestAppendBelow p x cs with
      | some cs' =>
        simp only [forestAppendBelow, appendBelow, hp, hcs] at h
        cases h
        obtain ⟨pre, b, bs, mid, post, hb, hpre, hviews, hviews', hroots⟩ := ihc hcs
        refine ⟨(a, cs.map root) :: pre, b, bs, mid, post ++ views ts, hb, ?_, ?_, ?_, ?_⟩
        · simpa [hp] using hpre
        · simp [hviews]
        · simp [hviews', hroots]
        · simp
      | none =>
        have hts : (forestAppendBelow p x ts).map (⟨a, cs⟩ :: ·) = some us := by
          simpa [forestAppendBelow, appendBelow, hp, hcs] using h
        obtain ⟨ts', hts', rfl⟩ := Option.map_eq_some_iff.mp hts
        obtain ⟨pre, b, bs, mid, post, hb, hpre, hviews, hviews', hroots⟩ := iht hts'
        have hskip := (forestAppendBelow_eq_none_iff p x cs).mp hcs
        refine ⟨(a, cs.map root) :: (views cs ++ pre), b, bs, mid, post, hb, ?_, ?_, ?_, ?_⟩
        · intro v hv
          rcases List.mem_cons.mp hv with rfl | hv
          · exact hp
          · exact (List.mem_append.mp hv).elim (hskip v) (hpre v)
        · simp [hviews]
        · simp [hviews']
        · simp [hroots]

/-- The same nodes in another order, at the top and below any node. -/
inductive ForestPerm : List (RoseTree α) → List (RoseTree α) → Prop
  | nil : ForestPerm [] []
  | cons (a : α) {cs cs' ts ts' : List (RoseTree α)} (below : ForestPerm cs cs')
      (rest : ForestPerm ts ts') : ForestPerm (⟨a, cs⟩ :: ts) (⟨a, cs'⟩ :: ts')
  | swap (s t : RoseTree α) (ts : List (RoseTree α)) : ForestPerm (s :: t :: ts) (t :: s :: ts)
  | trans {ts us vs : List (RoseTree α)} (first : ForestPerm ts us) (second : ForestPerm us vs) :
      ForestPerm ts vs

namespace ForestPerm

theorem refl (ts : List (RoseTree α)) : ForestPerm ts ts := by
  induction ts using forestInduction with
  | nil => exact .nil
  | cons a cs ts ihc iht => exact .cons a ihc iht

theorem symm {ts us : List (RoseTree α)} (h : ForestPerm ts us) : ForestPerm us ts := by
  induction h with
  | nil => exact .nil
  | cons a _ _ ihc iht => exact .cons a ihc iht
  | swap s t ts => exact .swap t s ts
  | trans _ _ ih₁ ih₂ => exact .trans ih₂ ih₁

theorem map_root {ts us : List (RoseTree α)} (h : ForestPerm ts us) :
    (ts.map root).Perm (us.map root) := by
  induction h with
  | nil => exact .nil
  | cons a _ _ _ iht => exact iht.cons a
  | swap s t ts => exact .swap t.root s.root (ts.map root)
  | trans _ _ ih₁ ih₂ => exact ih₁.trans ih₂

/-- Every tree has a counterpart, which is reordered below. -/
theorem exists_of_mem {ts us : List (RoseTree α)} (h : ForestPerm ts us) {t : RoseTree α}
    (ht : t ∈ ts) : ∃ u ∈ us, u.root = t.root ∧ ForestPerm t.children u.children := by
  induction h generalizing t with
  | nil => simp at ht
  | @cons a cs cs' ts ts' below _ _ iht =>
    rcases List.mem_cons.mp ht with rfl | ht
    · exact ⟨⟨a, cs'⟩, List.mem_cons_self, rfl, below⟩
    · obtain ⟨u, hu, hroot, hchildren⟩ := iht ht
      exact ⟨u, List.mem_cons_of_mem _ hu, hroot, hchildren⟩
  | swap s r ts =>
    refine ⟨t, ?_, rfl, refl _⟩
    simp only [List.mem_cons] at ht ⊢
    tauto
  | trans _ _ ih₁ ih₂ =>
    obtain ⟨u, hu, hroot, hchildren⟩ := ih₁ ht
    obtain ⟨v, hv, hroot', hchildren'⟩ := ih₂ hu
    exact ⟨v, hv, hroot'.trans hroot, hchildren.trans hchildren'⟩

theorem exists_view {ts us : List (RoseTree α)} (h : ForestPerm ts us) {v : α × List α}
    (hv : v ∈ views us) : ∃ w ∈ views ts, w.1 = v.1 ∧ w.2.Perm v.2 := by
  induction h generalizing v with
  | nil => simp at hv
  | @cons a cs cs' ts ts' below _ ihc iht =>
    rw [views_cons, List.mem_cons, List.mem_append] at hv
    rw [views_cons]
    rcases hv with rfl | hv | hv
    · exact ⟨(a, cs.map root), List.mem_cons_self, rfl, below.map_root⟩
    · obtain ⟨w, hw, hroot, hchildren⟩ := ihc hv
      exact ⟨w, List.mem_cons_of_mem _ (List.mem_append_left _ hw), hroot, hchildren⟩
    · obtain ⟨w, hw, hroot, hchildren⟩ := iht hv
      exact ⟨w, List.mem_cons_of_mem _ (List.mem_append_right _ hw), hroot, hchildren⟩
  | swap s t ts =>
    refine ⟨v, ?_, rfl, .refl _⟩
    cases s
    cases t
    simp only [views_cons, List.mem_cons, List.mem_append] at hv ⊢
    tauto
  | trans _ _ ih₁ ih₂ =>
    obtain ⟨u, hu, hroot, hchildren⟩ := ih₂ hv
    obtain ⟨w, hw, hroot', hchildren'⟩ := ih₁ hu
    exact ⟨w, hw, hroot'.trans hroot, hchildren'.trans hchildren⟩

end ForestPerm

end RoseTree

end Ctguard
