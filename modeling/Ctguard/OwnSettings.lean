import Ctguard.SettingFields
import Mathlib.Data.List.Forall2
import Mathlib.Data.List.Nodup

/-!
# Each option sets its own setting

What a configuration means does not depend on the positions in its text, nor on the order in which
the options of a group are visited. A setting that differs between two configurations that are the
same but for one option is that of the option.
-/

namespace Ctguard

section Groups

/-- What the options of a group say. -/
def ConfigHead.entries (b : ConfigHead) : List (String × List String) :=
  b.options.map ConfigOption.entry

/-- The same group, its options kept in another order, perhaps at other positions. -/
structure ConfigHead.Alike (b b' : ConfigHead) : Prop where
  name : b.name = b'.name
  keyword : b.keyword = b'.keyword
  options : b.entries.Perm b'.entries

/-- The same configuration, the options of its groups kept in other orders. -/
inductive Reordered : ConfigGroup → ConfigGroup → Prop
  | mk {b b' : ConfigHead} {cs cs' : List ConfigGroup} (head : b.Alike b')
      (children : List.Forall₂ Reordered cs cs') : Reordered ⟨b, cs⟩ ⟨b', cs'⟩

def ConfigHead.without (key : String) (b : ConfigHead) : ConfigHead :=
  { b with options := b.options.filter (·.key ≠ key) }

/-- The configuration without one option of the group at a place, which is given by the numbers of
the groups on the way to it. -/
def withoutOption (key : String) : List ℕ → ConfigGroup → ConfigGroup
  | [], g => ⟨g.root.without key, g.children⟩
  | i :: place, g => ⟨g.root, g.children.modify i (withoutOption key place)⟩

/-- The two differ at most in the option of the group at the place: it may be added, changed or
removed. -/
def EditedAt (place : List ℕ) (key : String) (g g' : ConfigGroup) : Prop :=
  Reordered (withoutOption key place g) (withoutOption key place g')

/-- No group has two options of one key. -/
def DistinctKeys (g : ConfigGroup) : Prop := ∀ t ∈ g.nodes, (t.root.options.map (·.key)).Nodup

instance (g : ConfigGroup) : Decidable (DistinctKeys g) :=
  inferInstanceAs (Decidable (∀ t ∈ g.nodes, (t.root.options.map (·.key)).Nodup))

end Groups

/-- A reader with the names of its settings: `copy place key src dst` is `dst` with the setting of
the option `key` of the group at the place as it is in `src`. -/
structure SettingsReader where
  Config : Type
  parse : List ConfigGroup → Except String Config
  copy : List ℕ → String → Config → Config → Config

/-- Of an accepted configuration: whatever is done to the option of the group at the place, no
other setting changes, and no setting depends on the order in which options are visited. -/
def SettingsReader.OwnSetting (R : SettingsReader) (g : ConfigGroup) (place : List ℕ)
    (key : String) : Prop :=
  (∀ g₁ g₂ cfg cfg', Reordered g g₁ → DistinctKeys g₂ → EditedAt place key g g₂ →
    R.parse g₁.children = .ok cfg → R.parse g₂.children = .ok cfg' →
      R.copy place key cfg' cfg = cfg') ∧
  ∀ g₁ cfg, Reordered g g₁ → R.parse g.children = .ok cfg → R.parse g₁.children = .ok cfg

section Alike

variable {b b' : ConfigHead}

theorem ConfigHead.Alike.refl (b : ConfigHead) : b.Alike b := ⟨rfl, rfl, .refl _⟩

theorem ConfigHead.Alike.symm (h : b.Alike b') : b'.Alike b :=
  ⟨h.name.symm, h.keyword.symm, h.options.symm⟩

theorem ConfigHead.entries_without (key : String) (b : ConfigHead) :
    (b.without key).entries = b.entries.filter (·.1 ≠ key) := by
  rw [entries, entries, List.filter_map]
  rfl

theorem ConfigHead.Alike.without (h : b.Alike b') (key : String) :
    (b.without key).Alike (b'.without key) := by
  refine ⟨h.name, h.keyword, ?_⟩
  rw [ConfigHead.entries_without, ConfigHead.entries_without]
  exact h.options.filter _

theorem ConfigHead.keys_entries (b : ConfigHead) :
    b.entries.map Prod.fst = b.options.map (·.key) := by
  simp [entries, ConfigOption.entry]

/-- The keys of the options are distinct. -/
def ConfigHead.Distinct (b : ConfigHead) : Prop := (b.entries.map Prod.fst).Nodup

theorem ConfigHead.Alike.distinct (h : b.Alike b') (hb : b.Distinct) : b'.Distinct :=
  (h.options.map Prod.fst).nodup_iff.mp hb

/-- The same group with the same groups inside of it, as far as they are read. -/
structure TopAlike (top top' : ConfigGroup) : Prop where
  root : top.root.Alike top'.root
  children : List.Forall₂ (fun c c' => c.root.Alike c'.root) top.children top'.children

theorem TopAlike.symm {top top' : ConfigGroup} (h : TopAlike top top') : TopAlike top' top := by
  refine ⟨h.root.symm, h.children.flip.imp ?_⟩
  exact fun _ _ halike => halike.symm

theorem Reordered.root {g g' : ConfigGroup} (h : Reordered g g') : g.root.Alike g'.root := by
  cases h with
  | mk head children => exact head

theorem Reordered.children {g g' : ConfigGroup} (h : Reordered g g') :
    List.Forall₂ Reordered g.children g'.children := by
  cases h with
  | mk head children => exact children

theorem Reordered.topAlike {g g' : ConfigGroup} (h : Reordered g g') : TopAlike g g' :=
  ⟨h.root, h.children.imp fun _ _ hc => hc.root⟩

end Alike

section Places

/-- What the numbered member of a list is replaced by relates to what it was. -/
theorem forall₂_of_modify {α β : Type} {R : α → β → Prop} {f : α → α} {f' : β → β} {i : ℕ}
    {xs : List α} {ys : List β} (h : List.Forall₂ R (xs.modify i f) (ys.modify i f')) :
    List.Forall₂ (fun x y => R x y ∨ (xs[i]? = some x ∧ R (f x) (f' y))) xs ys := by
  induction xs generalizing i ys with
  | nil => cases ys with
    | nil => exact .nil
    | cons y ys => cases i <;> cases h
  | cons x xs ih => cases ys with
    | nil => cases i <;> cases h
    | cons y ys => cases i with
      | zero =>
        rw [List.modify_zero_cons, List.modify_zero_cons, List.forall₂_cons] at h
        exact .cons (.inr ⟨rfl, h.1⟩) (h.2.imp fun _ _ => .inl)
      | succ i =>
        rw [List.modify_succ_cons, List.modify_succ_cons, List.forall₂_cons] at h
        exact .cons (.inl h.1) (ih h.2)

theorem forall₂_modify {α β : Type} {R : α → β → Prop} {f : α → α} {f' : β → β} {i : ℕ}
    {xs : List α} {ys : List β} (h : List.Forall₂ R xs ys)
    (hf : ∀ x y, R x y → R (f x) (f' y)) : List.Forall₂ R (xs.modify i f) (ys.modify i f') := by
  induction h generalizing i with
  | nil => cases i <;> exact .nil
  | @cons x y xs ys hxy hrest ih => cases i with
    | zero => exact .cons (hf x y hxy) hrest
    | succ i => exact .cons hxy ih

theorem name_withoutOption (key : String) (place : List ℕ) (g : ConfigGroup) :
    (withoutOption key place g).root.name = g.root.name := by
  cases place <;> rfl

variable {key : String} {i j : ℕ} {place : List ℕ} {g g' : ConfigGroup}

theorem EditedAt.reordered (h : EditedAt place key g g') :
    Reordered (withoutOption key place g) (withoutOption key place g') := h

theorem EditedAt.name (h : EditedAt place key g g') : g.root.name = g'.root.name := by
  have hname := h.reordered.root.name
  rwa [name_withoutOption, name_withoutOption] at hname

theorem EditedAt.children_of_nil (h : EditedAt [] key g g') :
    List.Forall₂ Reordered g.children g'.children := h.reordered.children

theorem EditedAt.head_of_nil (h : EditedAt [] key g g') :
    (g.root.without key).Alike (g'.root.without key) := h.reordered.root

theorem EditedAt.root_of_cons (h : EditedAt (i :: place) key g g') : g.root.Alike g'.root :=
  h.reordered.root

/-- No edit is one at any place. -/
theorem Reordered.editedAt (h : Reordered g g') (place : List ℕ) (key : String) :
    EditedAt place key g g' := by
  induction place generalizing g g' with
  | nil => exact .mk (h.root.without key) h.children
  | cons i place ih => exact .mk h.root (forall₂_modify h.children fun _ _ => ih)

theorem EditedAt.members_of_cons (h : EditedAt (i :: place) key g g') :
    List.Forall₂ (fun c c' => Reordered c c' ∨ (g.children[i]? = some c ∧ EditedAt place key c c'))
      g.children g'.children := forall₂_of_modify h.reordered.children

theorem EditedAt.children_of_cons (h : EditedAt (i :: place) key g g') :
    List.Forall₂ (EditedAt place key) g.children g'.children := by
  refine h.members_of_cons.imp ?_
  rintro c c' (hc | ⟨-, hc⟩)
  · exact hc.editedAt place key
  · exact hc

theorem EditedAt.roots_of_cons (h : EditedAt [j] key g g') : List.Forall₂ ConfigHead.Alike
    ((g.children.map RoseTree.root).modify j (·.without key))
    ((g'.children.map RoseTree.root).modify j (·.without key)) := by
  have hroots : ∀ (i : ℕ) (cs : List ConfigGroup),
      (cs.map RoseTree.root).modify i (·.without key) =
        (cs.modify i (withoutOption key [])).map RoseTree.root := by
    intro i cs
    induction cs generalizing i with
    | nil => cases i <;> rfl
    | cons c cs ih => cases i with
      | zero => rfl
      | succ i => simp [ih]
  rw [hroots, hroots, List.forall₂_map_left_iff, List.forall₂_map_right_iff]
  exact h.reordered.children.imp fun _ _ => Reordered.root

/-- What is edited below the groups inside of a group is not read. -/
theorem EditedAt.topAlike (h : EditedAt (i :: j :: place) key g g') : TopAlike g g' :=
  ⟨h.root_of_cons, h.children_of_cons.imp fun _ _ => EditedAt.root_of_cons⟩

end Places

section Reading

/-- How the settings are kept: those of the program, and for each group inside its own. -/
structure Settings (γ τ : Type) where
  outer : Fields String γ
  inner : Fields String τ
  groups : γ → List τ
  withGroups : γ → List τ → γ
  groups_withGroups : ∀ c xs, groups (withGroups c xs) = xs
  withGroups_withGroups : ∀ c xs ys, withGroups (withGroups c xs) ys = withGroups c ys
  withGroups_groups : ∀ c, withGroups c (groups c) = c
  groups_copy : ∀ k c d, groups (outer.copy k c d) = groups d
  copy_withGroups : ∀ k c d xs ys,
    outer.copy k (withGroups c xs) (withGroups d ys) = withGroups (outer.copy k c d) ys

variable {γ τ : Type}

/-- The settings of one group are copied from one list to another. -/
def Settings.copyGroup (S : Settings γ τ) (j : ℕ) (key : String) (src dst : List τ) : List τ :=
  match src[j]? with
  | none => dst
  | some x => dst.modify j (S.inner.copy key x)

def Settings.copy (S : Settings γ τ) : List ℕ → String → γ → γ → γ
  | [_], key, src, dst => S.outer.copy key src dst
  | [_, j], key, src, dst =>
    S.withGroups dst (S.copyGroup j key (S.groups src) (S.groups dst))
  | _, _, _, dst => dst

/-- What a reader does to the settings. -/
structure GroupReader.Reads (r : GroupReader γ τ) (S : Settings γ τ) (target : String → String) :
    Prop where
  add : ∀ c x, r.add c x = S.withGroups c (S.groups c ++ [x])
  start : S.groups r.start = []
  outer : Applies S.outer r.applyOption target
  alike : ∀ {b b' x}, b.Alike b' → b.Distinct → r.parseGroup b = .ok x → r.parseGroup b' = .ok x
  edited : ∀ {b b' x x' key}, b.Distinct → b'.Distinct → (b.without key).Alike (b'.without key) →
    r.parseGroup b = .ok x → r.parseGroup b' = .ok x' → S.inner.SameOutside key x x'

def GroupReader.settings (r : GroupReader γ τ) (S : Settings γ τ) : SettingsReader where
  Config := γ
  parse := r.parse
  copy := S.copy

variable {r : GroupReader γ τ} {S : Settings γ τ} {target : String → String}

theorem GroupReader.Reads.foldlM_addGroup (h : r.Reads S target) {cs : List ConfigGroup}
    {cfg cfg' : γ} : cs.foldlM r.addGroup cfg = .ok cfg' ↔ ∃ xs,
      List.Forall₂ (fun c x => r.parseGroup c.root = .ok x) cs xs ∧
        cfg' = S.withGroups cfg (S.groups cfg ++ xs) := by
  induction cs generalizing cfg with
  | nil =>
    constructor
    · intro hrun
      obtain rfl := Except.ok.inj hrun
      exact ⟨[], .nil, by simp [S.withGroups_groups]⟩
    · rintro ⟨xs, hxs, rfl⟩
      cases hxs
      simp [S.withGroups_groups, pure, Except.pure]
  | cons c cs ih =>
    rw [List.foldlM_cons, GroupReader.addGroup]
    cases hx : r.parseGroup c.root with
    | error what =>
      constructor
      · rintro ⟨⟩
      · rintro ⟨xs, hxs, -⟩
        cases hxs with
        | cons hfirst hrest => simp [hx] at hfirst
    | ok x =>
      have hstep : ∀ ys, S.withGroups (r.add cfg x) (S.groups (r.add cfg x) ++ ys) =
          S.withGroups cfg (S.groups cfg ++ x :: ys) := by
        intro ys
        rw [h.add, S.groups_withGroups, S.withGroups_withGroups, List.append_assoc]
        rfl
      change cs.foldlM r.addGroup (r.add cfg x) = .ok cfg' ↔ _
      rw [ih]
      constructor
      · rintro ⟨xs, hxs, rfl⟩
        exact ⟨x :: xs, .cons hx hxs, hstep xs⟩
      · rintro ⟨xs, hxs, rfl⟩
        cases hxs with
        | @cons _ y _ ys hfirst hrest =>
          obtain rfl := Except.ok.inj (hx.symm.trans hfirst)
          exact ⟨ys, hrest, (hstep ys).symm⟩

/-- The options leave the groups alone. -/
theorem GroupReader.Reads.groups_options (h : r.Reads S target) {os : List ConfigOption} {cfg cfg' : γ}
    (hrun : os.foldlM r.applyOption cfg = .ok cfg') : S.groups cfg' = S.groups cfg := by
  have hkept : ∀ {u : γ} {e : String × List String} {v : γ}, S.groups u = S.groups cfg →
      entryStep r.applyOption u e = some v → S.groups v = S.groups cfg := by
    intro u e v hu hstep
    have hcopy : S.outer.copy (target e.1) v u = v :=
      h.outer.entryStep_written.sameOutside hstep
    rw [← hcopy, S.groups_copy, hu]
  exact runSteps_invariant hkept rfl (h.outer.foldlM_eq_ok.mp hrun)

/-- What the group of the program is read to. -/
structure GroupReader.Top (r : GroupReader γ τ) (top : ConfigGroup) (cfg : γ) (xs : List τ) :
    Prop where
  options : runSteps (entryStep r.applyOption) r.start top.root.entries = some cfg
  groups : List.Forall₂ (fun c x => r.parseGroup c.root = .ok x) top.children xs

/-- A configuration is accepted if there is one group of the program and all in it is. -/
theorem GroupReader.Reads.parse_eq_ok (h : r.Reads S target) {groups : List ConfigGroup} {cfg : γ} :
    r.parse groups = .ok cfg ↔ ∃ top cfg₀ xs,
      (groups.filter fun top => top.root.name = r.name) = [top] ∧ r.Top top cfg₀ xs ∧
        cfg = S.withGroups cfg₀ xs := by
  have hempty : ∀ {os : List ConfigOption} {cfg₀ : γ},
      os.foldlM r.applyOption r.start = .ok cfg₀ → S.groups cfg₀ = [] :=
    fun hrun => (h.groups_options hrun).trans h.start
  rw [GroupReader.parse]
  constructor
  · intro hparse
    split at hparse
    · cases hparse
    rename_i top more hfilter
    split at hparse
    · cases hparse
    rename_i cfg₀ hoptions
    split at hparse
    · cases hparse
    rename_i cfg' hgroups
    split at hparse
    · obtain rfl := Except.ok.inj hparse
      obtain ⟨xs, hxs, rfl⟩ := h.foldlM_addGroup.mp hgroups
      refine ⟨top, cfg₀, xs, hfilter, ⟨h.outer.foldlM_eq_ok.mp hoptions, hxs⟩, ?_⟩
      rw [hempty hoptions, List.nil_append]
    · cases hparse
  · rintro ⟨top, cfg₀, xs, hfilter, htop, rfl⟩
    have hoptions : top.root.options.foldlM r.applyOption r.start = .ok cfg₀ :=
      h.outer.foldlM_eq_ok.mpr htop.options
    have hgroups : top.children.foldlM r.addGroup cfg₀ = .ok (S.withGroups cfg₀ xs) :=
      h.foldlM_addGroup.mpr ⟨xs, htop.groups, by rw [hempty hoptions, List.nil_append]⟩
    simp only [hfilter, hoptions, hgroups]

/-- The options of the group can be visited in any order. -/
def GroupReader.Orderless (r : GroupReader γ τ) (top : ConfigGroup) : Prop :=
  ∀ e ∈ top.root.entries, ∀ e' ∈ top.root.entries, Swaps (entryStep r.applyOption) e e'

/-- The groups inside of it have distinct options. -/
def InnerDistinct (top : ConfigGroup) : Prop := ∀ c ∈ top.children, c.root.Distinct

variable {top top' : ConfigGroup} {cfg cfg' : γ} {xs xs' : List τ}

theorem GroupReader.Reads.parseGroup_alike (h : r.Reads S target) {b b' : ConfigHead} {x : τ}
    (halike : b.Alike b') (hb : b.Distinct) : r.parseGroup b = .ok x ↔ r.parseGroup b' = .ok x :=
  ⟨h.alike halike hb, h.alike halike.symm (halike.distinct hb)⟩

theorem GroupReader.Reads.groups_alike (h : r.Reads S target) {cs cs' : List ConfigGroup}
    (halike : List.Forall₂ (fun c c' => c.root.Alike c'.root) cs cs')
    (hdistinct : ∀ c ∈ cs, c.root.Distinct) :
    List.Forall₂ (fun c x => r.parseGroup c.root = .ok x) cs xs ↔
      List.Forall₂ (fun c x => r.parseGroup c.root = .ok x) cs' xs := by
  induction halike generalizing xs with
  | nil => rfl
  | @cons c c' cs cs' hc hcs ih =>
    obtain ⟨hfirst, hrest⟩ := List.forall_mem_cons.mp hdistinct
    cases xs with
    | nil => simp
    | cons x xs =>
      rw [List.forall₂_cons, List.forall₂_cons, h.parseGroup_alike hc hfirst, ih hrest]

theorem groups_unique {cs : List ConfigGroup}
    (hxs : List.Forall₂ (fun c x => r.parseGroup c.root = .ok x) cs xs)
    (hxs' : List.Forall₂ (fun c x => r.parseGroup c.root = .ok x) cs xs') : xs = xs' := by
  refine List.right_unique_forall₂' ?_ hxs hxs'
  intro c x x' hx hx'
  exact Except.ok.inj (hx.symm.trans hx')

theorem GroupReader.Reads.top_alike (h : r.Reads S target) (halike : TopAlike top top')
    (horder : r.Orderless top) (hinner : InnerDistinct top) :
    r.Top top cfg xs ↔ r.Top top' cfg xs := by
  have hoptions := runSteps_perm halike.root.options horder r.start
  have hgroups : List.Forall₂ (fun c x => r.parseGroup c.root = .ok x) top.children xs ↔
      List.Forall₂ (fun c x => r.parseGroup c.root = .ok x) top'.children xs :=
    h.groups_alike halike.children hinner
  constructor
  · intro htop
    exact ⟨hoptions ▸ htop.options, hgroups.mp htop.groups⟩
  · intro htop
    exact ⟨hoptions.symm ▸ htop.options, hgroups.mpr htop.groups⟩

/-- The group of the program has distinct options, in itself and in the groups inside of it, and
they can be visited in any order. -/
def GroupReader.Regular (r : GroupReader γ τ) (groups : List ConfigGroup) : Prop :=
  ∀ top ∈ groups, top.root.name = r.name → r.Orderless top ∧ InnerDistinct top

theorem forall₂_filter {R : ConfigGroup → ConfigGroup → Prop} {groups groups' : List ConfigGroup}
    (h : List.Forall₂ R groups groups') (hname : ∀ {x y}, R x y → x.root.name = y.root.name)
    (name : String) : List.Forall₂ R (groups.filter fun top => top.root.name = name)
      (groups'.filter fun top => top.root.name = name) := by
  refine List.rel_filter ?_ h
  intro x y hxy
  simp [hname hxy]

theorem GroupReader.Reads.parse_alike (h : r.Reads S target) {groups groups' : List ConfigGroup}
    (halike : List.Forall₂ TopAlike groups groups') (hregular : r.Regular groups) :
    r.parse groups = .ok cfg ↔ r.parse groups' = .ok cfg := by
  have hfilter := forall₂_filter halike (fun hxy => hxy.root.name) r.name
  have hone : ∀ {top : ConfigGroup}, (groups.filter fun top => top.root.name = r.name) = [top] →
      r.Orderless top ∧ InnerDistinct top := by
    intro top heq
    have hmem : top ∈ groups.filter fun top => top.root.name = r.name := heq ▸ List.mem_cons_self
    obtain ⟨hmem, hname⟩ := List.mem_filter.mp hmem
    exact hregular top hmem (by simpa using hname)
  rw [h.parse_eq_ok, h.parse_eq_ok]
  constructor
  · rintro ⟨top, cfg₀, xs, heq, htop, rfl⟩
    rw [heq] at hfilter
    obtain ⟨top', rest, hrel, hnil, heq'⟩ := List.forall₂_cons_left_iff.mp hfilter
    obtain rfl := List.forall₂_nil_left_iff.mp hnil
    obtain ⟨horder, hinner⟩ := hone heq
    exact ⟨top', cfg₀, xs, heq', (h.top_alike hrel horder hinner).mp htop, rfl⟩
  · rintro ⟨top', cfg₀, xs, heq, htop, rfl⟩
    rw [heq] at hfilter
    obtain ⟨top, rest, hrel, hnil, heq'⟩ := List.forall₂_cons_right_iff.mp hfilter
    obtain rfl := List.forall₂_nil_right_iff.mp hnil
    obtain ⟨horder, hinner⟩ := hone heq'
    exact ⟨top, cfg₀, xs, heq', (h.top_alike hrel horder hinner).mpr htop, rfl⟩

/-- One option of the group of the program sets its own setting. -/
theorem GroupReader.Reads.options_edited (h : r.Reads S target) {key : String}
    (hkey : target key = key) (hroot : (top.root.without key).Alike (top'.root.without key))
    (horder : r.Orderless top) (htop : r.Top top cfg xs) (htop' : r.Top top' cfg' xs') :
    S.outer.SameOutside key cfg cfg' := by
  refine h.outer.entryStep_written.sameOutside_runs ?_ ?_ htop.options htop'.options
  · -- an option that does not set it is another one
    have hother : ∀ es : List (String × List String),
        (es.filter fun e => !decide (target e.1 = key)) =
          (es.filter (·.1 ≠ key)).filter fun e => !decide (target e.1 = key) := by
      intro es
      rw [List.filter_filter]
      refine List.filter_congr fun e _ => ?_
      by_cases he : e.1 = key
      · simp [he, hkey]
      · simp [he]
    rw [hother top.root.entries, hother top'.root.entries]
    have hperm := hroot.options
    rw [ConfigHead.entries_without, ConfigHead.entries_without] at hperm
    exact hperm.filter _
  · exact fun e he e' he' _ _ => horder e he e' he'

/-- One option of a group inside of it sets a setting of that group. -/
theorem GroupReader.Reads.groups_edited (h : r.Reads S target) {key : String} {j : ℕ}
    {cs cs' : List ConfigGroup} (hdistinct : ∀ c ∈ cs, c.root.Distinct)
    (hdistinct' : ∀ c ∈ cs', c.root.Distinct)
    (hedited : List.Forall₂ (fun b b' => ConfigHead.Alike b b')
      ((cs.map RoseTree.root).modify j (·.without key))
      ((cs'.map RoseTree.root).modify j (·.without key)))
    (hxs : List.Forall₂ (fun c x => r.parseGroup c.root = .ok x) cs xs)
    (hxs' : List.Forall₂ (fun c x => r.parseGroup c.root = .ok x) cs' xs') :
    S.copyGroup j key xs' xs = xs' := by
  induction hxs generalizing j cs' xs' with
  | nil => cases hxs' with
    | nil => rfl
    | cons hfirst hrest => cases j <;> cases hedited
  | @cons c x cs xs hx hxs ih => cases hxs' with
    | nil => cases j <;> cases hedited
    | @cons c' x' cs' xs' hx' hxs' =>
      obtain ⟨hc, hcs⟩ := List.forall_mem_cons.mp hdistinct
      obtain ⟨hc', hcs'⟩ := List.forall_mem_cons.mp hdistinct'
      cases j with
      | zero =>
        rw [List.map_cons, List.map_cons, List.modify_zero_cons, List.modify_zero_cons,
          List.forall₂_cons] at hedited
        have hfirst : S.inner.copy key x' x = x' := h.edited hc hc' hedited.1 hx hx'
        have hrest : xs = xs' := by
          have hread := (h.groups_alike (List.forall₂_map_left_iff.mp
            (List.forall₂_map_right_iff.mp hedited.2)) hcs).mp hxs
          exact groups_unique hread hxs'
        simp [Settings.copyGroup, hfirst, hrest]
      | succ j =>
        rw [List.map_cons, List.map_cons, List.modify_succ_cons, List.modify_succ_cons,
          List.forall₂_cons] at hedited
        obtain rfl : x = x' := Except.ok.inj (((h.parseGroup_alike hedited.1 hc).mp hx).symm.trans hx')
        have hrest := ih hcs hcs' hedited.2 hxs'
        unfold Settings.copyGroup at hrest ⊢
        rw [List.getElem?_cons_succ]
        cases hj : xs'[j]? with
        | none =>
          simp only [hj] at hrest
          simp [hrest]
        | some y =>
          simp only [hj] at hrest
          simp [hrest]

theorem DistinctKeys.innerDistinct {g : ConfigGroup} (h : DistinctKeys g) (htop : top ∈ g.children) :
    InnerDistinct top := by
  intro c hc
  have hnode : c ∈ RoseTree.forestNodes [g] :=
    RoseTree.forestNodes_children_subset (RoseTree.mem_forestNodes_of_mem List.mem_cons_self)
      (RoseTree.forestNodes_children_subset (RoseTree.mem_forestNodes_of_mem htop)
        (RoseTree.mem_forestNodes_of_mem hc))
  rw [ConfigHead.Distinct, ConfigHead.keys_entries]
  exact h c (by simpa [RoseTree.forestNodes] using hnode)

/-- The groups of the program in two configurations that are accepted. -/
theorem GroupReader.Reads.tops (h : r.Reads S target) {R : ConfigGroup → ConfigGroup → Prop}
    {groups groups' : List ConfigGroup} (hrel : List.Forall₂ R groups groups')
    (hname : ∀ {x y}, R x y → x.root.name = y.root.name) (hregular : r.Regular groups)
    (hcfg : r.parse groups = .ok cfg) (hcfg' : r.parse groups' = .ok cfg') :
    ∃ top top' cfg₀ cfg₀' xs xs', R top top' ∧ top.root.name = r.name ∧
      (r.Orderless top ∧ InnerDistinct top) ∧ top' ∈ groups' ∧ r.Top top cfg₀ xs ∧
        r.Top top' cfg₀' xs' ∧ cfg = S.withGroups cfg₀ xs ∧ cfg' = S.withGroups cfg₀' xs' := by
  obtain ⟨top, cfg₀, xs, heq, htop, rfl⟩ := h.parse_eq_ok.mp hcfg
  obtain ⟨top', cfg₀', xs', heq', htop', rfl⟩ := h.parse_eq_ok.mp hcfg'
  have hfilter := forall₂_filter hrel hname r.name
  rw [heq, heq', List.forall₂_cons] at hfilter
  have hmem : top ∈ groups.filter fun top => top.root.name = r.name := heq ▸ List.mem_cons_self
  have hmem' : top' ∈ groups'.filter fun top => top.root.name = r.name :=
    heq' ▸ List.mem_cons_self
  obtain ⟨hin, hown⟩ := List.mem_filter.mp hmem
  have hown : top.root.name = r.name := by simpa using hown
  exact ⟨top, top', cfg₀, cfg₀', xs, xs', hfilter.1, hown, hregular top hin hown,
    (List.mem_filter.mp hmem').1, htop, htop', rfl, rfl⟩

theorem GroupReader.Reads.ownSetting (h : r.Reads S target) {g : ConfigGroup} {place : List ℕ}
    {key : String} (hkey : ∀ i top, place = [i] → g.children[i]? = some top →
      top.root.name = r.name → target key = key) (hregular : r.Regular g.children) : (r.settings S).OwnSetting g place key := by
  have hreordered : ∀ {g₁ : ConfigGroup} {cfg : γ}, Reordered g g₁ →
      (r.parse g.children = .ok cfg ↔ r.parse g₁.children = .ok cfg) :=
    fun hg₁ => h.parse_alike (hg₁.children.imp fun _ _ => Reordered.topAlike) hregular
  refine ⟨?_, fun g₁ cfg hg₁ => (hreordered hg₁).mp⟩
  intro g₁ g₂ cfg cfg' hg₁ hdistinct hedited hcfg₁ hcfg'
  have hcfg : r.parse g.children = .ok cfg := (hreordered hg₁).mpr hcfg₁
  change S.copy place key cfg' cfg = cfg'
  match place, hkey, hedited with
  | [], _, hedited =>
    have halike := hedited.children_of_nil.imp fun _ _ => Reordered.topAlike
    exact Except.ok.inj (((h.parse_alike halike hregular).mp hcfg).symm.trans hcfg')
  | [i], hkey, hedited =>
    have hname : ∀ {x y}, (Reordered x y ∨ (g.children[i]? = some x ∧ EditedAt [] key x y)) →
        x.root.name = y.root.name := fun hxy => hxy.elim (·.root.name) (·.2.name)
    obtain ⟨top, top', cfg₀, cfg₀', xs, xs', hrel, hown, ⟨horder, hinner⟩, -, htop, htop',
      rfl, rfl⟩ := h.tops hedited.members_of_cons hname hregular hcfg hcfg'
    have hsame : S.outer.copy key cfg₀' cfg₀ = cfg₀' := by
      rcases hrel with hrel | ⟨hat, hrel⟩
      · have hrun := runSteps_perm hrel.root.options horder r.start
        obtain rfl := Option.some.inj (htop.options.symm.trans (hrun.trans htop'.options))
        exact S.outer.copy_self key cfg₀
      · exact h.options_edited (hkey i top rfl hat hown) hrel.head_of_nil horder htop htop'
    have hchildren := (hrel.elim Reordered.children (·.2.children_of_nil)).imp
      fun _ _ => Reordered.root
    have hxs : xs = xs' :=
      groups_unique ((h.groups_alike hchildren hinner).mp htop.groups) htop'.groups
    change S.outer.copy key (S.withGroups cfg₀' xs') (S.withGroups cfg₀ xs) = _
    rw [S.copy_withGroups, hsame, hxs]
  | [i, j], _, hedited =>
    obtain ⟨top, top', cfg₀, cfg₀', xs, xs', hrel, -, ⟨horder, hinner⟩, hmem', htop, htop',
      rfl, rfl⟩ := h.tops hedited.children_of_cons EditedAt.name hregular hcfg hcfg'
    have hsame : cfg₀ = cfg₀' := by
      have hrun := runSteps_perm hrel.root_of_cons.options horder r.start
      exact Option.some.inj (htop.options.symm.trans (hrun.trans htop'.options))
    have hxs : S.copyGroup j key xs' xs = xs' :=
      h.groups_edited hinner (hdistinct.innerDistinct hmem') hrel.roots_of_cons htop.groups
        htop'.groups
    change S.withGroups (S.withGroups cfg₀ xs) (S.copyGroup j key
      (S.groups (S.withGroups cfg₀' xs')) (S.groups (S.withGroups cfg₀ xs))) = _
    rw [S.groups_withGroups, S.groups_withGroups, S.withGroups_withGroups, hxs, hsame]
  | i :: j :: l :: rest, _, hedited =>
    have halike := hedited.children_of_cons.imp fun _ _ => EditedAt.topAlike
    exact Except.ok.inj (((h.parse_alike halike hregular).mp hcfg).symm.trans hcfg')

end Reading

end Ctguard
