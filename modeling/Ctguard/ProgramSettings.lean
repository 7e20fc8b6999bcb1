import Ctguard.OwnSettings

/-!
# The settings of the four programs

In three of the programs every option sets its own setting. That for the interval of the state file
is written to the interval of the checks, so the two options of `logscan` overwrite each other, in
the order in which the hash table happens to keep them.
-/

namespace Ctguard

section Programs

open LogfileTask (LogfileConfig)

variable {γ τ ρ : Type} {host : Host ρ} {F : Fields String τ}
  {apply : τ → ConfigOption → Except String τ} {b b' : ConfigHead}

/-- Options of distinct keys can be visited in any order, if each sets its own field. -/
theorem Applies.swaps (h : Applies F apply id) (hb : b.Distinct) :
    ∀ e ∈ b.entries, ∀ e' ∈ b.entries, Swaps (entryStep apply) e e' := by
  intro e he e' he'
  by_cases hkeys : e.1 = e'.1
  · obtain rfl := List.inj_on_of_nodup_map hb he he' hkeys
    exact .refl e
  · exact h.entryStep_written.swaps hkeys

/-- Reading a group inside of the group of a program: its name and keyword are checked, its
options are visited, and the result may be checked. -/
structure ReadsInner (parse : ConfigHead → Except String τ) (F : Fields String τ) : Prop where
  alike : ∀ {b b' x}, b.Alike b' → b.Distinct → parse b = .ok x → parse b' = .ok x
  edited : ∀ {b b' x x' key}, b.Distinct → b'.Distinct → (b.without key).Alike (b'.without key) →
    parse b = .ok x → parse b' = .ok x' → F.SameOutside key x x'

theorem Applies.readsInner (h : Applies F apply id) {parse : ConfigHead → Except String τ}
    (start : String → τ) (P : String → String → Prop) (Q : τ → Prop)
    (hparse : ∀ {b x}, parse b = .ok x ↔ P b.name b.keyword ∧
      runSteps (entryStep apply) (start b.keyword) b.entries = some x ∧ Q x) :
    ReadsInner parse F where
  alike {b b' x} halike hb hx := by
    obtain ⟨hhead, hrun, haccepted⟩ := hparse.mp hx
    rw [runSteps_perm halike.options (h.swaps hb)] at hrun
    rw [halike.name, halike.keyword] at hhead
    rw [halike.keyword] at hrun
    exact hparse.mpr ⟨hhead, hrun, haccepted⟩
  edited {b b' x x' key} hb hb' halike hx hx' := by
    obtain ⟨-, hrun, -⟩ := hparse.mp hx
    obtain ⟨-, hrun', -⟩ := hparse.mp hx'
    have hkeyword : b.keyword = b'.keyword := halike.keyword
    rw [← hkeyword] at hrun'
    have hperm := halike.options
    rw [ConfigHead.entries_without, ConfigHead.entries_without] at hperm
    refine h.entryStep_written.sameOutside_runs ?_ ?_ hrun hrun'
    · simpa using hperm
    · exact fun e he e' he' _ _ => h.swaps hb e he e' he'

theorem parseLogfile_eq_ok {x : LogfileConfig} : Logscan.parseLogfile b = .ok x ↔
    (b.name = "logfile" ∧ b.keyword ≠ "") ∧
      runSteps (entryStep Logscan.applyLogfileOption) { path := b.keyword } b.entries = some x ∧
        True := by
  rw [ConfigHead.entries, ← Logscan.logfileApplies.foldlM_eq_ok, Logscan.parseLogfile]
  split_ifs with hname hkeyword
  · simp [hkeyword]
  · simp [hname, hkeyword]
  · simp [hname]

theorem readsLogfile : ReadsInner Logscan.parseLogfile Logscan.logfileFields :=
  Logscan.logfileApplies.readsInner (fun keyword => { path := keyword })
    (fun name keyword => name = "logfile" ∧ keyword ≠ "") (fun _ => True) parseLogfile_eq_ok

theorem parseDirectory_eq_ok {x : Diskscan.Watch} : Diskscan.parseDirectory b = .ok x ↔
    (b.name = "directory" ∧ b.keyword ≠ "") ∧
      runSteps (entryStep Diskscan.applyDirectoryOption) { path := b.keyword } b.entries = some x ∧
        True := by
  rw [ConfigHead.entries, ← Diskscan.watchApplies.foldlM_eq_ok, Diskscan.parseDirectory]
  split_ifs with hname hkeyword
  · simp [hkeyword]
  · simp [hname, hkeyword]
  · simp [hname]

theorem readsDirectory : ReadsInner Diskscan.parseDirectory Diskscan.watchFields :=
  Diskscan.watchApplies.readsInner (fun keyword => { path := keyword })
    (fun name keyword => name = "directory" ∧ keyword ≠ "") (fun _ => True) parseDirectory_eq_ok

theorem parseAction_eq_ok {x : InterventionAction} :
    InterventionConfig.parseAction host b = .ok x ↔
      (b.name = "action" ∧ b.keyword ≠ "") ∧
        runSteps (entryStep (InterventionConfig.applyActionOption host)) { name := b.keyword }
          b.entries = some x ∧ x.command ≠ "" := by
  rw [ConfigHead.entries, ← InterventionConfig.actionApplies.foldlM_eq_ok,
    InterventionConfig.parseAction]
  split_ifs with hname hkeyword
  · simp [hkeyword]
  · cases hrun : b.options.foldlM (InterventionConfig.applyActionOption host)
        { name := b.keyword } with
    | error what => simp
    | ok action =>
      by_cases hcommand : action.command = ""
      · simp [hcommand, hname, hkeyword]
        rintro rfl
        exact hcommand
      · simp [hcommand, hname, hkeyword]
        rintro rfl
        exact hcommand
  · simp [hname]

theorem readsAction :
    ReadsInner (InterventionConfig.parseAction host) InterventionConfig.actionFields :=
  InterventionConfig.actionApplies.readsInner (fun keyword => { name := keyword })
    (fun name keyword => name = "action" ∧ keyword ≠ "") (·.command ≠ "") parseAction_eq_ok

namespace Logscan

def settings : Settings LogscanConfig LogfileConfig where
  outer := fields
  inner := logfileFields
  groups := LogscanConfig.logFiles
  withGroups cfg xs := { cfg with logFiles := xs }
  groups_withGroups _ _ := rfl
  withGroups_withGroups _ _ _ := rfl
  withGroups_groups _ := rfl
  groups_copy _ _ _ := rfl
  copy_withGroups _ _ _ _ _ := rfl

theorem reads : reader.Reads settings target where
  add _ _ := rfl
  start := rfl
  outer := applies
  alike := readsLogfile.alike
  edited := readsLogfile.edited

end Logscan

namespace Research

def settings : Settings ResearchConfig Empty where
  outer := fields
  inner := { copy _ _ x := x, copy_self _ _ := rfl, copy_copy _ _ _ _ := rfl, copy_comm _ _ _ _ := rfl }
  groups _ := []
  withGroups cfg _ := cfg
  groups_withGroups _ xs := by
    cases xs with
    | nil => rfl
    | cons x => exact x.elim
  withGroups_withGroups _ _ _ := rfl
  withGroups_groups _ := rfl
  groups_copy _ _ _ := rfl
  copy_withGroups _ _ _ _ _ := rfl

theorem reads : reader.Reads settings id where
  add _ x := x.elim
  start := rfl
  outer := applies
  alike {_ _ x} := x.elim
  edited {_ _ x} := x.elim

end Research

namespace Diskscan

def settings (ρ : Type) : Settings (DiskscanConfig ρ) Watch where
  outer := fields ρ
  inner := watchFields
  groups := DiskscanConfig.watches
  withGroups cfg xs := { cfg with watches := xs }
  groups_withGroups _ _ := rfl
  withGroups_withGroups _ _ _ := rfl
  withGroups_groups _ := rfl
  groups_copy _ _ _ := rfl
  copy_withGroups _ _ _ _ _ := rfl

theorem reads : (reader host).Reads (settings ρ) id where
  add _ _ := rfl
  start := rfl
  outer := applies
  alike := readsDirectory.alike
  edited := readsDirectory.edited

end Diskscan

namespace InterventionConfig

def settings : Settings InterventionConfig InterventionAction where
  outer := fields
  inner := actionFields
  groups := InterventionConfig.actions
  withGroups cfg xs := { cfg with actions := xs }
  groups_withGroups _ _ := rfl
  withGroups_withGroups _ _ _ := rfl
  withGroups_groups _ := rfl
  groups_copy _ _ _ := rfl
  copy_withGroups _ _ _ _ _ := rfl

theorem reads : (reader host).Reads settings id where
  add _ _ := rfl
  start := rfl
  outer := applies
  alike := readsAction.alike
  edited := readsAction.edited

end InterventionConfig

/-- The programs with a configuration. -/
inductive Program where
  | logscan
  | research
  | intervention
  | diskscan
  deriving DecidableEq, Repr

def Program.reader (host : Host ρ) : Program → SettingsReader
  | .logscan => Logscan.reader.settings Logscan.settings
  | .research => Research.reader.settings Research.settings
  | .intervention => (InterventionConfig.reader host).settings InterventionConfig.settings
  | .diskscan => (Diskscan.reader host).settings (Diskscan.settings ρ)

end Programs

section Trees

/-- The same tree. -/
theorem Reordered.refl (g : ConfigGroup) : Reordered g g := by
  have hall : ∀ ts : List ConfigGroup, List.Forall₂ Reordered ts ts := by
    intro ts
    induction ts using RoseTree.forestInduction with
    | nil => exact .nil
    | cons a cs ts ihcs ihts => exact .cons (.mk (.refl a) ihcs) ihts
  exact (List.forall₂_same.mp (hall [g])) g List.mem_cons_self

theorem distinctKeys_iff {g : ConfigGroup} :
    DistinctKeys g ↔ g.root.Distinct ∧ ∀ c ∈ g.children, DistinctKeys c := by
  obtain ⟨b, cs⟩ := g
  have hforest : ∀ ts : List ConfigGroup, (∀ t ∈ RoseTree.forestNodes ts,
      (t.root.options.map (·.key)).Nodup) ↔ ∀ c ∈ ts, DistinctKeys c := by
    intro ts
    induction ts with
    | nil => simp
    | cons t ts ih =>
      rw [RoseTree.forestNodes, List.forall_mem_cons, ← ih]
      simp only [List.mem_append, or_imp, forall_and]
      rfl
  rw [DistinctKeys, RoseTree.nodes, List.forall_mem_cons, hforest, ConfigHead.Distinct,
    ConfigHead.keys_entries]

/-- The group with other options. -/
def setOptions (os : List ConfigOption) (top : ConfigGroup) : ConfigGroup :=
  ⟨{ top.root with options := os }, top.children⟩

variable {b : ConfigHead} {top top' : ConfigGroup} {pre post : List ConfigGroup}

theorem modify_length {α : Type} (f : α → α) (xs : List α) (x : α) (ys : List α) :
    (xs ++ x :: ys).modify xs.length f = xs ++ f x :: ys := by
  induction xs with
  | nil => rfl
  | cons y xs ih => simp [ih]

theorem forall₂_replace (h : Reordered top top') :
    List.Forall₂ Reordered (pre ++ top :: post) (pre ++ top' :: post) := by
  induction pre with
  | nil => exact .cons h (List.forall₂_same.mpr fun c _ => .refl c)
  | cons c pre ih => exact .cons (.refl c) ih

theorem reordered_setOptions (os : List ConfigOption)
    (hperm : top.root.entries.Perm (os.map ConfigOption.entry)) :
    Reordered ⟨b, pre ++ top :: post⟩ ⟨b, pre ++ setOptions os top :: post⟩ := by
  obtain ⟨b', cs⟩ := top
  refine .mk (.refl b) (forall₂_replace ?_)
  exact .mk ⟨rfl, rfl, hperm⟩ (List.forall₂_same.mpr fun c _ => .refl c)

theorem editedAt_setOptions (os : List ConfigOption) {key : String}
    (hperm : (top.root.entries.filter (·.1 ≠ key)).Perm
      ((os.map ConfigOption.entry).filter (·.1 ≠ key))) :
    EditedAt [pre.length] key ⟨b, pre ++ top :: post⟩ ⟨b, pre ++ setOptions os top :: post⟩ := by
  refine .mk (.refl b) ?_
  rw [modify_length, modify_length]
  refine forall₂_replace (.mk ⟨rfl, rfl, ?_⟩ (List.forall₂_same.mpr fun c _ => .refl c))
  rw [ConfigHead.entries_without, ConfigHead.entries_without]
  exact hperm

theorem distinctKeys_setOptions (os : List ConfigOption) (h : DistinctKeys ⟨b, pre ++ top :: post⟩)
    (hos : (os.map (·.key)).Nodup) : DistinctKeys ⟨b, pre ++ setOptions os top :: post⟩ := by
  obtain ⟨hroot, hall⟩ := distinctKeys_iff.mp h
  refine distinctKeys_iff.mpr ⟨hroot, ?_⟩
  intro c hc
  rcases List.mem_append.mp hc with hpre | hpost
  · exact hall c (List.mem_append_left _ hpre)
  rcases List.mem_cons.mp hpost with rfl | hpost
  · have htop := (distinctKeys_iff.mp (hall top (by simp))).2
    refine distinctKeys_iff.mpr ⟨?_, htop⟩
    rw [ConfigHead.Distinct, ConfigHead.keys_entries]
    exact hos
  · exact hall c (by simp [hpost])

end Trees

namespace Logscan

variable {b : ConfigHead} {top : ConfigGroup} {pre post : List ConfigGroup} {cfg : LogscanConfig}

/-- The option for the interval of the state file, in the group that the program reads. -/
def IsStateFileInterval (g : ConfigGroup) (place : List ℕ) (key : String) : Prop :=
  key = "state_file_interval" ∧
    ∃ i top, place = [i] ∧ g.children[i]? = some top ∧ top.root.name = "logscan"

/-- If there are both options, they are given the same number of seconds. -/
def IntervalsAgree (g : ConfigGroup) : Prop :=
  ∀ top ∈ g.children, top.root.name = "logscan" →
    ∀ o ∈ top.root.options, ∀ o' ∈ top.root.options,
      o.key = "check_interval" → o'.key = "state_file_interval" →
        parseSecondDuration o.options = (o'.integral (2 ^ 32 - 1)).map UInt32.ofNat

theorem parse_setOptions (os : List ConfigOption) {cfg' : LogscanConfig}
    (hcfg : reader.parse (pre ++ top :: post) = .ok cfg) (hname : top.root.name = "logscan")
    (hrun : runSteps (entryStep applyOption) {} (os.map ConfigOption.entry) = some cfg') :
    reader.parse (pre ++ setOptions os top :: post) = .ok { cfg' with logFiles := cfg.logFiles } := by
  obtain ⟨top', cfg₀, xs, hfilter, htop, rfl⟩ := reads.parse_eq_ok.mp hcfg
  have hname' : (setOptions os top).root.name = "logscan" := hname
  have hnames : reader.name = "logscan" := rfl
  rw [List.filter_append, List.filter_cons_of_pos (by simpa [hnames] using hname)] at hfilter
  have hlength := congrArg List.length hfilter
  simp only [List.length_append, List.length_cons, List.length_nil] at hlength
  have hpre : (pre.filter fun top => top.root.name = reader.name) = [] :=
    List.eq_nil_of_length_eq_zero (by omega)
  have hpost : (post.filter fun top => top.root.name = reader.name) = [] :=
    List.eq_nil_of_length_eq_zero (by omega)
  rw [hpre, hpost, List.nil_append] at hfilter
  obtain rfl : top = top' := (List.cons.inj hfilter).1
  refine reads.parse_eq_ok.mpr ⟨setOptions os top, cfg', xs, ?_, ⟨hrun, htop.groups⟩, rfl⟩
  rw [List.filter_append, List.filter_cons_of_pos (by simpa [hnames] using hname'), hpre, hpost]
  rfl

/-- The number of seconds that the option sets the interval of the checks to. -/
def seconds (o : ConfigOption) : Except String UInt32 :=
  if o.key = "check_interval" then parseSecondDuration o.options
  else (o.integral (2 ^ 32 - 1)).map UInt32.ofNat

/-- The two options do the same. -/
theorem entryStep_interval {o : ConfigOption} (ho : target o.key = "check_interval")
    (cfg : LogscanConfig) : entryStep applyOption cfg o.entry =
      (seconds o).toOption.map fun value => { cfg with checkInterval := value } := by
  obtain ⟨key, options, pos⟩ := o
  have hkeys : key = "check_interval" ∨ key = "state_file_interval" := by
    by_cases hkey : key = "state_file_interval"
    · exact .inr hkey
    · simp only [target, if_neg hkey] at ho
      exact .inl ho
  rcases hkeys with rfl | rfl
  · simp only [entryStep, applyOption, seconds, ConfigOption.entry, ConfigOption.refused, if_true]
    cases parseSecondDuration options <;> rfl
  · simp only [entryStep, applyOption, seconds, ConfigOption.entry, ConfigOption.refused,
      ConfigOption.integral]
    cases libsParseIntegral (2 ^ 32 - 1) (options.headD "") <;> rfl

theorem target_eq {k k' : String} (h : target k = target k') (hne : k ≠ k') :
    (k = "check_interval" ∧ k' = "state_file_interval") ∨
      (k = "state_file_interval" ∧ k' = "check_interval") := by
  unfold target at h
  split_ifs at h with hk hk'
  · exact absurd (hk.trans hk'.symm) hne
  · exact .inr ⟨hk, h.symm⟩
  · rename_i hk'
    exact .inl ⟨h, hk'⟩
  · exact absurd h hne

theorem orderless (hdistinct : top.root.Distinct)
    (hagree : ∀ o ∈ top.root.options, ∀ o' ∈ top.root.options, o.key = "check_interval" →
      o'.key = "state_file_interval" → seconds o = seconds o') : reader.Orderless top := by
  intro e he e' he'
  obtain ⟨o, ho, rfl⟩ := List.mem_map.mp he
  obtain ⟨o', ho', rfl⟩ := List.mem_map.mp he'
  by_cases htarget : target o.key = target o'.key
  · by_cases hkeys : o.key = o'.key
    · rw [List.inj_on_of_nodup_map hdistinct he he' hkeys]
      exact .refl _
    · have hsame : target o.key = "check_interval" ∧ target o'.key = "check_interval" ∧
          seconds o = seconds o' := by
        rcases target_eq htarget hkeys with ⟨hkey, hkey'⟩ | ⟨hkey, hkey'⟩
        · exact ⟨by rw [hkey]; rfl, by rw [hkey']; rfl, hagree o ho o' ho' hkey hkey'⟩
        · exact ⟨by rw [hkey]; rfl, by rw [hkey']; rfl, (hagree o' ho' o ho hkey' hkey).symm⟩
      change Swaps (entryStep applyOption) o.entry o'.entry
      intro cfg
      simp only [entryStep_interval hsame.1, entryStep_interval hsame.2.1, hsame.2.2]
  · exact applies.entryStep_written.swaps htarget

/-- An option that is visited last is accepted if the others are, and what it sets stays. -/
theorem run_last {es : List (String × List String)} {o : ConfigOption}
    (ho : target o.key = "check_interval") {n : UInt32} (hn : seconds o = .ok n)
    (haccepted : ∀ e ∈ es, (entryStep applyOption {} e).isSome = true) :
    ∃ cfg', runSteps (entryStep applyOption) {} (es ++ [o.entry]) = some cfg' ∧
      cfg'.checkInterval = n := by
  obtain ⟨u, hu⟩ := Option.isSome_iff_exists.mp
    ((applies.entryStep_written.isSome_runSteps {}).mpr haccepted)
  refine ⟨{ u with checkInterval := n }, ?_, rfl⟩
  rw [runSteps_append, hu, Option.bind_some, runSteps_cons, entryStep_interval ho, hn]
  rfl

theorem seconds_of_accepted {o : ConfigOption} (ho : target o.key = "check_interval")
    (h : (entryStep applyOption {} o.entry).isSome = true) : ∃ n, seconds o = .ok n := by
  rw [entryStep_interval ho] at h
  cases hn : seconds o with
  | error what => simp [hn, Except.toOption] at h
  | ok n => exact ⟨n, rfl⟩

/-- All options of an accepted configuration are accepted. -/
theorem accepted_options (hcfg : reader.parse (pre ++ top :: post) = .ok cfg)
    (hname : top.root.name = "logscan") :
    ∀ e ∈ top.root.entries, (entryStep applyOption {} e).isSome = true := by
  obtain ⟨top', cfg₀, xs, hfilter, htop, rfl⟩ := reads.parse_eq_ok.mp hcfg
  have hmem : top ∈ (pre ++ top :: post).filter fun top => top.root.name = reader.name :=
    List.mem_filter.mpr ⟨by simp, decide_eq_true hname⟩
  rw [hfilter, List.mem_singleton] at hmem
  obtain rfl := hmem
  refine (applies.entryStep_written.isSome_runSteps {}).mp ?_
  have hrun : runSteps (entryStep applyOption) {} top.root.entries = some cfg₀ := htop.options
  rw [hrun]
  rfl

/-- If both options are given, different visits end in either value. -/
theorem last_visited (hcfg : reader.parse (pre ++ top :: post) = .ok cfg)
    (hname : top.root.name = "logscan")
    (horder : ∀ g₁, Reordered ⟨b, pre ++ top :: post⟩ g₁ → reader.parse g₁.children = .ok cfg)
    {o : ConfigOption} (ho : o ∈ top.root.options) (htarget : target o.key = "check_interval") :
    seconds o = .ok cfg.checkInterval := by
  have haccepted := accepted_options hcfg hname
  obtain ⟨n, hn⟩ := seconds_of_accepted htarget (haccepted o.entry (List.mem_map_of_mem ho))
  have hperm : top.root.options.Perm (top.root.options.erase o ++ [o]) :=
    (List.perm_cons_erase ho).trans (List.perm_append_singleton o _).symm
  have hvisit := hperm.map ConfigOption.entry
  rw [List.map_append] at hvisit
  have hothers : ∀ e ∈ (top.root.options.erase o).map ConfigOption.entry,
      (entryStep applyOption {} e).isSome = true :=
    fun e he => haccepted e (hvisit.mem_iff.mpr (List.mem_append_left _ he))
  obtain ⟨cfg', hrun, hlast⟩ := run_last htarget hn hothers
  have hread := parse_setOptions (top.root.options.erase o ++ [o]) hcfg hname
    (by rw [List.map_append]; exact hrun)
  have hsame := horder _ (reordered_setOptions (top.root.options.erase o ++ [o])
    (by rw [List.map_append]; exact hvisit))
  have heq := Except.ok.inj (hread.symm.trans hsame)
  rw [hn, ← hlast, ← heq]

/-- Whatever the interval of the checks is, some number of seconds is another. -/
theorem exists_other (n : UInt32) : ∃ value m, value ≠ n ∧
    seconds ⟨"state_file_interval", [m], ⟨0, 0⟩⟩ = .ok value := by
  by_cases hn : n = 0
  · exact ⟨1, "1", by rw [hn]; decide, by decide +kernel⟩
  · exact ⟨0, "0", Ne.symm hn, by decide +kernel⟩

theorem split_at {α : Type} {xs : List α} {i : ℕ} {x : α} (h : xs[i]? = some x) :
    ∃ pre post, xs = pre ++ x :: post ∧ i = pre.length := by
  obtain ⟨hi, rfl⟩ := List.getElem?_eq_some_iff.mp h
  refine ⟨xs.take i, xs.drop (i + 1), ?_, by simp [Nat.le_of_lt hi]⟩
  rw [← List.drop_eq_getElem_cons hi, List.take_append_drop]

/-- Another value for the option, visited last, changes the interval of the checks. -/
theorem stateFileInterval_not_own (hdistinct : DistinctKeys ⟨b, pre ++ top :: post⟩)
    (hcfg : reader.parse (pre ++ top :: post) = .ok cfg) (hname : top.root.name = "logscan") :
    ¬ ∀ g₁ g₂ cfg cfg', Reordered ⟨b, pre ++ top :: post⟩ g₁ → DistinctKeys g₂ →
      EditedAt [pre.length] "state_file_interval" ⟨b, pre ++ top :: post⟩ g₂ →
        reader.parse g₁.children = .ok cfg → reader.parse g₂.children = .ok cfg' →
          settings.copy [pre.length] "state_file_interval" cfg' cfg = cfg' := by
  intro hown
  obtain ⟨value, m, hne, hvalue⟩ := exists_other cfg.checkInterval
  let o : ConfigOption := ⟨"state_file_interval", [m], ⟨0, 0⟩⟩
  let others := top.root.options.filter (·.key ≠ "state_file_interval")
  have haccepted : ∀ e ∈ others.map ConfigOption.entry,
      (entryStep applyOption {} e).isSome = true := by
    intro e he
    obtain ⟨x, hx, rfl⟩ := List.mem_map.mp he
    exact accepted_options hcfg hname _ (List.mem_map_of_mem (List.mem_filter.mp hx).1)
  obtain ⟨cfg', hrun, hlast⟩ := run_last (o := o) rfl hvalue haccepted
  have hread := parse_setOptions (others ++ [o]) hcfg hname (by rw [List.map_append]; exact hrun)
  have htop := (distinctKeys_iff.mp ((distinctKeys_iff.mp hdistinct).2 top (by simp))).1
  rw [ConfigHead.Distinct, ConfigHead.keys_entries] at htop
  have hnew : DistinctKeys ⟨b, pre ++ setOptions (others ++ [o]) top :: post⟩ := by
    refine distinctKeys_setOptions _ hdistinct ?_
    rw [List.map_append, List.nodup_append]
    refine ⟨htop.sublist (List.filter_sublist.map _), by simp, ?_⟩
    intro key hkey key' hkey' heq
    obtain ⟨x, hx, rfl⟩ := List.mem_map.mp hkey
    have hxkey := (List.mem_filter.mp hx).2
    simp only [List.map_cons, List.map_nil, List.mem_singleton, o] at hkey'
    simp [heq, hkey'] at hxkey
  have hedited : EditedAt [pre.length] "state_file_interval" ⟨b, pre ++ top :: post⟩
      ⟨b, pre ++ setOptions (others ++ [o]) top :: post⟩ := by
    refine editedAt_setOptions _ ?_
    have hkept : others.filter (·.key ≠ "state_file_interval") = others :=
      List.filter_eq_self.mpr fun x hx => (List.mem_filter.mp hx).2
    rw [ConfigHead.entries, List.filter_map, List.filter_map]
    change (others.map ConfigOption.entry).Perm
      (((others ++ [o]).filter (·.key ≠ "state_file_interval")).map ConfigOption.entry)
    rw [List.filter_append, hkept]
    simp [o]
  have hsame := hown _ _ _ _ (.refl _) hnew hedited hcfg hread
  have hinterval := congrArg LogscanConfig.checkInterval hsame
  exact hne (hlast.symm.trans hinterval.symm)

theorem ownSetting_iff {g : ConfigGroup} (hdistinct : DistinctKeys g)
    (haccepted : reader.parse g.children = .ok cfg) (place : List ℕ) (key : String) :
    (reader.settings settings).OwnSetting g place key ↔
      ¬ IsStateFileInterval g place key ∧ IntervalsAgree g := by
  constructor
  · rintro ⟨hedited, hordered⟩
    constructor
    · rintro ⟨rfl, i, top, rfl, hat, hname⟩
      obtain ⟨b, cs⟩ := g
      obtain ⟨pre, post, rfl, rfl⟩ := split_at hat
      exact stateFileInterval_not_own hdistinct haccepted hname hedited
    · intro top htop hname o ho o' ho' hkey hkey'
      obtain ⟨b, cs⟩ := g
      obtain ⟨pre, post, rfl⟩ := List.append_of_mem htop
      have horder : ∀ g₁, Reordered ⟨b, pre ++ top :: post⟩ g₁ →
          reader.parse g₁.children = .ok cfg := fun g₁ hg₁ => hordered g₁ cfg hg₁ haccepted
      have hcheck := last_visited haccepted hname horder ho (by rw [hkey]; rfl)
      have hstate := last_visited haccepted hname horder ho' (by rw [hkey']; rfl)
      rw [seconds, if_pos hkey] at hcheck
      rw [seconds, if_neg (by rw [hkey']; decide)] at hstate
      rw [hcheck, hstate]
  · rintro ⟨hother, hagree⟩
    refine reads.ownSetting ?_ ?_
    · intro i top hplace hat hname
      have hkey : key ≠ "state_file_interval" := fun hkey => hother ⟨hkey, i, top, hplace, hat, hname⟩
      exact if_neg hkey
    · intro top htop hname
      have htopDistinct := (distinctKeys_iff.mp ((distinctKeys_iff.mp hdistinct).2 top htop)).1
      refine ⟨orderless htopDistinct ?_, hdistinct.innerDistinct htop⟩
      intro o ho o' ho' hkey hkey'
      rw [seconds, if_pos hkey, seconds, if_neg (by rw [hkey']; decide)]
      exact hagree top htop hname o ho o' ho' hkey hkey'

end Logscan

section Claim

variable {ρ : Type} {host : Host ρ}

/-- Where every option sets its own field, there is no more to it. -/
theorem GroupReader.Reads.ownSetting_of_distinct {γ τ : Type} {r : GroupReader γ τ}
    {S : Settings γ τ} (h : r.Reads S id) {g : ConfigGroup} (hdistinct : DistinctKeys g)
    (place : List ℕ) (key : String) : (r.settings S).OwnSetting g place key := by
  refine h.ownSetting (fun _ _ _ _ _ => rfl) ?_
  intro top htop _
  have htopDistinct := (distinctKeys_iff.mp ((distinctKeys_iff.mp hdistinct).2 top htop)).1
  exact ⟨h.outer.swaps htopDistinct, hdistinct.innerDistinct htop⟩

/-- Of every configuration that a program accepts: each option sets its own setting and nothing
else, and the order in which options are visited is irrelevant. For `logscan`, this is so exactly
for the other options than that for the interval of the state file, and if both intervals are given
then as the same number of seconds. -/
theorem program_ownSetting_iff (p : Program) (host : Host ρ) {g : ConfigGroup}
    (hdistinct : DistinctKeys g) {cfg : (p.reader host).Config}
    (haccepted : (p.reader host).parse g.children = .ok cfg) (place : List ℕ) (key : String) :
    (p.reader host).OwnSetting g place key ↔ (p = .logscan →
      ¬ Logscan.IsStateFileInterval g place key ∧ Logscan.IntervalsAgree g) := by
  cases p with
  | logscan =>
    rw [forall_prop_of_true rfl]
    exact Logscan.ownSetting_iff hdistinct haccepted place key
  | research =>
    exact iff_of_true (Research.reads.ownSetting_of_distinct hdistinct place key) (by simp)
  | intervention =>
    exact iff_of_true (InterventionConfig.reads.ownSetting_of_distinct hdistinct place key)
      (by simp)
  | diskscan =>
    exact iff_of_true (Diskscan.reads.ownSetting_of_distinct hdistinct place key) (by simp)

/-- A configuration that checks every five seconds, and writes the state file every minute. -/
def bothIntervals (options : List ConfigOption) : ConfigGroup :=
  ⟨{ name := "", keyword := "", pos := ⟨1, 0⟩ },
    [⟨{ name := "logscan", keyword := "", pos := ⟨1, 0⟩, options := options }, []⟩]⟩

def checkInterval : ConfigOption := ⟨"check_interval", ["5"], ⟨2, 2⟩⟩

def stateFileInterval : ConfigOption := ⟨"state_file_interval", ["60"], ⟨3, 2⟩⟩

theorem program_ownSetting_iff_bothIntervals :
    (Program.logscan.reader plainHost).OwnSetting
      (bothIntervals [checkInterval, stateFileInterval]) [0] "check_interval" ↔
        (Program.logscan = .logscan →
          ¬ Logscan.IsStateFileInterval (bothIntervals [checkInterval, stateFileInterval]) [0]
              "check_interval" ∧
            Logscan.IntervalsAgree (bothIntervals [checkInterval, stateFileInterval])) :=
  @program_ownSetting_iff _ .logscan plainHost _ (by decide)
    { checkInterval := 60 } rfl [0] "check_interval"

/-- The interval of the checks is five seconds or a minute, depending on which of the two options
is visited last. -/
theorem logscan_dependsOnOrder :
    ¬ ∀ (p : Program) (g : ConfigGroup) (cfg : (p.reader plainHost).Config), DistinctKeys g →
      (p.reader plainHost).parse g.children = .ok cfg →
        ∀ place key, (p.reader plainHost).OwnSetting g place key := by
  intro hclaim
  have hreordered : Reordered (bothIntervals [checkInterval, stateFileInterval])
      (bothIntervals [stateFileInterval, checkInterval]) := by
    refine .mk (.refl _) (.cons (.mk ⟨rfl, rfl, ?_⟩ .nil) .nil)
    exact .swap _ _ _
  have hown := (hclaim .logscan (bothIntervals [checkInterval, stateFileInterval])
    { checkInterval := 60 } (by decide) rfl [0] "check_interval").2
  have hsame := hown _ { checkInterval := 60 } hreordered rfl
  have hother : (Program.logscan.reader plainHost).parse
      (bothIntervals [stateFileInterval, checkInterval]).children =
        .ok ({ checkInterval := 5 } : Logscan.LogscanConfig) := rfl
  have heq := Except.ok.inj (hsame.symm.trans hother)
  exact absurd (congrArg Logscan.LogscanConfig.checkInterval heq) (by decide)

end Claim

end Ctguard
