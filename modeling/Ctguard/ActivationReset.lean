import Ctguard.ActivationWindow
import Ctguard.RuleChain

/-!
# Rules that reset

A resetting rule that is chosen forgets the events it was activated by. The number of its
stored events that matter is followed through the log: being chosen makes it zero, every
event that the rule stores adds at most one, and nothing else makes it grow. With a same
field the program erases by the value the field has after the captures of the rule, so
this holds as long as the captures of the rule leave the field alone.
-/

namespace Ctguard

open SlidingWindow

variable {ρ : Type} {host : Host ρ} {cfg : ResearchConfig} {rules : RuleCfg ρ} {now : ℤ}
  {rl : Rule ρ}

section Relevant

/-- The stored events that matter for a value of the same field: all if there is no such. -/
def Rule.Relevant (rl : Rule ρ) (value : Option String) (ev : Event) : Prop :=
  rl.sameField = "" ∨ ev.fields[rl.sameField]? = value

instance (rl : Rule ρ) (value : Option String) (ev : Event) : Decidable (rl.Relevant value ev) :=
  inferInstanceAs (Decidable (_ ∨ _))

/-- How many of some stored events matter. -/
def Rule.relevant (rl : Rule ρ) (value : Option String) (store : List (ℤ × Event)) : ℕ :=
  store.countP fun e => rl.Relevant value e.2

/-- An active rule has stored as many events that matter as its rate asks for. -/
theorem rate_le_relevant {ev : Event} {store : List (ℤ × Event)}
    (h : (activeBy ev rl store).1 = true) :
    rl.activationGroup.rate.toNat ≤ rl.relevant ev.fields[rl.sameField]? store := by
  by_cases hsame : rl.sameField = ""
  · have hall : rl.relevant ev.fields[rl.sameField]? store = store.length := by
      rw [Rule.relevant, List.countP_eq_length]
      intro e _
      simp [Rule.Relevant, hsame]
    rw [hall]
    by_contra hfew
    simp [activeBy, hfew] at h
  · obtain ⟨value, hvalue, hmany⟩ := (activeBy_sameField hsame ev store).mp h
    have hcount : rl.relevant ev.fields[rl.sameField]? store =
        (sameFieldEvents rl.sameField value store).length := by
      rw [Rule.relevant, sameFieldEvents, List.countP_eq_length_filter]
      simp [Rule.Relevant, hsame, hvalue]
    rw [hcount]
    exact hmany.trans (Nat.mod_le _ _)

/-- A check adds at most the event itself. -/
theorem relevant_check_le (hgroup : GroupRule rules rl) (value : Option String) (ev : Event)
    (st : RulesState) :
    rl.relevant value (stored ((Act.check ev rl).apply host now st) rl.id) ≤
      rl.relevant value (stored st rl.id) + if rl.Counts ev ∧ rl.Relevant value ev then 1 else 0 := by
  rw [stored_check hgroup.activation hgroup.noUnless]
  refine (List.Sublist.countP_le (expire_sublist _ _ _)).trans ?_
  by_cases hcounts : rl.Counts ev
  · rw [if_pos hcounts, (arrive_perm now ev _).countP_eq, List.countP_cons]
    by_cases hrelevant : rl.Relevant value ev <;> simp [hcounts, hrelevant, Rule.relevant]
  · simp [hcounts, Rule.relevant]

/-- Being chosen with a value of the same field leaves no event with it. -/
theorem relevant_updateState (hact : rl.HasActivation) (hreset : rl.activationGroup.reset = true)
    {ev : Event} {value : Option String}
    (hvalue : rl.sameField ≠ "" → value.isSome ∧ ev.fields[rl.sameField]? = value)
    (st : RulesState) : rl.relevant value (stored (updateState st rl ev) rl.id) = 0 := by
  rw [updateState, if_pos ⟨hact, hreset⟩]
  cases hstate : st[rl.id]? with
  | none =>
    have hnil : stored st rl.id = [] := by simp [stored, hstate]
    simp [hnil, Rule.relevant]
  | some state =>
    by_cases hsame : rl.sameField = ""
    · simp [hsame, Rule.relevant]
    · obtain ⟨hsome, hfield⟩ := hvalue hsame
      obtain ⟨v, rfl⟩ := Option.isSome_iff_exists.mp hsome
      simp only [hsame, if_false, hfield, stored_insert]
      rw [Rule.relevant, List.countP_eq_zero]
      intro e he
      have hne := List.of_mem_filter he
      simpa [Rule.Relevant, hsame] using hne

end Relevant

section Log

/-- The event that an entry of the log stores for a rule. -/
def Entry.arrival (rl : Rule ρ) : Entry ρ → Option Event
  | .act _ (.check ev rl') => if rl'.id = rl.id ∧ rl.Counts ev then some ev else none
  | .act _ (.fit _ _ _) => none
  | .pass _ _ => none

/-- The events that a part of the log stores for a rule. -/
def arrivals (rl : Rule ρ) (log : List (Entry ρ)) : List Event := log.filterMap (Entry.arrival rl)

theorem arrivals_append (rl : Rule ρ) (log log' : List (Entry ρ)) :
    arrivals rl (log ++ log') = arrivals rl log ++ arrivals rl log' :=
  List.filterMap_append

/-- A log adds at most the events that arrive. -/
theorem relevant_replayLog_le (hgroup : GroupRule rules rl) (value : Option String)
    {log : List (Entry ρ)} (hlog : Coherent rl log) (st : RulesState) :
    rl.relevant value (stored (replayLog host cfg st log) rl.id) ≤
      rl.relevant value (stored st rl.id) +
        (arrivals rl log).countP fun ev => rl.Relevant value ev := by
  induction log generalizing st with
  | nil => simp [arrivals]
  | cons x log ih =>
    have hrest := hlog.subset (List.subset_cons_self x log)
    have hih := ih hrest (x.apply host cfg st)
    have hsplit : arrivals rl (x :: log) = arrivals rl [x] ++ arrivals rl log :=
      arrivals_append rl [x] log
    rw [replayLog_cons, hsplit, List.countP_append]
    suffices hstep : rl.relevant value (stored (x.apply host cfg st) rl.id) ≤
        rl.relevant value (stored st rl.id) +
          (arrivals rl [x]).countP fun ev => rl.Relevant value ev by omega
    cases x with
    | pass now alerts => simp [Entry.apply, stored_statePass]
    | act now a =>
      rw [Entry.apply]
      by_cases hid : a.rule.id = rl.id
      · have heq := hlog now a List.mem_cons_self hid
        cases a with
        | check ev rl' =>
          rw [Act.rule_check] at heq
          subst heq
          have hle := @relevant_check_le _ host _ now _ hgroup value ev st
          by_cases hcounts : rl'.Counts ev <;> by_cases hrel : rl'.Relevant value ev <;>
            simp [arrivals, Entry.arrival, hcounts, hrel] at hle ⊢ <;> omega
        | fit ev rl' c =>
          rw [Act.rule_fit] at heq
          subst heq
          have hsub : (stored (updateState st rl' (updateEvent ev rl' c)) rl'.id).Sublist
              (stored st rl'.id) := stored_updateState_sublist st _
          have hle := List.Sublist.countP_le (p := fun e => rl'.Relevant value e.2) hsub
          rw [Act.apply, Rule.relevant, Rule.relevant]
          omega
      · rw [stored_congr (Act.apply_getElem? host now hid st)]
        omega

/-- What a run chooses has extracted the captures of its expression. -/
theorem fit_fields {steps : List Step} {pre post : List (Entry ρ)} {t : ℤ} {ev : Event}
    {c : Checked} (h : logOf host cfg rules steps = pre ++ .act t (.fit ev rl c) :: post) :
    c.fields = ruleWrites host ev rl := by
  obtain ⟨done, se, rest, pre', post', -, htrace, -⟩ := exists_call_of_act h
  obtain ⟨_, _, -, -, hcheck, hm⟩ := processLog_fit htrace
  exact checkRule_fields (Prod.ext rfl hcheck) hm

end Log

section Afresh

/-- The captures of a rule leave its same field as it is. -/
def KeepsSameField (host : Host ρ) (rl : Rule ρ) (ev : Event) : Prop :=
  rl.sameField ≠ "" → ∀ v, lastWrite rl.sameField (ruleWrites host ev rl) = some v →
    ev.fields[rl.sameField]? = some v

/-- A resetting rule starts afresh. In every run, from a firing in which its captures leave the
same field alone to the next check in which the rule is active for that value, it stores as many
further events as its rate asks for, with a same field as many that have the value. -/
theorem reset_startsAfresh {roots : List XMLNode} (h : parseFiles host roots = .ok rules)
    (hgroup : GroupRule rules rl) (hreset : rl.activationGroup.reset = true) {steps : List Step}
    {before between after : List (Entry ρ)} {t t' : ℤ} {ev ev' : Event} {c : Checked}
    (hlog : logOf host cfg rules steps = before ++ .act t (.fit ev rl c) ::
      (between ++ .act t' (.check ev' rl) :: after))
    (hkeeps : KeepsSameField host rl ev)
    (hvalue : rl.sameField ≠ "" → ev'.fields[rl.sameField]? = ev.fields[rl.sameField]?)
    (hactive : (checkActivation t' ev' rl (replayLog host cfg ∅
      (before ++ .act t (.fit ev rl c) :: between))).2.isActive = true) :
    rl.activationGroup.rate.toNat ≤ (arrivals rl (between ++ [.act t' (.check ev' rl)])).countP
      fun e => rl.Relevant ev'.fields[rl.sameField]? e := by
  have hrules := parseFiles_valid h
  have hrate := (hgroup.valid hrules).rate hgroup.activation
  have hcoherent : Coherent rl (between ++ [.act t' (.check ev' rl)]) := by
    have hall : Coherent rl (logOf host cfg rules steps) := coherent_log hrules hgroup.mem steps
    rw [hlog] at hall
    apply hall.subset
    intro x hx
    simp only [List.mem_append, List.mem_cons] at hx ⊢
    tauto
  have hfired := fit_fields hlog
  rw [replayLog_append, replayLog_cons] at hactive
  generalize hst : Entry.apply host cfg (replayLog host cfg ∅ before) (.act t (.fit ev rl c)) = st
    at hactive
  obtain ⟨hactiveBy, -⟩ := @checkActivation_eq_activeBy _ t' _ hgroup.activation hrate ev'
    (replayLog host cfg st between)
  rw [hactiveBy] at hactive
  have hmany := rate_le_relevant hactive
  have hafter : stored (checkActivation t' ev' rl (replayLog host cfg st between)).1 rl.id =
      stored (replayLog host cfg st (between ++ [.act t' (.check ev' rl)])) rl.id := by
    rw [replayLog_append, replayLog_cons, replayLog_nil, Entry.apply, Act.apply, checkRule,
      if_neg hgroup.noUnless]
  rw [hafter] at hmany
  have hzero : rl.relevant ev'.fields[rl.sameField]? (stored st rl.id) = 0 := by
    rw [← hst, Entry.apply, Act.apply]
    refine relevant_updateState hgroup.activation hreset ?_ _
    intro hsame
    obtain ⟨v, hv, -⟩ := (activeBy_sameField hsame ev' _).mp hactive
    refine ⟨by rw [hv]; rfl, ?_⟩
    rw [updateEvent, getElem?_assign, hfired, hvalue hsame]
    cases hlast : lastWrite rl.sameField (ruleWrites host ev rl) with
    | none => rfl
    | some w => exact (hkeeps hsame w hlast).symm
  have hle := @relevant_replayLog_le _ host cfg _ _ hgroup ev'.fields[rl.sameField]? _
    hcoherent st
  omega

def resettingLogins : XMLNode where
  name := "activation_group"
  attributes := [("time", "60"), ("rate", "2"), ("reset", "true")]
  value := "auth"

/-- A resetting rule whose expression takes a part of the user for the user. -/
def capturing : List XMLNode := [resettingLogins, sameUser,
  { name := "regex", value := "login a (.*)" }, { name := "fields", value := "user" }]

/-- The times at which a log chooses a rule. -/
def firings (rl : Rule ρ) (log : List (Entry ρ)) : List ℤ :=
  log.filterMap fun
    | .act now (.fit _ rl' _) => if rl'.id = rl.id then some now else none
    | _ => none

/-- The rule with a rate of two fires at the second and at the third of three events. -/
theorem capturing_fires_twice :
    (parseFiles plainHost [countingFile capturing]).isOk = true ∧
      (countingRule capturing).activationGroup.rate = 2 ∧
      (countingRule capturing).activationGroup.reset = true ∧
      firings (countingRule capturing) (logOf plainHost {} (countingRules capturing)
        [.call 1 (login "a b"), .call 2 (login "a b"), .call 3 (login "a b")]) = [2, 3] ∧
      (arrivals (countingRule capturing) (logOf plainHost {} (countingRules capturing)
        [.call 1 (login "a b"), .call 2 (login "a b"), .call 3 (login "a b")])).map
          (fun e => e.fields["user"]?) = [some "a b", some "a b", some "a b"] := by
  decide +kernel

theorem exists_firing {log : List (Entry ρ)} (hlog : Coherent rl log) {t : ℤ}
    (h : t ∈ firings rl log) :
    ∃ before ev c after, log = before ++ .act t (.fit ev rl c) :: after := by
  obtain ⟨x, hx, hfit⟩ := List.mem_filterMap.mp h
  cases x with
  | pass now alerts => simp at hfit
  | act now a =>
    cases a with
    | check ev rl' => simp at hfit
    | fit ev rl' c =>
      simp only [ite_eq_iff, Option.some.injEq, reduceCtorEq, and_false, or_false] at hfit
      obtain ⟨hid, rfl⟩ := hfit
      have heq : rl' = rl := hlog now _ hx hid
      subst heq
      obtain ⟨before, after, hsplit⟩ := List.append_of_mem hx
      exact ⟨before, ev, c, after, hsplit⟩

/-- What a run chooses it has found active in a check before. -/
theorem active_of_firing {steps : List Step} {before after : List (Entry ρ)} {t : ℤ} {ev : Event}
    {c : Checked} (h : logOf host cfg rules steps = before ++ .act t (.fit ev rl c) :: after) :
    ∃ earlier between, before = earlier ++ .act t (.check ev rl) :: between ∧
      (checkActivation t ev rl (replayLog host cfg ∅ earlier)).2.isActive = true := by
  obtain ⟨done, se, rest, pre, post, rfl, htrace, rfl⟩ := exists_call_of_act h
  obtain ⟨pre', between, rfl, -, hcheck, hm⟩ := processLog_fit htrace
  obtain ⟨-, -, hactive, -⟩ := checkRule_matched (Prod.ext rfl hcheck) hm
  refine ⟨logOf host cfg rules done ++ pre'.map (.act t), between.map (.act t), by simp, ?_⟩
  rw [replayLog_append, ← stateAfter_replay, replayLog_acts]
  exact hactive

def fourLogins : List Step :=
  [.call 1 (login "bob"), .call 2 (login "bob"), .call 3 (login "eve"), .call 4 (login "bob")]

theorem reset_startsAfresh_fourLogins :
    ∃ before between after ev ev' c,
      logOf plainHost {} (countingRules [resettingLogins]) fourLogins =
        before ++ .act 2 (.fit ev (countingRule [resettingLogins]) c) ::
          (between ++ .act 4 (.check ev' (countingRule [resettingLogins])) :: after) ∧
      (countingRule [resettingLogins]).activationGroup.rate.toNat ≤
        (arrivals (countingRule [resettingLogins]) (between ++
          [.act 4 (.check ev' (countingRule [resettingLogins]))])).countP fun e =>
            (countingRule [resettingLogins]).Relevant
              ev'.fields[(countingRule [resettingLogins]).sameField]? e := by
  have haccepted : parseFiles plainHost [countingFile [resettingLogins]] =
      .ok (countingRules [resettingLogins]) := plainRules_eq (by decide +kernel)
  have hgroup : GroupRule (countingRules [resettingLogins]) (countingRule [resettingLogins]) :=
    groupRule_of_settings (by decide +kernel) (by decide +kernel) (by decide +kernel)
  have hcoherent : Coherent (countingRule [resettingLogins])
      (logOf plainHost {} (countingRules [resettingLogins]) fourLogins) :=
    coherent_log (parseFiles_valid haccepted) hgroup.mem fourLogins
  have hfirings : firings (countingRule [resettingLogins])
      (logOf plainHost {} (countingRules [resettingLogins]) fourLogins) = [2, 4] := by
    decide +kernel
  obtain ⟨before, ev, c, after, hfirst⟩ :=
    exists_firing hcoherent (show 2 ∈ firings _ _ by rw [hfirings]; simp)
  obtain ⟨before', ev', c', after', hsecond⟩ :=
    exists_firing hcoherent (show 4 ∈ firings _ _ by rw [hfirings]; simp)
  obtain ⟨earlier, mid, rfl, hactive⟩ := active_of_firing hsecond
  rw [List.append_assoc, List.cons_append] at hsecond
  have hsame : (countingRule [resettingLogins]).sameField = "" := by decide +kernel
  have hclock : InOrder fourLogins := by decide +kernel
  have hsorted : (logOf plainHost {} (countingRules [resettingLogins]) fourLogins).Pairwise
      fun x y => x.now ≤ y.now := hclock.log
  rcases append_cons_eq_append_cons (hsecond.symm.trans hfirst) with
    ⟨late, hlate⟩ | ⟨-, heq, -⟩ | ⟨between, rfl, hafter⟩
  · rw [hlate] at hactive
    rw [hlate, List.append_assoc, List.cons_append] at hsecond
    refine ⟨before, late, _, ev, ev', c, hsecond, ?_⟩
    exact reset_startsAfresh haccepted hgroup (by decide +kernel) hsecond
      (fun h => absurd hsame h) (fun h => absurd hsame h) hactive
  · cases heq
  · rw [hafter] at hsecond
    rw [hsecond] at hsorted
    have hlater := (List.pairwise_cons.mp (List.pairwise_append.mp hsorted).2.1).1
    have hle : (4 : ℤ) ≤ 2 := hlater _ (List.mem_append_right _ List.mem_cons_self)
    omega

end Afresh

end Ctguard
