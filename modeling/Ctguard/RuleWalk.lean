import Ctguard.ProcessLog
import Mathlib.Data.List.MinMax
import Mathlib.Data.Prod.Lex
import Mathlib.Order.OrderDual
import Mathlib.Algebra.Group.Nat.Defs

/-!
# The walk through the rules

The walk obeys the recursion of the program without a bound on its depth. From it
comes one induction principle for all results about walks: a level faults, ends the
walk, or hands over to the children of the rule that is chosen. The choice is the
first candidate of the highest rank, where a higher priority ranks higher and of equal
priorities the lower id; a candidate of the lowest possible rank is never chosen.
-/

namespace Ctguard

variable {ρ : Type}

section Check

variable {host : Host ρ} {now : ℤ} {ev : Event} {rl : Rule ρ} {st st' : RulesState}

theorem entriesMatch_eq_true_iff {entries : StringMap} {conds : List (String × RuleMatch × String)} :
    entriesMatch host entries conds = .ok true ↔
      ∀ cond ∈ conds, entryMatches host entries cond = .ok true := by
  induction conds with
  | nil => simp [entriesMatch]
  | cons cond conds ih =>
    rw [entriesMatch, List.forall_mem_cons, ← ih]
    rcases hcond : entryMatches host entries cond with f | _ | _ <;> simp

/-- What it takes for all conditions besides an activation group to hold. -/
theorem checkConditions_eq_some {fields : Captures} :
    checkConditions host ev rl = .ok (some fields) ↔
      groupMatches ev rl = true ∧ entriesMatch host ev.fields rl.triggerFields.toList = .ok true ∧
        entriesMatch host ev.traits rl.triggerTraits.toList = .ok true ∧
        ∃ ms, regexMatches host ev rl = some ms ∧
          captureFields rl.regexFields 0 ms = .ok fields := by
  rw [checkConditions]
  cases hgroup : groupMatches ev rl with
  | false => simp
  | true =>
    rcases hfields : entriesMatch host ev.fields rl.triggerFields.toList with f | _ | _
    · simp
    · simp
    · rcases htraits : entriesMatch host ev.traits rl.triggerTraits.toList with f | _ | _
      · simp
      · simp
      · cases hregex : regexMatches host ev rl with
        | none => simp
        | some ms =>
          cases hcapture : captureFields rl.regexFields 0 ms <;> simp [hcapture, Except.map]

/-- A rule that matches waits for no other rule, is active and meets its conditions. -/
theorem checkRule_matched {c : Checked} (h : checkRule host now ev rl st = (st', .ok c))
    (hm : c.matched = true) :
    ¬ rl.HasUnless ∧ st' = (checkActivation now ev rl st).1 ∧
      (checkActivation now ev rl st).2.isActive = true ∧
      c.traits = (checkActivation now ev rl st).2.traits ∧
      checkConditions host ev rl = .ok (some c.fields) := by
  rw [checkRule] at h
  by_cases hunless : rl.HasUnless
  · rw [if_pos hunless] at h
    rw [checkUnless] at h
    split_ifs at h <;> cases h <;> cases hm
  · simp only [if_neg hunless, Prod.mk.injEq] at h
    obtain ⟨rfl, h⟩ := h
    cases hcond : checkConditions host ev rl with
    | error f => simp [hcond] at h
    | ok fields =>
      cases fields with
      | none =>
        simp only [hcond, Except.ok.injEq] at h
        simp [← h] at hm
      | some fields =>
        simp only [hcond, Except.ok.injEq] at h
        subst h
        simp only [Bool.and_eq_true] at hm
        exact ⟨hunless, rfl, hm.2, rfl, rfl⟩

end Check

section Choice

/-- Ranks compare priorities first, and then ids downwards. -/
def Rule.rank (rl : Rule ρ) : ℕ ×ₗ ℕᵒᵈ :=
  toLex (rl.priority.toNat, OrderDual.toDual rl.id.toNat)

def Candidate.rank (c : Candidate ρ) : ℕ ×ₗ ℕᵒᵈ := c.1.root.rank

/-- The start values of the running maximum. -/
def lowestRank : ℕ ×ₗ ℕᵒᵈ := toLex (0, OrderDual.toDual (2 ^ 32 - 1))

def Best.rank (b : Best ρ) : ℕ ×ₗ ℕᵒᵈ :=
  toLex (b.maxPriority.toNat, OrderDual.toDual b.minId.toNat)

theorem Best.step_eq (b : Best ρ) (c : Candidate ρ) :
    b.step c = if b.rank < c.rank then
      { maxPriority := c.1.root.priority, minId := c.1.root.id, fit := some c } else b := by
  have hiff : b.rank < c.rank ↔ b.maxPriority < c.1.root.priority ∨
      (c.1.root.priority = b.maxPriority ∧ c.1.root.id < b.minId) := by
    simp only [Best.rank, Candidate.rank, Rule.rank, Prod.Lex.toLex_lt_toLex,
      OrderDual.toDual_lt_toDual, UInt16.lt_iff_toNat_lt, UInt32.lt_iff_toNat_lt,
      ← UInt16.toNat_inj]
    rw [eq_comm]
  simp only [Best.step, hiff]

theorem lowestRank_le (rl : Rule ρ) : lowestRank ≤ rl.rank := by
  have hid : rl.id.toNat ≤ 2 ^ 32 - 1 := by
    have := rl.id.toNat_lt
    omega
  rw [lowestRank, Rule.rank, Prod.Lex.toLex_le_toLex]
  rcases Nat.eq_zero_or_pos rl.priority.toNat with h | h
  · exact .inr ⟨h.symm, OrderDual.toDual_le_toDual.mpr hid⟩
  · exact .inl h

/-- The only rules of the lowest rank have priority zero and the largest id. -/
theorem rank_eq_lowestRank_iff (rl : Rule ρ) :
    rl.rank = lowestRank ↔ rl.priority = 0 ∧ rl.id = -1 := by
  rw [Rule.rank, lowestRank, toLex_inj, Prod.mk.injEq, OrderDual.toDual_inj]
  constructor
  · rintro ⟨hp, hid⟩
    exact ⟨UInt16.toNat_inj.mp hp, UInt32.toNat_inj.mp hid⟩
  · rintro ⟨hp, hid⟩
    simp [hp, hid]

/-- The running maximum is the first candidate of the highest rank above the lowest. -/
theorem foldl_step (cs : List (Candidate ρ)) :
    (cs.foldl Best.step ({} : Best ρ)).fit =
        (cs.argmax Candidate.rank).filter (lowestRank < ·.rank) ∧
      (cs.foldl Best.step ({} : Best ρ)).rank =
        (cs.argmax Candidate.rank).elim lowestRank Candidate.rank := by
  induction cs using List.reverseRecOn with
  | nil => exact ⟨rfl, rfl⟩
  | append_singleton cs c ih =>
    obtain ⟨hfit, hrank⟩ := ih
    rw [List.foldl_append, List.foldl_cons, List.foldl_nil, List.argmax_concat, Best.step_eq]
    have hlow := lowestRank_le c.1.root
    cases hmax : cs.argmax Candidate.rank with
    | none =>
      simp only [hmax, Option.filter_none, Option.elim_none] at hfit hrank
      by_cases hlt : lowestRank < c.rank
      · rw [if_pos (hrank ▸ hlt)]
        exact ⟨by simp [Option.filter, hlt], rfl⟩
      · have heq : c.rank = lowestRank := le_antisymm (not_lt.mp hlt) hlow
        simp [hrank, heq, hfit, Option.filter]
    | some d =>
      simp only [hmax, Option.elim_some] at hfit hrank
      have hlowd := lowestRank_le d.1.root
      by_cases hlt : d.rank < c.rank
      · have hlow' : lowestRank < c.rank := lt_of_le_of_lt hlowd hlt
        rw [if_pos (hrank ▸ hlt)]
        exact ⟨by simp [Option.filter, hlt, hlow'], by simp only [if_pos hlt]; rfl⟩
      · simp [hrank, hlt, hfit]

theorem pickFit_eq (cs : List (Candidate ρ)) :
    pickFit cs = (cs.argmax Candidate.rank).filter (lowestRank < ·.rank) :=
  (foldl_step cs).1

theorem pickFit_mem {cs : List (Candidate ρ)} {c : Candidate ρ} (h : pickFit cs = some c) :
    c ∈ cs := by
  rw [pickFit_eq] at h
  exact List.argmax_mem (Option.eq_some_of_filter_eq_some h)

end Choice

section Level

variable (host : Host ρ) (now : ℤ)

/-- The checks of one level that all return: the results, in order, of the rules under
the event and the states that the earlier checks leave. -/
inductive LevelChecks (ev : Event) :
    RuleForest ρ → RulesState → List (Candidate ρ) → RulesState → Prop
  | nil (st : RulesState) : LevelChecks ev [] st [] st
  | cons {r : RoseTree (Rule ρ)} {rs : RuleForest ρ} {st st' st'' : RulesState} {c : Checked}
      {results : List (Candidate ρ)} (head : checkRule host now ev r.root st = (st', .ok c))
      (tail : LevelChecks ev rs st' results st'') :
      LevelChecks ev (r :: rs) st ((r, c) :: results) st''

variable {host now} {ev : Event}

theorem LevelChecks.results_eq {rules : RuleForest ρ} {st st' : RulesState}
    {results : List (Candidate ρ)} (h : LevelChecks host now ev rules st results st') :
    results.map Prod.fst = rules := by
  induction h with
  | nil => rfl
  | cons head tail ih => simp [ih]

/-- Every result comes from a check under a state met on the level. -/
theorem LevelChecks.check_of_mem {rules : RuleForest ρ} {st st' : RulesState}
    {results : List (Candidate ρ)} (h : LevelChecks host now ev rules st results st')
    {c : Candidate ρ} (hc : c ∈ results) :
    ∃ s s', checkRule host now ev c.1.root s = (s', .ok c.2) := by
  induction h with
  | nil => simp at hc
  | cons head tail ih =>
    rcases List.mem_cons.mp hc with rfl | hc
    · exact ⟨_, _, head⟩
    · exact ih hc

/-- The matching rules among the results of a level. -/
def matching (results : List (Candidate ρ)) : List (Candidate ρ) :=
  results.filter fun c => c.2.matched

/-- The loop over a level returns exactly if all its checks do. -/
theorem checkSiblings_eq_ok_iff {rules : RuleForest ρ} {st : RulesState}
    {ms : List (Candidate ρ)} :
    (checkSiblings host now ev rules st).result = .ok ms ↔
      ∃ results, LevelChecks host now ev rules st results
        (checkSiblings host now ev rules st).state ∧ ms = matching results := by
  induction rules generalizing st ms with
  | nil =>
    constructor
    · intro h
      cases h
      exact ⟨[], .nil st, rfl⟩
    · rintro ⟨results, h, rfl⟩
      cases h
      rfl
  | cons r rs ih =>
    rw [checkSiblings]
    rcases hr : checkRule host now ev r.root st with ⟨st', f | c⟩
    · constructor
      · intro h
        cases h
      · rintro ⟨results, h, -⟩
        cases h with
        | cons head tail => rw [hr] at head; cases head
    · simp only [matching] at ih ⊢
      constructor
      · intro h
        cases hres : (checkSiblings host now ev rs st').result with
        | error f => rw [hres] at h; cases h
        | ok more =>
          rw [hres] at h
          cases h
          obtain ⟨results, hlevel, rfl⟩ := ih.mp hres
          refine ⟨(r, c) :: results, .cons hr hlevel, ?_⟩
          cases hm : c.matched <;> simp [hm]
      · rintro ⟨results, h, rfl⟩
        cases h with
        | cons head tail =>
          rw [hr] at head
          cases head
          rw [ih.mpr ⟨_, tail, rfl⟩]
          cases hm : c.matched <;> simp [Except.map, hm]

/-- A candidate of a level is one of its rules. -/
theorem checkSiblings_mem {rules : RuleForest ρ} {st : RulesState} {ms : List (Candidate ρ)}
    (h : (checkSiblings host now ev rules st).result = .ok ms) {c : Candidate ρ} (hc : c ∈ ms) :
    c.1 ∈ rules := by
  obtain ⟨results, hlevel, rfl⟩ := checkSiblings_eq_ok_iff.mp h
  rw [← hlevel.results_eq]
  exact List.mem_map_of_mem (List.mem_of_mem_filter hc)

end Level

section Recursion

variable (host : Host ρ) (now : ℤ)

/-- A bound that is not below the height of the forest makes no difference. -/
theorem checkLevels_eq (levels : ℕ) (ev : Event) (rules : RuleForest ρ) (st : RulesState)
    (h : RoseTree.forestHeight rules ≤ levels) :
    checkLevels host now levels ev rules st = checkTopRules host now ev rules st := by
  suffices ∀ m, RoseTree.forestHeight rules ≤ m → ∀ n, RoseTree.forestHeight rules ≤ n →
      checkLevels host now m ev rules st = checkLevels host now n ev rules st from
    this levels h _ le_rfl
  clear h
  intro m
  induction m generalizing ev rules st with
  | zero =>
    intro hm n _
    have hnil : rules = [] := RoseTree.forestHeight_eq_zero.mp (by omega)
    subst hnil
    cases n with
    | zero => rfl
    | succ n => simp [checkLevels, checkSiblings, Outcome.andThen]
  | succ m ih =>
    intro hm n hn
    cases n with
    | zero =>
      have hnil : rules = [] := RoseTree.forestHeight_eq_zero.mp (by omega)
      subst hnil
      simp [checkLevels, checkSiblings, Outcome.andThen]
    | succ n =>
      rw [checkLevels, checkLevels, Outcome.andThen, Outcome.andThen]
      cases hres : (checkSiblings host now ev rules st).result with
      | error f => rfl
      | ok ms =>
        simp only
        by_cases hms : ms = []
        · simp [hms]
        · rw [if_neg hms, if_neg hms]
          cases hpick : pickFit ms with
          | none => rfl
          | some c =>
            have hmem := checkSiblings_mem hres (pickFit_mem hpick)
            have hlt := RoseTree.forestHeight_children_lt hmem
            have hm' : RoseTree.forestHeight c.1.children ≤ m := by omega
            have hn' : RoseTree.forestHeight c.1.children ≤ n := by omega
            simp only
            rw [ih _ _ _ hm' n hn']

/-- The recursion of `check_top_rules`. -/
theorem checkTopRules_eq (ev : Event) (rules : RuleForest ρ) (st : RulesState) :
    checkTopRules host now ev rules st =
      (checkSiblings host now ev rules st).andThen fun matching st =>
        if matching = [] then ⟨st, [], .ok ev⟩
        else
          match pickFit matching with
          | none => ⟨st, [], .error noFit⟩
          | some (fit, checked) =>
            let ev' := updateEvent ev fit.root checked
            let below := checkTopRules host now ev' fit.children (updateState st fit.root ev')
            ⟨below.state, .fit ev fit.root checked :: below.trace, below.result⟩ := by
  rw [← checkLevels_eq host now (RoseTree.forestHeight rules + 1) ev rules st (by omega),
    checkLevels, Outcome.andThen, Outcome.andThen]
  cases hres : (checkSiblings host now ev rules st).result with
  | error f => rfl
  | ok ms =>
    simp only
    by_cases hms : ms = []
    · simp [hms]
    · rw [if_neg hms, if_neg hms]
      cases hpick : pickFit ms with
      | none => rfl
      | some c =>
        have hmem := checkSiblings_mem hres (pickFit_mem hpick)
        have hlt := RoseTree.forestHeight_children_lt hmem
        simp only
        rw [checkLevels_eq host now _ _ _ _ (by omega)]

variable {host now}

/-- Induction over walks: what happens on the first level, and the walk below it. -/
theorem checkTopRules_induction
    {P : Event → RuleForest ρ → RulesState → Outcome ρ Event → Prop}
    (fault : ∀ ev rules st f, (checkSiblings host now ev rules st).result = .error f →
      P ev rules st ⟨(checkSiblings host now ev rules st).state,
        (checkSiblings host now ev rules st).trace, .error f⟩)
    (stop : ∀ ev rules st, (checkSiblings host now ev rules st).result = .ok [] →
      P ev rules st ⟨(checkSiblings host now ev rules st).state,
        (checkSiblings host now ev rules st).trace, .ok ev⟩)
    (stuck : ∀ ev rules st ms, (checkSiblings host now ev rules st).result = .ok ms →
      ms ≠ [] → pickFit ms = none →
      P ev rules st ⟨(checkSiblings host now ev rules st).state,
        (checkSiblings host now ev rules st).trace, .error noFit⟩)
    (next : ∀ ev rules st ms fit checked,
      (checkSiblings host now ev rules st).result = .ok ms → pickFit ms = some (fit, checked) →
      let ev' := updateEvent ev fit.root checked
      let st' := updateState (checkSiblings host now ev rules st).state fit.root ev'
      let below := checkTopRules host now ev' fit.children st'
      P ev' fit.children st' below →
      P ev rules st ⟨below.state,
        (checkSiblings host now ev rules st).trace ++ .fit ev fit.root checked :: below.trace,
        below.result⟩)
    (ev : Event) (rules : RuleForest ρ) (st : RulesState) :
    P ev rules st (checkTopRules host now ev rules st) := by
  induction hn : RoseTree.forestHeight rules using Nat.strong_induction_on
    generalizing ev rules st with
  | _ n ih =>
    rw [checkTopRules_eq, Outcome.andThen]
    cases hres : (checkSiblings host now ev rules st).result with
    | error f => exact fault ev rules st f hres
    | ok ms =>
      simp only
      by_cases hms : ms = []
      · subst hms
        simpa using stop ev rules st hres
      · rw [if_neg hms]
        cases hpick : pickFit ms with
        | none => simpa using stuck ev rules st ms hres hms hpick
        | some c =>
          obtain ⟨fit, checked⟩ := c
          have hmem := checkSiblings_mem hres (pickFit_mem hpick)
          have hlt : RoseTree.forestHeight fit.children < n :=
            hn ▸ RoseTree.forestHeight_children_lt hmem
          exact next ev rules st ms fit checked hres hpick (ih _ hlt _ _ _ rfl)

end Recursion

end Ctguard
