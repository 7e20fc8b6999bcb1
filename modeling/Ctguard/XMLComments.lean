import Ctguard.RootElement
import Mathlib.Logic.Relation

/-!
# Comments between two characters

A comment that stands where the parser is about to read a character is passed over. Only the look at
the next character may notice it, and an opening bracket is none of those that are looked for. The
run with the comment therefore makes the same steps as the one without it, up to the comment and
behind it.
-/

namespace Ctguard.XML

section Passing

variable {s t rest rest' : List Char} {c : Char} {f : Frame} {ps : List Frame} {node : XMLNode}
  {cfg cfg' : Config (List Char)} {o o' : Progress (List Char)}

theorem Skipped.append (hs : Skipped s) (ht : Skipped t) : Skipped (s ++ t) := by
  induction hs with
  | nil => exact ht
  | newline _ ih => exact .newline ih
  | comment first _ ih =>
    rw [List.append_assoc]
    exact .comment first ih

theorem Comment.skipped {k : List Char} (h : Comment k) : Skipped k := by
  have hskipped := Skipped.comment h .nil
  rwa [List.append_nil] at hskipped

/-- A comment ends where it ends. -/
theorem Comment.cancel {k k' : List Char} (h : Comment k) (h' : Comment k')
    (heq : k ++ s = k' ++ t) : s = t := by
  obtain ⟨cs, hcs⟩ := h.exists_tail
  have hready : Reader.Ready { rest := cs ++ s } := ⟨rfl, rfl, rfl⟩
  have htext : '<' :: (cs ++ s) = k ++ s := by rw [hcs, List.cons_append]
  obtain ⟨-, r, hr, hrest, -⟩ := skipCommand_of_comment h hready htext
  obtain ⟨-, r', hr', hrest', -⟩ := skipCommand_of_comment h' hready (htext.trans heq)
  rw [hr, Except.ok.injEq] at hr'
  rw [← hrest, hr', hrest']

theorem Comment.exists_command {k : List Char} (h : Comment k) : ∃ cs, k = '<' :: '!' :: cs := by
  cases h with
  | mk m n body hbody => exact ⟨_, rfl⟩

theorem Delivers.of_newline (h : Delivers ('\n' :: t) c rest) : Delivers t c rest := by
  obtain ⟨hc, hopen, skipped, hskipped, htext⟩ := h
  refine ⟨hc, hopen, ?_⟩
  cases hskipped with
  | nil =>
    rw [List.nil_append, List.cons.injEq] at htext
    exact absurd htext.1.symm hc
  | newline hrest => exact ⟨_, hrest, (List.cons.inj htext).2⟩
  | comment first _ =>
    obtain ⟨cs, rfl⟩ := first.exists_tail
    cases htext

theorem Delivers.of_comment {k : List Char} (hk : Comment k) (h : Delivers (k ++ t) c rest) :
    Delivers t c rest := by
  obtain ⟨hc, hopen, skipped, hskipped, htext⟩ := h
  refine ⟨hc, hopen, ?_⟩
  obtain ⟨cs, hcs⟩ := hk.exists_command
  cases hskipped with
  | nil =>
    rw [hcs, List.nil_append, List.cons_append, List.cons.injEq] at htext
    rw [← htext.2] at hopen
    exact absurd rfl (hopen htext.1.symm).2
  | newline _ =>
    rw [hcs] at htext
    cases htext
  | comment first hrest =>
    rw [List.append_assoc] at htext
    exact ⟨_, hrest, hk.cancel first htext⟩

/-- What is passed over does not matter. -/
theorem delivers_skipped (hs : Skipped s) : Delivers (s ++ t) c rest ↔ Delivers t c rest := by
  constructor
  · intro h
    induction hs with
    | nil => exact h
    | newline _ ih => exact ih h.of_newline
    | comment first _ ih =>
      rw [List.append_assoc] at h
      exact ih (h.of_comment first)
  · rintro ⟨hc, hopen, skipped, hskipped, rfl⟩
    exact ⟨hc, hopen, _, hs.append hskipped, (List.append_assoc _ _ _).symm⟩

theorem not_delivers_nil : ¬ Delivers [] c rest := by
  rintro ⟨-, -, skipped, -, htext⟩
  exact List.cons_ne_nil c rest (List.append_eq_nil_iff.mp htext.symm).2

theorem moves_skipped (hs : Skipped s) : Moves ⟨s ++ t, f, ps⟩ o ↔ Moves ⟨t, f, ps⟩ o := by
  simp only [Moves, delivers_skipped hs]

/-- The machine can make one move at most. -/
theorem Moves.unique (h : Moves cfg o) (h' : Moves cfg o') : o = o' := by
  have htext : Config.text ⟨{ rest := cfg.reader }, cfg.frame, cfg.parents⟩ = cfg := rfl
  rw [← htext] at h h'
  obtain ⟨p, hstep, hp, -⟩ := step_of_moves h ⟨rfl, rfl, rfl⟩
  obtain ⟨p', hstep', hp', -⟩ := step_of_moves h' ⟨rfl, rfl, rfl⟩
  rw [hstep, Except.ok.injEq] at hstep'
  rw [← hp, hstep', hp']

theorem accepts_of_moves (h : Moves cfg (.running cfg')) :
    Accepts cfg node rest ↔ Accepts cfg' node rest := by
  constructor
  · rintro (move | ⟨move, hrun⟩)
    · cases h.unique move
    · cases h.unique move
      exact hrun
  · exact .next h

theorem accepts_skipped (hs : Skipped s) :
    Accepts ⟨s ++ t, f, ps⟩ node rest ↔ Accepts ⟨t, f, ps⟩ node rest := by
  constructor
  · rintro (move | ⟨move, hrun⟩)
    · exact .last ((moves_skipped hs).mp move)
    · exact .next ((moves_skipped hs).mp move) hrun
  · rintro (move | ⟨move, hrun⟩)
    · exact .last ((moves_skipped hs).mpr move)
    · exact .next ((moves_skipped hs).mpr move) hrun

theorem not_accepts_nil : ¬ Accepts ⟨[], f, ps⟩ node rest := by
  rintro (⟨c, rest', hdelivers, -⟩ | ⟨⟨c, rest', hdelivers, -⟩, -⟩)
  · exact not_delivers_nil hdelivers
  · exact not_delivers_nil hdelivers

end Passing

section LookAhead

variable {f : Frame} {escaped : Bool} {c d : Char} {next : Option Char} {node : XMLNode}

/-- What is consumed is one of the characters that are looked for. -/
theorem handle_consume_mark {f' : Frame} (h : handle f escaped c next = .consume f') :
    next = some '/' ∨ next = some '"' := by
  rw [handle] at h
  split_ifs at h
  cases hstate : f.state <;> simp only [hstate] at h
  case body =>
    rw [body] at h
    split_ifs at h with _ hclose
    exact .inl hclose.2.2
  case attrKey =>
    rw [attrKey] at h
    generalize (if f.inLoop = true then f else { f with attrKey := "" }) = f₁ at h
    split_ifs at h with _ _ hvalue
    exact .inr hvalue.2.2
  all_goals
    simp only [initial, openTagKey, openTagAttr, closeTag, attrValue] at h
    split_ifs at h

/-- The action is the same for characters that are not looked for. -/
theorem handle_of_not_mark (hnext : next ≠ some '/' ∧ next ≠ some '"' ∧ next ≠ some '>') :
    handle f escaped c next = handle f escaped c none := by
  rw [handle, handle]
  cases f.state <;> simp [body, attrKey, openTagAttr, hnext]

/-- If nothing is consumed, what comes next does not matter. -/
theorem handle_of_not_consume (hconsume : ∀ f', handle f escaped c next ≠ .consume f')
    (hfinish : ∀ node, handle f escaped c next ≠ .consumeFinish node) :
    handle f escaped c next = handle f escaped c none := by
  rw [handle] at hconsume hfinish
  rw [handle, handle]
  split_ifs at hconsume hfinish ⊢
  · rfl
  cases hstate : f.state <;> simp only [hstate, body, attrKey, openTagAttr] at hconsume hfinish ⊢
  case body => split_ifs at hconsume ⊢ <;> simp_all
  case attrKey =>
    generalize (if f.inLoop = true then f else { f with attrKey := "" }) = f₁ at hconsume ⊢
    split_ifs at hconsume ⊢ <;> simp_all
  case openTagAttr => split_ifs at hfinish ⊢ <;> simp_all

end LookAhead

section Insertion

variable {v v₁ x y : List Char} {f f₁ : Frame} {ps ps₁ : List Frame}

theorem left_cancel {c : Char} {u x v₁ : List Char} {a : Action}
    (hconsume : (∀ f', a ≠ .consume f') ∧ (∀ node, a ≠ .consumeFinish node) ∨ u ≠ [])
    (h : a.left c (u ++ x) = v₁ ++ x) (y : List Char) : a.left c (u ++ y) = v₁ ++ y := by
  have htail : u ≠ [] → (u ++ x).tail = v₁ ++ x → (u ++ y).tail = v₁ ++ y := by
    intro hu htail
    rw [List.tail_append_of_ne_nil hu] at htail ⊢
    rw [List.append_cancel_right htail]
  cases a with
  | consume f => exact htail (hconsume.resolve_left fun hnot => hnot.1 f rfl) h
  | consumeFinish node => exact htail (hconsume.resolve_left fun hnot => hnot.2 node rfl) h
  | unget f =>
    rw [Action.left, ← List.cons_append] at h ⊢
    rw [List.append_cancel_right h]
  | enter f =>
    rw [Action.left, ← List.cons_append] at h ⊢
    rw [List.append_cancel_right h]
  | stay f => exact congrArg (· ++ y) (List.append_cancel_right h)
  | goto f => exact congrArg (· ++ y) (List.append_cancel_right h)
  | finish node => exact congrArg (· ++ y) (List.append_cancel_right h)
  | fail message => exact congrArg (· ++ y) (List.append_cancel_right h)

theorem append_ne_tail (hx : x ≠ []) (v : List Char) : v ++ x ≠ x.tail := by
  intro heq
  have hlength := congrArg List.length heq
  have hpos := List.length_pos_of_ne_nil hx
  rw [List.length_append, List.length_tail] at hlength
  omega

/-- A move in front of a text can be made in front of another one that starts with a line break or a
comment, unless it reads the first character of the text and puts it back. -/
theorem Moves.replace (h : Moves ⟨v ++ x, f, ps⟩ (.running ⟨v₁ ++ x, f₁, ps₁⟩))
    (hy : y.head? = some '\n' ∨ y.head? = some '<') :
    Skipped v ∧ v₁ = [] ∨ Moves ⟨v ++ y, f, ps⟩ (.running ⟨v₁ ++ y, f₁, ps₁⟩) := by
  obtain ⟨c, rest, ⟨hc, hopen, skipped, hskipped, htext⟩, hlook, hrun⟩ := h
  have hleft := congrArg Progress.reader hrun
  rw [perform_reader_eq] at hleft
  dsimp only [Progress.reader] at htext hlook hrun hleft
  obtain ⟨w, hw⟩ := exists_left c rest
    (handle f false c (if looks f false c then rest.head? else none))
  rw [← hleft, ← List.append_assoc] at hw
  have hv : v = skipped ++ (w ++ v₁) := by
    rw [hw, ← List.append_assoc] at htext
    exact List.append_cancel_right htext
  cases hcut : w ++ v₁ with
  | nil =>
    rw [hcut, List.append_nil] at hv
    exact .inl ⟨hv ▸ hskipped, (List.append_eq_nil_iff.mp hcut).2⟩
  | cons d u =>
    rw [hcut, List.cons_append, List.cons.injEq] at hw
    obtain ⟨rfl, rfl⟩ := hw
    rw [hcut] at hv
    have hne : y ≠ [] := by
      rintro rfl
      simp at hy
    -- the look at the next character crosses the boundary only if nothing is consumed
    have hboundary : u = [] →
        (∀ f', handle f false c (if looks f false c then (u ++ x).head? else none) ≠ .consume f') ∧
        ∀ node, handle f false c (if looks f false c then (u ++ x).head? else none) ≠
          .consumeFinish node := by
      rintro rfl
      rw [List.nil_append] at hleft hlook ⊢
      constructor
      · intro f' ha
        have hmark := handle_consume_mark ha
        rw [ha] at hleft
        split_ifs at hmark with hlooks
        · exact append_ne_tail (hlook hlooks) v₁ hleft
        · simp at hmark
      · intro node ha
        have hmark := handle_consumeFinish ha
        rw [ha] at hleft
        split_ifs at hmark with hlooks
        exact append_ne_tail (hlook hlooks) v₁ hleft
    have hsame : handle f false c (if looks f false c then (u ++ y).head? else none) =
        handle f false c (if looks f false c then (u ++ x).head? else none) := by
      split_ifs with hlooks
      · cases u with
        | nil =>
          obtain ⟨hconsume, hfinish⟩ := hboundary rfl
          rw [if_pos hlooks] at hconsume hfinish
          rw [handle_of_not_consume hconsume hfinish, List.nil_append]
          apply handle_of_not_mark
          rcases hy with hy | hy <;> simp [hy]
        | cons d u => rfl
      · rfl
    refine .inr ⟨c, u ++ y, ⟨hc, ?_, skipped, hskipped, ?_⟩, ?_, ?_⟩
    · intro hc
      refine ⟨by simp [hne], ?_⟩
      cases u with
      | nil => rcases hy with hy | hy <;> simp [hy]
      | cons d u => exact (hopen hc).2
    · rw [hv]
      simp
    · intro _
      simp [hne]
    · dsimp only
      rw [hsame, perform_left c (u ++ x) (u ++ y), ← hrun]
      have hkept := left_cancel (Decidable.or_iff_not_imp_right.mpr fun hu => hboundary
        (not_not.mp hu)) hleft.symm y
      rw [hkept]
      rfl

end Insertion

section LastCharacter

variable {s k rest : List Char} {c d : Char} {f : Frame} {ps : List Frame} {node : XMLNode}

theorem Skipped.head (h : Skipped k) :
    k = [] ∨ (∃ cs, k = '\n' :: cs) ∨ ∃ cs, k = '<' :: '!' :: cs := by
  cases h with
  | nil => exact .inl rfl
  | newline _ => exact .inr (.inl ⟨_, rfl⟩)
  | comment first _ =>
    obtain ⟨cs, rfl⟩ := first.exists_command
    exact .inr (.inr ⟨_, rfl⟩)

theorem Skipped.head_ne (h : Skipped k) (hd : d ≠ '\n' ∧ d ≠ '<') : k.head? ≠ some d := by
  rcases h.head with rfl | ⟨cs, rfl⟩ | ⟨cs, rfl⟩
  · simp
  · simpa using hd.1.symm
  · simpa using hd.2.symm

/-- A character that is the last one is delivered as such. -/
theorem delivers_last (hk : Skipped k) (h : Delivers (c :: k) d rest) : d = c ∧ rest = k := by
  obtain ⟨hd, hopen, skipped, hskipped, htext⟩ := h
  have hfalse : ∀ {k}, Skipped k → ¬ Delivers k d rest := by
    intro k hk hdelivers
    rw [← List.append_nil k, delivers_skipped hk] at hdelivers
    exact not_delivers_nil hdelivers
  cases hskipped with
  | nil =>
    rw [List.nil_append, List.cons.injEq] at htext
    exact ⟨htext.1.symm, htext.2.symm⟩
  | newline hrest =>
    rw [List.cons_append, List.cons.injEq] at htext
    exact absurd ⟨hd, hopen, _, hrest, htext.2⟩ (hfalse hk)
  | comment first _ =>
    obtain ⟨cs, rfl⟩ := first.exists_command
    rw [List.append_assoc, List.cons_append, List.cons.injEq, List.cons_append] at htext
    exact absurd (by rw [htext.2, List.head?_cons]) (hk.head_ne (d := '!') (by decide))

/-- A move over the last character ends nothing. -/
theorem Moves.last {o : Progress (List Char)} (h : Moves ⟨c :: k, f, ps⟩ o) (hc : c ≠ '>')
    (hk : Skipped k) : (∃ message r, o = .failed message r) ∨
      ∃ cfg, o = .running cfg ∧ (cfg.reader = k ∨ cfg.reader = c :: k) := by
  obtain ⟨d, rest, hdelivers, -, rfl⟩ := h
  obtain ⟨rfl, rfl⟩ := delivers_last hk hdelivers
  have hnext : ∀ e, e ≠ '\n' ∧ e ≠ '<' →
      (if looks f false d then rest.head? else none) ≠ some e := by
    intro e he
    split_ifs
    · exact hk.head_ne he
    · simp
  dsimp only
  cases ha : handle f false d (if looks f false d then rest.head? else none) with
  | fail message => exact .inl ⟨_, _, rfl⟩
  | stay g => exact .inr ⟨_, rfl, .inl rfl⟩
  | goto g => exact .inr ⟨_, rfl, .inl rfl⟩
  | unget g => exact .inr ⟨_, rfl, .inr rfl⟩
  | enter g => exact .inr ⟨_, rfl, .inr rfl⟩
  | finish node => exact absurd (handle_finish ha) hc
  | consumeFinish node => exact absurd (handle_consumeFinish ha) (hnext '>' (by decide))
  | consume g =>
    rcases handle_consume_mark ha with hmark | hmark
    · exact absurd hmark (hnext '/' (by decide))
    · exact absurd hmark (hnext '"' (by decide))

/-- Behind the last character nothing ends. -/
theorem not_accepts_last (hc : c ≠ '>') (hs : Skipped s) (hk : Skipped k) :
    ¬ Accepts ⟨s ++ c :: k, f, ps⟩ node rest := by
  rw [accepts_skipped hs]
  intro h
  generalize hcfg : (⟨c :: k, f, ps⟩ : Config (List Char)) = cfg at h
  induction h generalizing f ps with
  | last move =>
    subst hcfg
    rcases move.last hc hk with ⟨message, r, ho⟩ | ⟨cfg, ho, -⟩
    · cases ho
    · cases ho
  | next move hrun ih =>
    subst hcfg
    rcases move.last hc hk with ⟨message, r, ho⟩ | ⟨⟨r, f', ps'⟩, ho, hreader⟩
    · cases ho
    · cases ho
      rcases hreader with rfl | rfl
      · rw [← List.append_nil r, accepts_skipped hk] at hrun
        exact not_accepts_nil hrun
      · exact ih rfl

end LastCharacter

section Runs

variable {cfg cfg' : Config Reader} {node : XMLNode}

/-- The parser goes on from one configuration to another. -/
abbrev Steps : Config Reader → Config Reader → Prop :=
  Relation.ReflTransGen fun cfg cfg' => step cfg = .ok (.running cfg')

/-- A stream that can be read from, or that is read to its end. -/
def Settled (r : Reader) : Prop := r.Ready ∨ r.escaped = false ∧ r.rest = []

/-- The parser returns a node from a configuration. -/
def Returns (cfg : Config Reader) (node : XMLNode) : Prop := ∃ n r, run n cfg = some (.ok (node, r))

theorem Settled.escaped {r : Reader} (h : Settled r) : r.escaped = false := by
  rcases h with h | h
  · exact h.escaped
  · exact h.1

theorem settled_step (h : step cfg = .ok (.running cfg')) (hr : Settled cfg.reader) :
    Settled cfg'.reader := by
  obtain ⟨c, r, -, next, -, -, hescaped, ho, ⟨hend, -, -⟩ | ⟨hready, -⟩⟩ := step_ok h hr.escaped
  · have hunget : Settled (r.unget c) := by
      rw [Reader.unget]
      split_ifs with hfail
      · exact .inr ⟨hescaped, hend⟩
      · exact .inl ⟨rfl, Bool.not_eq_true _ ▸ hfail, hescaped⟩
    have hkept := congrArg Progress.reader ho
    change cfg'.reader = _ at hkept
    rw [hkept]
    cases handle cfg.frame false c next with
    | unget f => exact hunget
    | enter f => exact hunget
    | finish node =>
      rw [perform, leave_reader]
      exact .inr ⟨hescaped, hend⟩
    | consumeFinish node =>
      rw [perform, leave_reader]
      exact .inr ⟨hescaped, congrArg List.tail hend⟩
    | consume f => exact .inr ⟨hescaped, congrArg List.tail hend⟩
    | stay f => exact .inr ⟨hescaped, hend⟩
    | goto f => exact .inr ⟨hescaped, hend⟩
    | fail message => exact .inr ⟨hescaped, hend⟩
  · left
    have hkept := perform_ready (c := c) hready cfg.parents (handle cfg.frame false c next)
    rw [← ho] at hkept
    exact hkept

theorem returns_iff (hr : Settled cfg.reader) :
    Returns cfg node ↔ ∃ rest, Accepts cfg.text node rest := by
  constructor
  · rintro ⟨n, r, hrun⟩
    exact ⟨r.rest, accepts_of_run hr.escaped hrun⟩
  · rintro ⟨rest, haccepts⟩
    rcases hr with hr | ⟨-, hend⟩
    · obtain ⟨n, r, hrun, -⟩ := run_of_accepts haccepts rfl hr
      exact ⟨n, r, hrun⟩
    · rw [Config.text, Config.map, hend] at haccepts
      exact absurd haccepts not_accepts_nil

theorem returns_step (h : step cfg = .ok (.running cfg')) :
    Returns cfg node ↔ Returns cfg' node := by
  constructor
  · rintro ⟨n, r, hrun⟩
    cases n with
    | zero => cases hrun
    | succ n =>
      rw [run, h] at hrun
      exact ⟨n, r, hrun⟩
  · rintro ⟨n, r, hrun⟩
    exact ⟨n + 1, r, by rw [run, h]; exact hrun⟩

theorem parse_ok_iff_returns (text : List Char) :
    (∃ r, parse text = .ok (node, r)) ↔ Returns (start text) node := by
  have hrun : run (3 * text.length + 1) (start text) = some (parse text) := (Option.some_get _).symm
  constructor
  · rintro ⟨r, hparse⟩
    exact ⟨_, r, by rw [hrun, hparse]⟩
  · rintro ⟨n, r, hreturn⟩
    exact ⟨r, run_unique hrun hreturn⟩

theorem rest_step (h : step cfg = .ok (.running cfg')) (hr : cfg.reader.escaped = false) :
    cfg'.reader.rest <:+ cfg.reader.rest := by
  obtain ⟨c, r, skipped, next, -, htext, -, ho, -⟩ := step_ok h hr
  have hleft := rest_perform c r cfg.parents (handle cfg.frame false c next)
  rw [← ho] at hleft
  rw [htext]
  exact hleft.trans (List.suffix_append _ _)

theorem rest_steps (h : Steps cfg cfg') (hr : Settled cfg.reader) :
    Settled cfg'.reader ∧ cfg'.reader.rest <:+ cfg.reader.rest := by
  induction h with
  | refl => exact ⟨hr, List.suffix_refl _⟩
  | tail _ hstep ih =>
    exact ⟨settled_step hstep ih.1, (rest_step hstep ih.1.escaped).trans ih.2⟩

/-- A step is a move over the text, or it reads the last character of the stream. -/
theorem moves_or_last (h : step cfg = .ok (.running cfg')) (hr : Settled cfg.reader) :
    (∃ skipped c, Skipped skipped ∧ c ≠ '>' ∧ cfg.reader.rest = skipped ++ [c] ∧
      cfg'.reader.rest <:+ [c]) ∨ Moves cfg.text (.running cfg'.text) := by
  obtain ⟨c, r, skipped, next, hskipped, htext, -, ho,
    ⟨hend, -, hc⟩ | ⟨hready, hdelivers, hlook, rfl⟩⟩ := step_ok h hr.escaped
  · have hleft := rest_perform c r cfg.parents (handle cfg.frame false c next)
    rw [← ho, hend] at hleft
    exact .inl ⟨skipped, c, hskipped, hc, by rw [htext, hend], hleft⟩
  · refine .inr ⟨c, r.rest, hdelivers, hlook, ?_⟩
    exact (congrArg (Progress.map Reader.rest) ho).trans
      (perform_map Reader.rest rfl (unget_ready hready c).2 cfg.parents _)

/-- A comment in front of what is left at some time changes nothing at an earlier time. -/
theorem returns_comment_iff {k v : List Char} (hk : Skipped k) (hhead : k.head? = some '<')
    (h : Steps cfg cfg') (hr : Settled cfg.reader)
    (hv : cfg.reader.rest = v ++ cfg'.reader.rest) :
    (∃ rest, Accepts ⟨v ++ (k ++ cfg'.reader.rest), cfg.frame, cfg.parents⟩ node rest) ↔
      Returns cfg node := by
  generalize hx : cfg'.reader.rest = x at hv
  have hskip : ∀ {v f ps}, Skipped v → ((∃ rest, Accepts ⟨v ++ (k ++ x), f, ps⟩ node rest) ↔
      ∃ rest, Accepts ⟨v ++ x, f, ps⟩ node rest) := by
    intro v f ps hskipped
    simp only [accepts_skipped hskipped, accepts_skipped hk]
  induction h using Relation.ReflTransGen.head_induction_on generalizing v with
  | refl =>
    rw [returns_iff hr, Config.text, Config.map, hx]
    have hnil : v = [] := by
      rw [hx] at hv
      exact List.self_eq_append_left.mp hv
    rw [hnil]
    exact hskip .nil
  | @head cfg cfg₁ hstep hsteps ih =>
    have hr₁ := settled_step hstep hr
    obtain ⟨v₁, hv₁⟩ := (rest_steps hsteps hr₁).2
    rw [hx] at hv₁
    have hlater := ih hr₁ hv₁.symm
    rcases moves_or_last hstep hr with ⟨skipped, c, hskipped, hc, hread, hleft⟩ | hmoves
    · -- nothing is left behind the character, and both runs end without a node
      have hnone : '>' ∉ [c] := by simpa using hc.symm
      have hnot : ¬ Returns cfg₁ node := by
        rintro ⟨n, r, hrun⟩
        exact run_ne_ok hr₁.escaped (fun hmem => hnone (hleft.subset hmem)) node r hrun
      rw [returns_step hstep, iff_false_right hnot]
      rintro ⟨rest, haccepts⟩
      have hx₁ : x <:+ [c] := (hv₁ ▸ List.suffix_append v₁ x).trans hleft
      rcases List.suffix_cons_iff.mp hx₁ with rfl | hnil
      · rw [hv] at hread
        rw [List.append_cancel_right hread, ← List.append_assoc] at haccepts
        exact not_accepts_last hc (hskipped.append hk) .nil haccepts
      · rw [List.suffix_nil.mp hnil, List.append_nil] at hv haccepts
        rw [← hv, hread, List.append_assoc, List.singleton_append] at haccepts
        exact not_accepts_last hc hskipped hk haccepts
    · have hmove : Moves ⟨v ++ x, cfg.frame, cfg.parents⟩
          (.running ⟨v₁ ++ x, cfg₁.frame, cfg₁.parents⟩) := by
        rw [← hv, hv₁]
        exact hmoves
      have hy : (k ++ x).head? = some '\n' ∨ (k ++ x).head? = some '<' := by
        rw [List.head?_append, hhead]
        exact .inr rfl
      rcases hmove.replace hy with ⟨hskipped, -⟩ | hmove'
      · rw [returns_iff hr, Config.text, Config.map, hv]
        exact hskip hskipped
      · simp only [accepts_of_moves hmove']
        exact hlater.trans (returns_step hstep).symm

end Runs

section Comments

variable {text pre c : List Char} {cfg : Config Reader}

/-- A comment as it is usually written. -/
def commentText (c : List Char) : List Char := "<!--".toList ++ c ++ "-->".toList

/-- The text of a comment has no two dashes, and none at its end. -/
def Commentable (c : List Char) : Prop := ¬ ['-', '-'] <:+: c ∧ c.getLast? ≠ some '-'

theorem comment_commentText (h : Commentable c) : Comment (commentText c) := by
  have hdashes : ¬ ['-', '-'] <:+: c ++ ['-'] := by
    rw [List.infix_concat_iff, not_or]
    refine ⟨?_, h.1⟩
    rintro ⟨cs, hcs⟩
    have hdash : cs ++ ['-'] = c := List.append_cancel_right (by rw [← hcs]; simp)
    apply h.2
    rw [← hdash, List.getLast?_concat]
  have hcomment := Comment.mk 0 0 c hdashes
  rwa [commentText, List.append_assoc]

/-- A comment changes nothing, wherever the parser is about to read a character. -/
theorem parse_comment_iff (h : Steps (start text) cfg) (htext : text = pre ++ cfg.reader.rest)
    (hc : Commentable c) (node : XMLNode) :
    (∃ r, parse (pre ++ commentText c ++ cfg.reader.rest) = .ok (node, r)) ↔
      ∃ r, parse text = .ok (node, r) := by
  have hready : ∀ text, Settled (start text).reader := fun _ => .inl ⟨rfl, rfl, rfl⟩
  rw [parse_ok_iff_returns, parse_ok_iff_returns, returns_iff (hready _), List.append_assoc]
  exact returns_comment_iff (comment_commentText hc).skipped rfl h (hready text) htext

/-- The parser behind `<a`. -/
def behindName (rest : List Char) : Config Reader where
  reader := { rest := rest, position := 2 }
  frame := { name := "".push 'a', state := .openTagKey, inLoop := true }

theorem steps_behindName (c : Char) (rest : List Char) :
    Steps (start ('<' :: 'a' :: c :: rest)) (behindName (c :: rest)) := by
  have hfirst : step (start ('<' :: 'a' :: c :: rest)) =
      .ok (.running ⟨{ rest := 'a' :: c :: rest, position := 1 },
        { state := .openTagKey }, []⟩) := rfl
  have hsecond : step ⟨{ rest := 'a' :: c :: rest, position := 1 }, { state := .openTagKey }, []⟩ =
      .ok (.running (behindName (c :: rest))) := rfl
  exact .tail (.single hfirst) hsecond

/-- A comment behind the name of an element, in front of its end. -/
theorem parse_comment_iff_tag : Steps (start "<a/>".toList) (behindName "/>".toList) ∧
    "<a/>".toList = "<a".toList ++ (behindName "/>".toList).reader.rest ∧
    Commentable " x ".toList ∧ ((∃ r, parse ("<a".toList ++ commentText " x ".toList ++
        (behindName "/>".toList).reader.rest) = .ok ({ name := "a" }, r)) ↔
      ∃ r, parse "<a/>".toList = .ok ({ name := "a" }, r)) :=
  have hsteps : Steps (start "<a/>".toList) (behindName "/>".toList) := steps_behindName '/' ['>']
  have hcomment : Commentable " x ".toList := ⟨by decide, by decide⟩
  ⟨hsteps, rfl, hcomment, parse_comment_iff hsteps rfl hcomment { name := "a" }⟩

end Comments

end Ctguard.XML
