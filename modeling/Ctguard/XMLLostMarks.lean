import Ctguard.XMLReprint
import Mathlib.Algebra.GroupWithZero.Nat

/-!
# Marks that are lost in comments

Whatever the parser builds was in the text: no move over the text adds an exclamation mark. The mark
of the beginning of a comment gets into no node. A printed text that contains such a beginning is
therefore not read back as the node that it was printed from.
-/

namespace Ctguard.XML

section Loss

variable {t rest : List Char} {c : Char} {cs : List Char} {f : Frame} {ps : List Frame}
  {node : XMLNode} {next : Option Char} {a : Action} {o : Progress (List Char)}
  {cfg : Config (List Char)}

def bangs (cs : List Char) : ℕ := cs.count '!'

@[simp] theorem bangs_nil : bangs [] = 0 := rfl

@[simp] theorem bangs_append (cs ds : List Char) : bangs (cs ++ ds) = bangs cs + bangs ds :=
  List.count_append

theorem bangs_cons (c : Char) (cs : List Char) : bangs (c :: cs) = bangs cs + bangs [c] := by
  rw [bangs, bangs, bangs, List.count_cons, List.count_singleton]

theorem bangs_singleton (hc : c ≠ '!') : bangs [c] = 0 :=
  List.count_eq_zero.mpr (by simpa using hc.symm)

theorem bangs_push (s : String) (c : Char) :
    bangs (s.push c).toList = bangs s.toList + bangs [c] := by
  rw [String.toList_push, bangs_append]

def attributeBangs (attributes : List (String × String)) : ℕ :=
  (attributes.map fun attr => bangs attr.1.toList + bangs attr.2.toList).sum

theorem bangs_attributes (attributes : List (String × String)) :
    bangs (attributes.flatMap printAttribute) = attributeBangs attributes := by
  induction attributes with
  | nil => rfl
  | cons attr attributes ih =>
    rw [List.flatMap_cons, bangs_append, ih]
    simp [attributeBangs, printAttribute, bangs]

theorem bangs_printAll (nodes nodes' : List XMLNode) :
    bangs (printAll (nodes ++ nodes')) = bangs (printAll nodes) + bangs (printAll nodes') := by
  induction nodes with
  | nil => simp [printAll]
  | cons node nodes ih =>
    rw [List.cons_append, printAll, printAll, bangs_append, bangs_append, ih, Nat.add_assoc]

/-- The marks in the names and texts of a node. -/
theorem bangs_print (node : XMLNode) : bangs (print node) =
    2 * bangs node.name.toList + attributeBangs node.attributes + bangs node.value.toList +
      bangs (printAll node.children) := by
  obtain ⟨name, attributes, value, children⟩ := node
  have hcons : ∀ {c}, c ≠ '!' → ∀ cs, bangs (c :: cs) = bangs cs := by
    intro c hc cs
    rw [bangs_cons, bangs_singleton hc, Nat.add_zero]
  simp only [print, bangs_append, hcons (c := '<') (by decide), hcons (c := '>') (by decide),
    hcons (c := '/') (by decide), bangs_nil, bangs_attributes]
  omega

/-- The marks in a key or a value that is not yet part of the node. -/
def Frame.pending (f : Frame) : ℕ :=
  (if f.state = .attrKey ∧ f.inLoop = true ∨ f.state = .attrValue then bangs f.attrKey.toList
    else 0) +
  (if f.state = .attrValue ∧ f.inLoop = true then bangs f.attrValue.toList else 0)

def Frame.marks (f : Frame) : ℕ := bangs (print f.node) + f.pending

theorem pending_eq (hkey : f.state ≠ .attrKey) (hvalue : f.state ≠ .attrValue) : f.pending = 0 := by
  simp [Frame.pending, hkey, hvalue]

/-- The marks that the calls have kept after an action. -/
def Action.marks : Action → ℕ
  | .stay f => { f with inLoop := true : Frame }.marks
  | .goto f => { f with inLoop := false : Frame }.marks
  | .consume f => { f with inLoop := false : Frame }.marks
  | .unget f => { f with inLoop := false : Frame }.marks
  | .enter f => f.marks
  | .finish node => bangs (print node)
  | .consumeFinish node => bangs (print node)
  | .fail _ => 0

/-- What an action may add to the marks. -/
def Action.gain (c : Char) : Action → ℕ
  | .stay _ => bangs [c]
  | _ => 0

theorem isNameChar_bangs (h : isNameChar c = true) : bangs [c] = 0 :=
  bangs_singleton (isNameChar_range h).2.2.1

/-- A call that reads neither a key nor a value keeps the marks of its node. -/
theorem marks_eq (hkey : f.state ≠ .attrKey) (hvalue : f.state ≠ .attrValue) :
    f.marks = bangs (print f.node) := by
  rw [Frame.marks, pending_eq hkey hvalue, Nat.add_zero]

theorem marks_initial (hstate : f.state = .initial) :
    (initial f false c).marks ≤ f.marks + (initial f false c).gain c := by
  rw [marks_eq (by simp [hstate]) (by simp [hstate]), initial]
  split_ifs
  · rw [Action.marks, marks_eq (by simp [hstate]) (by simp [hstate])]
    exact Nat.le_add_right _ _
  · rw [Action.marks, marks_eq (by simp) (by simp)]
    exact Nat.le_add_right _ _
  · exact Nat.zero_le _

theorem marks_openTagKey (hstate : f.state = .openTagKey) :
    (openTagKey f c).marks ≤ f.marks + (openTagKey f c).gain c := by
  rw [marks_eq (by simp [hstate]) (by simp [hstate]), openTagKey]
  split_ifs with hc
  · rw [Action.marks, marks_eq (by simp [hstate]) (by simp [hstate]), bangs_print, bangs_print]
    simp only [Frame.node, bangs_push, isNameChar_bangs hc]
    omega
  · rw [Action.marks, marks_eq (by simp) (by simp)]
    exact Nat.le_add_right _ _

theorem marks_openTagAttr (hstate : f.state = .openTagAttr) :
    (openTagAttr f false c next).marks ≤ f.marks + (openTagAttr f false c next).gain c := by
  rw [marks_eq (by simp [hstate]) (by simp [hstate]), openTagAttr]
  split_ifs
  · rw [Action.marks, marks_eq (by simp [hstate]) (by simp [hstate])]
    exact Nat.le_add_right _ _
  · have hpending : ({ f with state := .attrKey, inLoop := false } : Frame).pending = 0 := by
      simp [Frame.pending]
    rw [Action.marks, Frame.marks, hpending]
    exact Nat.le_add_right _ _
  · rw [Action.marks, bangs_print, bangs_print]
    simp only [Frame.node, printAll, bangs_nil, String.toList_empty]
    omega
  · rw [Action.marks, marks_eq (by simp) (by simp)]
    exact Nat.le_add_right _ _
  · exact Nat.zero_le _

theorem marks_body (hstate : f.state = .body) :
    (body f false c next).marks ≤ f.marks + (body f false c next).gain c := by
  rw [marks_eq (by simp [hstate]) (by simp [hstate]), body]
  split
  case isTrue =>
    by_cases htab : c = '\t'
    · rw [if_neg (not_not_intro htab), Action.marks,
        marks_eq (by simp [hstate]) (by simp [hstate])]
      exact Nat.le_add_right _ _
    · rw [if_pos htab, Action.marks, marks_eq (by simp [hstate]) (by simp [hstate]), bangs_print,
        bangs_print]
      simp only [Frame.node, bangs_push, Action.gain]
      omega
  split
  · rw [Action.marks, marks_eq (by simp) (by simp)]
    exact Nat.le_add_right _ _
  split
  · rw [Action.marks, marks_eq (by simp [hstate]) (by simp [hstate])]
    exact Nat.le_add_right _ _
  · exact Nat.zero_le _

theorem marks_closeTag (hstate : f.state = .closeTag) :
    (closeTag f false c).marks ≤ f.marks + (closeTag f false c).gain c := by
  rw [marks_eq (by simp [hstate]) (by simp [hstate]), closeTag]
  split_ifs
  · rw [Action.marks, marks_eq (by simp [hstate]) (by simp [hstate])]
    exact Nat.le_add_right _ _
  · exact Nat.zero_le _
  · rw [Action.marks]
    exact Nat.le_add_right _ _
  · exact Nat.zero_le _

theorem marks_attrKey (hstate : f.state = .attrKey) :
    (attrKey f false c next).marks ≤ f.marks + (attrKey f false c next).gain c := by
  have hmarks : f.marks = bangs (print f.node) + bangs f.clearedKey.attrKey.toList := by
    cases hloop : f.inLoop <;>
      simp [Frame.marks, Frame.pending, Frame.clearedKey, hstate, hloop]
  rw [hmarks, attrKey_eq, clearedKey_eq]
  dsimp only
  split_ifs with hc
  · rw [Action.marks, Frame.marks]
    simp only [Frame.pending, hstate, and_self, true_or, if_true, bangs_push,
      isNameChar_bangs hc, reduceCtorEq, false_and, if_false]
    exact Nat.le_add_right _ _
  · exact Nat.zero_le _
  · rw [Action.marks, Frame.marks]
    simp only [Frame.pending, or_true, if_true, Bool.false_eq_true, and_false, if_false]
    exact Nat.le_add_right _ _
  · exact Nat.zero_le _

theorem marks_attrValue (hstate : f.state = .attrValue) :
    (attrValue f false c).marks ≤ f.marks + (attrValue f false c).gain c := by
  have hmarks : f.marks = bangs (print f.node) +
      (bangs f.attrKey.toList + bangs f.clearedValue.attrValue.toList) := by
    cases hloop : f.inLoop <;>
      simp [Frame.marks, Frame.pending, Frame.clearedValue, hstate, hloop]
  rw [hmarks, attrValue_eq, clearedValue_eq]
  dsimp only
  split_ifs with hc
  · rw [Action.marks, Frame.marks]
    simp only [Frame.pending, hstate, and_self, or_true, if_true, bangs_push, Action.gain]
    exact Nat.le_of_eq (by simp only [Nat.add_assoc]; rfl)
  · rw [Action.marks, marks_eq (by simp) (by simp), bangs_print, bangs_print]
    simp only [Frame.node, attributeBangs, List.map_append, List.map_cons, List.map_nil,
      List.sum_append, List.sum_cons, List.sum_nil]
    omega
  · exact Nat.zero_le _

/-- Only a character that is read adds to the marks. -/
theorem marks_handle :
    (handle f false c next).marks ≤ f.marks + (handle f false c next).gain c := by
  rw [handle]
  split_ifs
  · exact Nat.zero_le _
  cases hstate : f.state with
  | initial => exact marks_initial hstate
  | openTagKey => exact marks_openTagKey hstate
  | openTagAttr => exact marks_openTagAttr hstate
  | body => exact marks_body hstate
  | closeTag => exact marks_closeTag hstate
  | attrKey => exact marks_attrKey hstate
  | attrValue => exact marks_attrValue hstate

/-- The marks that the running calls have kept, and those that are left to read. -/
def Progress.marks : Progress (List Char) → ℕ
  | .running cfg => cfg.frame.marks + (cfg.parents.map Frame.marks).sum + bangs cfg.reader
  | .done node rest => bangs (print node) + bangs rest
  | .failed _ _ => 0

theorem pending_le (children : List XMLNode) :
    ({ f with children := children, inLoop := false } : Frame).pending ≤ f.pending := by
  by_cases hvalue : f.state = .attrValue <;> simp [Frame.pending, hvalue]

theorem marks_leave (node : XMLNode) (rest : List Char) (ps : List Frame) :
    (leave node rest ps).marks ≤
      bangs (print node) + (ps.map Frame.marks).sum + bangs rest := by
  cases ps with
  | nil =>
    rw [leave, Progress.marks, List.map_nil, List.sum_nil, Nat.add_zero]
  | cons p ps =>
    have hparent : ({ p with children := p.children ++ [node], inLoop := false } : Frame).marks ≤
        p.marks + bangs (print node) := by
      have hchildren : bangs (printAll (p.children ++ [node])) =
          bangs (printAll p.children) + bangs (print node) := by
        rw [bangs_printAll, printAll, printAll, List.append_nil]
      have hpending := pending_le (f := p) (p.children ++ [node])
      rw [Frame.marks, Frame.marks, bangs_print, bangs_print]
      simp only [Frame.node, hchildren]
      omega
    rw [leave, Progress.marks, List.map_cons, List.sum_cons]
    dsimp only
    omega

theorem marks_start : ({} : Frame).marks = 0 := rfl

theorem marks_perform (c : Char) (rest : List Char) (ps : List Frame) (a : Action) :
    (perform List.tail List.cons c rest ps a).marks ≤
      a.marks + (ps.map Frame.marks).sum + bangs (a.left c rest) := by
  cases a with
  | finish node => exact marks_leave node rest ps
  | consumeFinish node => exact marks_leave node rest.tail ps
  | enter f =>
    rw [perform, Progress.marks, marks_start, List.map_cons, List.sum_cons, Action.marks,
      Action.left]
    dsimp only
    omega
  | fail message => exact Nat.zero_le _
  | _ => exact le_rfl

theorem gain_add_left (c : Char) (rest : List Char) (a : Action) :
    a.gain c + bangs (a.left c rest) ≤ bangs (c :: rest) := by
  have hleft : bangs (a.left c rest) ≤ bangs (c :: rest) := by
    obtain ⟨w, hw⟩ := exists_left c rest a
    rw [hw, bangs_append]
    exact Nat.le_add_left _ _
  cases a with
  | stay f => exact (Nat.add_comm _ _).trans_le (bangs_cons c rest).ge
  | _ => exact (Nat.zero_add _).trans_le hleft

theorem command_skipped {s : List Char} (hs : Skipped s) (h : Command (s ++ t)) :
    '!' ∈ s ∨ Command t := by
  induction hs with
  | nil => exact .inr h
  | newline _ ih =>
    rw [Command, List.cons_append, List.infix_cons_iff] at h
    rcases h with h | h
    · have hhead := List.head_eq_of_cons_eq h.choose_spec.symm
      exact absurd hhead (by decide)
    · exact (ih h).imp_left (List.mem_cons_of_mem _)
  | comment first _ _ =>
    obtain ⟨cs, rfl⟩ := first.exists_command
    exact .inl (by simp)

/-- A mark behind a bracket is not delivered. -/
theorem command_delivers (h : Delivers t c cs) (hcommand : Command t) :
    bangs (c :: cs) < bangs t ∨ Command cs := by
  obtain ⟨-, hopen, skipped, hskipped, rfl⟩ := h
  rcases command_skipped hskipped hcommand with hmem | hcommand
  · left
    have hpos : 0 < bangs skipped := List.count_pos_iff.mpr hmem
    rw [bangs_append]
    omega
  · rw [Command, List.infix_cons_iff] at hcommand
    refine .inr (hcommand.resolve_left ?_)
    rintro ⟨ds, hds⟩
    rw [List.cons_append, List.cons.injEq] at hds
    obtain ⟨rfl, rfl⟩ := hds
    exact (hopen rfl).2 rfl

theorem command_tail {d : Char} (h : Command cs) (hhead : cs.head? = some d) (hd : d ≠ '<') :
    Command cs.tail := by
  obtain ⟨ds, rfl⟩ := List.head?_eq_some_iff.mp hhead
  rw [Command, List.infix_cons_iff] at h
  refine h.resolve_left ?_
  rintro ⟨es, hes⟩
  rw [List.cons_append, List.cons.injEq] at hes
  exact hd hes.1.symm

theorem command_left (h : Command cs) (ha : handle f false c next = a)
    (hnext : ∀ d, next = some d → cs.head? = some d) : Command (a.left c cs) := by
  cases a with
  | consume g =>
    rcases handle_consume_mark ha with hmark | hmark
    · exact command_tail h (hnext _ hmark) (by decide)
    · exact command_tail h (hnext _ hmark) (by decide)
  | consumeFinish node => exact command_tail h (hnext _ (handle_consumeFinish ha)) (by decide)
  | unget g => exact h.trans (List.suffix_cons c cs).isInfix
  | enter g => exact h.trans (List.suffix_cons c cs).isInfix
  | _ => exact h

/-- No move adds marks, and one that passes the beginning of a comment loses some. -/
theorem marks_moves (h : Moves cfg o) : o.marks ≤ (Progress.running cfg).marks ∧
    (Command cfg.reader → o.marks < (Progress.running cfg).marks ∨ Command o.reader) := by
  obtain ⟨c, rest, next, hdelivers, hnext, rfl⟩ := h.exists_action
  have hkept : (handle cfg.frame false c next).marks ≤ _ := marks_handle
  have hperform := marks_perform c rest cfg.parents (handle cfg.frame false c next)
  have hleft := gain_add_left c rest (handle cfg.frame false c next)
  have hread : bangs (c :: rest) ≤ bangs cfg.reader := by
    obtain ⟨-, -, skipped, -, htext⟩ := hdelivers
    rw [htext, bangs_append]
    exact Nat.le_add_left _ _
  rw [Progress.marks]
  refine ⟨by omega, fun hcommand => ?_⟩
  rcases command_delivers hdelivers hcommand with hlt | hcommand
  · exact .inl (by omega)
  · right
    rw [perform_reader_eq]
    exact command_left hcommand rfl hnext

theorem marks_accepts (h : Accepts cfg node rest) :
    bangs (print node) + bangs rest ≤ (Progress.running cfg).marks ∧
      (Command cfg.reader →
        bangs (print node) + bangs rest < (Progress.running cfg).marks ∨ Command rest) := by
  refine h.invariant (P := fun o => o.marks ≤ (Progress.running cfg).marks ∧
    (Command cfg.reader → o.marks < (Progress.running cfg).marks ∨ Command o.reader))
    ?_ ⟨le_rfl, .inr⟩
  rintro cfg' o move ⟨hle, hlt⟩
  obtain ⟨hle', hlt'⟩ := marks_moves move
  refine ⟨hle'.trans hle, fun hcommand => ?_⟩
  rcases hlt hcommand with hlt | hcommand
  · exact .inl (hle'.trans_lt hlt)
  · exact (hlt' hcommand).imp_left fun hlt => hlt.trans_le hle

/-- What is printed with the beginning of a comment in it is not read back. -/
theorem not_accepts_print (h : Command (print node)) :
    ¬ Accepts ⟨print node, {}, []⟩ node rest := by
  intro haccepts
  obtain ⟨hle, hlt⟩ := marks_accepts haccepts
  have hstart : (Progress.running ⟨print node, {}, []⟩).marks = bangs (print node) := by
    simp [Progress.marks, marks_start]
  rw [hstart] at hle hlt
  rcases hlt h with hlt | hcommand
  · omega
  · have hpos : 0 < bangs rest := List.count_pos_iff.mpr (hcommand.subset (by simp))
    omega

end Loss

end Ctguard.XML
