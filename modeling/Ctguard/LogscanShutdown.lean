import Ctguard.CatchingUp
import Ctguard.LogscanDaemon

/-!
# Which lines a shutdown of the log scanner forgets

`output_task` returns at the kill message, so it takes exactly what was put before that
message. The pass that is under way when the scanner is stopped still reads lines and moves
the positions of their files, and nobody takes the lines that it puts behind the kill
message. A shutdown forgets nothing exactly if there are none.
-/

namespace Ctguard.LogscanDaemon

open LogfileTask OutputTask

variable {unitTest : Bool} {saved : List (String × UInt64 × ℤ)} {s s' : State}

/-- The kill message among what was put into the queue. -/
def Stop (e : ℕ × SourceEvent) : Prop := logscan.isKill e.2 = true

section Messages

/-- No effect puts a kill message into the queue. -/
def Harmless (es : List Effect) : Prop := ∀ m ∈ queued es, logscan.isKill m = false

@[simp] theorem harmless_nil : Harmless [] := by simp [Harmless]

@[simp] theorem harmless_append {es fs : List Effect} :
    Harmless (es ++ fs) ↔ Harmless es ∧ Harmless fs := by
  simp only [Harmless, queued_append, List.mem_append]
  exact ⟨fun h => ⟨fun m hm => h m (.inl hm), fun m hm => h m (.inr hm)⟩,
    fun h m hm => hm.elim (h.1 m) (h.2 m)⟩

@[simp] theorem harmless_emplace {m : SourceEvent} {es : List Effect} :
    Harmless (.emplace m :: es) ↔ logscan.isKill m = false ∧ Harmless es := by
  simp [Harmless]

@[simp] theorem harmless_opened {fd : ℤ} {es : List Effect} :
    Harmless (.opened fd :: es) ↔ Harmless es := .rfl

@[simp] theorem harmless_closed {fd : ℤ} {es : List Effect} :
    Harmless (.closed fd :: es) ↔ Harmless es := .rfl

theorem harmless_map {β : Type} {f : β → SourceEvent} (hf : ∀ b, logscan.isKill (f b) = false)
    (bs : List β) : Harmless (bs.map fun b => .emplace (f b)) := by
  induction bs with
  | nil => exact harmless_nil
  | cons b bs ih => exact harmless_emplace.mpr ⟨hf b, ih⟩

theorem isKill_log2Se {now : ℤ} {source : String} {message : String} (h : message ≠ "!KILL") :
    logscan.isKill (log2Se unitTest now source true message) = false := by
  simp [logscan, log2Se, h]

theorem harmless_control {now : ℤ} {ls : Logfile} {message : String} {es : List Effect}
    (h : message ≠ "!KILL") (hes : Harmless es) :
    Harmless (LogfileTask.control unitTest now ls message :: es) :=
  harmless_emplace.mpr ⟨isKill_log2Se h, hes⟩

theorem harmless_readStream (v : Visit) (ls : Logfile) :
    Harmless (readStream unitTest v ls).2 := by
  rw [readStream]
  cases v.stream with
  | none => exact harmless_nil
  | some data =>
    simp only
    split
    · exact harmless_nil
    · rename_i hfail
      have hgood : (({ data := data } : InputStream Char).seekg ls.position).good = true := by
        simp only [InputStream.seekg, Bool.false_eq_true, if_false] at hfail ⊢
        split at hfail
        · exact absurd rfl hfail
        · rename_i hneg
          rw [if_neg hneg]
          rfl
      rw [readLoop_effects unitTest v.now hgood]
      exact harmless_map (fun l => rfl) _

theorem harmless_checkSize (v : Visit) (size : ℤ) (ls : Logfile) :
    Harmless (checkSize unitTest v size ls).2 := by
  rw [checkSize]
  split
  · exact harmless_nil
  · split
    · exact harmless_control (by decide) (harmless_readStream v _)
    · exact harmless_readStream v _

theorem harmless_checkInode (v : Visit) (inode : UInt64) (size : ℤ) (ls : Logfile) :
    Harmless (checkInode unitTest v inode size ls).2 := by
  simp only [checkInode]
  split
  · have hreplaced : Harmless
        [LogfileTask.control unitTest v.now ls "!File got replaced", .closed ls.fd] :=
      harmless_control (by decide) (harmless_closed.mpr harmless_nil)
    split
    · exact harmless_append.mpr ⟨hreplaced, harmless_control (by decide) harmless_nil⟩
    · exact harmless_append.mpr ⟨hreplaced, harmless_opened.mpr (harmless_checkSize v size _)⟩
  · exact harmless_checkSize v size ls

theorem harmless_checkStat (v : Visit) (ls : Logfile) :
    Harmless (checkStat unitTest v ls).2 := by
  rw [checkStat]
  cases v.stat with
  | none => exact harmless_control (by decide) harmless_nil
  | some stat => exact harmless_checkInode v stat.1 stat.2 ls

theorem harmless_bringUp (v : Visit) (ls : Logfile) : Harmless (bringUp unitTest v ls).2 := by
  simp only [bringUp]
  split
  · split
    · exact harmless_nil
    · exact harmless_opened.mpr (harmless_control (by decide) (harmless_checkStat v _))
  · exact harmless_checkStat v ls

theorem harmless_visitFile (v : Visit) (ls : Logfile) : Harmless (visitFile unitTest v ls).2 := by
  simp only [visitFile]
  split
  · exact harmless_control (by decide) (harmless_bringUp v _)
  · exact harmless_bringUp v ls

theorem harmless_startFile (now opened : ℤ) (fstat : Option (UInt64 × ℤ)) (lc : LogfileConfig) :
    Harmless (startFile unitTest saved now opened fstat lc).2 := by
  simp only [startFile]
  split
  · exact harmless_nil
  · cases fstat with
    | none => exact harmless_opened.mpr harmless_nil
    | some stat =>
      apply harmless_opened.mpr
      exact harmless_map (fun _ => isKill_log2Se (by decide)) _

end Messages

section Steps

/-- The messages that the scan has still to put into the queue. -/
def ScanPhase.pending : ScanPhase → List SourceEvent
  | .opening _ pending _ => pending
  | .putting _ _ pending _ => pending
  | _ => []

def ScanPhase.tracked : ScanPhase → List Tracked
  | .opening done _ _ => done
  | .head all => all
  | .visiting done todo => done ++ todo
  | .putting done current _ todo => done ++ current :: todo
  | .ended saved => saved.getD []

/-- The entries that no visit of the present pass will change any more. -/
def ScanPhase.settled : ScanPhase → List Tracked
  | .opening _ _ _ => []
  | .head all => all
  | .visiting done _ => done
  | .putting done current _ _ => done ++ [current]
  | .ended saved => saved.getD []

/-- What the scan does without putting a message. -/
inductive Moves (running : Bool) : ScanPhase → ScanPhase → Prop where
  | start {done : List Tracked} {lc : LogfileConfig} {todo : List LogfileConfig}
      {pending : List SourceEvent} {t : Tracked} (hnew : t.passed = [])
      (hpending : ∀ m ∈ pending, logscan.isKill m = false) :
      Moves running (.opening done [] (lc :: todo)) (.opening (done ++ [t]) pending todo)
  | visit {done todo : List Tracked} {pending : List SourceEvent} {t t' : Tracked}
      (hpassed : t'.passed = [] ∨ t'.passed = t.passed)
      (hpending : ∀ m ∈ pending, logscan.isKill m = false) :
      Moves running (.visiting done (t :: todo)) (.putting done t' pending todo)
  | noFile : Moves running (.opening [] [] []) (.ended none)
  | opened (done : List Tracked) : Moves running (.opening done [] []) (.head done)
  | round (all : List Tracked) (hrunning : running = true) :
      Moves running (.head all) (.visiting [] all)
  | leave (all : List Tracked) (hrunning : running = false) :
      Moves running (.head all) (.ended (some all))
  | visited (done : List Tracked) (current : Tracked) (todo : List Tracked) :
      Moves running (.putting done current [] todo) (.visiting (done ++ [current]) todo)
  | finish (done : List Tracked) : Moves running (.visiting done []) (.head done)

/-- What a step of the system does. -/
inductive Does (s : State) : Step → State → Prop where
  | sends {x : Step} (m : SourceEvent) (main : MainPhase) (hm : logscan.isKill m = false)
      (hkilled : main = .killed ↔ s.main = .killed) (hcleared : main = .cleared → s.main = .cleared) :
      Does s x { s.put m with main := main }
  | clears (now : ℤ) (hmain : s.main = .stopping) :
      Does s (.main now) { s with running := false, main := .cleared }
  | kills (now : ℤ) (hmain : s.main = .cleared) :
      Does s (.main now) { s.put killMessage with main := .killed }
  | moves {x : Step} {scan : ScanPhase} (h : Moves s.running s.scan scan) :
      Does s x { s with scan := scan }
  | opens {done : List Tracked} {m : SourceEvent} {ms : List SourceEvent}
      {todo : List LogfileConfig} (hscan : s.scan = .opening done (m :: ms) todo) :
      Does s .put { s.put m with scan := .opening done ms todo }
  | puts {done : List Tracked} {current : Tracked} {m : SourceEvent} {ms : List SourceEvent}
      {todo : List Tracked} (hscan : s.scan = .putting done current (m :: ms) todo) :
      Does s .put { s.put m with
        scan := .putting done (current.record (s.out.puts, m)) ms todo }
  | returns : Does s .systemdReturns { s with systemd := false }
  | output {x : OutputTask.Step SourceEvent} {out : OutputTask.State SourceEvent SourceEvent}
      (h : logscan.step s.out x = some out) (hx : ∀ m, x ≠ .emplace m) :
      Does s (.output x) { s with out := out }

theorem moves_of_nextPhase {running : Bool} {scan scan' : ScanPhase}
    (h : nextPhase running scan = some scan') : Moves running scan scan' := by
  unfold nextPhase at h
  split at h
  · obtain rfl := Option.some.inj h
    exact .noFile
  · obtain rfl := Option.some.inj h
    exact .opened _
  · obtain rfl := Option.some.inj h
    cases running with
    | true => exact .round _ rfl
    | false => exact .leave _ rfl
  · obtain rfl := Option.some.inj h
    exact .visited _ _ _
  · obtain rfl := Option.some.inj h
    exact .finish _
  · cases h

theorem does_of_main {now : ℤ} (h : mainStep unitTest now s = some s') :
    Does s (.main now) s' := by
  unfold mainStep at h
  split at h
  · rename_i hmain
    obtain rfl := Option.some.inj h
    exact .sends _ .waiting (isKill_log2Se (by decide)) (by simp [hmain]) (by simp)
  · rename_i hmain
    obtain rfl := Option.some.inj h
    exact .sends _ .stopping (isKill_log2Se (by decide)) (by simp [hmain]) (by simp)
  · rename_i hmain
    obtain rfl := Option.some.inj h
    exact .clears now hmain
  · rename_i hmain
    obtain rfl := Option.some.inj h
    exact .kills now hmain
  · cases h

theorem visit_passed (v : Visit) (t : Tracked) :
    (t.visit unitTest v).passed = [] ∨ (t.visit unitTest v).passed = t.passed := by
  simp only [Tracked.visit]
  split
  · exact .inl rfl
  · exact .inr rfl

theorem does_of_step {x : Step} (h : step unitTest saved s x = some s') : Does s x s' := by
  cases x with
  | main now => exact does_of_main h
  | start now opened fstat =>
    simp only [step] at h
    split at h
    · rename_i done lc todo hscan
      obtain rfl := Option.some.inj h
      exact .moves (hscan ▸ .start rfl (harmless_startFile now opened fstat lc))
    · cases h
  | visit v =>
    simp only [step] at h
    split at h
    · rename_i done t todo hscan
      obtain rfl := Option.some.inj h
      exact .moves (hscan ▸ .visit (visit_passed v t) (harmless_visitFile v t.entry))
    · cases h
  | put =>
    simp only [step] at h
    split at h
    · rename_i hscan
      obtain rfl := Option.some.inj h
      exact .opens hscan
    · rename_i hscan
      obtain rfl := Option.some.inj h
      exact .puts hscan
    · cases h
  | next =>
    obtain ⟨scan, hnext, rfl⟩ := Option.map_eq_some_iff.mp h
    exact .moves (moves_of_nextPhase hnext)
  | systemd now message =>
    simp only [step] at h
    split at h
    · obtain rfl := Option.some.inj h
      exact .sends _ s.main rfl Iff.rfl id
    · cases h
  | systemdReturns =>
    simp only [step] at h
    split at h
    · obtain rfl := Option.some.inj h
      exact .returns
    · cases h
  | output x =>
    simp only [step] at h
    split at h
    · cases h
    · rename_i hx
      obtain ⟨out, hout, rfl⟩ := Option.map_eq_some_iff.mp h
      exact .output hout hx

end Steps

section Queue

/-- `output_task` has taken the kill message. -/
def stopped (out : OutputTask.State SourceEvent SourceEvent) : Bool :=
  match out.phase with
  | .loop => false
  | .interval => false
  | .shutdown => true
  | .ended => true

theorem stopped_leave (out : OutputTask.State SourceEvent SourceEvent) :
    stopped (logscan.leave out) = decide (out.phase = .shutdown) := by
  rw [OutputTask.leave]
  by_cases h : out.phase = .shutdown
  · simp [h, stopped]
  · simp [h, stopped]

theorem stopped_drain {phase : Phase} (hphase : phase = .interval ∨ phase = .shutdown)
    (out : OutputTask.State SourceEvent SourceEvent) :
    stopped (logscan.drain phase out) = decide (phase = .shutdown) := by
  rw [OutputTask.drain]
  split
  · exact stopped_leave _
  · rcases hphase with rfl | rfl <;> rfl

/-- What is known about the queue of the log scanner and the task that reads it. -/
structure QueueInv (history : List (ℕ × SourceEvent))
    (out : OutputTask.State SourceEvent SourceEvent) : Prop where
  numbered : history.map Prod.fst = List.range out.puts
  read : ReadUpTo Stop history out.taken out.queue (stopped out)
  balanced : Balanced out
  warned : Warned logscan out

variable {history : List (ℕ × SourceEvent)} {out out' : OutputTask.State SourceEvent SourceEvent}

theorem QueueInv.nodup (h : QueueInv history out) : history.Nodup := by
  apply List.Nodup.of_map Prod.fst
  rw [h.numbered]
  exact List.nodup_range

theorem QueueInv.new (h : QueueInv history out) (m : SourceEvent) {e : ℕ × SourceEvent}
    (he : e ∈ history) : e ≠ (out.puts, m) := by
  rintro rfl
  have hmem : out.puts ∈ history.map Prod.fst := List.mem_map_of_mem he
  rw [h.numbered, List.mem_range] at hmem
  omega

theorem QueueInv.put (h : QueueInv s.history s.out) (m : SourceEvent) :
    QueueInv (s.put m).history (s.put m).out where
  numbered := by
    simp only [State.put, List.map_append, h.numbered, List.range_succ]
    rfl
  read := h.read.put (s.out.puts, m)
  balanced := by
    have hstep : logscan.step s.out (.emplace m) = some (s.put m).out := rfl
    exact h.balanced.step hstep
  warned := by
    have hstep : logscan.step s.out (.emplace m) = some (s.put m).out := rfl
    exact h.warned.step hstep

/-- `output_task` reads the queue up to the kill message. -/
theorem read_output {x : OutputTask.Step SourceEvent}
    (h : ReadUpTo Stop history out.taken out.queue (stopped out))
    (hstep : logscan.step out x = some out') (hx : ∀ m, x ≠ .emplace m) :
    ReadUpTo Stop history out'.taken out'.queue (stopped out') := by
  cases OutputTask.does_of_step hstep with
  | emplace m => exact absurd rfl (hx m)
  | @kill n m rest sent hphase hqueue hkill =>
    have hframe := drain_sameEvents (t := logscan) .shutdown { out with queue := rest }
    rw [stopped_drain (.inr rfl), hframe.taken, hframe.queue]
    rw [hqueue, stopped, hphase] at h
    exact h.take_stop hkill
  | @direct n m rest hphase hqueue hkill =>
    rw [hqueue, stopped, hphase] at h
    simp only [stopped, hphase]
    apply h.take
    rw [Stop, hkill]
    decide
  | @keep n m rest what hphase hqueue hkill =>
    rw [hqueue, stopped, hphase] at h
    simp only [stopped, hphase]
    apply h.take
    rw [Stop, hkill]
    decide
  | timeout hphase hqueue =>
    have hframe := drain_sameEvents (t := logscan) .interval out
    rw [stopped_drain (.inl rfl), hframe.taken, hframe.queue]
    rw [stopped, hphase] at h
    exact h
  | @resent e rest hphase hlocal =>
    have hframe := drain_sameEvents (t := logscan) out.phase
      { out with localQueue := rest, delivered := out.delivered ++ [e] }
    rw [stopped_drain hphase, hframe.taken, hframe.queue]
    rcases hphase with hp | hp
    · rw [stopped, hp] at h
      rw [hp]
      exact h
    · rw [stopped, hp] at h
      rw [hp]
      exact h
  | failed moment what hphase hlocal =>
    have hframe := leave_sameEvents (t := logscan)
      { out with log := out.log ++ [logscan.cannotForward moment what] }
    rw [stopped_leave, hframe.taken, hframe.queue]
    rcases hphase with hp | hp
    · rw [stopped, hp] at h
      simp only [hp]
      exact h
    · rw [stopped, hp] at h
      simp only [hp]
      exact h

theorem puts_output {x : OutputTask.Step SourceEvent} (hstep : logscan.step out x = some out')
    (hx : ∀ m, x ≠ .emplace m) : out'.puts = out.puts := by
  cases OutputTask.does_of_step hstep with
  | emplace m => exact absurd rfl (hx m)
  | kill sent hphase hqueue hkill => exact (drain_sameEvents _ _).puts
  | direct hphase hqueue hkill => rfl
  | keep what hphase hqueue hkill => rfl
  | timeout hphase hqueue => exact (drain_sameEvents _ _).puts
  | resent hphase hlocal => exact (drain_sameEvents _ _).puts
  | failed moment what hphase hlocal => exact (leave_sameEvents _).puts

theorem QueueInv.output (h : QueueInv history out) {x : OutputTask.Step SourceEvent}
    (hstep : logscan.step out x = some out') (hx : ∀ m, x ≠ .emplace m) :
    QueueInv history out' where
  numbered := puts_output hstep hx ▸ h.numbered
  read := read_output h.read hstep hx
  balanced := h.balanced.step hstep
  warned := h.warned.step hstep

end Queue

section Invariant

/-- The kill message is put last of all by the main thread, and `RUNNING` is false then. -/
structure MainInv (running : Bool) (main : MainPhase) (history : List (ℕ × SourceEvent)) :
    Prop where
  running : main = .cleared ∨ main = .killed → running = false
  killed : (∃ e ∈ history, Stop e) ↔ main = .killed

/-- The lines before the positions have been put into the queue. -/
structure ScanInv (scan : ScanPhase) (history : List (ℕ × SourceEvent)) : Prop where
  pending : ∀ m ∈ scan.pending, logscan.isKill m = false
  passed : ∀ t ∈ scan.tracked, ∀ e ∈ t.passed, e ∈ history ∧ ¬ Stop e

structure Inv (s : State) : Prop where
  queue : QueueInv s.history s.out
  main : MainInv s.running s.main s.history
  scan : ScanInv s.scan s.history

theorem stop_concat {history : List (ℕ × SourceEvent)} {e : ℕ × SourceEvent} :
    (∃ e' ∈ history ++ [e], Stop e') ↔ (∃ e' ∈ history, Stop e') ∨ Stop e := by
  simp only [List.mem_append, List.mem_singleton, or_and_right, exists_or, exists_eq_left]

theorem MainInv.put {running : Bool} {main : MainPhase} {history : List (ℕ × SourceEvent)}
    (h : MainInv running main history) {m : SourceEvent} (hm : logscan.isKill m = false) (n : ℕ) :
    MainInv running main (history ++ [(n, m)]) where
  running := h.running
  killed := by
    rw [stop_concat, h.killed, Stop, hm]
    simp

/-- Moving adds no line. -/
theorem Moves.tracked_passed {running : Bool} {scan scan' : ScanPhase} (h : Moves running scan scan')
    {t : Tracked} (ht : t ∈ scan'.tracked) :
    t.passed = [] ∨ ∃ t' ∈ scan.tracked, t.passed = t'.passed := by
  cases h with
  | start hnew hpending =>
    rcases List.mem_append.mp ht with ht | ht
    · exact .inr ⟨t, ht, rfl⟩
    · exact .inl (List.mem_singleton.mp ht ▸ hnew)
  | @visit done todo pending t₀ t' hpassed hpending =>
    rcases List.mem_append.mp ht with ht | ht
    · exact .inr ⟨t, List.mem_append_left _ ht, rfl⟩
    · rcases List.mem_cons.mp ht with rfl | ht
      · exact hpassed.imp_right fun heq => ⟨t₀, by simp [ScanPhase.tracked], heq⟩
      · exact .inr ⟨t, by simp [ScanPhase.tracked, ht], rfl⟩
  | noFile => simp [ScanPhase.tracked] at ht
  | opened done => exact .inr ⟨t, ht, rfl⟩
  | round all hrunning => exact .inr ⟨t, ht, rfl⟩
  | leave all hrunning => exact .inr ⟨t, ht, rfl⟩
  | visited done current todo =>
    exact .inr ⟨t, by simpa [ScanPhase.tracked] using ht, rfl⟩
  | finish done => exact .inr ⟨t, by simpa [ScanPhase.tracked] using ht, rfl⟩

theorem Moves.pending {running : Bool} {scan scan' : ScanPhase} (h : Moves running scan scan') :
    ∀ m ∈ scan'.pending, logscan.isKill m = false := by
  cases h with
  | start hnew hpending => exact hpending
  | visit hpassed hpending => exact hpending
  | _ => simp [ScanPhase.pending]

theorem ScanInv.put {scan : ScanPhase} {history : List (ℕ × SourceEvent)}
    (h : ScanInv scan history) (e : ℕ × SourceEvent) : ScanInv scan (history ++ [e]) where
  pending := h.pending
  passed t ht e' he' := ⟨List.mem_append_left _ (h.passed t ht e' he').1, (h.passed t ht e' he').2⟩

theorem ScanInv.moves {running : Bool} {scan scan' : ScanPhase}
    {history : List (ℕ × SourceEvent)} (h : ScanInv scan history)
    (hmoves : Moves running scan scan') : ScanInv scan' history where
  pending := hmoves.pending
  passed := by
    intro t ht e he
    rcases hmoves.tracked_passed ht with hnil | ⟨t', ht', heq⟩
    · simp [hnil] at he
    · exact h.passed t' ht' e (heq ▸ he)

/-- Recording keeps the lines and adds at most the new one. -/
theorem record_passed {e e' : ℕ × SourceEvent} {t : Tracked} (h : e' ∈ (t.record e).passed) :
    e' ∈ t.passed ∨ (e' = e ∧ e.2.controlMessage = false ∧ 0 ≤ t.entry.position) := by
  rw [Tracked.record] at h
  split at h
  · rename_i hline
    rcases List.mem_append.mp h with h | h
    · exact .inl h
    · exact .inr ⟨List.mem_singleton.mp h, hline⟩
  · exact .inl h

theorem subset_record (e : ℕ × SourceEvent) (t : Tracked) : t.passed ⊆ (t.record e).passed := by
  rw [Tracked.record]
  split
  · exact List.subset_append_left _ _
  · exact List.Subset.refl _

theorem not_stop_of_line {e : ℕ × SourceEvent} (h : e.2.controlMessage = false) : ¬ Stop e := by
  simp [Stop, logscan, h]

theorem Inv.step (h : Inv s) {x : Step} (hstep : step unitTest saved s x = some s') : Inv s' := by
  cases does_of_step hstep with
  | sends m main hm hkilled hcleared =>
    have hmain := h.main.put hm s.out.puts
    refine ⟨h.queue.put m, ⟨?_, ?_⟩, h.scan.put _⟩
    · intro hor
      exact hmain.running (hor.imp hcleared hkilled.mp)
    · exact hmain.killed.trans hkilled.symm
  | clears now hmain =>
    refine ⟨h.queue, ⟨fun _ => rfl, ?_⟩, h.scan⟩
    rw [h.main.killed, hmain]
    simp
  | kills now hmain =>
    refine ⟨h.queue.put killMessage, ⟨fun _ => h.main.running (.inl hmain), ?_⟩, h.scan.put _⟩
    have hkill : logscan.isKill killMessage = true := rfl
    exact iff_of_true (stop_concat.mpr (.inr hkill)) rfl
  | moves hmoves => exact ⟨h.queue, h.main, h.scan.moves hmoves⟩
  | @opens done m ms todo hscan =>
    have hpending := h.scan.pending
    rw [hscan] at hpending
    have hm := hpending m (by simp [ScanPhase.pending])
    refine ⟨h.queue.put m, h.main.put hm _, ?_⟩
    have hscan' := h.scan.put (s.out.puts, m)
    rw [hscan] at hscan'
    exact ⟨fun m' hm' => hpending m' (List.mem_cons_of_mem _ hm'), hscan'.passed⟩
  | @puts done current m ms todo hscan =>
    have hpending := h.scan.pending
    rw [hscan] at hpending
    have hm := hpending m (by simp [ScanPhase.pending])
    refine ⟨h.queue.put m, h.main.put hm _,
      ⟨fun m' hm' => hpending m' (List.mem_cons_of_mem _ hm'), ?_⟩⟩
    have hscan' := h.scan.put (s.out.puts, m)
    rw [hscan] at hscan'
    intro t ht e he
    rcases List.mem_append.mp ht with ht | ht
    · exact hscan'.passed t (List.mem_append_left _ ht) e he
    · rcases List.mem_cons.mp ht with rfl | ht
      · rcases record_passed he with he | ⟨rfl, hline, -⟩
        · exact hscan'.passed current (by simp [ScanPhase.tracked]) e he
        · exact ⟨List.mem_append_right _ (List.mem_singleton_self _), not_stop_of_line hline⟩
      · exact hscan'.passed t (by simp [ScanPhase.tracked, ht]) e he
  | returns => exact ⟨h.queue, h.main, h.scan⟩
  | output hout hx => exact ⟨h.queue.output hout hx, h.main, h.scan⟩

theorem inv_initial (logFiles : List LogfileConfig) : Inv (initial logFiles) where
  queue := ⟨rfl, ⟨rfl, by simp [initial]⟩, balanced_init, by simp [Warned, OutputTask.State.warnings, initial]⟩
  main := ⟨by simp [initial], by simp [initial]⟩
  scan := ⟨by simp [initial, ScanPhase.pending], by simp [initial, ScanPhase.tracked]⟩

theorem inv_run {logFiles : List LogfileConfig} {steps : List Step}
    (h : run unitTest saved logFiles steps = some s) : Inv s :=
  runSteps_invariant (fun hs hx => hs.step hx) (inv_initial logFiles) h

end Invariant

section Lines

/-- No line before a position stands behind the kill message. -/
def InTime (s : State) : Prop :=
  ∀ t ∈ s.scan.tracked, ∀ e ∈ t.passed, ¬ Behind Stop e s.history

/-- What is put behind everything else is new, and leaves the other lines where they are. -/
theorem InTime.put (hinv : Inv s) (h : InTime s) (m : SourceEvent) :
    ∀ t ∈ s.scan.tracked, ∀ e ∈ t.passed, ¬ Behind Stop e (s.history ++ [(s.out.puts, m)]) := by
  intro t ht e he hbehind
  have hnew := hinv.queue.new m (hinv.scan.passed t ht e he).1
  exact h t ht e he (hbehind.of_concat hnew)

theorem InTime.step (hinv : Inv s) (h : InTime s) {x : Step} (hx : PutInTime s x)
    (hstep : step unitTest saved s x = some s') : InTime s' := by
  cases does_of_step hstep with
  | sends m main hm hkilled hcleared => exact h.put hinv m
  | clears now hmain => exact h
  | kills now hmain => exact h.put hinv killMessage
  | moves hmoves =>
    intro t ht e he
    rcases hmoves.tracked_passed ht with hnil | ⟨t', ht', heq⟩
    · simp [hnil] at he
    · exact h t' ht' e (heq ▸ he)
  | @opens done m ms todo hscan =>
    have hput := h.put hinv m
    rw [hscan] at hput
    exact hput
  | @puts done current m ms todo hscan =>
    have hput := h.put hinv m
    rw [hscan] at hput
    intro t ht e he
    rcases List.mem_append.mp ht with ht | ht
    · exact hput t (List.mem_append_left _ ht) e he
    · rcases List.mem_cons.mp ht with rfl | ht
      · rcases record_passed he with he | ⟨rfl, hline, hposition⟩
        · exact hput current (by simp [ScanPhase.tracked]) e he
        · -- the new line: no kill message has been put so far
          have hmain := hx done current m ms todo rfl hscan hline hposition
          have hnone : ∀ e ∈ s.history, ¬ Stop e :=
            fun e he hstop => hmain (hinv.main.killed.mp ⟨e, he, hstop⟩)
          apply not_behind_of_none
          intro e he
          rcases List.mem_append.mp he with he | he
          · exact hnone e he
          · exact List.mem_singleton.mp he ▸ not_stop_of_line hline
      · exact hput t (by simp [ScanPhase.tracked, ht]) e he
  | returns => exact h
  | output hout hx' => exact h

/-- A line before the position of an entry that is not visited again stands behind the kill
message. -/
structure Late (s : State) : Prop where
  main : s.main = .killed
  line : ∃ t ∈ s.scan.settled, ∃ e ∈ t.passed, Behind Stop e s.history

/-- Once `RUNNING` is false, entries stay settled. -/
theorem Moves.settled {scan scan' : ScanPhase} (h : Moves false scan scan') :
    scan.settled ⊆ scan'.settled := by
  cases h with
  | start hnew hpending => simp [ScanPhase.settled]
  | visit hpassed hpending => exact List.subset_append_left _ _
  | noFile => simp [ScanPhase.settled]
  | opened done => simp [ScanPhase.settled]
  | round all hrunning => cases hrunning
  | leave all hrunning => exact List.Subset.refl _
  | visited done current todo => exact List.Subset.refl _
  | finish done => exact List.Subset.refl _

theorem Late.put (h : Late s) (m : SourceEvent) : ∃ t ∈ s.scan.settled, ∃ e ∈ t.passed,
    Behind Stop e (s.history ++ [(s.out.puts, m)]) := by
  obtain ⟨t, ht, e, he, hbehind⟩ := h.line
  exact ⟨t, ht, e, he, hbehind.concat _⟩

theorem Late.step (hinv : Inv s) (h : Late s) {x : Step}
    (hstep : step unitTest saved s x = some s') : Late s' := by
  have hmain := h.main
  cases does_of_step hstep with
  | sends m main hm hkilled hcleared => exact ⟨hkilled.mpr hmain, h.put m⟩
  | clears now hstopping => simp [hmain] at hstopping
  | kills now hcleared => simp [hmain] at hcleared
  | moves hmoves =>
    rw [hinv.main.running (.inr hmain)] at hmoves
    obtain ⟨t, ht, hline⟩ := h.line
    exact ⟨hmain, t, hmoves.settled ht, hline⟩
  | opens hscan =>
    obtain ⟨t, ht, -⟩ := h.line
    simp [hscan, ScanPhase.settled] at ht
  | @puts done current m ms todo hscan =>
    obtain ⟨t, ht, e, he, hbehind⟩ := h.put m
    rw [hscan] at ht
    refine ⟨hmain, ?_⟩
    rcases List.mem_append.mp ht with ht | ht
    · exact ⟨t, List.mem_append_left _ ht, e, he, hbehind⟩
    · obtain rfl := List.mem_singleton.mp ht
      exact ⟨t.record (s.out.puts, m), List.mem_append_right _ (List.mem_singleton_self _), e,
        subset_record _ t he, hbehind⟩
  | returns => exact ⟨hmain, h.line⟩
  | output hout hx => exact ⟨hmain, h.line⟩

/-- A line that is put too late is not forgotten by the system. -/
theorem late_of_put (hinv : Inv s) {x : Step} (hx : ¬ PutInTime s x)
    (hstep : step unitTest saved s x = some s') : Late s' := by
  simp only [PutInTime, not_forall, not_not] at hx
  obtain ⟨done, current, m, ms, todo, rfl, hscan, hline, hposition, hmain⟩ := hx
  rw [step, hscan] at hstep
  obtain rfl := Option.some.inj hstep
  refine ⟨hmain, current.record (s.out.puts, m),
    List.mem_append_right _ (List.mem_singleton_self _), (s.out.puts, m), ?_, ?_⟩
  · rw [Tracked.record, if_pos ⟨hline, hposition⟩]
    exact List.mem_append_right _ (List.mem_singleton_self _)
  · exact behind_concat_self (hinv.main.killed.mpr hmain) _

theorem late_run (hinv : Inv s) (h : Late s) {steps : List Step}
    (hrun : runSteps (step unitTest saved) s steps = some s') : Late s' := by
  have hstep : ∀ {u x v}, Inv u ∧ Late u → step unitTest saved u x = some v → Inv v ∧ Late v :=
    fun hu hx => ⟨hu.1.step hx, hu.2.step hu.1 hx⟩
  exact (runSteps_invariant hstep ⟨hinv, h⟩ hrun).2

theorem inTime_run {logFiles : List LogfileConfig} {steps : List Step}
    (hmeet : StepsMeet (step unitTest saved) PutInTime (initial logFiles) steps)
    (hrun : run unitTest saved logFiles steps = some s) : InTime s := by
  have hstep : ∀ {u x v}, Inv u ∧ InTime u → PutInTime u x → step unitTest saved u x = some v →
      Inv v ∧ InTime v :=
    fun hu hx hv => ⟨hu.1.step hv, hu.2.step hu.1 hx hv⟩
  have hinitial : InTime (initial logFiles) := by simp [InTime, initial, ScanPhase.tracked]
  exact (hmeet.invariant hstep ⟨inv_initial logFiles, hinitial⟩ hrun).2

end Lines

section Joined

/-- When all threads have returned, exactly the lines behind the kill message are forgotten. -/
theorem forgetsNothing_iff_inTime (hinv : Inv s) (hjoined : Joined s) :
    ForgetsNothing s ↔ InTime s := by
  obtain ⟨final, hscan⟩ := hjoined.scan
  have hread := hinv.queue.read
  rw [stopped, hjoined.out] at hread
  have htracked : s.scan.tracked = final.getD [] := by rw [hscan, ScanPhase.tracked]
  have hline : ∀ t ∈ s.scan.tracked, ∀ e ∈ t.passed,
      (e ∈ s.out.delivered ∨ (e ∈ s.out.localQueue ∧
        s.out.warnings = [logscan.discarding s.out.localQueue.length])) ↔
        ¬ Behind Stop e s.history := by
    intro t ht e he
    obtain ⟨hmem, hstop⟩ := hinv.scan.passed t ht e he
    rw [← hread.mem_taken_iff hinv.queue.nodup hmem hstop, hinv.queue.balanced.balance.mem_iff,
      List.mem_append]
    apply or_congr_right
    constructor
    · exact And.left
    · intro hlocal
      refine ⟨hlocal, ?_⟩
      have hwarned := hinv.queue.warned
      rw [Warned, if_pos ⟨hjoined.out, by simpa using List.ne_nil_of_mem hlocal⟩] at hwarned
      exact hwarned
  constructor
  · intro h t ht e he
    rw [htracked] at ht
    cases final with
    | none => simp at ht
    | some all => exact (hline t (htracked ▸ ht) e he).mp (h all hscan t ht e he)
  · intro h all hall t ht e he
    have hmem : t ∈ s.scan.tracked := by
      rw [hall]
      exact ht
    exact (hline t hmem e he).mpr (h t hmem e he)

/-- A shutdown of the log scanner forgets no line. When the threads have been joined, every
line before a position that was saved has been handed to the sink or counted as discarded,
exactly if the run put no such line behind the kill message. -/
theorem forgetsNothing_iff {logFiles : List LogfileConfig} {steps : List Step}
    (h : run unitTest saved logFiles steps = some s) (hjoined : Joined s) :
    ForgetsNothing s ↔
      StepsMeet (step unitTest saved) PutInTime (initial logFiles) steps := by
  rw [forgetsNothing_iff_inTime (inv_run h) hjoined]
  constructor
  · intro hintime pre x post t hsteps hpre
    by_contra hx
    subst hsteps
    obtain ⟨u, v, hu, hstep, hpost⟩ := runSteps_split h
    obtain rfl := Option.some.inj (hpre.symm.trans hu)
    have hinv : Inv t := inv_run hpre
    have hlate : Late s := late_run (hinv.step hstep) (late_of_put hinv hx hstep) hpost
    obtain ⟨final, hscan⟩ := hjoined.scan
    obtain ⟨t, ht, e, he, hbehind⟩ := hlate.line
    have hmem : t ∈ s.scan.tracked := by
      rw [hscan] at ht ⊢
      exact ht
    exact hintime t hmem e he hbehind
  · intro hmeet
    exact inTime_run hmeet h

/-- The numbers of the lines that were passed in each file when the positions were saved. -/
def ScanPhase.savedNumbers : ScanPhase → Option (List (List ℕ))
  | .ended (some final) => some (final.map fun t => t.passed.map Prod.fst)
  | _ => none

/-- A line is read before the scanner is stopped. -/
def timelyRun : List Step :=
  [.main 1, .start 1 3 (some (7, 0)), .next, .next, .visit (plainVisit 7 ['x', '\n']), .put,
    .main 2, .main 2, .main 2, .next, .next, .next, .systemdReturns, .output (.take (.ok ())),
    .output (.take (.ok ())), .output (.take (.ok ())), .output (.take (.ok ()))]

theorem forgetsNothing_iff_timelyRun :
    ∃ s, run false [] [{ path := "app.log" }] timelyRun = some s ∧ Joined s ∧
      (ForgetsNothing s ↔
        StepsMeet (step false []) PutInTime (initial [{ path := "app.log" }]) timelyRun) := by
  have hfinal : (run false [] [{ path := "app.log" }] timelyRun).map
      (fun s => (s.main, s.scan.savedNumbers.isSome, s.systemd, s.out.phase)) =
        some (.killed, true, false, .ended) := by
    decide +kernel
  obtain ⟨s, hs, heq⟩ := Option.map_eq_some_iff.mp hfinal
  obtain ⟨hmain, hscan, hsystemd, hout⟩ : s.main = .killed ∧ s.scan.savedNumbers.isSome = true ∧
      s.systemd = false ∧ s.out.phase = .ended := by simpa using heq
  have hended : ∃ final, s.scan = .ended final := by
    cases hphase : s.scan with
    | ended final => exact ⟨final, rfl⟩
    | _ => simp [hphase, ScanPhase.savedNumbers] at hscan
  have hjoined : Joined s := ⟨hmain, hended, hsystemd, hout⟩
  exact ⟨s, hs, hjoined, forgetsNothing_iff hs hjoined⟩

/-- The pass is under way when the scanner is stopped: the kill message is put, and then a line
is read and its position saved. -/
def lateRun : List Step :=
  [.main 1, .start 1 3 (some (7, 0)), .next, .next, .main 2, .main 2, .main 2,
    .visit (plainVisit 7 ['x', '\n']), .put, .next, .next, .next, .systemdReturns,
    .output (.take (.ok ())), .output (.take (.ok ())), .output (.take (.ok ()))]

/-- The line lies before the saved position, but it was not sent and is not counted. -/
theorem lateRun_forgets :
    ∃ s, run false [] [{ path := "app.log" }] lateRun = some s ∧ Joined s ∧
      ¬ ForgetsNothing s := by
  have hfinal : (run false [] [{ path := "app.log" }] lateRun).map
      (fun s => (s.main, s.scan.savedNumbers, s.systemd, s.out.phase)) =
        some (.killed, some [[3]], false, .ended) := by
    decide +kernel
  have hsent : (run false [] [{ path := "app.log" }] lateRun).map
      (fun s => (s.out.delivered.map Prod.fst, s.out.localQueue)) = some ([0, 1], []) := by
    decide +kernel
  obtain ⟨s, hs, heq⟩ := Option.map_eq_some_iff.mp hfinal
  obtain ⟨hmain, hscan, hsystemd, hout⟩ : s.main = .killed ∧
      s.scan.savedNumbers = some [[3]] ∧ s.systemd = false ∧ s.out.phase = .ended := by
    simpa using heq
  rw [hs, Option.map_some, Option.some.injEq, Prod.mk.injEq] at hsent
  obtain ⟨hdelivered, hlocal⟩ := hsent
  have hended : ∃ all, s.scan = .ended (some all) ∧
      all.map (fun t => t.passed.map Prod.fst) = [[3]] := by
    cases hphase : s.scan with
    | ended final =>
      cases final with
      | none => simp [hphase, ScanPhase.savedNumbers] at hscan
      | some all => exact ⟨all, rfl, by simpa [hphase, ScanPhase.savedNumbers] using hscan⟩
    | _ => simp [hphase, ScanPhase.savedNumbers] at hscan
  obtain ⟨all, hall, hnumbers⟩ := hended
  obtain ⟨t, ts, rfl, ht, -⟩ := List.map_eq_cons_iff.mp hnumbers
  obtain ⟨e, es, hpassed, he, -⟩ := List.map_eq_cons_iff.mp ht
  refine ⟨s, hs, ⟨hmain, ⟨_, hall⟩, hsystemd, hout⟩, ?_⟩
  intro hforgets
  have hline := hforgets _ hall t List.mem_cons_self e (by simp [hpassed])
  rcases hline with hsent | ⟨hwaiting, -⟩
  · have hnumber : e.1 ∈ s.out.delivered.map Prod.fst := List.mem_map_of_mem hsent
    rw [hdelivered, he] at hnumber
    simp at hnumber
  · simp [hlocal] at hwaiting

end Joined

end Ctguard.LogscanDaemon
