import Ctguard.LogfileTask

/-!
# Which lines of a growing log file are queued

The file keeps its inode and only grows, by chunks of any length appended between
the passes of the scanner. While everything appended so far ends with a newline at
each pass, the scanner stays at the end of the last line it queued, up to blank
lines. A pass that sees an open line queues the part it sees.
-/

namespace Ctguard.LogfileTask

/-- The lines to queue for a buffer that leaves none open. -/
def closedLines (xs : List Char) : List (List Char) :=
  (terminatedItems '\n' xs).filter (· ≠ [])

@[simp] theorem closedLines_nil : closedLines [] = [] := by simp [closedLines]

theorem closedLines_append {xs : List Char} (h : Terminated '\n' xs) (ys : List Char) :
    closedLines (xs ++ ys) = closedLines xs ++ closedLines ys := by
  simp [closedLines, terminatedItems_append h]

theorem terminated_of_blank {xs : List Char} (h : ∀ c ∈ xs, c = '\n') :
    Terminated '\n' xs := by
  rcases List.eq_nil_or_concat xs with rfl | ⟨ys, c, rfl⟩
  · exact .inl rfl
  · exact .inr (by simp [h c (by simp)])

/-- The lines extracted from a buffer, the open one included. -/
def linesRead (xs : List Char) : List (List Char) :=
  closedLines xs ++ if openItem '\n' xs = [] then [] else [openItem '\n' xs]

theorem linesRead_of_notMem {xs : List Char} (h : '\n' ∉ xs) :
    linesRead xs = if xs = [] then [] else [xs] := by
  simp [linesRead, closedLines, terminatedItems_of_notMem h, openItem_of_notMem h]

theorem linesRead_item {item : List Char} (h : '\n' ∉ item) (more : List Char) :
    linesRead (item ++ '\n' :: more) =
      (if item = [] then [] else [item]) ++ linesRead more := by
  rw [linesRead, linesRead, openItem_append_cons, closedLines, terminatedItems_item h]
  by_cases hi : item = []
  · rw [List.filter_cons_of_neg (by simp [hi]), if_pos hi, closedLines, List.nil_append]
  · rw [List.filter_cons_of_pos (by simp [hi]), if_neg hi, closedLines]
    simp

/-- Up to the offset `n`, nothing but newlines lies behind the position `p`. -/
def BlankTo (data : List Char) (p : ℤ) (n : ℕ) : Prop :=
  ∃ q : ℕ, p = q ∧ q ≤ n ∧ ∀ i, q ≤ i → i < n → data[i]? = some '\n'

theorem blankTo_self (data : List Char) (n : ℕ) : BlankTo data n n :=
  ⟨n, rfl, le_rfl, fun i h h' => by omega⟩

theorem BlankTo.step {data : List Char} {p : ℤ} {n : ℕ} (h : BlankTo data p n)
    (hn : data[n]? = some '\n') : BlankTo data p (n + 1) := by
  obtain ⟨q, hq, hle, hall⟩ := h
  refine ⟨q, hq, by omega, fun i hqi hin => ?_⟩
  rcases Nat.lt_succ_iff_lt_or_eq.mp hin with hlt | rfl
  · exact hall i hqi hlt
  · exact hn

/-- The part of an entry that reading does not change. -/
def Logfile.held (ls : Logfile) : LogfileConfig × ℤ × UInt64 × ℤ × Bool :=
  (ls.config, ls.fd, ls.inode, ls.size, ls.down)

section Reading

variable (unitTest : Bool)

theorem readLoop_item {st : InputStream Char} {item more : List Char}
    (hgood : st.good = true) (hitem : '\n' ∉ item) (hrest : st.rest = item ++ '\n' :: more)
    (now : ℤ) (line : List Char) (ls : Logfile) :
    readLoop unitTest now st line ls =
      let st' := { st with pos := st.pos + item.length + 1 }
      if item = [] then readLoop unitTest now st' item ls
      else
        let more := readLoop unitTest now st' item { ls with
          position := (st.pos + item.length + 1 : ℕ), lastUpdated := now,
          timeoutTriggered := false }
        (more.1, .emplace (log2Se unitTest now ls.path false (String.ofList item)) :: more.2) := by
  have htell := InputStream.tellg_of_good (InputStream.rest_advance hrest hgood).2
  rw [readLoop, dif_neg (InputStream.not_failbit_of_good hgood)]
  simp only [InputStream.getline_item hgood hitem hrest, htell]
  rfl

/-- The end of the buffer ends the loop; an open line is queued all the same. -/
theorem readLoop_last {st : InputStream Char} (hgood : st.good = true) (hrest : '\n' ∉ st.rest)
    (now : ℤ) (line : List Char) (ls : Logfile) :
    readLoop unitTest now st line ls =
      if st.rest = [] then (ls, [])
      else ({ ls with position := -1, lastUpdated := now, timeoutTriggered := false },
        [.emplace (log2Se unitTest now ls.path false (String.ofList st.rest))]) := by
  rw [readLoop, dif_neg (InputStream.not_failbit_of_good hgood)]
  simp only [InputStream.getline_last hgood hrest]
  by_cases he : st.rest = []
  · rw [if_pos he, if_pos he, readLoop, dif_pos (by simp [he])]
  · have hopen : st.rest.isEmpty = false := by simpa using he
    rw [if_neg he, if_neg he]
    simp only [InputStream.tellg, InputStream.good, hopen]
    rw [readLoop, dif_pos (by simp)]
    rfl

/-- The messages of one run of the loop, whatever the rest of the buffer is. -/
theorem readLoop_effects (now : ℤ) {st : InputStream Char} (hgood : st.good = true)
    (line : List Char) (ls : Logfile) :
    (readLoop unitTest now st line ls).2 = (linesRead st.rest).map fun l =>
      .emplace (log2Se unitTest now ls.path false (String.ofList l)) := by
  induction hrest : st.rest using item_induction '\n' generalizing st line ls with
  | item item more hitem ih =>
    obtain ⟨hmore, hgood'⟩ := InputStream.rest_advance hrest hgood
    rw [readLoop_item unitTest hgood hitem hrest, linesRead_item hitem]
    by_cases hi : item = []
    · simp only [if_pos hi, List.nil_append]
      exact ih hgood' _ _ hmore
    · simp only [if_neg hi]
      rw [ih hgood' _ _ hmore]
      rfl
  | last rest hlast =>
    subst hrest
    rw [readLoop_last unitTest hgood hlast, linesRead_of_notMem hlast]
    by_cases he : st.rest = []
    · simp [he]
    · simp [he]

/-- Reading a rest without an open line leaves the position behind the last line. -/
theorem readLoop_entry (now : ℤ) {st : InputStream Char} (hgood : st.good = true)
    (hpos : st.pos ≤ st.data.length) (hterm : Terminated '\n' st.rest) (line : List Char)
    (ls : Logfile) (hblank : BlankTo st.data ls.position st.pos) :
    (readLoop unitTest now st line ls).1.held = ls.held ∧
      BlankTo st.data (readLoop unitTest now st line ls).1.position st.data.length := by
  induction hrest : st.rest using item_induction '\n' generalizing st line ls with
  | item item more hitem ih =>
    obtain ⟨hmore, hgood'⟩ := InputStream.rest_advance hrest hgood
    have hlen : st.rest.length = item.length + (more.length + 1) := by rw [hrest]; simp
    have hpos' : st.pos + item.length + 1 ≤ st.data.length := by
      simp only [InputStream.rest, List.length_drop] at hlen
      omega
    have hterm' : Terminated '\n' more := by
      have hclosed : Terminated '\n' (item ++ ['\n']) := .inr (by simp)
      rw [hrest, show item ++ '\n' :: more = item ++ ['\n'] ++ more by simp,
        terminated_append_iff hclosed] at hterm
      exact hterm
    rw [readLoop_item unitTest hgood hitem hrest]
    by_cases hi : item = []
    · simp only [if_pos hi]
      refine ih hgood' hpos' (by rwa [hmore]) _ _ ?_ hmore
      have hnext : st.data[st.pos]? = some '\n' := by
        have hzero : st.rest[0]? = some '\n' := by simp [hrest, hi]
        simpa [InputStream.rest] using hzero
      simpa [hi] using hblank.step hnext
    · simp only [if_neg hi]
      exact ih hgood' hpos' (by rwa [hmore]) _ _ (blankTo_self _ _) hmore
  | last rest hlast =>
    subst hrest
    have he : st.rest = [] := by
      rcases hterm with h | h
      · exact h
      · exact absurd (List.mem_of_getLast? h) hlast
    rw [readLoop_last unitTest hgood hlast, if_pos he]
    have heq : st.pos = st.data.length := by
      simp only [InputStream.rest, List.drop_eq_nil_iff] at he
      omega
    exact ⟨rfl, heq ▸ hblank⟩

/-- Reading an open line loses the position. -/
theorem readLoop_open (now : ℤ) {st : InputStream Char} (hgood : st.good = true)
    (hopen : openItem '\n' st.rest ≠ []) (line : List Char) (ls : Logfile) :
    (readLoop unitTest now st line ls).1.position = -1 := by
  induction hrest : st.rest using item_induction '\n' generalizing st line ls with
  | item item more hitem ih =>
    obtain ⟨hmore, hgood'⟩ := InputStream.rest_advance hrest hgood
    rw [hrest, openItem_append_cons] at hopen
    rw [readLoop_item unitTest hgood hitem hrest]
    by_cases hi : item = []
    · simp only [if_pos hi]
      exact ih hgood' (by rwa [hmore]) _ _ hmore
    · simp only [if_neg hi]
      exact ih hgood' (by rwa [hmore]) _ _ hmore
  | last rest hlast =>
    subst hrest
    rw [openItem_of_notMem hlast] at hopen
    rw [readLoop_last unitTest hgood hlast, if_neg hopen]

/-- The messages for lines of a file, without the control messages about it. -/
def lineMessages (path : String) (q : List SourceEvent) : List String :=
  (q.filter fun se => !se.controlMessage && se.sourceDomain == path).map (·.message)

@[simp] theorem lineMessages_append (path : String) (q r : List SourceEvent) :
    lineMessages path (q ++ r) = lineMessages path q ++ lineMessages path r := by
  simp [lineMessages]

theorem lineMessages_readLoop (now : ℤ) {st : InputStream Char} (hgood : st.good = true)
    (line : List Char) (ls : Logfile) :
    lineMessages ls.path (queued (readLoop unitTest now st line ls).2) =
      (linesRead st.rest).map String.ofList := by
  rw [readLoop_effects unitTest now hgood]
  induction linesRead st.rest with
  | nil => rfl
  | cons l lines ih =>
    simpa [lineMessages, log2Se] using ih

/-- The answers for a file that exists, has this inode and holds `content`. -/
def growingVisit (inode : UInt64) (content : List Char) (now opened reopened : ℤ) : Visit where
  now := now
  opened := opened
  stat := some (inode, content.length)
  reopened := reopened
  stream := some content

/-- An entry in use: its descriptor is valid and the inode is the recorded one. -/
structure InUse (inode : UInt64) (ls : Logfile) : Prop where
  fd : ls.fd ≠ -1
  down : ls.down = false
  inode : ls.inode = inode

theorem InUse.of_held {inode : UInt64} {ls ls' : Logfile} (h : InUse inode ls)
    (hheld : ls'.held = ls.held) :
    InUse inode ls' ∧ ls'.path = ls.path ∧ ls'.size = ls.size := by
  simp only [Logfile.held, Prod.mk.injEq] at hheld
  obtain ⟨hconfig, hfd, hinode, hsize, hdown⟩ := hheld
  exact ⟨⟨hfd ▸ h.fd, hdown ▸ h.down, hinode ▸ h.inode⟩, by rw [Logfile.path, hconfig]; rfl, hsize⟩

/-- On a file in use, only the size check and the timeout alert remain of a visit. -/
theorem visitFile_inUse {inode : UInt64} {ls : Logfile} (h : InUse inode ls)
    (content : List Char) (now opened reopened : ℤ) :
    let v := growingVisit inode content now opened reopened
    ∃ b, (visitFile unitTest v ls).1 =
        (checkSize unitTest v content.length { ls with timeoutTriggered := b }).1 ∧
      lineMessages ls.path (queued (visitFile unitTest v ls).2) =
        lineMessages ls.path (queued
          (checkSize unitTest v content.length { ls with timeoutTriggered := b }).2) := by
  intro v
  have hup : ∀ b, bringUp unitTest v { ls with timeoutTriggered := b } =
      checkSize unitTest v content.length { ls with timeoutTriggered := b } := by
    intro b
    rw [bringUp, if_neg (by simp [h.fd, h.down]), checkStat]
    simp only [v, growingVisit, checkInode]
    rw [if_neg (by simp [h.inode])]
  rw [visitFile]
  split
  · refine ⟨true, by rw [hup], ?_⟩
    rw [hup]
    simp [control, lineMessages, log2Se]
  · exact ⟨ls.timeoutTriggered, by rw [← hup], by rw [← hup]⟩

theorem visitFile_unchanged {inode : UInt64} {ls : Logfile} (h : InUse inode ls)
    {content : List Char} (hsize : ls.size = content.length) (now opened reopened : ℤ) :
    let r := visitFile unitTest (growingVisit inode content now opened reopened) ls
    lineMessages ls.path (queued r.2) = [] ∧ r.1.held = ls.held ∧
      r.1.position = ls.position := by
  obtain ⟨b, hentry, hqueue⟩ := visitFile_inUse unitTest h content now opened reopened
  have hcheck : checkSize unitTest (growingVisit inode content now opened reopened)
      content.length { ls with timeoutTriggered := b } =
        ({ ls with timeoutTriggered := b }, []) := if_pos hsize.symm
  rw [hcheck] at hentry hqueue
  exact ⟨hqueue, by rw [hentry]; rfl, by rw [hentry]⟩

theorem visitFile_grown {inode : UInt64} {ls : Logfile} (h : InUse inode ls)
    {content : List Char} (hsize : ls.size < content.length) {q : ℕ}
    (hpos : ls.position = q) (hq : q ≤ content.length) (now opened reopened : ℤ) :
    let r := visitFile unitTest (growingVisit inode content now opened reopened) ls
    lineMessages ls.path (queued r.2) = (linesRead (content.drop q)).map String.ofList ∧
      (Terminated '\n' (content.drop q) →
        r.1.held = { ls with size := content.length }.held ∧
          BlankTo content r.1.position content.length) := by
  obtain ⟨b, hentry, hqueue⟩ := visitFile_inUse unitTest h content now opened reopened
  let st : InputStream Char := { data := content, pos := q }
  let ls' := { ls with timeoutTriggered := b, size := (content.length : ℤ) }
  have hcheck : checkSize unitTest (growingVisit inode content now opened reopened)
      content.length { ls with timeoutTriggered := b } =
        readLoop unitTest now st [] ls' := by
    rw [checkSize, if_neg (by simp; omega), if_neg (by simp; omega), readStream]
    simp only [growingVisit, hpos, InputStream.seekg_natCast]
    simp [st, ls', hpos]
  rw [hcheck] at hentry hqueue
  have hgood : st.good = true := rfl
  refine ⟨hqueue.trans (lineMessages_readLoop unitTest now hgood [] ls'), fun hterm => ?_⟩
  rw [hentry]
  exact readLoop_entry unitTest now hgood hq hterm [] ls' (by
    simpa [ls', hpos] using blankTo_self content q)

end Reading

section Runs

/-- A monitored file, its entry and what was put into the queue so far. -/
structure Scan where
  content : List Char
  entry : Logfile
  queue : List SourceEvent := []

inductive Step where
  | append (chunk : List Char)
  | pass (now opened reopened : ℤ)

variable (unitTest : Bool) (inode : UInt64)

def Scan.step (s : Scan) : Step → Scan
  | .append chunk => { s with content := s.content ++ chunk }
  | .pass now opened reopened =>
    let r := visitFile unitTest (growingVisit inode s.content now opened reopened) s.entry
    { s with entry := r.1, queue := s.queue ++ queued r.2 }

def Scan.run (s : Scan) (steps : List Step) : Scan := steps.foldl (Scan.step unitTest inode) s

/-- Everything that the steps append to the file. -/
def appended (steps : List Step) : List Char :=
  steps.flatMap fun
    | .append chunk => chunk
    | .pass .. => []

@[simp] theorem Scan.run_concat (s : Scan) (steps : List Step) (step : Step) :
    s.run unitTest inode (steps ++ [step]) =
      (s.run unitTest inode steps).step unitTest inode step := by
  simp [Scan.run]

@[simp] theorem appended_append (steps : List Step) (chunk : List Char) :
    appended (steps ++ [.append chunk]) = appended steps ++ chunk := by
  simp [appended]

@[simp] theorem appended_pass (steps : List Step) (now opened reopened : ℤ) :
    appended (steps ++ [.pass now opened reopened]) = appended steps := by
  simp [appended]

/-- The scanner has caught up with `visible` and nothing of `fresh`, the two parts of
what was appended behind the initial content. -/
structure CaughtUp (path : String) (start visible fresh : List Char) (s : Scan) : Prop where
  content : s.content = start ++ visible ++ fresh
  inUse : InUse inode s.entry
  named : s.entry.path = path
  size : s.entry.size = (start ++ visible).length
  blank : BlankTo (start ++ visible) s.entry.position (start ++ visible).length
  closed : Terminated '\n' visible
  delivered : lineMessages path s.queue = (closedLines visible).map String.ofList

variable {path : String} {start visible fresh : List Char} {s : Scan} {inode}

theorem CaughtUp.append (h : CaughtUp inode path start visible fresh s) (chunk : List Char) :
    CaughtUp inode path start visible (fresh ++ chunk)
      (s.step unitTest inode (.append chunk)) where
  content := by simp [Scan.step, h.content]
  inUse := h.inUse
  named := h.named
  size := h.size
  blank := h.blank
  closed := h.closed
  delivered := h.delivered

theorem linesRead_blank_append {blank : List Char} (h : ∀ c ∈ blank, c = '\n')
    (xs : List Char) : linesRead (blank ++ xs) = linesRead xs := by
  induction blank with
  | nil => rfl
  | cons c blank ih =>
    have hc : c = '\n' := h c (by simp)
    rw [hc, List.cons_append, ← List.nil_append ('\n' :: (blank ++ xs)),
      linesRead_item List.not_mem_nil, if_pos rfl, List.nil_append]
    exact ih fun d hd => h d (by simp [hd])

/-- A pass queues the lines of the fresh part, and its open item if there is one. -/
theorem CaughtUp.pass_delivered (h : CaughtUp inode path start visible fresh s)
    (now opened reopened : ℤ) :
    lineMessages path (s.step unitTest inode (.pass now opened reopened)).queue =
        (closedLines visible ++ linesRead fresh).map String.ofList ∧
      (Terminated '\n' fresh →
        CaughtUp inode path start (visible ++ fresh) []
          (s.step unitTest inode (.pass now opened reopened))) := by
  have hcontent := h.content
  by_cases hfresh : fresh = []
  · subst hfresh
    rw [List.append_nil] at hcontent
    have hsize : s.entry.size = s.content.length := by rw [h.size, hcontent]
    obtain ⟨hnone, hheld, hpos⟩ :=
      visitFile_unchanged unitTest h.inUse hsize now opened reopened
    obtain ⟨huse, hpath, hsize'⟩ := h.inUse.of_held hheld
    rw [h.named] at hnone hpath
    have hdelivered : lineMessages path
        (s.step unitTest inode (.pass now opened reopened)).queue =
          (closedLines visible).map String.ofList := by
      simp [Scan.step, hnone, h.delivered]
    refine ⟨by rw [hdelivered]; simp [linesRead_of_notMem], fun _ => ?_⟩
    rw [List.append_nil]
    exact ⟨by simpa [Scan.step] using hcontent, huse, hpath, hsize'.trans h.size,
      by simpa [Scan.step, hpos] using h.blank, h.closed, hdelivered⟩
  · obtain ⟨q, hq, hle, hall⟩ := h.blank
    have hlen : s.content.length = (start ++ visible).length + fresh.length := by
      rw [hcontent, List.length_append]
    have hgrown : s.entry.size < s.content.length := by
      have := List.length_pos_iff.mpr hfresh
      rw [h.size]
      omega
    have hblank : ∀ c ∈ (start ++ visible).drop q, c = '\n' := by
      intro c hc
      obtain ⟨i, hi⟩ := List.mem_iff_getElem?.mp hc
      rw [List.getElem?_drop] at hi
      have hlt : q + i < (start ++ visible).length := (List.getElem?_eq_some_iff.mp hi).1
      have hnl := hall (q + i) (by omega) hlt
      exact Option.some.inj (hi.symm.trans hnl)
    have hdrop : s.content.drop q = (start ++ visible).drop q ++ fresh := by
      rw [hcontent, List.drop_append_of_le_length hle]
    obtain ⟨hqueue, hentry⟩ :=
      visitFile_grown unitTest h.inUse hgrown hq (by omega) now opened reopened
    rw [hdrop, linesRead_blank_append hblank, h.named] at hqueue
    have hdelivered : lineMessages path
        (s.step unitTest inode (.pass now opened reopened)).queue =
          (closedLines visible ++ linesRead fresh).map String.ofList := by
      simp [Scan.step, hqueue, h.delivered]
    refine ⟨hdelivered, fun hterm => ?_⟩
    obtain ⟨hheld, hpos⟩ := hentry (by
      rw [hdrop]
      exact (terminated_of_blank hblank).append hterm)
    have huse : InUse inode { s.entry with size := (s.content.length : ℤ) } :=
      ⟨h.inUse.fd, h.inUse.down, h.inUse.inode⟩
    obtain ⟨huse', hpath, hsize⟩ := huse.of_held hheld
    have hall' : s.content = start ++ (visible ++ fresh) := by simp [hcontent]
    refine ⟨by simp [Scan.step, hall'], huse', hpath.trans h.named, ?_, ?_,
      h.closed.append hterm, ?_⟩
    · rw [← hall']
      exact hsize
    · rw [← hall']
      exact hpos
    · rw [hdelivered, closedLines_append h.closed, linesRead,
        if_pos (openItem_eq_nil_iff.mpr hterm), List.append_nil]

/-- The scanner starts with an entry in use whose position is the end of the file. -/
structure StartsAtEnd (inode : UInt64) (path : String) (s : Scan) : Prop where
  inUse : InUse inode s.entry
  named : s.entry.path = path
  size : s.entry.size = s.content.length
  position : s.entry.position = s.content.length
  queue : s.queue = []

/-- A file without saved state is started like this. -/
theorem startFile_startsAtEnd (now : ℤ) {opened : ℤ} (hopen : opened ≠ -1) (inode : UInt64)
    (content : List Char) (lc : LogfileConfig) :
    let fstat := some (inode, (content.length : ℤ))
    StartsAtEnd inode lc.path ⟨content, (startFile unitTest [] now opened fstat lc).1, []⟩ := by
  simp only [startFile, if_neg hopen]
  exact ⟨⟨hopen, rfl, rfl⟩, rfl, rfl, rfl, rfl⟩

theorem StartsAtEnd.caughtUp (h : StartsAtEnd inode path s) :
    CaughtUp inode path s.content [] [] s where
  content := by simp
  inUse := h.inUse
  named := h.named
  size := by simpa using h.size
  blank := by simpa [h.position] using blankTo_self s.content s.content.length
  closed := .inl rfl
  delivered := by simp [h.queue, lineMessages]

/-- `P` holds of what has happened right after every pass. -/
def AtPasses (P : List Step → Prop) (steps : List Step) : Prop :=
  ∀ pre now opened reopened, pre ++ [.pass now opened reopened] <+: steps →
    P (pre ++ [.pass now opened reopened])

theorem atPasses_nil (P : List Step → Prop) : AtPasses P [] :=
  fun pre now opened reopened hp => by simp at hp

theorem atPasses_append (P : List Step → Prop) (steps : List Step) (chunk : List Char) :
    AtPasses P (steps ++ [.append chunk]) ↔ AtPasses P steps := by
  refine ⟨fun h pre now opened reopened hp => h _ _ _ _ (hp.trans (List.prefix_append _ _)),
    fun h pre now opened reopened hp => ?_⟩
  rcases List.prefix_concat_iff.mp hp with heq | hp
  · simp at heq
  · exact h pre now opened reopened hp

theorem atPasses_pass (P : List Step → Prop) (steps : List Step) (now opened reopened : ℤ) :
    AtPasses P (steps ++ [.pass now opened reopened]) ↔
      AtPasses P steps ∧ P (steps ++ [.pass now opened reopened]) := by
  refine ⟨fun h => ⟨fun pre _ _ _ hp => h pre _ _ _ (hp.trans (List.prefix_append _ _)),
    h _ _ _ _ List.prefix_rfl⟩, fun ⟨h, hlast⟩ pre now' opened' reopened' hp => ?_⟩
  rcases List.prefix_concat_iff.mp hp with heq | hp
  · rwa [heq]
  · exact h pre now' opened' reopened' hp

/-- After every pass, exactly the closed lines appended so far have been queued. -/
def Delivers (inode : UInt64) (path : String) (s : Scan) : List Step → Prop :=
  AtPasses fun done => lineMessages path (s.run unitTest inode done).queue =
    (closedLines (appended done)).map String.ofList

/-- No pass happens while the last appended line is still open. -/
def ClosedAtPasses : List Step → Prop := AtPasses fun done => Terminated '\n' (appended done)

/-- The scanner keeps up with a file whose lines are closed at every pass. -/
theorem StartsAtEnd.run_caughtUp (h : StartsAtEnd inode path s) {steps : List Step}
    (hclosed : ClosedAtPasses steps) :
    ∃ visible fresh, appended steps = visible ++ fresh ∧
      CaughtUp inode path s.content visible fresh (s.run unitTest inode steps) := by
  induction steps using List.reverseRecOn with
  | nil => exact ⟨[], [], rfl, h.caughtUp⟩
  | append_singleton steps step ih =>
    rw [Scan.run_concat]
    cases step with
    | append chunk =>
      obtain ⟨visible, fresh, happ, hcaught⟩ := ih ((atPasses_append _ _ _).mp hclosed)
      exact ⟨visible, fresh ++ chunk, by simp [happ],
        hcaught.append unitTest chunk⟩
    | pass now opened reopened =>
      obtain ⟨hsteps, hterm⟩ := (atPasses_pass _ _ _ _ _).mp hclosed
      obtain ⟨visible, fresh, happ, hcaught⟩ := ih hsteps
      rw [appended_pass, happ, terminated_append_iff hcaught.closed] at hterm
      exact ⟨visible ++ fresh, [], by simp [happ],
        (hcaught.pass_delivered unitTest now opened reopened).2 hterm⟩

/-- One pass over a scanner that has kept up queues the closed lines and no others if
and only if no line is open. -/
theorem StartsAtEnd.pass_delivered_iff (h : StartsAtEnd inode path s) {steps : List Step}
    (hclosed : ClosedAtPasses steps) (now opened reopened : ℤ) :
    let done := steps ++ [.pass now opened reopened]
    lineMessages path (s.run unitTest inode done).queue =
        (closedLines (appended done)).map String.ofList ↔ Terminated '\n' (appended done) := by
  obtain ⟨visible, fresh, happ, hcaught⟩ := h.run_caughtUp unitTest hclosed
  have hqueued := (hcaught.pass_delivered unitTest now opened reopened).1
  simp only [appended_pass, Scan.run_concat, happ, terminated_append_iff hcaught.closed,
    closedLines_append hcaught.closed, ← openItem_eq_nil_iff]
  rw [hqueued, linesRead]
  constructor
  · intro heq
    -- an open item would be one message too many
    by_contra hopen
    simpa [hopen] using congrArg List.length heq
  · intro hopen
    simp [hopen]

/-- Every line is queued exactly once if and only if no pass sees an open line. -/
theorem delivers_iff_closedAtPasses (h : StartsAtEnd inode path s) (steps : List Step) :
    Delivers unitTest inode path s steps ↔ ClosedAtPasses steps := by
  induction steps using List.reverseRecOn with
  | nil => exact iff_of_true (atPasses_nil _) (atPasses_nil _)
  | append_singleton steps step ih =>
    cases step with
    | append chunk => rw [Delivers, ClosedAtPasses, atPasses_append, atPasses_append]; exact ih
    | pass now opened reopened =>
      rw [Delivers, ClosedAtPasses, atPasses_pass, atPasses_pass]
      refine ⟨fun ⟨hsteps, hlast⟩ => ?_, fun ⟨hsteps, hlast⟩ => ?_⟩
      · have hclosed := ih.mp hsteps
        exact ⟨hclosed, (h.pass_delivered_iff unitTest hclosed now opened reopened).mp hlast⟩
      · exact ⟨ih.mpr hsteps, (h.pass_delivered_iff unitTest hsteps now opened reopened).mpr hlast⟩

/-- An entry that has read an open line: `tellg` has answered `-1` for its position. -/
structure Stuck (inode : UInt64) (s : Scan) : Prop where
  inUse : InUse inode s.entry
  position : s.entry.position = -1
  size : s.entry.size ≤ s.content.length

theorem Stuck.pass (h : Stuck inode s) (now opened reopened : ℤ) :
    let s' := s.step unitTest inode (.pass now opened reopened)
    Stuck inode s' ∧ s'.entry.path = s.entry.path ∧
      lineMessages s.entry.path s'.queue = lineMessages s.entry.path s.queue := by
  obtain ⟨b, hentry, hqueue⟩ :=
    visitFile_inUse unitTest h.inUse s.content now opened reopened
  have hcheck : checkSize unitTest (growingVisit inode s.content now opened reopened)
      s.content.length { s.entry with timeoutTriggered := b } =
        ({ s.entry with timeoutTriggered := b, size := s.content.length }, []) := by
    rw [checkSize]
    by_cases heq : (s.content.length : ℤ) = s.entry.size
    · rw [if_pos heq, heq]
    · have hle := h.size
      rw [if_neg heq, if_neg (by simp; omega), readStream]
      -- seeking to the position -1 fails, so nothing is read
      simp [growingVisit, h.position, InputStream.seekg]
  rw [hcheck] at hentry hqueue
  have hentry' : (s.step unitTest inode (.pass now opened reopened)).entry =
      { s.entry with timeoutTriggered := b, size := s.content.length } := hentry
  refine ⟨⟨?_, by rw [hentry']; exact h.position, by rw [hentry']; exact Int.le_refl _⟩,
    by rw [hentry']; rfl, ?_⟩
  · rw [hentry']
    exact ⟨h.inUse.fd, h.inUse.down, h.inUse.inode⟩
  · exact (lineMessages_append _ _ _).trans (by rw [hqueue]; simp [lineMessages])

/-- Once an open line has been read, no later line of the file is ever queued. -/
theorem Stuck.run (h : Stuck inode s) (steps : List Step) :
    let s' := s.run unitTest inode steps
    Stuck inode s' ∧ s'.entry.path = s.entry.path ∧
      lineMessages s.entry.path s'.queue = lineMessages s.entry.path s.queue := by
  induction steps using List.reverseRecOn with
  | nil => exact ⟨h, rfl, rfl⟩
  | append_singleton steps step ih =>
    obtain ⟨hstuck, hpath, hqueue⟩ := ih
    rw [Scan.run_concat]
    cases step with
    | append chunk =>
      have hsize := hstuck.size
      exact ⟨⟨hstuck.inUse, hstuck.position, by simp [Scan.step]; omega⟩, hpath, hqueue⟩
    | pass now opened reopened =>
      obtain ⟨hstuck', hpath', hsame⟩ := hstuck.pass unitTest now opened reopened
      rw [hpath] at hsame hpath'
      exact ⟨hstuck', hpath', hsame.trans hqueue⟩

/-- An empty file that has just been opened. -/
def freshScan : Scan where
  content := []
  entry := { config := { path := "app.log" }, fd := 3, inode := 7, size := 0, position := 0 }

theorem freshScan_startsAtEnd : StartsAtEnd 7 "app.log" freshScan :=
  ⟨⟨by decide, rfl, rfl⟩, rfl, rfl, rfl, rfl⟩

theorem delivers_closedWrite :
    Delivers false 7 "app.log" freshScan ([.append ['a', '\n']] ++ [.pass 10 3 3]) :=
  (delivers_iff_closedAtPasses false freshScan_startsAtEnd _).mpr
    ((atPasses_pass _ _ _ _ _).mpr
      ⟨(atPasses_append _ [] _).mpr (atPasses_nil _), by decide⟩)

/-- A pass between the two halves of a line queues the first half as a line. -/
theorem not_delivers_splitWrite :
    ¬ Delivers false 7 "app.log" freshScan
      ([.append ['a']] ++ [.pass 10 3 3] ++ [.append ['b', '\n']] ++ [.pass 11 3 3]) := by
  intro h
  have hfirst := ((atPasses_pass _ _ _ _ _).mp
    ((atPasses_append _ _ _).mp ((atPasses_pass _ _ _ _ _).mp h).1)).2
  have hclosed : ClosedAtPasses [.append ['a']] := (atPasses_append _ [] _).mpr (atPasses_nil _)
  exact absurd
    ((freshScan_startsAtEnd.pass_delivered_iff false hclosed 10 3 3).mp hfirst) (by decide)

end Runs

end Ctguard.LogfileTask
