import Ctguard.DiskscanDaemon

/-!
# The scan of a directory

`scan` walks through the entries of a directory and goes down into those that are reported as
directories. Every level catches its own exceptions, so the walk is one through all that is listed.
The type of an entry is that of `readdir`, and it need not be known: a directory of unknown type is
not entered.
-/

namespace Ctguard.ScanTree

open AlertTask DiskscanDaemon

/-- What the iteration over a directory yields: its entries, up to the end or an exception, which
comes first if the directory cannot be opened. -/
inductive Listing where
  | finished
  | failed (what : String)
  | other (name : String) (rest : Listing)
  | subdir (name : String) (known : Bool) (below rest : Listing)

/-- What a scan does: it puts events into the queue and logs errors. -/
inductive ScanEffect where
  | put (e : String × Flags)
  | error (message : String)
  deriving DecidableEq, Repr

def IsDot (name : String) : Prop := name = "." ∨ name = ".."

instance (name : String) : Decidable (IsDot name) := inferInstanceAs (Decidable (_ ∨ _))

def scanFlags (checkDiff : Bool) : Flags :=
  { chkContent := true, forceUpdate := true, chkDiff := checkDiff }

section Scan

variable (recursive checkDiff : Bool)

/-- The loop over the entries that are left. A directory has the type `DT_DIR` if it is known. -/
def scan : Listing → String → List ScanEffect
  | .finished, _ => []
  | .failed what, path => [.error ("Error scanning directory " ++ path ++ ": " ++ what)]
  | .other name rest, path =>
    if IsDot name then scan rest path
    else .put (path ++ "/" ++ name, scanFlags checkDiff) :: scan rest path
  | .subdir name known below rest, path =>
    if IsDot name then scan rest path
    else
      .put (path ++ "/" ++ name, scanFlags checkDiff) ::
        (if recursive ∧ known then scan below (path ++ "/" ++ name) else []) ++ scan rest path

/-- The entries that a scan puts, each by the names that lead to it. -/
def visits : Listing → List (List String)
  | .finished => []
  | .failed _ => []
  | .other name rest => if IsDot name then visits rest else [name] :: visits rest
  | .subdir name known below rest =>
    if IsDot name then visits rest
    else
      [name] :: (if recursive ∧ known then (visits below).map (name :: ·) else []) ++ visits rest

/-- The entries that are listed before a failure, in a directory that is reached through directories
which list it themselves. Only a recursive scan goes down. -/
inductive Reached : Listing → List String → Prop
  | other {name : String} {rest : Listing} (hdot : ¬ IsDot name) :
      Reached (.other name rest) [name]
  | subdir {name : String} {known : Bool} {below rest : Listing} (hdot : ¬ IsDot name) :
      Reached (.subdir name known below rest) [name]
  | inside {name : String} {known : Bool} {below rest : Listing} {a : List String}
      (hdot : ¬ IsDot name) (hrec : recursive = true) (h : Reached below a) :
      Reached (.subdir name known below rest) (name :: a)
  | behindOther {name : String} {rest : Listing} {a : List String} (h : Reached rest a) :
      Reached (.other name rest) a
  | behindSubdir {name : String} {known : Bool} {below rest : Listing} {a : List String}
      (h : Reached rest a) : Reached (.subdir name known below rest) a

end Scan

namespace Listing

def names : Listing → List String
  | .finished => []
  | .failed _ => []
  | .other name rest => name :: rest.names
  | .subdir name _ _ rest => name :: rest.names

/-- No directory has two entries with the same name. -/
def Distinct : Listing → Prop
  | .finished => True
  | .failed _ => True
  | .other name rest => name ∉ rest.names ∧ rest.Distinct
  | .subdir name _ below rest => name ∉ rest.names ∧ below.Distinct ∧ rest.Distinct

/-- Nothing is listed but the directory itself and its parent. -/
def Bare (l : Listing) : Prop := ∀ name ∈ l.names, IsDot name

/-- A directory whose type is not known has nothing to show. -/
def Typed : Listing → Prop
  | .finished => True
  | .failed _ => True
  | .other _ rest => rest.Typed
  | .subdir name known below rest =>
    (IsDot name ∨ (known = true ∨ below.Bare) ∧ below.Typed) ∧ rest.Typed

end Listing

/-- The path of an entry. -/
def fullPath (path : String) (a : List String) : String :=
  a.foldl (fun p name => p ++ "/" ++ name) path

def putEvents (es : List ScanEffect) : List (String × Flags) :=
  es.filterMap fun
    | .put e => some e
    | .error _ => none

@[simp] theorem putEvents_put (e : String × Flags) (es : List ScanEffect) :
    putEvents (.put e :: es) = e :: putEvents es := rfl

theorem putEvents_append (es es' : List ScanEffect) :
    putEvents (es ++ es') = putEvents es ++ putEvents es' := List.filterMap_append

section Visits

variable {recursive checkDiff : Bool} {l : Listing} {name : String} {a : List String}

/-- The events are those of the visited entries. -/
theorem putEvents_scan (l : Listing) (path : String) : putEvents (scan recursive checkDiff l path) =
    (visits recursive l).map fun a => (fullPath path a, scanFlags checkDiff) := by
  induction l generalizing path with
  | finished => rfl
  | failed what => rfl
  | other name rest ih =>
    rw [scan, visits]
    split
    · exact ih path
    · rw [putEvents_put, ih, List.map_cons]
      rfl
  | subdir name known below rest ihbelow ih =>
    rw [scan, visits]
    split
    · exact ih path
    · rw [List.cons_append, putEvents_put, putEvents_append, ih, List.cons_append, List.map_cons,
        List.map_append]
      split
      · rw [ihbelow, List.map_map]
        rfl
      · rfl

theorem Reached.ne_nil (h : Reached recursive l a) : a ≠ [] := by
  induction h with
  | other => exact List.cons_ne_nil _ _
  | subdir => exact List.cons_ne_nil _ _
  | inside => exact List.cons_ne_nil _ _
  | behindOther _ ih => exact ih
  | behindSubdir _ ih => exact ih

/-- The first name that leads to an entry is that of a listed one. -/
theorem Reached.head_mem (h : Reached recursive l a) :
    ∃ name ∈ l.names, ¬ IsDot name ∧ a.head? = some name := by
  induction h with
  | other hdot => exact ⟨_, List.mem_cons_self, hdot, rfl⟩
  | subdir hdot => exact ⟨_, List.mem_cons_self, hdot, rfl⟩
  | inside hdot => exact ⟨_, List.mem_cons_self, hdot, rfl⟩
  | behindOther _ ih =>
    obtain ⟨name, hmem, hname⟩ := ih
    exact ⟨name, List.mem_cons_of_mem _ hmem, hname⟩
  | behindSubdir _ ih =>
    obtain ⟨name, hmem, hname⟩ := ih
    exact ⟨name, List.mem_cons_of_mem _ hmem, hname⟩

theorem reached_of_mem_names (hmem : name ∈ l.names) (hdot : ¬ IsDot name) :
    Reached recursive l [name] := by
  induction l with
  | finished => cases hmem
  | failed what => cases hmem
  | other _ rest ih =>
    rcases List.mem_cons.mp hmem with rfl | hmem
    · exact .other hdot
    · exact .behindOther (ih hmem)
  | subdir _ known below rest _ ih =>
    rcases List.mem_cons.mp hmem with rfl | hmem
    · exact .subdir hdot
    · exact .behindSubdir (ih hmem)

/-- An entry behind another one has another first name. -/
theorem Reached.head_ne (h : Reached recursive l a) (hname : name ∉ l.names) :
    a.head? ≠ some name := by
  obtain ⟨name', hmem, -, hhead⟩ := h.head_mem
  rw [hhead, Ne, Option.some.injEq]
  rintro rfl
  exact hname hmem

theorem mem_visits_subdir {known : Bool} {below rest : Listing} (hdot : ¬ IsDot name) :
    a ∈ visits recursive (.subdir name known below rest) ↔
      a = [name] ∨ ((recursive = true ∧ known = true) ∧ ∃ b ∈ visits recursive below, name :: b = a) ∨
        a ∈ visits recursive rest := by
  rw [visits, if_neg hdot, List.cons_append, List.mem_cons, List.mem_append]
  split
  case isTrue hrec => simp only [hrec, true_and, List.mem_map]
  case isFalse hrec => simp only [hrec, false_and, List.not_mem_nil]

/-- Only what is reached is visited. -/
theorem reached_of_mem_visits (h : a ∈ visits recursive l) : Reached recursive l a := by
  induction l generalizing a with
  | finished => cases h
  | failed what => cases h
  | other name rest ih =>
    rw [visits] at h
    split at h
    · exact .behindOther (ih h)
    case isFalse hdot =>
      rcases List.mem_cons.mp h with rfl | h
      · exact .other hdot
      · exact .behindOther (ih h)
  | subdir name known below rest ihbelow ih =>
    by_cases hdot : IsDot name
    · rw [visits, if_pos hdot] at h
      exact .behindSubdir (ih h)
    · rcases (mem_visits_subdir hdot).mp h with rfl | ⟨hrec, b, hb, rfl⟩ | h
      · exact .subdir hdot
      · exact .inside hdot hrec.1 (ihbelow hb)
      · exact .behindSubdir (ih h)

/-- If the types are known, all that is reached is visited. -/
theorem mem_visits_of_reached (htyped : recursive = true → l.Typed) (h : Reached recursive l a) :
    a ∈ visits recursive l := by
  induction h with
  | other hdot =>
    rw [visits, if_neg hdot]
    exact List.mem_cons_self
  | subdir hdot => exact (mem_visits_subdir hdot).mpr (.inl rfl)
  | inside hdot hrec hbelow ih =>
    obtain ⟨hknown, htyped⟩ := (htyped hrec).1.resolve_left hdot
    rcases hknown with hknown | hbare
    · have hmem := ih fun _ => htyped
      exact (mem_visits_subdir hdot).mpr (.inr (.inl ⟨⟨hrec, hknown⟩, _, hmem, rfl⟩))
    · obtain ⟨name, hmem, hdot', -⟩ := hbelow.head_mem
      exact absurd (hbare name hmem) hdot'
  | behindOther _ ih =>
    have hmem := ih htyped
    rw [visits]
    split
    · exact hmem
    · exact List.mem_cons_of_mem _ hmem
  | @behindSubdir name _ _ _ _ _ ih =>
    have hmem := ih fun hrec => (htyped hrec).2
    by_cases hdot : IsDot name
    · rwa [visits, if_pos hdot]
    · exact (mem_visits_subdir hdot).mpr (.inr (.inr hmem))

/-- If a recursive scan visits all that is reached, the types are known. -/
theorem typed_of_visits (hdistinct : l.Distinct)
    (h : ∀ a, Reached true l a → a ∈ visits true l) : l.Typed := by
  induction l with
  | finished => trivial
  | failed what => trivial
  | other name rest ih =>
    refine ih hdistinct.2 fun a ha => ?_
    have hmem := h a (.behindOther ha)
    rw [visits] at hmem
    split at hmem
    · exact hmem
    · refine (List.mem_cons.mp hmem).resolve_left ?_
      rintro rfl
      exact ha.head_ne hdistinct.1 rfl
  | subdir name known below rest ihbelow ih =>
    obtain ⟨hname, hbelow, hrest⟩ := hdistinct
    by_cases hdot : IsDot name
    · refine ⟨.inl hdot, ih hrest fun a ha => ?_⟩
      have hmem := h a (.behindSubdir ha)
      rwa [visits, if_pos hdot] at hmem
    -- what is reached below the directory is visited there
    have hinside : ∀ a, Reached true below a → known = true ∧ a ∈ visits true below := by
      intro a ha
      rcases (mem_visits_subdir hdot).mp (h _ (.inside hdot rfl ha)) with heq | ⟨hrec, b, hb, heq⟩ |
        hmem
      · rw [List.cons.injEq] at heq
        exact absurd heq.2 ha.ne_nil
      · rw [List.cons.injEq] at heq
        exact ⟨hrec.2, heq.2 ▸ hb⟩
      · exact absurd rfl ((reached_of_mem_visits hmem).head_ne hname)
    refine ⟨.inr ⟨?_, ihbelow hbelow fun a ha => (hinside a ha).2⟩, ih hrest fun a ha => ?_⟩
    · by_cases hbare : below.Bare
      · exact .inr hbare
      · rw [Listing.Bare] at hbare
        push Not at hbare
        obtain ⟨name', hmem, hdot'⟩ := hbare
        exact .inl (hinside _ (reached_of_mem_names hmem hdot')).1
    · rcases (mem_visits_subdir hdot).mp (h a (.behindSubdir ha)) with rfl | ⟨-, b, -, rfl⟩ | hmem
      · exact absurd rfl (ha.head_ne hname)
      · exact absurd rfl (ha.head_ne hname)
      · exact hmem

theorem nodup_visits (h : l.Distinct) : (visits recursive l).Nodup := by
  induction l with
  | finished => exact List.nodup_nil
  | failed what => exact List.nodup_nil
  | other name rest ih =>
    rw [visits]
    split
    · exact ih h.2
    · refine List.nodup_cons.mpr ⟨fun hmem => ?_, ih h.2⟩
      exact (reached_of_mem_visits hmem).head_ne h.1 rfl
  | subdir name known below rest ihbelow ih =>
    obtain ⟨hname, hbelow, hrest⟩ := h
    rw [visits]
    split
    · exact ih hrest
    have hinside : (if recursive = true ∧ known = true then (visits recursive below).map (name :: ·)
        else []).Nodup := by
      split
      · exact (ihbelow hbelow).map fun _ _ heq => (List.cons.inj heq).2
      · exact List.nodup_nil
    have hhead : ∀ a ∈ [name] :: (if recursive = true ∧ known = true then
        (visits recursive below).map (name :: ·) else []), a.head? = some name := by
      intro a ha
      rcases List.mem_cons.mp ha with rfl | ha
      · rfl
      · split at ha
        · obtain ⟨b, -, rfl⟩ := List.mem_map.mp ha
          rfl
        · cases ha
    refine List.nodup_append'.mpr ⟨List.nodup_cons.mpr ⟨fun hmem => ?_, hinside⟩, ih hrest, ?_⟩
    · split at hmem
      · obtain ⟨b, hb, heq⟩ := List.mem_map.mp hmem
        exact (reached_of_mem_visits hb).ne_nil (List.cons.inj heq).2
      · cases hmem
    · intro a ha hmem
      exact (reached_of_mem_visits hmem).head_ne hname (hhead a ha)

end Visits

section Parents

variable {recursive : Bool} {xs ys : List (List String)} {name : String}

/-- Every entry comes behind the one that it is an entry of. -/
def ParentsFirst (order : List (List String)) : Prop :=
  ∀ pre a name post, order = pre ++ (a ++ [name]) :: post → a = [] ∨ a ∈ pre

theorem ParentsFirst.append (hx : ParentsFirst xs) (hy : ParentsFirst ys) :
    ParentsFirst (xs ++ ys) := by
  intro pre a name post heq
  rcases List.append_eq_append_iff.mp heq with ⟨mid, rfl, hmid⟩ | ⟨mid, rfl, hmid⟩
  · rcases hy mid a name post hmid with hnil | hmem
    · exact .inl hnil
    · exact .inr (List.mem_append_right _ hmem)
  · cases mid with
    | nil =>
      rcases hy [] a name post hmid.symm with hnil | hmem
      · exact .inl hnil
      · cases hmem
    | cons b mid =>
      rw [List.cons_append, List.cons.injEq] at hmid
      exact hx pre a name mid (by rw [hmid.1])

/-- The entries of a directory come behind the directory. -/
theorem ParentsFirst.inside (h : ParentsFirst xs) (hne : [] ∉ xs) (name : String) :
    ParentsFirst ([name] :: xs.map (name :: ·)) := by
  intro pre a last post heq
  cases pre with
  | nil =>
    rw [List.nil_append, List.cons.injEq] at heq
    have hlength := congrArg List.length heq.1
    rw [List.length_append, List.length_singleton, List.length_singleton] at hlength
    exact .inl (List.eq_nil_of_length_eq_zero (by omega))
  | cons b pre =>
    rw [List.cons_append, List.cons.injEq] at heq
    obtain ⟨rfl, heq⟩ := heq
    obtain ⟨pre', xs', rfl, rfl, htail⟩ := List.map_eq_append_iff.mp heq
    obtain ⟨c, post', rfl, hc, rfl⟩ := List.map_eq_cons_iff.mp htail
    cases a with
    | nil => exact .inl rfl
    | cons first a =>
      rw [List.cons_append, List.cons.injEq] at hc
      obtain ⟨rfl, rfl⟩ := hc
      rcases h pre' a last post' rfl with rfl | hmem
      · exact .inr List.mem_cons_self
      · exact .inr (List.mem_cons_of_mem _ (List.mem_map_of_mem hmem))

theorem parentsFirst_nil : ParentsFirst [] := by
  intro pre a name post heq
  simp at heq

theorem parentsFirst_singleton (name : String) : ParentsFirst [[name]] :=
  parentsFirst_nil.inside List.not_mem_nil name

theorem parentsFirst_visits (l : Listing) : ParentsFirst (visits recursive l) := by
  induction l with
  | finished => exact parentsFirst_nil
  | failed what => exact parentsFirst_nil
  | other name rest ih =>
    rw [visits]
    split
    · exact ih
    · exact (parentsFirst_singleton name).append ih
  | subdir name known below rest ihbelow ih =>
    rw [visits]
    split
    · exact ih
    · refine ParentsFirst.append ?_ ih
      split
      · exact ihbelow.inside (fun hmem => (reached_of_mem_visits hmem).ne_nil rfl) name
      · exact parentsFirst_singleton name

end Parents

section Coverage

variable {recursive checkDiff : Bool} {l : Listing} {path : String}

/-- A scan puts an event for every entry that is reached, once and behind its parent. -/
def VisitsAll (recursive checkDiff : Bool) (path : String) (l : Listing) : Prop :=
  ∃ order : List (List String), order.Nodup ∧ (∀ a, a ∈ order ↔ Reached recursive l a) ∧
    ParentsFirst order ∧ putEvents (scan recursive checkDiff l path) =
      order.map fun a => (fullPath path a, scanFlags checkDiff)

theorem fullPath_append (path name : String) (a : List String) :
    fullPath (path ++ "/" ++ name) a = path ++ "/" ++ fullPath name a := by
  induction a generalizing name with
  | nil => rfl
  | cons next a ih =>
    have hassoc : path ++ "/" ++ name ++ "/" ++ next = path ++ "/" ++ (name ++ "/" ++ next) := by
      simp only [String.append_assoc]
    rw [fullPath, List.foldl_cons, hassoc, ← fullPath, ih]
    rfl

/-- The path of an entry as it is seen from the directory that is scanned. -/
def relativePath (a : List String) : String := fullPath (a.headD "") a.tail

/-- What `scan_task` finds for an entry of its queue are the visited entries. -/
theorem putEvents_scan_eq_scanEvents (e : String × Flags) (hpath : e.1 ≠ "") (l : Listing) :
    putEvents (scan e.2.recursive e.2.chkDiff l e.1) =
      scanEvents e ((visits e.2.recursive l).map relativePath) := by
  rw [putEvents_scan, scanEvents, if_neg hpath, List.map_map]
  refine List.map_congr_left fun a ha => ?_
  obtain ⟨name, a, rfl⟩ := List.exists_cons_of_ne_nil (reached_of_mem_visits ha).ne_nil
  refine Prod.ext ?_ rfl
  exact fullPath_append e.1 name a

/-- That is so exactly if a recursive scan knows which entries are directories, apart from those
which have nothing to show. -/
theorem visitsAll_iff (h : l.Distinct) :
    VisitsAll recursive checkDiff path l ↔ (recursive = true → l.Typed) := by
  constructor
  · rintro ⟨order, hnodup, hmem, -, hputs⟩ rfl
    rw [putEvents_scan] at hputs
    have hlength := congrArg List.length hputs
    rw [List.length_map, List.length_map] at hlength
    -- the visited entries are as many as the reached ones
    have hsubperm : (visits true l).Subperm order :=
      List.subperm_of_subset (nodup_visits h) fun a ha => (hmem a).mpr (reached_of_mem_visits ha)
    have hperm := hsubperm.perm_of_length_le hlength.ge
    exact typed_of_visits h fun a ha => hperm.mem_iff.mpr ((hmem a).mpr ha)
  · intro htyped
    refine ⟨visits recursive l, nodup_visits h, fun a => ⟨reached_of_mem_visits, ?_⟩,
      parentsFirst_visits l, putEvents_scan l path⟩
    exact mem_visits_of_reached htyped

/-- A directory that cannot be read to its end, and a file behind it. -/
theorem visitsAll_iff_brokenDirectory :
    let l : Listing := .subdir "log" true (.other "syslog" (.failed "Can not readdir()"))
      (.other "passwd" .finished)
    l.Distinct ∧ (VisitsAll true false "/srv" l ↔ (true = true → l.Typed)) :=
  have hdistinct : Listing.Distinct (.subdir "log" true
      (.other "syslog" (.failed "Can not readdir()")) (.other "passwd" .finished)) := by
    simp [Listing.Distinct, Listing.names]
  ⟨hdistinct, visitsAll_iff hdistinct⟩

/-- What is in a directory of unknown type is not visited. -/
theorem unknown_not_visitsAll :
    let l : Listing := .subdir "log" false (.other "syslog" .finished) .finished
    putEvents (scan true false l "/srv") = [("/srv/log", scanFlags false)] ∧
      Reached true l ["log", "syslog"] ∧ ¬ VisitsAll true false "/srv" l := by
  have hdot : ¬ IsDot "log" := by decide
  have hinside : Reached true (.subdir "log" false (.other "syslog" .finished) .finished)
      ["log", "syslog"] := .inside hdot rfl (.other (by decide))
  have hputs : putEvents (scan true false (.subdir "log" false (.other "syslog" .finished)
      .finished) "/srv") = [("/srv/log", scanFlags false)] := by decide
  refine ⟨hputs, hinside, ?_⟩
  rintro ⟨order, -, hmem, -, hevents⟩
  rw [hputs] at hevents
  have hlength := congrArg List.length hevents
  rw [List.length_map] at hlength
  obtain ⟨x, hx⟩ := List.length_eq_one_iff.mp hlength.symm
  have hlog := (hmem ["log"]).mpr (.subdir hdot)
  have hsyslog := (hmem _).mpr hinside
  rw [hx, List.mem_singleton] at hlog hsyslog
  rw [← hlog] at hsyslog
  cases hsyslog

end Coverage

end Ctguard.ScanTree
