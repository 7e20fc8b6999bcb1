import Ctguard.DiskscanDaemon
import Ctguard.ObjectChanges
import Ctguard.UnifiedFormat

/-!
# The stored contents of a file

When the content of a file is stored, the record gets the difference to the one stored before. So
the records of a run tell how the content became what it is: forth from the first one, and back
from the last one, which is all that the database keeps. An empty content breaks the chain, since
there is no difference to it, and so does one that is too different for a single search.
-/

namespace Ctguard.DiskscanDaemon

open AlertTask Dtl

section History

variable (host : FileHost) (cfg : DiskscanConfig) (singlerun unitTest : Bool)
  (printTime : ℤ → String) (path : String)

end History

section Construct

variable {host : FileHost} {maxDiffSize : UInt32} {answers : Answers} {diffs diffs' : DiffTable}
  {path : String} {fd fd' : FileData} {checkContent checkDiff : Bool}

/-- What an examination does to the stored contents. -/
structure Stores (host : FileHost) (diffs : DiffTable) (path : String) (fd : FileData)
    (diffs' : DiffTable) : Prop where
  path_eq : fd.path = path
  others : ∀ p, p ≠ path → diffs'[p]? = diffs[p]?
  content : ∀ old, diffs[path]? = some old → (diffs'[path]? = some old ∧ fd.diff = "") ∨
    ∃ new, diffs'[path]? = some new ∧
      fd.diff = if old = [] then "" else host.unifiedDiff old new

theorem Stores.unchanged (hpath : fd.path = path) (hdiff : fd.diff = "") :
    Stores host diffs path fd diffs where
  path_eq := hpath
  others _ _ := rfl
  content _ hold := .inl ⟨hold, hdiff⟩

end Construct

section Runs

variable {host : FileHost} {cfg : DiskscanConfig} {singlerun unitTest : Bool}
  {printTime : ℤ → String} {path : String} {s s' : State} {x : Step} {old new : Bytes}

end Runs

end Ctguard.DiskscanDaemon
