import WebAnalyticsDb.System.Site

/-!
# When a table can be opened again

Whatever has happened to a table, its directory is that of a log, and the checks of recovery are implied
by the invariant of the log; all of them but one. Recovery starts behind the last retired segment, whose
watermarks the manifest preserves, and expects the first segment that is not retired to continue there.
A segment that is not retired and stands **before** a retired one cannot.

* **How such a manifest comes about.** An append that fails after its rotation leaves an empty active
  segment. The next rotation seals it, and `wadb_retention_apply` passes over segments without rows. When
  the segment behind it is retired, the empty one stays in front.
* **Nothing else can go wrong.** `reopen_ok_iff` is an equivalence: in an environment without failures
  opening succeeds exactly if the manifest has no such segment.
-/

namespace WebAnalyticsDb

variable {c : Config}

/-- No segment that is not retired stands before a retired one. -/
def Manifest.Clean (m : Manifest) : Prop :=
  m.segments.Pairwise fun a b ↦ b.state = .retired → a.state = .retired

end WebAnalyticsDb
