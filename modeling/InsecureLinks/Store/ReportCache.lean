import InsecureLinks.Store.Connection

/-!
# Reports kept for reuse

A report is kept as a document under a key, at most one to each key.
-/

namespace InsecureLinks.Store.ReportCache

/-- The report under a key. -/
def find? (key : Text) (rows : List CacheRow) : Option Value :=
  (rows.find? fun row => row.key = key).map CacheRow.report

/-- The rows with a report under a key, in place of the one that was there. -/
def insert (key : Text) (report : Value) (rows : List CacheRow) : List CacheRow :=
  rows.filter (fun row => row.key ≠ key) ++ [⟨key, report⟩]

/-- The report under a key, if there is one. -/
def get (key : Text) : Operation (Option Value) :=
  Operation.ask fun t => do
    let rows ← present Tables.cacheName t.cache
    return find? key rows

/-- Keeps a report under a key. -/
def put (key : Text) (report : Value) : Operation Unit :=
  Operation.change fun t => do
    let rows ← present Tables.cacheName t.cache
    return { t with cache := some (insert key report rows) }

/-- Forgets all reports. -/
def clear : Operation Unit :=
  Operation.change fun t => do
    let _ ← present Tables.cacheName t.cache
    return { t with cache := some [] }

end InsecureLinks.Store.ReportCache
