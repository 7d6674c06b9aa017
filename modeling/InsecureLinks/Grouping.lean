/-!
# Grouping

The elements of a list gathered under keys: the keys in the order in which they first appear, and
under each key its elements in the order of the list.
-/

namespace InsecureLinks

/-- Groups of elements under keys. -/
abbrev Groups (κ α : Type) := List (κ × List α)

namespace Groups

variable {κ α : Type} [DecidableEq κ]

/-- The groups with `x` added at the end of the group of `key`, a new group coming last. -/
def add (key : κ) (x : α) : Groups κ α → Groups κ α
  | [] => [(key, [x])]
  | (k, xs) :: rest => if k = key then (k, xs ++ [x]) :: rest else (k, xs) :: add key x rest

/-- The elements of a list under the keys that `key` gives them. -/
def of (key : α → κ) (xs : List α) : Groups κ α :=
  xs.foldl (fun groups x => add (key x) x groups) []

/-- The group of `key`; empty if there is none. -/
def get (key : κ) : Groups κ α → List α
  | [] => []
  | (k, xs) :: rest => if k = key then xs else get key rest

end Groups

end InsecureLinks
