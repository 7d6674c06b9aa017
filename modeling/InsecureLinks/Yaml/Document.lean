import InsecureLinks.Text.LineBreak
import InsecureLinks.Yaml.Node
import InsecureLinks.Yaml.Scalar

/-!
# Documents

The value that a document denotes.  In a map a later entry replaces an earlier one with the same
key, and the entries of a map that is merged in come before the map's own.

Of several faults the one nearest the root counts, and of these the first.
-/

namespace InsecureLinks.Yaml

namespace Node

/-! ## Merging -/

/-- The entries that the value of a merge key stands for, if it is a map or a list of maps.  Of
several maps the first counts most, so it comes last. -/
def mergedEntries? : Node → Option (List (Node × Node))
  | map _ entries => some entries
  | list _ items => do
    let parts ← items.mapM fun
      | map _ entries => some entries
      | _ => none
    return parts.reverse.flatten
  | scalar _ _ => none

/-- A key as it stands in a map, where `=` is a text like any other. -/
def asKey : Node → Node
  | scalar .default t => scalar .text t
  | n => n

/-- Whether a key asks for a merge. -/
def isMerge : Node → Bool
  | scalar .merge _ => true
  | list .merge _ => true
  | map .merge _ => true
  | _ => false

/-- The entries of a map after all merges.  A merge that is impossible stays where it is seen
first. -/
def mergeEntries (entries : List (Node × Node)) : List (Node × Node) :=
  let merges := entries.filter fun (k, _) => isMerge k
  let own := (entries.filter fun (k, _) => !isMerge k).map fun (k, n) => (asKey k, n)
  match merges.find? fun (_, n) => (mergedEntries? n).isNone with
  | some bad => bad :: own
  | none => merges.flatMap (fun (_, n) => (mergedEntries? n).getD []) ++ own

mutual

/-- The node with all merges carried out.  Only where a map is wanted can it be asked for a
merge. -/
def merged : Node → Node
  | scalar tag t => scalar tag t
  | list tag items => list tag (if tag = .pairs then mergedParts items else mergedItems items)
  | map tag entries =>
    let entries := mergedPairs entries
    map tag (if tag = .map || tag = .set then mergeEntries entries else entries)

/-- Nodes with all merges carried out. -/
def mergedItems : List Node → List Node
  | [] => []
  | n :: rest => merged n :: mergedItems rest

/-- The parts of a list of pairs with all merges carried out in them. -/
def mergedParts : List Node → List Node
  | [] => []
  | map tag entries :: rest => map tag (mergedPairs entries) :: mergedParts rest
  | n :: rest => n :: mergedParts rest

/-- Keys and values with all merges carried out. -/
def mergedPairs : List (Node × Node) → List (Node × Node)
  | [] => []
  | (k, n) :: rest => (merged k, merged n) :: mergedPairs rest

end

/-! ## Values -/

/-- A value, or a fault with how deep it is. -/
abbrev Outcome (α : Type) := Except (Nat × Fault) α

namespace Outcome

/-- A fault at a depth. -/
def bad {α : Type} (depth : Nat) : Outcome α := .error (depth, .malformed)

/-- Both values, or the fault that is nearer the root, or else the first. -/
def both {α β : Type} (x : Outcome α) (y : Outcome β) : Outcome (α × β) :=
  match x, y with
  | .ok a, .ok b => .ok (a, b)
  | .error e, .ok _ => .error e
  | .ok _, .error e => .error e
  | .error d, .error e => if e.1 < d.1 then .error e else .error d

/-- The value of a scalar at a depth. -/
def ofScalar {α : Type} (depth : Nat) : Except Fault α → Outcome α
  | .ok x => .ok x
  | .error f => .error (depth, f)

/-- The value of a key at a depth: no collection can be one. -/
def asKey (depth : Nat) : Outcome Value → Outcome Value
  | .ok (.list _) => bad depth
  | .ok (.set _) => bad depth
  | .ok (.map _) => bad depth
  | .ok x => .ok x
  | .error e => if depth < e.1 then bad depth else .error e

end Outcome

open Outcome

/-- The text that stands for a map: that of its key `=`. -/
def defaultText? : List (Node × Node) → Option Text
  | [] => none
  | (scalar .default _, scalar _ t) :: _ => some t
  | _ :: rest => defaultText? rest

/-- Whether scalars can be of a kind. -/
def isScalarTag (tag : Tag) : Bool :=
  tag = .null || tag = .bool || tag = .int || tag = .real || tag = .binary || tag = .moment ||
    tag = .text

/-- Whether collections can be of a kind. -/
def isCollectionTag (tag : Tag) : Bool :=
  tag = .list || tag = .map || tag = .set || tag = .pairs

/-- A map with the entries put in one after another. -/
def mapOf (entries : List (Value × Value)) : List (Value × Value) :=
  entries.foldl (fun map (k, x) => Value.setEntry k x map) []

mutual

/-- The value of a node at a depth.  A node whose tag is for other nodes is a fault: at the node if
the tag is for scalars, beneath it if it is for collections. -/
def value (depth : Nat) : Node → Outcome Value
  | scalar tag t =>
    if isCollectionTag tag then bad (depth + 1) else ofScalar depth (scalarValue tag t)
  | list tag items =>
    if tag = .list then .list <$> values (depth + 1) items
    else if tag = .pairs then .list <$> pairValues (depth + 1) items
    else if isCollectionTag tag then bad (depth + 1)
    else bad depth
  | map tag entries =>
    if tag = .map then (fun es => .map (mapOf es)) <$> entryValues (depth + 1) entries
    else if tag = .set then
      (fun es => .set ((mapOf es).map Prod.fst)) <$> entryValues (depth + 1) entries
    else if isCollectionTag tag then bad (depth + 1)
    else if isScalarTag tag then
      match defaultText? entries with
      | some t => ofScalar depth (scalarValue tag t)
      | none => bad depth
    else bad depth

/-- The values of nodes. -/
def values (depth : Nat) : List Node → Outcome (List Value)
  | [] => .ok []
  | n :: rest => (fun (x, xs) => x :: xs) <$> both (value depth n) (values depth rest)

/-- The values of keys and their values. -/
def entryValues (depth : Nat) : List (Node × Node) → Outcome (List (Value × Value))
  | [] => .ok []
  | (k, n) :: rest =>
    (fun ((key, x), es) => (key, x) :: es) <$>
      both (both (Outcome.asKey depth (value depth k)) (value depth n)) (entryValues depth rest)

/-- The pairs of nodes of which each is a map with one entry. -/
def pairValues (depth : Nat) : List Node → Outcome (List Value)
  | [] => .ok []
  | map _ [(k, n)] :: rest =>
    (fun ((a, b), xs) => .tuple [a, b] :: xs) <$>
      both (both (value depth k) (value depth n)) (pairValues depth rest)
  | _ :: _ => bad depth

end

end Node

/-- The value of the document in a stream; an empty stream is null. -/
def read (t : Text) : Except Fault Value :=
  if !t.all isAllowed then .error .malformed
  else do
    match ← Node.ofTokens (← tokens (Text.unifyBreaks t)) with
    | none => return .null
    | some n =>
      match n.merged.value 0 with
      | .ok x => return x
      | .error (_, f) => throw f

end InsecureLinks.Yaml
