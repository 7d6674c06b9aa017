import InsecureLinks.Files.FileTree

/-!
# Real places

The path that means the same as a given one once all links on it are followed, whether or not
anything is there.  Links may lead in a circle.
-/

namespace InsecureLinks.FileTree

/-- The path to the folder above a path without links. -/
def above (p : Path) : Path :=
  match p.names.getLast? with
  | none => if p.isAbsolute then p else { p with names := [Path.dotDot] }
  | some name =>
    { p with names := if name = Path.dotDot then p.names ++ [name] else p.names.dropLast }

/-- The path without links that a link at its end leads on from. -/
def linkPath (p : Path) (target : Text) : Path :=
  if (Path.ofText target).isAbsolute then ⟨.top, []⟩ else p

/-- Goes from the path `p`, which has no links, through `names`, following the links, of which
those at `opened` are being followed already.  Names that lead nowhere are taken as they are.  In a
circle of links the path that leads into it is given back, with the names that remain.  A link is
known again by its path, so one that is met from the current folder and from the top counts as
two. -/
def realFrom (t : FileTree) (here : Place) (opened : List Path) :
    (fuel : Nat) → (p : Path) → (names : List Text) → Except Path Path
  | _, p, [] => .ok p
  | 0, p, names => .error { p with names := p.names ++ names }
  | fuel + 1, p, name :: rest =>
    if name = Path.dot then realFrom t here opened fuel p rest
    else if name = Path.dotDot then realFrom t here opened fuel (above p) rest
    else
      let next : Path := { p with names := p.names ++ [name] }
      match t.node? (routeOf here next) with
      | some (.link target) =>
        if opened.contains next then .error { next with names := next.names ++ rest }
        else
          match realFrom t here (next :: opened) fuel (linkPath p target) (lookupNames target) with
          | .ok q => realFrom t here opened fuel q rest
          | .error q => .error { q with names := q.names ++ rest }
      | _ => realFrom t here opened fuel next rest

/-- How many names are met at most on the way, counting each link twice inside every other. -/
def realFuel (t : FileTree) (names : List Text) : Nat :=
  t.nodes.foldl
    (fun n (_, node) =>
      match node with
      | .link target => n + 2 * ((lookupNames target).length + 1)
      | _ => n)
    (names.length + 1)

/-- The path from the top of the place that a path without links means. -/
def fromTop (here : Place) (p : Path) : Path :=
  ⟨.top, routeOf here { p with names := p.names.filter (· ≠ Path.dot) }⟩

/-- The path that means the same as `p` without links.  Where links lead in a circle, that is the
path into the circle with its `..` erased, if this leads out of the circle again; else it is given
back as a fault. -/
def real (t : FileTree) (here : Place) (p : Path) : Except Path Path :=
  let start : Path := if p.isAbsolute then ⟨.top, []⟩ else ⟨.here, []⟩
  match realFrom t here [] (realFuel t p.names) start p.names with
  | .ok q => .ok (fromTop here q)
  | .error q =>
    match t.reach here (fromTop here q).text with
    | .error .tooManyLinks => .error (fromTop here q)
    | _ => .ok (fromTop here q)

end InsecureLinks.FileTree
