import InsecureLinks.Text.Blank

/-!
# Glob patterns

A pattern is text; its meaning is a list of tokens, each of which takes one piece of a path.
Reading goes in two steps.  `cutPieces` cuts the text at its wildcards and bracket classes and
never fails.  `tokens` then reads the classes, which can fail: a class may hold a range whose ends
are the wrong way round.

## A class that does not end

The body of a class runs to the first `]` that leaves it non-empty.  A class whose body is only
the negation mark has a `]` as its first member instead, and goes on to the next place where
something ends a class: a `*` or a `?`, which stand for classes themselves, or the end of a later
class.  Until there, everything is a member, written as the wildcards are spelled.  Where the class
is ended by a `*`, the repetition of that `*` is left over and applies to the class.
-/

namespace InsecureLinks.Glob

/-! ## Sets of characters -/

/-- A set of characters: those in some of the ranges, or those in none of them. -/
structure CharSet where
  negated : Bool
  ranges : List (Char × Char)
deriving DecidableEq, Repr

/-- Whether `c` belongs to the set. -/
def CharSet.contains (s : CharSet) (c : Char) : Bool :=
  (s.ranges.any fun (lo, hi) => lo.toNat ≤ c.toNat && c.toNat ≤ hi.toNat) != s.negated

/-- The characters other than `c`. -/
def CharSet.allBut (c : Char) : CharSet := ⟨true, [(c, c)]⟩

/-- The character `c` alone. -/
def CharSet.only (c : Char) : CharSet := ⟨false, [(c, c)]⟩

/-! ## Tokens -/

/-- What one part of a pattern takes from a path. -/
inductive Token
  /-- One character of the set. -/
  | one (s : CharSet)
  /-- Any number of characters of the set. -/
  | many (s : CharSet)
  /-- Nothing, or a text that ends in a slash and has no newline. -/
  | folders
deriving DecidableEq, Repr

/-- Why a pattern has no meaning. -/
inductive Error
  /-- A range whose last character comes before its first. -/
  | reversedRange (lo hi : Char)
  /-- A class that nothing ends. -/
  | endlessClass
deriving DecidableEq, Repr

/-- The wording of an error. -/
def Error.message : Error → Text
  | .reversedRange lo hi => "bad character range ".toList ++ [lo, '-', hi]
  | .endlessClass => "bad escape \\Z".toList

/-! ## Cutting a pattern into pieces -/

/-- A part of a pattern as it is written. -/
inductive Piece
  /-- `**/` -/
  | folders
  /-- `**` before anything but a slash -/
  | anything
  /-- `*` -/
  | segment
  /-- `?` -/
  | character
  /-- `[body]` -/
  | set (body : Text)
  /-- Any other character. -/
  | literal (c : Char)
deriving DecidableEq, Repr

/-- The body of the class that opens before `t`, and what follows the class. -/
def cutClass? (t : Text) : Option (Text × Text) :=
  match Text.cutFirst? ']' t with
  | some (b :: body, rest) => some (b :: body, rest)
  | _ => none

theorem length_of_cutFirst? {sep : Char} {t a b : Text} (h : Text.cutFirst? sep t = some (a, b)) :
    b.length < t.length := by
  induction t generalizing a with
  | nil => simp [Text.cutFirst?] at h
  | cons c t ih =>
    unfold Text.cutFirst? at h
    split at h
    · simp at h; simp [h.2]
    · simp only [Option.map_eq_some_iff] at h
      obtain ⟨⟨x, y⟩, hxy, he⟩ := h
      obtain ⟨rfl, rfl⟩ := Prod.mk.inj he
      exact Nat.lt_succ_of_lt (ih hxy)

theorem length_of_cutClass? {t a b : Text} (h : cutClass? t = some (a, b)) :
    b.length < t.length := by
  unfold cutClass? at h
  split at h
  · simp only [Option.some.injEq, Prod.mk.injEq] at h
    next x y rest hc => rw [← h.2]; exact length_of_cutFirst? hc
  · simp at h

/-- The pieces of a pattern, from left to right. -/
def cutPieces (t : Text) : List Piece :=
  match t with
  | [] => []
  | '*' :: '*' :: '/' :: t => .folders :: cutPieces t
  | '*' :: '*' :: t => .anything :: cutPieces t
  | '*' :: t => .segment :: cutPieces t
  | '?' :: t => .character :: cutPieces t
  | '[' :: t =>
    match h : cutClass? t with
    | some (body, rest) =>
      have := length_of_cutClass? h
      .set body :: cutPieces rest
    | none => .literal '[' :: cutPieces t
  | c :: t => .literal c :: cutPieces t
termination_by t.length

/-! ## Reading classes -/

/-- The ranges of a class body: `a-z` is a range, everything else stands for itself. -/
def readRanges : Text → Except Error (List (Char × Char))
  | [] => .ok []
  | a :: '-' :: b :: t =>
    if b.toNat < a.toNat then .error (.reversedRange a b)
    else (readRanges t).map ((a, b) :: ·)
  | a :: t => (readRanges t).map ((a, a) :: ·)

/-- A class body as a set; a leading `!` or `^` negates it. -/
def readSet (body : Text) : Except Error CharSet :=
  match body with
  | '!' :: t => (readRanges t).map (⟨true, ·⟩)
  | '^' :: t => (readRanges t).map (⟨true, ·⟩)
  | t => (readRanges t).map (⟨false, ·⟩)

/-- Whether a class body is only the negation mark. -/
def isBareNegation (body : Text) : Bool := body = ['!'] || body = ['^']

/-- A class body with its negation mark spelled `^`. -/
def spellNegation : Text → Text
  | '!' :: t => '^' :: t
  | t => t

/-- Each character of `t` as a range of its own. -/
def singles (t : Text) : List (Char × Char) := t.map fun c => (c, c)

/-- The set that the spelling of every slash-free wildcard begins with. -/
def wildcardSpelling : Text := ['[', '^', '/']

/-! ## Tokens of a pattern -/

mutual

/-- The tokens of a list of pieces. -/
def tokens : List Piece → Except Error (List Token)
  | [] => .ok []
  | .folders :: ps => (tokens ps).map (.folders :: ·)
  | .anything :: ps => (tokens ps).map (.many (.allBut '\n') :: ·)
  | .segment :: ps => (tokens ps).map (.many (.allBut '/') :: ·)
  | .character :: ps => (tokens ps).map (.one (.allBut '/') :: ·)
  | .literal c :: ps => (tokens ps).map (.one (.only c) :: ·)
  | .set body :: ps =>
    if isBareNegation body then endlessTokens (singles [']']) ps
    else do
      let s ← readSet body
      let rest ← tokens ps
      return .one s :: rest

/-- The tokens of the pieces `ps` inside a negated class that did not end and has the members
`members` so far. -/
def endlessTokens (members : List (Char × Char)) : List Piece → Except Error (List Token)
  | [] => .error .endlessClass
  | .folders :: ps => endlessTokens (members ++ singles "(?:.*/)?".toList) ps
  | .anything :: ps => endlessTokens (members ++ singles ".*".toList) ps
  | .literal c :: ps => endlessTokens (members ++ singles [c]) ps
  | .segment :: ps =>
    (tokens ps).map (.many ⟨true, members ++ singles wildcardSpelling⟩ :: ·)
  | .character :: ps =>
    (tokens ps).map (.one ⟨true, members ++ singles wildcardSpelling⟩ :: ·)
  | .set body :: ps => do
    let more ← readRanges ('[' :: spellNegation body)
    let rest ← tokens ps
    return .one ⟨true, members ++ more⟩ :: rest

end

/-! ## Patterns -/

/-- `t` without the `./` that may open it, however often. -/
def dropHere : Text → Text
  | '.' :: '/' :: t => dropHere t
  | t => t

/-- A pattern as it is read: without blanks at its ends, with forward slashes, and without
leading `./`. -/
def normalize (pattern : Text) : Text := dropHere (Text.replaceChar '\\' '/' pattern.strip)

/-- The tokens of a pattern. -/
def parse (pattern : Text) : Except Error (List Token) := tokens (cutPieces (normalize pattern))

end InsecureLinks.Glob
