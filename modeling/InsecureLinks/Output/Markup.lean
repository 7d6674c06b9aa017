import InsecureLinks.Text.Basic

/-!
# Markup

Text for a console is marked up with tags in square brackets, such as `[red]`.  A text that is to
be shown as it is needs a backslash before everything in it that could be read as a tag.
-/

namespace InsecureLinks.Markup

/-- The characters that a tag can begin with. -/
def beginsTag (c : Char) : Bool :=
  (97 ≤ c.toNat && c.toNat ≤ 122) || c = '#' || c = '/' || c = '@'

/-- Whether a tag opens before `t`: it is closed before another bracket opens. -/
def opensTag : Text → Bool
  | [] => false
  | c :: t => beginsTag c && (t.takeWhile (· ≠ '[')).contains ']'

/-- `t` with its tags escaped, `run` backslashes standing before it.  The backslashes before a tag
are doubled and one more is put there. -/
def escapeTags (run : Nat) : Text → Text
  | [] => []
  | c :: t =>
    if c = '\\' then c :: escapeTags (run + 1) t
    else if c = '[' ∧ opensTag t then
      List.replicate (run + 1) '\\' ++ c :: escapeTags 0 t
    else c :: escapeTags 0 t

/-- `t` with a backslash added if it ends in exactly one. -/
def closeBackslash (t : Text) : Text :=
  if (t.reverse.takeWhile (· = '\\')).length = 1 then t ++ ['\\'] else t

/-- `t` in a form that is shown as `t`. -/
def escape (t : Text) : Text := closeBackslash (escapeTags 0 t)

/-- `t` between an opening and a closing tag. -/
def tagged (tag : String) (t : Text) : Text :=
  '[' :: tag.toList ++ ']' :: t ++ '[' :: '/' :: tag.toList ++ [']']

/-! ## Showing markup -/

/-- What is shown for `t` without its tags, `run` backslashes standing before it that are not shown
yet.  Before a tag, each pair of backslashes is one, and one that is left over makes the tag text. -/
def plainFrom (run : Nat) : Text → Text
  | [] => List.replicate run '\\'
  | c :: t =>
    if c = '\\' then plainFrom (run + 1) t
    else if c = '[' ∧ opensTag t then
      List.replicate (run / 2) '\\' ++
        if run % 2 = 1 then c :: plainFrom 0 t
        else plainFrom 0 ((t.dropWhile (· ≠ ']')).drop 1)
    else List.replicate run '\\' ++ c :: plainFrom 0 t
termination_by t => t.length
decreasing_by
  all_goals simp_wf
  have := (List.dropWhile_sublist (fun x => decide (x ≠ ']')) (l := t)).length_le
  simp only [ne_eq, decide_not] at this
  omega

/-- What is shown for `t`. -/
def plain (t : Text) : Text := plainFrom 0 t

end InsecureLinks.Markup
