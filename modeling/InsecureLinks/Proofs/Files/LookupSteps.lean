import Mathlib
import InsecureLinks.Proofs.Files.FileTree

/-!
# Look-ups step by step

A look-up goes from place to place, name by name.  Before each name it goes on (`GoesOn`), which may
replace the name of a link by the names that the link is written with, or it ends, well or not
(`Ends`).  What is true of a whole look-up follows from what is true of these steps
(`walk_induction`).
-/

namespace InsecureLinks.FileTree

variable {t : FileTree} {follow : Bool} {links links' : ℕ} {place place' : Place}
  {names names' : List Text}

/-- Whether a look-up asks a folder for a name: it neither stays nor goes up, and the name is not
too long. -/
structure IsAsked (name : Text) : Prop where
  ne_dot : name ≠ Path.dot
  ne_dotDot : name ≠ Path.dotDot
  short : (Utf8.encode name).length ≤ maxNameBytes

/-- The steps of a look-up that goes on, from some links that may be followed, a place and names to
others. -/
inductive GoesOn (t : FileTree) (follow : Bool) :
    ℕ → Place → List Text → ℕ → Place → List Text → Prop
  | dot (links : ℕ) (place : Place) (rest : List Text) :
      GoesOn t follow links place (Path.dot :: rest) links place rest
  | dotDot (links : ℕ) (place : Place) (rest : List Text) :
      GoesOn t follow links place (Path.dotDot :: rest) links place.dropLast rest
  | folder {links : ℕ} {place : Place} {name : Text} {rest : List Text} (hname : IsAsked name)
      (hnode : t.node? (place ++ [name]) = some .folder) :
      GoesOn t follow links place (name :: rest) links (place ++ [name]) rest
  | link {links : ℕ} {place : Place} {name target : Text} {rest : List Text}
      (hname : IsAsked name) (hnode : t.node? (place ++ [name]) = some (.link target))
      (hfollow : rest = [] → follow = true) :
      GoesOn t follow (links + 1) place (name :: rest) links (linkStart place target)
        (lookupNames target ++ rest)

/-- The ends of a look-up. -/
inductive Ends (t : FileTree) (follow : Bool) :
    ℕ → Place → List Text → Except Cause Found → Prop
  | nil (links : ℕ) (place : Place) :
      Ends t follow links place [] (.ok ⟨place, t.node? place⟩)
  | last {links : ℕ} {place : Place} {name : Text} (hname : IsAsked name)
      (hfolder : t.node? (place ++ [name]) ≠ some .folder)
      (hlink : ∀ target, t.node? (place ++ [name]) = some (.link target) → follow = false) :
      Ends t follow links place [name] (.ok ⟨place ++ [name], t.node? (place ++ [name])⟩)
  | tooLong {links : ℕ} {place : Place} {name : Text} {rest : List Text}
      (hdot : name ≠ Path.dot) (hdotDot : name ≠ Path.dotDot)
      (hlong : maxNameBytes < (Utf8.encode name).length) :
      Ends t follow links place (name :: rest) (.error .nameTooLong)
  | notFound {links : ℕ} {place : Place} {name : Text} {rest : List Text} (hname : IsAsked name)
      (hnode : t.node? (place ++ [name]) = none) (hrest : rest ≠ []) :
      Ends t follow links place (name :: rest) (.error .notFound)
  | notAFolder {links : ℕ} {place : Place} {name : Text} {rest : List Text} {x : Node}
      (hname : IsAsked name) (hnode : t.node? (place ++ [name]) = some x) (hfolder : x ≠ .folder)
      (hlink : ∀ target, x ≠ .link target) (hrest : rest ≠ []) :
      Ends t follow links place (name :: rest) (.error .notAFolder)
  | tooManyLinks {place : Place} {name target : Text} {rest : List Text} (hname : IsAsked name)
      (hnode : t.node? (place ++ [name]) = some (.link target))
      (hfollow : rest = [] → follow = true) :
      Ends t follow 0 place (name :: rest) (.error .tooManyLinks)

/-! ## The steps of the function -/

@[simp] theorem walk_nil (t : FileTree) (follow : Bool) (links : ℕ) (place : Place) :
    t.walk follow links place [] = .ok ⟨place, t.node? place⟩ := by rw [walk]

@[simp] theorem walk_dot (t : FileTree) (follow : Bool) (links : ℕ) (place : Place)
    (rest : List Text) :
    t.walk follow links place (Path.dot :: rest) = t.walk follow links place rest := by
  rw [walk, if_pos rfl]

@[simp] theorem walk_dotDot (t : FileTree) (follow : Bool) (links : ℕ) (place : Place)
    (rest : List Text) :
    t.walk follow links place (Path.dotDot :: rest) =
      t.walk follow links place.dropLast rest := by
  rw [walk, if_neg (by decide), if_pos rfl]

/-- What a look-up does at a name for which it asks. -/
theorem IsAsked.walk_cons {name : Text} (h : IsAsked name) (rest : List Text) :
    t.walk follow links place (name :: rest) =
      match t.node? (place ++ [name]) with
      | none => if rest.isEmpty then .ok ⟨place ++ [name], none⟩ else .error .notFound
      | some .folder => t.walk follow links (place ++ [name]) rest
      | some (.link target) =>
        if rest.isEmpty ∧ ¬follow then .ok ⟨place ++ [name], some (.link target)⟩
        else
          match links with
          | 0 => .error .tooManyLinks
          | links + 1 =>
            t.walk follow links (linkStart place target) (lookupNames target ++ rest)
      | some x => if rest.isEmpty then .ok ⟨place ++ [name], some x⟩ else .error .notAFolder := by
  have hwalk := walk.eq_2 t follow links place name rest
  rw [if_neg h.ne_dot, if_neg h.ne_dotDot, if_neg (not_lt.2 h.short)] at hwalk
  exact hwalk

theorem GoesOn.walk_eq (h : GoesOn t follow links place names links' place' names') :
    t.walk follow links place names = t.walk follow links' place' names' := by
  cases h with
  | dot => rw [walk_dot]
  | dotDot => rw [walk_dotDot]
  | folder hname hnode => rw [hname.walk_cons, hnode]
  | link hname hnode hfollow =>
    rw [hname.walk_cons, hnode]
    dsimp only
    rw [if_neg]
    rintro ⟨hrest, hno⟩
    exact hno (hfollow (List.isEmpty_iff.1 hrest))

theorem Ends.walk_eq {r : Except Cause Found} (h : Ends t follow links place names r) :
    t.walk follow links place names = r := by
  cases h with
  | nil => rw [walk_nil]
  | last hname hfolder hlink =>
    rw [hname.walk_cons]
    split
    · next hnode =>
      rw [hnode]
      rfl
    · next hnode => exact absurd hnode hfolder
    · next target hnode =>
      rw [hnode, hlink target hnode]
      rfl
    · next hnode =>
      rw [hnode]
      rfl
  | tooLong hdot hdotDot hlong => rw [walk, if_neg hdot, if_neg hdotDot, if_pos hlong]
  | notFound hname hnode hrest =>
    rw [hname.walk_cons, hnode]
    exact if_neg (List.isEmpty_iff.not.2 hrest)
  | @notAFolder _ _ _ _ x hname hnode hfolder hlink hrest =>
    rw [hname.walk_cons, hnode]
    cases x with
    | folder => exact absurd rfl hfolder
    | link target => exact absurd rfl (hlink target)
    | file | pipe => exact if_neg (List.isEmpty_iff.not.2 hrest)
  | tooManyLinks hname hnode hfollow =>
    rw [hname.walk_cons, hnode]
    dsimp only
    rw [if_neg]
    rintro ⟨hrest, hno⟩
    exact hno (hfollow (List.isEmpty_iff.1 hrest))

/-- What holds where a look-up ends, and before each step if it holds after it, holds of every
look-up. -/
@[elab_as_elim]
theorem walk_induction (t : FileTree) (follow : Bool) {motive : ℕ → Place → List Text → Prop}
    (ends : ∀ links place names r, Ends t follow links place names r → motive links place names)
    (goesOn : ∀ links place names links' place' names',
      GoesOn t follow links place names links' place' names' → motive links' place' names' →
      motive links place names)
    (links : ℕ) (place : Place) (names : List Text) : motive links place names := by
  induction links, place, names using FileTree.walk.induct t follow with
  | case1 links place => exact ends _ _ _ _ (.nil links place)
  | case2 links place rest ih => exact goesOn _ _ _ _ _ _ (.dot links place rest) ih
  | case3 links place rest _ ih => exact goesOn _ _ _ _ _ _ (.dotDot links place rest) ih
  | case4 links place name rest hdot hdotDot hlong =>
    exact ends _ _ _ _ (.tooLong hdot hdotDot hlong)
  | case5 links place name rest hdot hdotDot hlong next hnode hrest =>
    obtain rfl := List.isEmpty_iff.1 hrest
    refine ends _ _ _ _ (.last ⟨hdot, hdotDot, not_lt.1 hlong⟩ ?_ fun target htarget => ?_)
    · simp [next, hnode]
    · cases hnode.symm.trans htarget
  | case6 links place name rest hdot hdotDot hlong next hnode hrest =>
    exact ends _ _ _ _
      (.notFound ⟨hdot, hdotDot, not_lt.1 hlong⟩ hnode (List.isEmpty_iff.not.1 hrest))
  | case7 links place name rest hdot hdotDot hlong next hnode ih =>
    exact goesOn _ _ _ _ _ _ (.folder ⟨hdot, hdotDot, not_lt.1 hlong⟩ hnode) ih
  | case8 links place name rest hdot hdotDot hlong next target hnode hlast =>
    obtain rfl := List.isEmpty_iff.1 hlast.1
    refine ends _ _ _ _ (.last ⟨hdot, hdotDot, not_lt.1 hlong⟩ ?_ fun _ _ => ?_)
    · simp [next, hnode]
    · exact Bool.eq_false_of_not_eq_true hlast.2
  | case9 place name rest hdot hdotDot hlong next target hnode hlast =>
    refine ends _ _ _ _ (.tooManyLinks ⟨hdot, hdotDot, not_lt.1 hlong⟩ hnode fun hrest => ?_)
    simpa [hrest] using hlast
  | case10 place name rest hdot hdotDot hlong next target hnode hlast links ih =>
    refine goesOn _ _ _ _ _ _ (.link ⟨hdot, hdotDot, not_lt.1 hlong⟩ hnode fun hrest => ?_) ih
    simpa [hrest] using hlast
  | case11 links place name rest hdot hdotDot hlong next node hfolder hlink hnode hrest =>
    obtain rfl := List.isEmpty_iff.1 hrest
    refine ends _ _ _ _ (.last ⟨hdot, hdotDot, not_lt.1 hlong⟩ ?_ fun target htarget => ?_)
    · intro hnode'
      exact hfolder (Option.some.inj (hnode.symm.trans hnode'))
    · exact absurd (Option.some.inj (hnode.symm.trans htarget)) (hlink target)
  | case12 links place name rest hdot hdotDot hlong next node hfolder hlink hnode hrest =>
    exact ends _ _ _ _ (.notAFolder ⟨hdot, hdotDot, not_lt.1 hlong⟩ hnode hfolder hlink
      (List.isEmpty_iff.not.1 hrest))

theorem ends_or_goesOn (t : FileTree) (follow : Bool) (links : ℕ) (place : Place)
    (names : List Text) :
    (∃ r, Ends t follow links place names r) ∨
      ∃ links' place' names', GoesOn t follow links place names links' place' names' := by
  induction links, place, names using walk_induction t follow with
  | ends links place names r h => exact .inl ⟨r, h⟩
  | goesOn links place names links' place' names' h => exact .inr ⟨links', place', names', h⟩

/-- A look-up goes into a folder. -/
theorem walk_folder {name : Text} (hdot : name ≠ Path.dot) (hdotDot : name ≠ Path.dotDot)
    (hshort : (Utf8.encode name).length ≤ maxNameBytes)
    (hfolder : t.node? (place ++ [name]) = some .folder) (rest : List Text) :
    t.walk follow links place (name :: rest) = t.walk follow links (place ++ [name]) rest :=
  (GoesOn.folder ⟨hdot, hdotDot, hshort⟩ hfolder).walk_eq

/-- A look-up ends at the place of the last name, unless it follows a link from there. -/
theorem IsAsked.walk_last {name : Text} (h : IsAsked name)
    (hlink : ∀ target, t.node? (place ++ [name]) = some (.link target) → follow = false) :
    t.walk follow links place [name] = .ok ⟨place ++ [name], t.node? (place ++ [name])⟩ := by
  by_cases hfolder : t.node? (place ++ [name]) = some .folder
  · rw [(GoesOn.folder h hfolder).walk_eq, walk_nil]
  · exact (Ends.last h hfolder hlink).walk_eq

theorem walk_last {name : Text} (hdot : name ≠ Path.dot) (hdotDot : name ≠ Path.dotDot)
    (hshort : (Utf8.encode name).length ≤ maxNameBytes)
    (hlink : ∀ target, t.node? (place ++ [name]) ≠ some (.link target)) :
    t.walk follow links place [name] = .ok ⟨place ++ [name], t.node? (place ++ [name])⟩ :=
  IsAsked.walk_last ⟨hdot, hdotDot, hshort⟩ fun target htarget => absurd htarget (hlink target)

/-- A look-up that ends well has no name left, or one that is asked for. -/
theorem Ends.eq_ok {p : Place} {x : Option Node}
    (h : Ends t follow links place names (.ok ⟨p, x⟩)) :
    names = [] ∧ p = place ∧ x = t.node? place ∨
      ∃ name, names = [name] ∧ p = place ++ [name] ∧ x = t.node? (place ++ [name]) ∧
        IsAsked name ∧ x ≠ some .folder ∧ ∀ target, x = some (.link target) → follow = false := by
  generalize hr : Except.ok (Found.mk p x) = r at h
  cases h with
  | nil =>
    cases hr
    exact .inl ⟨rfl, rfl, rfl⟩
  | last hname hfolder hlink =>
    cases hr
    exact .inr ⟨_, rfl, rfl, rfl, hname, hfolder, hlink⟩
  | tooLong | notFound | notAFolder | tooManyLinks => cases hr

/-! ## Steps with more names and fewer links -/

/-- A look-up goes on in the same way if there are more names behind. -/
theorem GoesOn.append (h : GoesOn t follow links place names links' place' names')
    (rest : List Text) :
    GoesOn t follow links place (names ++ rest) links' place' (names' ++ rest) := by
  cases h with
  | dot => exact .dot _ _ _
  | dotDot => exact .dotDot _ _ _
  | folder hname hnode => exact .folder hname hnode
  | link hname hnode hfollow =>
    rw [List.append_assoc]
    exact .link hname hnode fun hrest => hfollow (List.append_eq_nil_iff.1 hrest).1

/-- A look-up fails in the same way if there are more names behind. -/
theorem Ends.append {c : Cause} (h : Ends t follow links place names (.error c))
    (rest : List Text) : Ends t follow links place (names ++ rest) (.error c) := by
  cases h with
  | tooLong hdot hdotDot hlong => exact .tooLong hdot hdotDot hlong
  | notFound hname hnode hrest =>
    exact .notFound hname hnode fun happ => hrest (List.append_eq_nil_iff.1 happ).1
  | notAFolder hname hnode hfolder hlink hrest =>
    exact .notAFolder hname hnode hfolder hlink fun happ => hrest (List.append_eq_nil_iff.1 happ).1
  | tooManyLinks hname hnode hfollow =>
    exact .tooManyLinks hname hnode fun happ => hfollow (List.append_eq_nil_iff.1 happ).1

/-- A look-up that follows links and has ended before its last name does not get behind it. -/
theorem Ends.error_of_append {r : Except Cause Found} (h : Ends t true links place names r)
    (hnames : names ≠ []) {rest : List Text} (hrest : rest ≠ []) :
    ∃ c, Ends t true links place (names ++ rest) (.error c) := by
  rcases r with c | _
  · exact ⟨c, h.append rest⟩
  · cases h with
    | nil => exact absurd rfl hnames
    | @last _ _ name hname hfolder hlink =>
      rcases hx : t.node? (place ++ [name]) with _ | x
      · exact ⟨_, .notFound hname hx hrest⟩
      · refine ⟨_, .notAFolder hname hx ?_ ?_ hrest⟩
        · rintro rfl
          exact hfolder hx
        · rintro target rfl
          cases hlink target hx

/-- A look-up that may follow fewer links goes on as it would with more, unless that is too many. -/
theorem GoesOn.of_le (h : GoesOn t follow links place names links' place' names') {fewer : ℕ}
    (hle : fewer ≤ links) :
    (∃ fewer' ≤ links', GoesOn t follow fewer place names fewer' place' names') ∨
      Ends t follow fewer place names (.error .tooManyLinks) := by
  cases h with
  | dot => exact .inl ⟨fewer, hle, .dot _ _ _⟩
  | dotDot => exact .inl ⟨fewer, hle, .dotDot _ _ _⟩
  | folder hname hnode => exact .inl ⟨fewer, hle, .folder hname hnode⟩
  | link hname hnode hfollow =>
    cases fewer with
    | zero => exact .inr (.tooManyLinks hname hnode hfollow)
    | succ fewer => exact .inl ⟨fewer, Nat.le_of_succ_le_succ hle, .link hname hnode hfollow⟩

theorem Ends.of_le {r : Except Cause Found} (h : Ends t follow links place names r) {fewer : ℕ}
    (hle : fewer ≤ links) : Ends t follow fewer place names r := by
  cases h with
  | nil => exact .nil _ _
  | last hname hfolder hlink => exact .last hname hfolder hlink
  | tooLong hdot hdotDot hlong => exact .tooLong hdot hdotDot hlong
  | notFound hname hnode hrest => exact .notFound hname hnode hrest
  | notAFolder hname hnode hfolder hlink hrest => exact .notAFolder hname hnode hfolder hlink hrest
  | tooManyLinks hname hnode hfollow =>
    rw [Nat.le_zero.1 hle]
    exact .tooManyLinks hname hnode hfollow

theorem GoesOn.links_le (h : GoesOn t follow links place names links' place' names') :
    links' ≤ links := by
  cases h with
  | dot | dotDot | folder => exact le_rfl
  | link => exact Nat.le_succ _

end InsecureLinks.FileTree
