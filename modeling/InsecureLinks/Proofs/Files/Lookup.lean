import Mathlib
import InsecureLinks.Proofs.Files.LookupSteps
import InsecureLinks.Proofs.Files.Path
import InsecureLinks.Proofs.Outcome

/-!
# Looking up

Three facts about look-ups.  A look-up of names one after another goes on from the folder to which
the first of them lead, though it may come to follow too many links (`walk_append_of_folder`,
`walk_of_le`).  In a tree without links a look-up ends at the place that the path spells out
(`walk_eq_routeFrom`), so a path to names beneath a folder leads to the place beneath it
(`reach_beneath`).  And in any tree a look-up needs only the folders and the links: where these are
kept, it ends at the same place (`Keeps.lookup_eq_ok`).
-/

namespace InsecureLinks.FileTree

variable {t : FileTree} {follow : Bool} {links : ℕ} {place : Place}

/-! ## Looking up in parts -/

/-- A look-up that comes to a folder goes on from there, with some of the links used up. -/
theorem walk_append_of_folder {names : List Text} {p : Place}
    (h : t.walk true links place names = .ok ⟨p, some .folder⟩) :
    ∃ links' ≤ links, ∀ rest,
      t.walk true links place (names ++ rest) = t.walk true links' p rest := by
  induction links, place, names using walk_induction t true with
  | ends links place names r hends =>
    rw [hends.walk_eq] at h
    subst h
    rcases hends.eq_ok with ⟨rfl, rfl, -⟩ | ⟨name, -, -, -, -, hfolder, -⟩
    · exact ⟨links, le_rfl, fun _ => rfl⟩
    · exact absurd rfl hfolder
  | goesOn links place names links₁ place₁ names₁ hgoes ih =>
    rw [hgoes.walk_eq] at h
    obtain ⟨links', hle, hrest⟩ := ih h
    refine ⟨links', hle.trans hgoes.links_le, fun rest => ?_⟩
    rw [(hgoes.append rest).walk_eq, hrest]

/-- A look-up that may follow fewer links ends as it would with more, unless it follows too many. -/
theorem walk_of_le {follow : Bool} {names : List Text} :
    ∀ links' ≤ links, t.walk follow links' place names = t.walk follow links place names ∨
      t.walk follow links' place names = .error .tooManyLinks := by
  induction links, place, names using walk_induction t follow with
  | ends links place names r hends =>
    exact fun links' hle => .inl ((hends.of_le hle).walk_eq.trans hends.walk_eq.symm)
  | goesOn links place names links₁ place₁ names₁ hgoes ih =>
    intro links' hle
    rcases hgoes.of_le hle with ⟨links₁', hle', hgoes'⟩ | hends
    · rw [hgoes.walk_eq, hgoes'.walk_eq]
      exact ih links₁' hle'
    · exact .inr hends.walk_eq

/-- A look-up that fails fails as well if it is to go on. -/
theorem walk_append_of_error {names : List Text} {c : Cause}
    (h : t.walk true links place names = .error c) (rest : List Text) :
    t.walk true links place (names ++ rest) = .error c := by
  induction links, place, names using walk_induction t true with
  | ends links place names r hends =>
    rw [hends.walk_eq] at h
    subst h
    exact (hends.append rest).walk_eq
  | goesOn links place names links₁ place₁ names₁ hgoes ih =>
    rw [hgoes.walk_eq] at h
    rw [(hgoes.append rest).walk_eq]
    exact ih h

/-! ## Trees without links -/

section LinkFree

variable (hlinks : t.IsLinkFree)

include hlinks

/-- What a look-up does at a name, where there are no links: it goes into a folder, or the name is
the last. -/
theorem IsLinkFree.walk_cons_eq_ok {name : Text} {rest : List Text} {r : Found}
    (hdot : name ≠ Path.dot) (hdotDot : name ≠ Path.dotDot)
    (h : t.walk follow links place (name :: rest) = .ok r) :
    (Utf8.encode name).length ≤ maxNameBytes ∧
      (t.node? (place ++ [name]) = some .folder ∧
          t.walk follow links (place ++ [name]) rest = .ok r ∨
        rest = [] ∧ r = ⟨place ++ [name], t.node? (place ++ [name])⟩) := by
  rcases ends_or_goesOn t follow links place (name :: rest) with ⟨r', hends⟩ | ⟨_, _, _, hgoes⟩
  · rw [hends.walk_eq] at h
    subst h
    cases hends with
    | last hname => exact ⟨hname.short, .inr ⟨rfl, rfl⟩⟩
  · rw [hgoes.walk_eq] at h
    cases hgoes with
    | dot => exact absurd rfl hdot
    | dotDot => exact absurd rfl hdotDot
    | folder hname hnode => exact ⟨hname.short, .inl ⟨hnode, h⟩⟩
    | link hname hnode => exact absurd hnode (hlinks _ _)

/-- A look-up ends at the place that the names spell out. -/
theorem IsLinkFree.walk_eq_routeFrom {names : List Text} (hnames : ∀ n ∈ names, n ≠ Path.dot)
    {r : Found} (h : t.walk follow links place names = .ok r) :
    r = ⟨routeFrom place names, t.node? (routeFrom place names)⟩ := by
  induction names generalizing place with
  | nil =>
    rw [walk_nil] at h
    cases h
    rfl
  | cons name rest ih =>
    have hdot := hnames name (by simp)
    have hrest : ∀ n ∈ rest, n ≠ Path.dot := fun n hn => hnames n (by simp [hn])
    rw [routeFrom, List.foldl_cons, ← routeFrom]
    by_cases hdotDot : name = Path.dotDot
    · subst hdotDot
      rw [walk_dotDot] at h
      rw [if_pos rfl]
      exact ih hrest h
    · rw [if_neg hdotDot]
      obtain ⟨-, ⟨-, hwalk⟩ | ⟨rfl, rfl⟩⟩ := hlinks.walk_cons_eq_ok hdot hdotDot h
      · exact ih hrest hwalk
      · rfl

/-- A look-up that comes to a folder goes on from there. -/
theorem IsLinkFree.walk_append {names : List Text} {p : Place}
    (h : t.walk follow links place names = .ok ⟨p, some .folder⟩) (rest : List Text) :
    t.walk follow links place (names ++ rest) = t.walk follow links p rest := by
  induction names generalizing place with
  | nil =>
    rw [walk_nil] at h
    obtain ⟨rfl, -⟩ := Found.mk.inj (Except.ok.inj h)
    rfl
  | cons name names ih =>
    rw [List.cons_append]
    by_cases hdot : name = Path.dot
    · subst hdot
      rw [walk_dot] at h ⊢
      exact ih h
    by_cases hdotDot : name = Path.dotDot
    · subst hdotDot
      rw [walk_dotDot] at h ⊢
      exact ih h
    obtain ⟨hshort, ⟨hfolder, hwalk⟩ | ⟨rfl, hlast⟩⟩ := hlinks.walk_cons_eq_ok hdot hdotDot h
    · rw [walk_folder hdot hdotDot hshort hfolder]
      exact ih hwalk
    · obtain ⟨rfl, hfolder⟩ := Found.mk.inj hlast
      exact walk_folder hdot hdotDot hshort hfolder.symm rest

/-- A look-up goes from a folder to what is beneath it. -/
theorem IsLinkFree.walk_beneath (ht : t.IsSound) {names : List Text} {x : Node}
    (h : t.node? (place ++ names) = some x) :
    t.walk follow links place names = .ok ⟨place ++ names, some x⟩ := by
  induction names generalizing place with
  | nil =>
    rw [List.append_nil] at h ⊢
    rw [walk_nil, h]
  | cons name rest ih =>
    have hname : IsName name := ht.isName h name (by simp)
    rcases eq_or_ne rest [] with rfl | hne
    · rw [walk_last hname.ne_dot hname.ne_dotDot hname.short fun target => hlinks _ target, h]
    · have happ : place ++ name :: rest = place ++ [name] ++ rest := by simp
      rw [happ] at h ⊢
      rw [walk_folder hname.ne_dot hname.ne_dotDot hname.short (ht.folder_of_append h hne), ih h]

end LinkFree

/-! ## Written paths -/

/-- The look-up of a written path goes through its names. -/
theorem lookup_text {p : Path} (hp : p.IsNormal) (t : FileTree) (follow : Bool) (here : Place) :
    t.lookup follow here p.text =
      if maxPathBytes < (Utf8.encode p.text).length then .error .nameTooLong
      else t.walk follow maxLinks (if p.isAbsolute then [] else here) p.names := by
  have hempty : p.text.isEmpty = false := by simpa using Path.text_ne_nil hp
  rw [lookup, hempty, linkStart, Path.ofText_text hp, Path.lookupNames_text hp]
  simp only [Bool.false_eq_true, if_false]
  split_ifs with hlong habsolute hnames hnames
  · rfl
  · rw [walk_dot, hnames]
  · rfl
  · rw [walk_dot, hnames]
  · rfl

/-- The look-up of the path to names beneath a path goes through the names of both. -/
theorem lookup_join {p : Path} (hp : p.IsNormal) {names : List Text}
    (hnames : ∀ n ∈ names, n ≠ [] ∧ n ≠ Path.dot ∧ '/' ∉ n) (t : FileTree) (follow : Bool)
    (here : Place) :
    t.lookup follow here (p.join (Text.join ['/'] names)).text =
      if maxPathBytes < (Utf8.encode (p.join (Text.join ['/'] names)).text).length then
        .error .nameTooLong
      else t.walk follow maxLinks (if p.isAbsolute then [] else here) (p.names ++ names) := by
  rw [lookup_text (Path.isNormal_join_names hp hnames)]
  rw [Path.join_names p hnames]
  rfl

theorem reach_eq_ok {here : Place} {written : Text} {x : Node} :
    t.reach here written = .ok (place, x) ↔ t.lookup true here written = .ok ⟨place, some x⟩ := by
  rw [reach]
  rcases t.lookup true here written with c | ⟨p, _ | y⟩
  · simp [bind, Except.bind]
  · simp [bind, Except.bind, throw, throwThe, MonadExceptOf.throw]
  · simp [bind, Except.bind, pure, Except.pure]

/-- A path that leads somewhere is not too long, and its names lead there. -/
theorem walk_of_reach {here : Place} {p : Path} (hp : p.IsNormal) {x : Node}
    (h : t.reach here p.text = .ok (place, x)) :
    t.walk true maxLinks (if p.isAbsolute then [] else here) p.names = .ok ⟨place, some x⟩ := by
  rw [reach_eq_ok, lookup_text hp] at h
  split_ifs at h ⊢
  · exact h
  · exact h

theorem reach_of_lookup_error {here : Place} {written : Text} {c : Cause}
    (h : t.lookup true here written = .error c) : t.reach here written = .error c := by
  rw [reach, h]
  rfl

section LinkFree

variable (hlinks : t.IsLinkFree) {here : Place} {p : Path} (hp : p.IsNormal)

include hlinks hp

/-- A path leads to the place of its route. -/
theorem IsLinkFree.place_of_reach {x : Node} (h : t.reach here p.text = .ok (place, x)) :
    place = routeOf here p ∧ t.node? place = some x := by
  obtain ⟨hplace, hnode⟩ :=
    Found.mk.inj (hlinks.walk_eq_routeFrom (fun n hn => (hp n hn).2.1) (walk_of_reach hp h))
  exact ⟨hplace, by rw [hplace, ← hnode]⟩

/-- Names beneath a path to a folder lead to what is beneath the folder, unless the whole path is
too long. -/
theorem IsLinkFree.reach_beneath (ht : t.IsSound) (h : t.reach here p.text = .ok (place, .folder))
    {names : List Text} {x : Node} (hnode : t.node? (place ++ names) = some x) :
    t.reach here (p.join (Text.join ['/'] names)).text =
      if maxPathBytes < (Utf8.encode (p.join (Text.join ['/'] names)).text).length then
        .error .nameTooLong
      else .ok (place ++ names, x) := by
  have hnames : ∀ n ∈ names, n ≠ [] ∧ n ≠ Path.dot ∧ '/' ∉ n :=
    fun n hn => (ht.isName hnode n (List.mem_append_right _ hn)).isNormal
  rw [reach, lookup_join hp hnames]
  by_cases hlong : maxPathBytes < (Utf8.encode (p.join (Text.join ['/'] names)).text).length
  · rw [if_pos hlong, if_pos hlong]
    rfl
  · rw [if_neg hlong, if_neg hlong, hlinks.walk_append (walk_of_reach hp h),
      hlinks.walk_beneath ht hnode]
    rfl

end LinkFree

/-! ## Characters on the way -/

section Lacks

variable {c : Char} (ht : t.Lacks c) (hdot : c ≠ '.')

include ht hdot

/-- A look-up that finds something has gone through names of the tree only. -/
theorem Lacks.not_mem_of_walk {names : List Text} {p : Place} {x : Node}
    (hwalk : t.walk follow links place names = .ok ⟨p, some x⟩) : ∀ n ∈ names, c ∉ n := by
  have hfirst : ∀ {place : Place} {name : Text} {x : Node}, t.node? (place ++ [name]) = some x →
      c ∉ name := fun hnode => ht _ _ hnode _ (by simp)
  induction links, place, names using walk_induction t follow with
  | ends links place names r hends =>
    rw [hends.walk_eq] at hwalk
    subst hwalk
    rcases hends.eq_ok with ⟨rfl, -⟩ | ⟨name, rfl, -, hnode, -⟩
    · simp
    · simpa using hfirst hnode.symm
  | goesOn links place names links' place' names' hgoes ih =>
    rw [hgoes.walk_eq] at hwalk
    have hrest := ih hwalk
    cases hgoes with
    | dot => exact List.forall_mem_cons.2 ⟨by simpa [Path.dot] using hdot, hrest⟩
    | dotDot => exact List.forall_mem_cons.2 ⟨by simpa [Path.dotDot] using hdot, hrest⟩
    | folder hname hnode => exact List.forall_mem_cons.2 ⟨hfirst hnode, hrest⟩
    | link hname hnode =>
      exact List.forall_mem_cons.2
        ⟨hfirst hnode, fun n hn => hrest n (List.mem_append_right _ hn)⟩

/-- A character that is in no name is in no path that leads somewhere. -/
theorem Lacks.not_mem_of_reach (hslash : c ≠ '/') {here : Place} {p : Path} (hp : p.IsNormal)
    {x : Node} (h : t.reach here p.text = .ok (place, x)) : c ∉ p.text :=
  Path.not_mem_text hdot hslash (ht.not_mem_of_walk hdot (walk_of_reach hp h))

end Lacks

/-! ## Trees with the same folders and links -/

/-- Whether the folders and the links of one tree are in another, where more may be. -/
structure Keeps (t t' : FileTree) : Prop where
  folder : ∀ place, t.node? place = some .folder → t'.node? place = some .folder
  link : ∀ place target, t.node? place = some (.link target) →
    t'.node? place = some (.link target)

theorem keeps_self (t : FileTree) : Keeps t t := ⟨fun _ h => h, fun _ _ h => h⟩

/-- A new node where nothing is or a file is keeps the rest. -/
theorem keeps_put (hfolder : t.node? place ≠ some .folder)
    (hlink : ∀ target, t.node? place ≠ some (.link target)) (x : Node) :
    Keeps t (t.put place x) := by
  have hne : place ≠ [] := by
    rintro rfl
    exact hfolder rfl
  constructor
  · intro p hp
    rw [node?_put t hne, if_neg, hp]
    rintro rfl
    exact hfolder hp
  · intro p target hp
    rw [node?_put t hne, if_neg, hp]
    rintro rfl
    exact hlink target hp

section Keeps

variable {t' : FileTree} (h : Keeps t t') {p : Place} {x : Option Node}

include h

/-- A look-up goes on in the other tree as well. -/
theorem Keeps.goesOn {links' : ℕ} {place' : Place} {names names' : List Text}
    (hgoes : GoesOn t follow links place names links' place' names') :
    GoesOn t' follow links place names links' place' names' := by
  cases hgoes with
  | dot => exact .dot _ _ _
  | dotDot => exact .dotDot _ _ _
  | folder hname hnode => exact .folder hname (h.folder _ hnode)
  | link hname hnode hfollow => exact .link hname (h.link _ _ hnode) hfollow

/-- A look-up ends at the same place in the other tree, unless a link has come there. -/
theorem Keeps.walk_eq_ok {names : List Text} (hend : ∀ target, t'.node? p ≠ some (.link target) ∨
      t.node? p = some (.link target))
    (hwalk : t.walk follow links place names = .ok ⟨p, x⟩) :
    t'.walk follow links place names = .ok ⟨p, t'.node? p⟩ := by
  induction links, place, names using walk_induction t follow with
  | ends links place names r hends =>
    rw [hends.walk_eq] at hwalk
    subst hwalk
    rcases hends.eq_ok with ⟨rfl, rfl, -⟩ | ⟨name, rfl, rfl, rfl, hname, -, hlink⟩
    · exact walk_nil _ _ _ _
    · refine hname.walk_last fun target htarget => hlink target ?_
      exact (hend target).resolve_left fun hno => hno htarget
  | goesOn links place names links' place' names' hgoes ih =>
    rw [hgoes.walk_eq] at hwalk
    rw [(h.goesOn hgoes).walk_eq]
    exact ih hwalk

/-- A written path leads to the same place in both trees, unless a link has come there. -/
theorem Keeps.lookup_eq_ok {here : Place} {written : Text}
    (hend : ∀ target, t'.node? p ≠ some (.link target) ∨ t.node? p = some (.link target))
    (hlookup : t.lookup follow here written = .ok ⟨p, x⟩) :
    t'.lookup follow here written = .ok ⟨p, t'.node? p⟩ := by
  rw [lookup] at hlookup ⊢
  split_ifs at hlookup ⊢
  exact h.walk_eq_ok hend hlookup

theorem Keeps.reach_eq_ok {here : Place} {written : Text} {y z : Node}
    (hreach : t.reach here written = .ok (p, y)) (hnode : t'.node? p = some z)
    (hlink : ∀ target, z ≠ .link target) : t'.reach here written = .ok (p, z) := by
  rw [FileTree.reach_eq_ok] at hreach ⊢
  rw [h.lookup_eq_ok _ hreach, hnode]
  intro target
  rw [hnode]
  exact .inl fun htarget => hlink target (Option.some.inj htarget)

end Keeps

/-- What a look-up ends with is what is at the place where it ends. -/
theorem node?_of_walk {names : List Text} {p : Place} {x : Option Node}
    (h : t.walk follow links place names = .ok ⟨p, x⟩) : t.node? p = x := by
  have hself := (keeps_self t).walk_eq_ok (fun target => (em _).symm) h
  rw [h] at hself
  exact (Found.mk.inj (Except.ok.inj hself)).2.symm

theorem node?_of_lookup {here : Place} {written : Text} {x : Option Node}
    (h : t.lookup follow here written = .ok ⟨place, x⟩) : t.node? place = x := by
  rw [lookup] at h
  split_ifs at h
  exact node?_of_walk h

/-- What a path leads to is at the place that it leads to. -/
theorem node?_of_reach {here : Place} {written : Text} {x : Node}
    (h : t.reach here written = .ok (place, x)) : t.node? place = some x :=
  node?_of_lookup (reach_eq_ok.1 h)

/-- A file that is put where a path ends is what the path then leads to. -/
theorem reach_put {here : Place} {written : Text} {x : Option Node}
    (h : t.lookup true here written = .ok ⟨place, x⟩) (hfolder : t.node? place ≠ some .folder)
    (hlink : ∀ target, t.node? place ≠ some (.link target)) (content : Content) :
    (t.put place (.file content)).reach here written = .ok (place, .file content) := by
  have hne : place ≠ [] := by
    rintro rfl
    exact hfolder rfl
  have hput : (t.put place (.file content)).node? place = some (.file content) := by
    rw [node?_put t hne, if_pos rfl]
  have hend : ∀ target, (t.put place (.file content)).node? place ≠ some (.link target) ∨
      t.node? place = some (.link target) := fun target => .inl (by simp [hput])
  rw [reach_eq_ok, (keeps_put hfolder hlink _).lookup_eq_ok hend h, hput]

end InsecureLinks.FileTree
