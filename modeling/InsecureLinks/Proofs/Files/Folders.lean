import Mathlib
import InsecureLinks.Proofs.Files.Writing
import InsecureLinks.Proofs.Text.Utf8

/-!
# Folders on the way

What is beneath a path can be looked up only if the path leads to a folder (`IsRooted.reach_parent`).
The folders that have been made for a path are there (`reach_of_ensureFolders`), and where they are,
none is made (`ensureFolders_of_reach`).
-/

namespace InsecureLinks.FileTree

variable {t t' : FileTree} {here place : Place} {links : ℕ} {p : Path}

/-! ## Following the last link or not -/

/-- A look-up that does not follow a link at the end goes on as one that does. -/
theorem GoesOn.follow {links' : ℕ} {place' : Place} {names names' : List Text}
    (h : GoesOn t false links place names links' place' names') :
    GoesOn t true links place names links' place' names' := by
  cases h with
  | dot => exact .dot _ _ _
  | dotDot => exact .dotDot _ _ _
  | folder hname hnode => exact .folder hname hnode
  | link hname hnode => exact .link hname hnode fun _ => rfl

theorem Ends.follow {names : List Text} {r : Except Cause Found}
    (h : Ends t false links place names r) :
    Ends t true links place names r ∨ ∃ q target, r = .ok ⟨q, some (.link target)⟩ := by
  cases h with
  | nil => exact .inl (.nil _ _)
  | @last _ _ name hname hfolder hlink =>
    by_cases htarget : ∃ target, t.node? (place ++ [name]) = some (.link target)
    · obtain ⟨target, htarget⟩ := htarget
      exact .inr ⟨place ++ [name], target, by rw [htarget]⟩
    · exact .inl (.last hname hfolder fun target hno => absurd ⟨target, hno⟩ htarget)
  | tooLong hdot hdotDot hlong => exact .inl (.tooLong hdot hdotDot hlong)
  | notFound hname hnode hrest => exact .inl (.notFound hname hnode hrest)
  | notAFolder hname hnode hfolder hlink hrest =>
    exact .inl (.notAFolder hname hnode hfolder hlink hrest)
  | tooManyLinks hname hnode => exact .inl (.tooManyLinks hname hnode fun _ => rfl)

/-- A look-up that does not follow a link at the end ends as one that does, unless a link is there. -/
theorem walk_follow (names : List Text) :
    t.walk false links place names = t.walk true links place names ∨
      ∃ q target, t.walk false links place names = .ok ⟨q, some (.link target)⟩ := by
  induction links, place, names using walk_induction t false with
  | ends links place names r hends =>
    rw [hends.walk_eq]
    exact hends.follow.imp_left fun hends' => hends'.walk_eq.symm
  | goesOn links place names links' place' names' hgoes ih =>
    rw [hgoes.walk_eq, hgoes.follow.walk_eq]
    exact ih

theorem lookup_follow (t : FileTree) (here : Place) (written : Text) :
    t.lookup false here written = t.lookup true here written ∨
      ∃ q target, t.lookup false here written = .ok ⟨q, some (.link target)⟩ := by
  rw [lookup, lookup]
  split_ifs
  · exact .inl rfl
  · exact .inl rfl
  · exact walk_follow _

/-! ## The way to a path -/

/-- A look-up that goes on has come to a folder. -/
theorem IsRooted.folder_of_walk (ht : t.IsRooted) {names rest : List Text} {r : Found}
    (hrest : rest ≠ []) (hplace : t.node? place = some .folder)
    (h : t.walk true links place (names ++ rest) = .ok r) :
    ∃ q, t.walk true links place names = .ok ⟨q, some .folder⟩ := by
  induction links, place, names using walk_induction t true with
  | ends links place names r' hends =>
    rcases eq_or_ne names [] with rfl | hnames
    · exact ⟨place, by rw [walk_nil, hplace]⟩
    · obtain ⟨c, hends'⟩ := hends.error_of_append hnames hrest
      rw [hends'.walk_eq] at h
      cases h
  | goesOn links place names links' place' names' hgoes ih =>
    rw [(hgoes.append rest).walk_eq] at h
    rw [hgoes.walk_eq]
    exact ih (ht.folder_of_goesOn hgoes hplace) h

/-- The path above another is not longer. -/
theorem length_parent_text (hp : p.IsNormal) :
    (Utf8.encode p.parent.text).length ≤ (Utf8.encode p.text).length := by
  obtain ⟨start, names⟩ := p
  rcases List.eq_nil_or_concat names with rfl | ⟨init, last, rfl⟩
  · exact le_rfl
  rw [List.concat_eq_append] at hp ⊢
  have hnames : init ++ [last] ≠ [] := by simp
  rw [Path.text_of_ne_nil start hnames, Path.parent, List.dropLast_concat]
  rcases eq_or_ne init [] with rfl | hinit
  · cases start with
    | top | topTwice => simp [Path.text, Path.startText, Text.join, Utf8.encode]
    | here =>
      -- The current folder is a dot, which is no longer than a name.
      obtain ⟨c, rest, rfl⟩ := List.exists_cons_of_ne_nil (hp last (by simp)).1
      have hchar : 1 ≤ (Utf8.encodeChar c).length := by
        rw [Utf8.encodeChar_eq, String.length_utf8EncodeChar]
        exact c.utf8Size_pos
      exact hchar.trans (by simp [Path.startText, Text.join])
  · rw [Path.text_of_ne_nil start hinit, Text.join_append hinit (by simp)]
    simp only [Utf8.encode_append, List.length_append]
    omega

/-- What is above a path is a folder, unless the path has no name. -/
theorem IsRooted.reach_parent (ht : t.IsRooted) (hhere : t.node? here = some .folder)
    (hp : p.IsNormal) (hnames : p.names ≠ []) {r : Found}
    (h : t.lookup true here p.text = .ok r) :
    ∃ q, t.reach here p.parent.text = .ok (q, .folder) := by
  have hparent : p.parent.IsNormal := fun n hn => hp n (List.mem_of_mem_dropLast hn)
  have hshorter := length_parent_text hp
  have hstart : t.node? (if p.isAbsolute then [] else here) = some .folder := by
    split_ifs
    · rfl
    · exact hhere
  rw [lookup_text hp] at h
  by_cases hlong : maxPathBytes < (Utf8.encode p.text).length
  · rw [if_pos hlong] at h
    cases h
  · rw [if_neg hlong, ← List.dropLast_append_getLast hnames] at h
    obtain ⟨q, hq⟩ := ht.folder_of_walk (List.cons_ne_nil _ _) hstart h
    refine ⟨q, reach_eq_ok.2 ?_⟩
    rw [lookup_text hparent, if_neg (by omega)]
    exact hq

/-! ## Folders that are there -/

/-- Nothing is made where a path leads to something. -/
theorem makeFolder_of_reach {x : Node} (h : t.reach here p.text = .ok (place, x)) :
    t.makeFolder here p = .error ⟨.alreadyExists, p.text⟩ := by
  rw [makeFolder]
  rcases lookup_follow t here p.text with heq | ⟨q, target, hlink⟩
  · rw [heq, reach_eq_ok.1 h]
  · rw [hlink]

theorem ask_isFolder_iff :
    t.ask isFolder here p.text = .ok true ↔ ∃ q, t.reach here p.text = .ok (q, .folder) := by
  rw [ask]
  rcases t.reach here p.text with c | ⟨q, x⟩
  · simp only [reduceCtorEq, exists_false, iff_false]
    split_ifs
    · simp
    · simp
  · cases x with
    | file | folder | link | pipe => simp [isFolder]

/-- Where a folder is, it is not made again, and neither are those on the way to it. -/
theorem ensureFolders_of_reach {start : PathStart} {names : List Text} {q : Place} (count : ℕ)
    (h : t.reach here (Path.mk start names).text = .ok (q, .folder)) :
    t.ensureFolders here start count names = .ok t := by
  have hmake := makeFolder_of_reach h
  have hthere : t.ensureFolder here ⟨start, names⟩ = .ok t := by
    rw [ensureFolder, hmake]
    dsimp only
    rw [ask_isFolder_iff.2 ⟨q, h⟩]
    rfl
  cases count with
  | zero => exact hthere
  | succ count =>
    rw [ensureFolders, hmake]
    dsimp only
    rw [if_neg (by simp), hthere]

/-- A folder that was made is there. -/
theorem reach_of_makeFolder (h : t.makeFolder here p = .ok t') :
    ∃ q, t'.reach here p.text = .ok (q, .folder) := by
  rw [makeFolder] at h
  split at h
  · next place hlookup =>
    cases h
    have hfree := node?_of_lookup hlookup
    have hne : place ≠ [] := by
      rintro rfl
      cases hfree
    have hput : (t.put place .folder).node? place = some .folder := by
      rw [node?_put t hne, if_pos rfl]
    have hfollow : t.lookup true here p.text = .ok ⟨place, none⟩ := by
      rcases lookup_follow t here p.text with heq | ⟨q, target, hlink⟩
      · rw [← heq, hlookup]
      · rw [hlookup] at hlink
        cases hlink
    refine ⟨place, reach_eq_ok.2 ?_⟩
    have hkeeps : Keeps t (t.put place .folder) :=
      keeps_put (by simp [hfree]) (by simp [hfree]) _
    rw [hkeeps.lookup_eq_ok (fun target => .inl (by simp [hput])) hfollow, hput]
  · cases h
  · cases h

theorem reach_of_ensureFolder (h : t.ensureFolder here p = .ok t') :
    ∃ q, t'.reach here p.text = .ok (q, .folder) := by
  rw [ensureFolder] at h
  split at h
  · next hmake =>
    cases h
    exact reach_of_makeFolder hmake
  · obtain ⟨there, hask, h⟩ := bind_eq_ok.1 h
    cases there with
    | false => cases h
    | true =>
      cases h
      exact ask_isFolder_iff.1 hask

/-- Once the folders on the way have been made, the path leads to a folder. -/
theorem reach_of_ensureFolders {start : PathStart} {count : ℕ} {names : List Text}
    (h : t.ensureFolders here start count names = .ok t') :
    ∃ q, t'.reach here (Path.mk start names).text = .ok (q, .folder) := by
  cases count with
  | zero => exact reach_of_ensureFolder h
  | succ count =>
    rw [ensureFolders] at h
    split at h
    · next hmake =>
      cases h
      exact reach_of_makeFolder hmake
    · split_ifs at h
      · obtain ⟨t₁, -, h⟩ := bind_eq_ok.1 h
        exact reach_of_ensureFolder h
      · exact reach_of_ensureFolder h

end InsecureLinks.FileTree
