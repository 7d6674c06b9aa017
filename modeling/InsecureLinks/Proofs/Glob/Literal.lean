import Mathlib
import InsecureLinks.Proofs.Files.Path
import InsecureLinks.Proofs.Glob.Language
import InsecureLinks.Proofs.Glob.Subtree

/-!
# Patterns that are spelled out

A text without wildcards and brackets stands for itself in a pattern.  Two kinds of pattern are made
of such a text and a wildcard: `u/**` matches all that is beneath the folder `u`
(`matchesPattern_beneath`), and a pattern that begins with `**/` matches at every depth what it
matches at none (`matchesPattern_atAnyDepth`).
-/

namespace InsecureLinks.Glob

/-! ## Literal text -/

/-- Whether every character of a text stands for itself in a pattern. -/
def IsLiteral (u : Text) : Prop := '*' ∉ u ∧ '?' ∉ u ∧ '[' ∉ u

instance (u : Text) : Decidable (IsLiteral u) := inferInstanceAs (Decidable (_ ∧ _ ∧ _))

/-- The tokens of a text that stands for itself. -/
def literals (u : Text) : List Token := u.map fun c => .one (.only c)

theorem tokens_literals_append {u v : Text} (hu : IsLiteral u) {ts : List Token}
    (hv : tokens (cutPieces v) = .ok ts) : tokens (cutPieces (u ++ v)) = .ok (literals u ++ ts) := by
  induction u with
  | nil => exact hv
  | cons c u ih =>
    obtain ⟨hstar, hmark, hbracket⟩ := hu
    rw [List.mem_cons, not_or] at hstar hmark hbracket
    rw [List.cons_append, cutPieces_literal _ (Ne.symm hstar.1) (Ne.symm hmark.1)
      (Ne.symm hbracket.1), tokens, ih ⟨hstar.2, hmark.2, hbracket.2⟩]
    rfl

theorem tokens_literals {u : Text} (hu : IsLiteral u) :
    tokens (cutPieces u) = .ok (literals u) := by
  have hnil : tokens (cutPieces []) = .ok [] := by rw [cutPieces, tokens]
  have hliterals := tokens_literals_append hu hnil
  rwa [List.append_nil, List.append_nil] at hliterals

theorem matches_literals (u : Text) : Matches (literals u) u := by
  induction u with
  | nil => rfl
  | cons c u ih => exact ⟨[c], u, rfl, ⟨c, (CharSet.contains_only c c).2 rfl, rfl⟩, ih⟩

theorem eq_of_matches_literals {u x : Text} (h : Matches (literals u) x) : x = u := by
  induction u generalizing x with
  | nil => exact h
  | cons c u ih =>
    obtain ⟨_, v, rfl, ⟨d, hd, rfl⟩, hv⟩ := h
    rw [(CharSet.contains_only c d).1 hd, ih hv]
    rfl

/-! ## Two kinds of pattern -/

/-- A pattern without blanks at its ends and without backslashes is read as it is written, unless it
begins with `./`. -/
theorem normalize_of_ends {p : Text} (hhead : ∀ c, p.head? = some c → Text.isBlank c = false)
    (hlast : ∀ c, p.getLast? = some c → Text.isBlank c = false) (hback : '\\' ∉ p)
    (hdot : ∀ t, p ≠ '.' :: '/' :: t) : normalize p = p := by
  rw [normalize, Text.strip_of_ends hhead hlast, Text.replaceChar_of_not_mem hback,
    dropHere.eq_2 p hdot]

/-- The pattern of all that is beneath a folder. -/
theorem matchesPattern_beneath (folders : List Text) {names : List Text} {u : Text}
    (hfolders : folders ≠ []) (hnames : names ≠ []) (hjoin : Text.join ['/'] folders = u)
    (hnormal : normalize (u ++ subtreeEnd) = u ++ subtreeEnd) (hu : IsLiteral u)
    (hnewline : '\n' ∉ Text.join ['/'] (folders ++ names)) :
    MatchesPattern (u ++ subtreeEnd) (Text.join ['/'] (folders ++ names)) := by
  have hend : tokens (cutPieces subtreeEnd) = .ok [.one (.only '/'), .many (.allBut '\n')] := by
    rw [cutPieces_subtreeEnd, tokens_subtreeEnd]
  rw [Text.join_append hfolders hnames, hjoin] at hnewline ⊢
  refine ⟨_, by rw [parse, hnormal, tokens_literals_append hu hend], ?_⟩
  refine matches_append.2 ⟨u, _, rfl, matches_literals u, ['/'], _, rfl, ?_, ?_⟩
  · exact ⟨'/', (CharSet.contains_only _ _).2 rfl, rfl⟩
  · refine matches_singleton.2 fun c hc => (CharSet.contains_allBut _ _).2 ?_
    rintro rfl
    exact hnewline (List.mem_append_right _ (List.mem_append_right _ hc))

/-- What comes before the last names of a path, if anything does, ends in a slash. -/
theorem exists_takes_folders (dirs : List Text) {names : List Text} (hne : names ≠ [])
    (hnewline : '\n' ∉ Text.join ['/'] (dirs ++ names)) :
    ∃ u, Text.join ['/'] (dirs ++ names) = u ++ Text.join ['/'] names ∧ Token.folders.Takes u := by
  rcases eq_or_ne dirs [] with rfl | hdirs
  · exact ⟨[], rfl, .inl rfl⟩
  · rw [Text.join_append hdirs hne] at hnewline ⊢
    refine ⟨Text.join ['/'] dirs ++ ['/'], by simp, .inr ⟨_, rfl, fun hmem => hnewline ?_⟩⟩
    exact List.mem_append_left _ hmem

/-- A pattern that begins with `**/` takes any folders before what the rest of it takes. -/
theorem matchesPattern_atAnyDepth {p s : Text} {ts : List Token} {dirs names : List Text}
    (hp : normalize p = '*' :: '*' :: '/' :: s) (hs : tokens (cutPieces s) = .ok ts)
    (hne : names ≠ []) (hnewline : '\n' ∉ Text.join ['/'] (dirs ++ names))
    (hnames : Matches ts (Text.join ['/'] names)) :
    MatchesPattern p (Text.join ['/'] (dirs ++ names)) := by
  obtain ⟨u, hjoin, hu⟩ := exists_takes_folders dirs hne hnewline
  refine ⟨.folders :: ts, ?_, u, Text.join ['/'] names, hjoin, hu, hnames⟩
  rw [parse, hp, cutPieces_folders, tokens, hs]
  rfl

/-- The pattern of the names with an ending, in any folder. -/
theorem matchesPattern_ending {p stem ending : Text} {folders : List Text}
    (hp : normalize p = '*' :: '*' :: '/' :: '*' :: ending) (hhead : ending.head? ≠ some '*')
    (hending : IsLiteral ending) (hstem : '/' ∉ stem)
    (hnewline : '\n' ∉ Text.join ['/'] (folders ++ [stem ++ ending])) :
    MatchesPattern p (Text.join ['/'] (folders ++ [stem ++ ending])) := by
  have htokens : tokens (cutPieces ('*' :: ending)) =
      .ok (.many (.allBut '/') :: literals ending) := by
    rw [cutPieces_segment hhead, tokens, tokens_literals hending]
    rfl
  refine matchesPattern_atAnyDepth hp htokens (by simp) hnewline
    ⟨stem, ending, rfl, fun c hc => ?_, matches_literals ending⟩
  refine (CharSet.contains_allBut _ _).2 ?_
  rintro rfl
  exact hstem hc

/-! ## Lists of patterns -/

/-- A path that no pattern of a list has matched is not matched by any of them. -/
theorem not_matchesPattern_of_matchesAny {ps : List Text} {path : Text}
    (h : matchesAny ps path = .ok false) : ∀ p ∈ ps, ¬MatchesPattern p path := by
  induction ps with
  | nil => simp
  | cons p ps ih =>
    rw [matchesAny, bind_eq_ok] at h
    obtain ⟨ts, hts, h⟩ := h
    split_ifs at h with haccepts
    · cases h
    rintro q hq ⟨us, hus, hmatches⟩
    rcases List.mem_cons.1 hq with rfl | hq
    · rw [hts] at hus
      cases hus
      exact haccepts ((accepts_iff ts path).2 hmatches)
    · exact ih h q hq ⟨us, hus, hmatches⟩

end InsecureLinks.Glob
