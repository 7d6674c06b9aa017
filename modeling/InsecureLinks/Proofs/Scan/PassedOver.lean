import Mathlib
import InsecureLinks.Proofs.Glob.Literal
import InsecureLinks.Proofs.Scan.Selection

/-!
# Folders that are passed over

A walk passes over the folders that `q` matches, since a pattern `q/**` excludes what is in them.
`excludes_beneath_iff` says when it does.  A blank at the end of `q` is a part of the folder's name
in `q/**` and is stripped off when `q` is read by itself, so that `a /**` excludes what is in the
folder `a ` and lets a walk pass over the folder `a` (`roots_of_blankEnd`).  Every such pattern does
harm: of the paths that `q` alone matches, a shortest one has nothing in it that `q/**` matches.
-/

namespace InsecureLinks

namespace Glob

/-! ## Patterns with a blank before their end -/

section BlankEnd

variable {p q : Text} {ts us : List Token}

/-- A pattern with a blank before its end is read as the pattern of the folders, followed by blanks
and the end. -/
theorem exists_of_parse_blankEnd (hp : parse p = .ok ts) (hq : subtreePattern? p = some q)
    (hus : parse q = .ok us) {b : Char} (hlast : q.getLast? = some b)
    (hb : Text.isBlank b = true) :
    ∃ w ≠ [], ts = us ++ (literals w ++ [.one (.only '/'), .many (.allBut '\n')]) := by
  obtain ⟨hnormp, hnormq⟩ := normalize_of_subtreePattern hq
  obtain ⟨w, hqw, hw⟩ := Text.exists_blanks q
  have hne : w ≠ [] := by
    rintro rfl
    rw [List.append_nil] at hqw
    rw [hqw] at hlast
    rw [Text.getLast_stripRight hlast] at hb
    cases hb
  have hslash : (w ++ subtreeEnd).head? ≠ some '/' := by
    obtain ⟨c, w, rfl⟩ := List.exists_cons_of_ne_nil hne
    rintro ⟨⟩
    exact absurd (hw '/' (by simp)) (by decide)
  have hliteral : IsLiteral w := by
    have hnot : ∀ c, Text.isBlank c = false → c ∉ w := by
      intro c hc hmem
      rw [hw c hmem] at hc
      cases hc
    exact ⟨hnot _ (by decide), hnot _ (by decide), hnot _ (by decide)⟩
  -- The blanks keep the two parts of the pattern from growing together.
  have htext : dropHere (q ++ subtreeEnd) = dropHere q.stripRight ++ (w ++ subtreeEnd) := by
    have hparts : q ++ subtreeEnd = q.stripRight ++ (w ++ subtreeEnd) := by
      rw [← List.append_assoc, ← hqw]
    rw [hparts]
    rcases dropHere_append q.stripRight
      (head_blanks_subtreeEnd hw (c := '.') (by decide) (by decide)) with happ | ⟨-, v, hv, -⟩
    · exact happ
    · exact absurd (by rw [hv]; rfl) hslash
  have hpieces : cutPieces (dropHere (q ++ subtreeEnd)) =
      cutPieces (dropHere q.stripRight) ++ cutPieces (w ++ subtreeEnd) := by
    rw [htext]
    rcases cutPieces_append (dropHere q.stripRight)
      (not_mem_blanks_subtreeEnd hw (c := ']') (by decide) (by decide) (by decide))
      (head_blanks_subtreeEnd hw (c := '*') (by decide) (by decide)) with hjoin | ⟨_, v, hv, -, -⟩
    · exact hjoin
    · exact absurd (by rw [hv]; rfl) hslash
  have hend : tokens (cutPieces (w ++ subtreeEnd)) =
      .ok (literals w ++ [.one (.only '/'), .many (.allBut '\n')]) := by
    apply tokens_literals_append hliteral
    rw [cutPieces_subtreeEnd, tokens_subtreeEnd]
  rw [parse, hnormq] at hus
  rw [parse, hnormp, hpieces, tokens_append _ hus, hend] at hp
  cases hp
  exact ⟨w, hne, rfl⟩

/-- What a pattern with a blank before its end matches has blanks and a slash after something that
the pattern of the folders matches. -/
theorem exists_of_matches_blankEnd (hp : parse p = .ok ts) (hq : subtreePattern? p = some q)
    (hus : parse q = .ok us) {b : Char} (hlast : q.getLast? = some b) (hb : Text.isBlank b = true)
    {y : Text} (h : Matches ts y) :
    ∃ l w z, y = l ++ (w ++ '/' :: z) ∧ w ≠ [] ∧ Matches us l := by
  obtain ⟨w, hne, rfl⟩ := exists_of_parse_blankEnd hp hq hus hlast hb
  obtain ⟨l, v, rfl, hl, hv⟩ := matches_append.1 h
  obtain ⟨w', v, rfl, hw', hv⟩ := matches_append.1 hv
  obtain ⟨_, z, rfl, ⟨c, hc, rfl⟩, -⟩ := hv
  rw [CharSet.contains_only] at hc
  subst hc
  rw [eq_of_matches_literals hw']
  exact ⟨l, w, z, rfl, hne, hl⟩

theorem exists_eq_append_of_slash {d u z : Text} {c : Char} (hc : c ≠ '/')
    (h : d ++ ['/', c] = u ++ '/' :: z) : ∃ v, d = u ++ v := by
  rcases List.append_eq_append_iff.1 h with ⟨a, rfl, ha⟩ | ⟨v, rfl, -⟩
  · rcases a with _ | ⟨e, _ | ⟨f, a⟩⟩
    · exact ⟨[], by simp⟩
    · obtain ⟨-, rfl, -⟩ : '/' = e ∧ c = '/' ∧ [] = z := by simpa using ha
      exact absurd rfl hc
    · simp at ha
  · exact ⟨v, rfl⟩

/-- A pattern with a blank before its end excludes all that is in the folders that are passed over
for it only if there are no such folders. -/
theorem not_matches_of_blankEnd (hp : parse p = .ok ts) (hq : subtreePattern? p = some q)
    (hus : parse q = .ok us) {b : Char} (hlast : q.getLast? = some b) (hb : Text.isBlank b = true)
    (hbeneath : ∀ d x, '\n' ∉ d → '\n' ∉ x → x ≠ [] → Matches us d → Matches ts (d ++ '/' :: x))
    {d : Text} (hd : '\n' ∉ d) : ¬Matches us d := by
  obtain ⟨n, hn⟩ : ∃ n, d.length = n := ⟨_, rfl⟩
  -- A path that `us` matches has a shorter one before it.
  induction n using Nat.strong_induction_on generalizing d with
  | _ n ih =>
    intro hmatch
    have hfile := hbeneath d ['x'] hd (by simp) (by simp) hmatch
    obtain ⟨l, w, z, hy, hne, hl⟩ := exists_of_matches_blankEnd hp hq hus hlast hb hfile
    rw [← List.append_assoc] at hy
    obtain ⟨v, rfl⟩ := exists_eq_append_of_slash (by decide) hy
    have hshorter : l.length < n := by
      have hpos := List.length_pos_of_ne_nil hne
      rw [List.length_append, List.length_append] at hn
      omega
    refine ih l.length hshorter (fun hmem => hd ?_) rfl hl
    exact List.mem_append_left _ (List.mem_append_left _ hmem)

end BlankEnd

/-! ## The exact condition -/

theorem getLast_of_noBlankBeforeEnd {p q : Text} (hq : subtreePattern? p = some q)
    (h : NoBlankBeforeEnd [p]) {c : Char} (hc : q.getLast? = some c) : Text.isBlank c = false := by
  obtain ⟨hp, -⟩ := subtreePattern?_eq_some.1 hq
  obtain ⟨u, rfl⟩ := List.getLast?_eq_some_iff.1 hc
  refine h p (by simp) u c ?_
  rw [hp, List.append_assoc]
  rfl

theorem exists_blankEnd {p q : Text} (hq : subtreePattern? p = some q)
    (h : ¬NoBlankBeforeEnd [p]) : ∃ b, q.getLast? = some b ∧ Text.isBlank b = true := by
  obtain ⟨hp, -⟩ := subtreePattern?_eq_some.1 hq
  unfold NoBlankBeforeEnd at h
  push Not at h
  obtain ⟨p', hp', u, c, hend, hc⟩ := h
  obtain rfl := List.mem_singleton.1 hp'
  have hq' : q = u ++ [c] := by
    rw [hp] at hend
    have happ : q ++ subtreeEnd = u ++ [c] ++ subtreeEnd := by
      rw [hend, List.append_assoc]
      rfl
    exact List.append_cancel_right happ
  exact ⟨c, by rw [hq', List.getLast?_concat], by simpa using hc⟩

theorem subtrees_singleton {p q : Text} {us : List Token} (hq : subtreePattern? p = some q)
    (hus : parse q = .ok us) : subtrees [p] = .ok [us] := by
  have hpatterns : [p].filterMap subtreePattern? = [q] := by simp [hq]
  rw [subtrees, hpatterns, List.mapM_cons, hus]
  rfl

/-- The folders that are passed over for a pattern that ends in `/**`, with something before, have
all that is in them excluded by it exactly if there is no blank before the end or there are no such
folders.  Then no walk selects anything that is in one of them. -/
theorem excludes_beneath_iff {p : Text} {ts : List Token} (hp : parse p = .ok ts)
    (hend : Text.endsWith "/**".toList (Text.replaceChar '\\' '/' p.strip) = true)
    (hlength : 3 < (Text.replaceChar '\\' '/' p.strip).length) :
    ∃ us, subtrees [p] = .ok [us] ∧
      ((∀ d x, '\n' ∉ d → '\n' ∉ x → x ≠ [] → accepts us d = true →
          accepts ts (d ++ '/' :: x) = true) ↔
        NoBlankBeforeEnd [p] ∨ ∀ d, '\n' ∉ d → accepts us d = false) ∧
      (NoBlankBeforeEnd [p] → ∀ plan : Walk.Plan, plan.IsReadable → p ∈ plan.excluded →
        ∀ d x, '\n' ∉ d → '\n' ∉ x → accepts us d = true →
          Walk.selects plan (d ++ '/' :: x) = .ok false) := by
  obtain ⟨q, hq⟩ : ∃ q, subtreePattern? p = some q := by
    rw [subtreePattern?]
    exact ⟨_, if_pos ⟨hend, hlength⟩⟩
  obtain ⟨us, hus⟩ := exists_parse_subtreePattern hp hq
  have hbeneath : NoBlankBeforeEnd [p] → ∀ d x, '\n' ∉ d → '\n' ∉ x → Matches us d →
      Matches ts (d ++ '/' :: x) := fun hblank d x hd hx hmatch =>
    matches_of_subtreePattern hp hq hus (fun _ => getLast_of_noBlankBeforeEnd hq hblank) hmatch hd hx
  refine ⟨us, subtrees_singleton hq hus, ⟨fun h => ?_, ?_⟩, ?_⟩
  · by_cases hblank : NoBlankBeforeEnd [p]
    · exact .inl hblank
    · obtain ⟨b, hlast, hb⟩ := exists_blankEnd hq hblank
      simp only [accepts_iff] at h
      refine .inr fun d hd => Bool.eq_false_iff.2 fun haccepts => ?_
      exact not_matches_of_blankEnd hp hq hus hlast hb h hd ((accepts_iff us d).1 haccepts)
  · rintro (hblank | hnone) d x hd hx - haccepts
    · exact (accepts_iff ts _).2 (hbeneath hblank d x hd hx ((accepts_iff us d).1 haccepts))
    · rw [hnone d hd] at haccepts
      cases haccepts
  · intro hblank plan hplan hmem d x hd hx haccepts
    obtain ⟨b, hb, hselects⟩ := Walk.selects_eq_ok hplan (d ++ '/' :: x)
    have hmatches := hbeneath hblank d x hd hx ((accepts_iff us d).1 haccepts)
    have hfalse : b = false := Bool.eq_false_iff.2 fun htrue =>
      (hselects.1 htrue).2 p hmem ⟨ts, hp, hmatches⟩
    rw [hb, hfalse]

/-- A pattern of the folders at any depth beneath `x`, which is cut where `**/` is one piece. -/
def anyFolder : Text := " .\\x/**/** ".toList

theorem excludes_beneath_iff_anyFolder : ∃ ts us, parse anyFolder = .ok ts ∧
    Text.endsWith "/**".toList (Text.replaceChar '\\' '/' anyFolder.strip) = true ∧
    3 < (Text.replaceChar '\\' '/' anyFolder.strip).length ∧ subtrees [anyFolder] = .ok [us] ∧
    NoBlankBeforeEnd [anyFolder] ∧ accepts us "x/y/z".toList = true ∧
    (∀ d x, '\n' ∉ d → '\n' ∉ x → x ≠ [] → accepts us d = true →
      accepts ts (d ++ '/' :: x) = true) ∧
    ∀ plan : Walk.Plan, plan.IsReadable → anyFolder ∈ plan.excluded → ∀ d x, '\n' ∉ d →
      '\n' ∉ x → accepts us d = true → Walk.selects plan (d ++ '/' :: x) = .ok false := by
  obtain ⟨ts, hts⟩ := exists_parse_of_noClass (p := anyFolder) (by decide)
  obtain ⟨us, hus, hiff, hselects⟩ := excludes_beneath_iff hts (by decide) (by decide)
  have hsubtrees : subtrees [anyFolder] =
      .ok [[.one (.only 'x'), .one (.only '/'), .many (.allBut '\n')]] := by cbv
  have haccepts : accepts us "x/y/z".toList = true := by
    rw [hsubtrees] at hus
    cases hus
    decide
  have hblank : NoBlankBeforeEnd [anyFolder] := by
    intro p hp u c h
    obtain rfl := List.mem_singleton.1 hp
    have hpattern : Text.replaceChar '\\' '/' anyFolder.strip =
        "./x/*".toList ++ '*' :: "/**".toList := by decide
    rw [hpattern] at h
    obtain ⟨-, hend⟩ := List.append_inj' h rfl
    obtain rfl : '*' = c := (List.cons.inj hend).1
    decide
  exact ⟨ts, us, hts, by decide, by decide, hus, hblank, haccepts, hiff.2 (.inl hblank),
    hselects hblank⟩

/-- A folder `r` with a folder `a`, which holds a file `b`. -/
def oneDeep : FileTree :=
  ⟨[(["r".toList], .folder), (["r".toList, "a".toList], .folder),
    (["r".toList, "a".toList, "b".toList], .file (.bytes []))], [], []⟩

/-- The pattern `a /**` lets a walk pass over the folder `a` and does not match the file in it, so
that a file which no pattern excludes is not found. -/
theorem roots_of_blankEnd : ∃ ts us, parse "a /**".toList = .ok ts ∧
    Text.endsWith "/**".toList (Text.replaceChar '\\' '/' (Text.strip "a /**".toList)) = true ∧
    3 < (Text.replaceChar '\\' '/' (Text.strip "a /**".toList)).length ∧
    subtrees ["a /**".toList] = .ok [us] ∧ accepts us "a".toList = true ∧
    accepts ts "a/b".toList = false ∧
    oneDeep.node? ["r".toList, "a".toList, "b".toList] = some (.file (.bytes [])) ∧
    matchesAny ["a /**".toList] "a/b".toList = .ok false ∧
    Walk.roots oneDeep [] ["r".toList] [] ["a /**".toList] = .ok ([], []) :=
  ⟨[.one (.only 'a'), .one (.only ' '), .one (.only '/'), .many (.allBut '\n')],
    [.one (.only 'a')], by cbv, by decide, by decide, by cbv, by decide, by decide, rfl, by cbv,
    by cbv⟩

end Glob

end InsecureLinks
