import Mathlib
import InsecureLinks.Proofs.Glob.Literal
import InsecureLinks.Proofs.Scan.Naming
import InsecureLinks.Proofs.Scan.Report
import InsecureLinks.Proofs.Scan.Selection
import InsecureLinks.Proofs.Scan.Visiting

/-!
# What is never scanned

Some paths are excluded whatever else is: what is beneath the folders of version control and of the
editor, beneath the build folder, compiled classes, key stores, and the two files of namespace
names.  `IsAlwaysExcluded` says which these are by the names on the path, not by patterns, and no scan
finds one of them (`not_isAlwaysExcluded_of_find`).

The path is the one by which the walk comes to a file.  A link to the folder of version control has
another name, and what is behind it is scanned.
-/

namespace InsecureLinks

open Glob

/-- Whether names spell a build folder for which patterns and folders agree: its names could be on
a path, and every character of them stands for itself in a pattern. -/
structure Target.HasBuildFolder (t : Target) (names : List Text) : Prop where
  text : t.buildDir = Text.join ['/'] names
  ne_nil : names ≠ []
  name : ∀ n ∈ names, n ≠ [] ∧ n ≠ Path.dot ∧ '/' ∉ n
  literal : ∀ n ∈ names, IsLiteral n
  unblank : ∀ n ∈ names, ∀ c ∈ n, Text.isBlank c = false ∧ c ≠ '\\'

/-- The paths that are never scanned, as names from the root. -/
inductive IsAlwaysExcluded (build : List Text) : List Text → Prop
  | versionControl {rest} (h : rest ≠ []) : IsAlwaysExcluded build (".git".toList :: rest)
  | editor {rest} (h : rest ≠ []) : IsAlwaysExcluded build (".idea".toList :: rest)
  | built {rest} (h : rest ≠ []) : IsAlwaysExcluded build (build ++ rest)
  | compiled {folders stem} : IsAlwaysExcluded build (folders ++ [stem ++ ".class".toList])
  | keyStore {folders stem} : IsAlwaysExcluded build (folders ++ [stem ++ ".jks".toList])
  | handlers {folders} :
      IsAlwaysExcluded build (folders ++ ["META-INF".toList, "spring.handlers".toList])
  | schemas {folders} :
      IsAlwaysExcluded build (folders ++ ["META-INF".toList, "spring.schemas".toList])

/-! ## The build folder -/

namespace Target.HasBuildFolder

variable {t : Target} {names : List Text} (h : t.HasBuildFolder names)

include h

theorem buildDir_ne_nil : t.buildDir ≠ [] := by
  rw [h.text]
  exact Path.join_names_ne_nil h.name h.ne_nil

/-- A property of the slash and of every character of the names holds throughout. -/
theorem forall_mem {P : Char → Prop} (hslash : P '/') (hnames : ∀ n ∈ names, ∀ c ∈ n, P c) :
    ∀ c ∈ t.buildDir, P c := by
  intro c hc
  rw [h.text] at hc
  rcases Text.mem_join hc with hc | ⟨n, hn, hc⟩
  · rwa [List.mem_singleton.1 hc]
  · exact hnames n hn c hc

/-- There are no slashes around the names. -/
theorem trimBuildDir_eq : trimBuildDir t.buildDir = t.buildDir := by
  have hhead : ∀ c, t.buildDir.head? = some c → c ≠ '/' := by
    intro c hc
    rw [h.text] at hc
    exact Path.head_join_names h.name hc
  have hlast : t.buildDir.getLast? ≠ some '/' := by
    rw [h.text]
    exact Path.getLast_join_names h.name h.ne_nil
  obtain ⟨c, u, hcons⟩ := List.exists_cons_of_ne_nil h.buildDir_ne_nil
  obtain ⟨v, d, hconcat⟩ : ∃ v d, t.buildDir = v ++ [d] := by
    rcases List.eq_nil_or_concat t.buildDir with hnil | ⟨v, d, hconcat⟩
    · exact absurd hnil h.buildDir_ne_nil
    · exact ⟨v, d, by rw [hconcat, List.concat_eq_append]⟩
  have hd : d ≠ '/' := by
    rintro rfl
    exact hlast (by rw [hconcat, List.getLast?_concat])
  have hleft : t.buildDir.dropWhile (· = '/') = t.buildDir := by
    rw [hcons, List.dropWhile_cons_of_neg]
    simpa using hhead c (by rw [hcons]; rfl)
  have hright : t.buildDir.reverse.dropWhile (· = '/') = t.buildDir.reverse := by
    rw [hconcat, List.reverse_concat, List.dropWhile_cons_of_neg]
    simpa using hd
  rw [trimBuildDir]
  simp only [hleft, hright, List.reverse_reverse]
  rw [if_neg (by simpa using h.buildDir_ne_nil)]

theorem isLiteral : IsLiteral t.buildDir := by
  rw [h.text]
  exact ⟨Walk.not_mem_relative (by decide) fun n hn => (h.literal n hn).1,
    Walk.not_mem_relative (by decide) fun n hn => (h.literal n hn).2.1,
    Walk.not_mem_relative (by decide) fun n hn => (h.literal n hn).2.2⟩

/-- The pattern of what has been built is read as it is written. -/
theorem normalize_pattern : normalize (t.buildDir ++ subtreeEnd) = t.buildDir ++ subtreeEnd := by
  have hplain := h.forall_mem (P := fun c => Text.isBlank c = false ∧ c ≠ '\\') (by decide) h.unblank
  refine normalize_of_ends (fun c hc => ?_) (fun c hc => ?_) (fun hmem => ?_) (fun u hu => ?_)
  · rw [List.head?_append_of_ne_nil _ h.buildDir_ne_nil] at hc
    exact (hplain c (List.mem_of_head? hc)).1
  · rw [List.getLast?_append_of_ne_nil _ (by decide)] at hc
    obtain rfl : '*' = c := by simpa [subtreeEnd] using hc
    decide
  · rcases List.mem_append.1 hmem with hmem | hmem
    · exact (hplain _ hmem).2 rfl
    · exact absurd hmem (by decide)
  · -- The first name is not `.`, so there is a further character before the first slash.
    obtain ⟨n, ns, rfl⟩ := List.exists_cons_of_ne_nil h.ne_nil
    obtain ⟨hne, hdot, hslash⟩ := h.name n (List.mem_cons_self ..)
    obtain ⟨rest, hrest⟩ : ∃ rest, t.buildDir = n ++ rest := by
      rw [h.text]
      rcases eq_or_ne ns [] with rfl | hns
      · exact ⟨[], by rw [List.append_nil]; rfl⟩
      · exact ⟨_, Text.join_cons hns _⟩
    rw [hrest, List.append_assoc] at hu
    rcases n with _ | ⟨c, _ | ⟨d, n⟩⟩
    · exact hne rfl
    · obtain ⟨rfl, -⟩ := List.cons.inj hu
      exact hdot rfl
    · obtain ⟨-, hu⟩ := List.cons.inj hu
      obtain ⟨rfl, -⟩ := List.cons.inj hu
      simp at hslash

end Target.HasBuildFolder

/-! ## The patterns that are always in force -/

/-- Some pattern that is always in force matches each of the paths that are never scanned. -/
theorem IsAlwaysExcluded.exists_matchesPattern {t : Target} {build names : List Text}
    (hbuild : t.HasBuildFolder build) (hslash : ∀ n ∈ names, '/' ∉ n)
    (hnewline : '\n' ∉ Text.join ['/'] names) (h : IsAlwaysExcluded build names) :
    ∃ p ∈ defaultExcludes t.buildDir, MatchesPattern p (Text.join ['/'] names) := by
  have hstem {folders : List Text} {stem ending : Text}
      (hnames : ∀ n ∈ folders ++ [stem ++ ending], '/' ∉ n) : '/' ∉ stem := fun hmem =>
    hnames _ (List.mem_append_right _ (List.mem_singleton_self _)) (List.mem_append_left _ hmem)
  cases h with
  | @versionControl rest hrest =>
    refine ⟨".git".toList ++ subtreeEnd, by simp [defaultExcludes, subtreeEnd], ?_⟩
    exact matchesPattern_beneath [".git".toList] (by simp) hrest rfl (by cbv) (by decide)
      hnewline
  | @editor rest hrest =>
    refine ⟨".idea".toList ++ subtreeEnd, by simp [defaultExcludes, subtreeEnd], ?_⟩
    exact matchesPattern_beneath [".idea".toList] (by simp) hrest rfl (by cbv) (by decide)
      hnewline
  | built hrest =>
    refine ⟨t.buildDir ++ subtreeEnd, ?_, matchesPattern_beneath _ hbuild.ne_nil hrest
      hbuild.text.symm hbuild.normalize_pattern hbuild.isLiteral hnewline⟩
    simp [defaultExcludes, hbuild.trimBuildDir_eq, subtreeEnd]
  | compiled =>
    refine ⟨"**/*.class".toList, by simp [defaultExcludes], ?_⟩
    exact matchesPattern_ending (by cbv) (by decide) (by decide) (hstem hslash) hnewline
  | keyStore =>
    refine ⟨"**/*.jks".toList, by simp [defaultExcludes], ?_⟩
    exact matchesPattern_ending (by cbv) (by decide) (by decide) (hstem hslash) hnewline
  | handlers =>
    refine ⟨"**/META-INF/spring.handlers".toList, by simp [defaultExcludes], ?_⟩
    exact matchesPattern_atAnyDepth (s := "META-INF/spring.handlers".toList) (by cbv)
      (tokens_literals (by decide)) (by simp) hnewline (matches_literals _)
  | schemas =>
    refine ⟨"**/META-INF/spring.schemas".toList, by simp [defaultExcludes], ?_⟩
    exact matchesPattern_atAnyDepth (s := "META-INF/spring.schemas".toList) (by cbv)
      (tokens_literals (by decide)) (by simp) hnewline (matches_literals _)

namespace Scan

open Walk

variable {tree : FileTree} {here : Place} {target : Target}

/-- A file that is selected has been tried against all patterns of excluded files. -/
theorem matchesAny_of_selects {plan : Plan} {path : Text} (h : selects plan path = .ok true) :
    Glob.matchesAny plan.excluded path = .ok false := by
  have hrest : ∃ isIncluded : Bool, (if isIncluded then
      return !(← Glob.matchesAny plan.excluded path) else return false) = Except.ok true := by
    rw [selects] at h
    split_ifs at h
    · exact ⟨true, h⟩
    · obtain ⟨isIncluded, -, h⟩ := bind_eq_ok.1 h
      exact ⟨isIncluded, h⟩
  obtain ⟨isIncluded, hrest⟩ := hrest
  split_ifs at hrest
  · obtain ⟨isExcluded, hexcluded, hrest⟩ := bind_eq_ok.1 hrest
    cases isExcluded with
    | false => exact hexcluded
    | true => cases hrest
  · cases hrest

/-- A file that is found is matched by no pattern that is in force. -/
theorem not_matchesPattern_of_find {found : List SourceFile} {met : List Diagnostic}
    (hfind : find tree here target = .ok (found, met)) {f : SourceFile} (hf : f ∈ found) :
    ∀ p ∈ target.effectiveExcludes, ¬MatchesPattern p f.relativePath := by
  obtain ⟨place, hcomes⟩ := exists_leads_of_mem_found hfind hf
  obtain @⟨r, start, names, trail, p, content, -, -, -, -, hselects⟩ := hcomes
  exact not_matchesPattern_of_matchesAny (matchesAny_of_selects hselects)

/-- Whatever the user includes and excludes, no scan finds a path that is always excluded; and a
scan of folders finds its files if the patterns of the user can be read. -/
theorem not_isAlwaysExcluded_of_find {build : List Text} (htree : tree.Lacks '\n')
    (hbuild : target.HasBuildFolder build)
    (hpatterns : ∀ p ∈ target.included ++ target.excluded, ∃ ts, Glob.parse p = .ok ts) :
    (∀ found met, find tree here target = .ok (found, met) →
      ∀ f ∈ found, ¬IsAlwaysExcluded build (Text.fields '/' f.relativePath)) ∧
    ((∀ r ∈ target.roots, ∃ place, tree.reach here (Path.ofText r).text = .ok (place, .folder)) →
      ∃ found, find tree here target = .ok found) := by
  refine ⟨fun found met hfind f hf hexcluded => ?_, fun hroots => ?_⟩
  · have hnewline := (Walk.not_mem_of_find htree (by decide) (by decide) hfind f hf).relativePath
    have hjoin := Text.join_fields '/' f.relativePath
    obtain ⟨p, hp, hmatches⟩ := hexcluded.exists_matchesPattern hbuild
      (fun n hn => Text.not_mem_of_mem_fields hn) (by rwa [hjoin])
    rw [hjoin] at hmatches
    exact not_matchesPattern_of_find hfind hf p (List.mem_append_left _ hp) hmatches
  · refine roots_eq_ok hroots (fun p hp => hpatterns p (List.mem_append_left _ hp)) fun p hp => ?_
    rcases List.mem_append.1 hp with hp | hp
    · exact exists_parse_defaultExcludes hbuild.isLiteral.2.2 p hp
    · exact hpatterns p (List.mem_append_right _ (List.mem_of_mem_filter hp))

/-- A folder `r` with something of each kind that is never scanned, a link `l` to the folder of version
control, and a file `o/b` beside what has been built. -/
def withBuild : FileTree :=
  ⟨[(["r".toList], .folder), (["r".toList, ".git".toList], .folder),
    (["r".toList, ".git".toList, "a".toList], .file (.bytes [])),
    (["r".toList, "l".toList], .link ".git".toList), (["r".toList, "o".toList], .folder),
    (["r".toList, "o".toList, "b".toList], .file (.bytes [])),
    (["r".toList, "o".toList, "k.jks".toList], .file (.bytes [])),
    (["r".toList, "o".toList, "x".toList], .folder),
    (["r".toList, "o".toList, "x".toList, "c".toList], .file (.bytes []))], [], []⟩

/-- All files beneath `r`, with `o/x` for what is built. -/
def buildTarget : Target := ⟨["r".toList], ["**".toList], ["[!-~]".toList], "o/x".toList⟩

theorem hasBuildFolder_buildTarget : buildTarget.HasBuildFolder ["o".toList, "x".toList] := by
  refine ⟨by decide, by decide, by decide, ?_, ?_⟩
  all_goals
    simp only [List.mem_cons, List.not_mem_nil, or_false]
    rintro n (rfl | rfl)
  · decide
  · decide
  · intro c hc
    obtain rfl : c = 'o' := by simpa using hc
    decide
  · intro c hc
    obtain rfl : c = 'x' := by simpa using hc
    decide

theorem find_withBuild : find withBuild [] buildTarget =
    .ok ([⟨"r".toList, "l/a".toList⟩, ⟨"r".toList, "o/b".toList⟩], []) := by cbv

theorem not_isAlwaysExcluded_of_find_withBuild :
    find withBuild [] buildTarget =
      .ok ([⟨"r".toList, "l/a".toList⟩, ⟨"r".toList, "o/b".toList⟩], []) ∧
    ∀ f ∈ [⟨"r".toList, "l/a".toList⟩, ⟨"r".toList, "o/b".toList⟩],
      ¬IsAlwaysExcluded ["o".toList, "x".toList] (Text.fields '/' (SourceFile.relativePath f)) := by
  have hpatterns : ∀ p ∈ buildTarget.included ++ buildTarget.excluded,
      ∃ ts, Glob.parse p = .ok ts := by
    have hclass : Glob.parse "[!-~]".toList = .ok [.one ⟨true, [('-', '-'), ('~', '~')]⟩] := by cbv
    intro p hp
    simp only [buildTarget, List.mem_append, List.mem_singleton] at hp
    rcases hp with rfl | rfl
    · exact Glob.exists_parse_of_noClass (by decide)
    · exact ⟨_, hclass⟩
  obtain ⟨hfound, -⟩ := @not_isAlwaysExcluded_of_find withBuild [] buildTarget
    ["o".toList, "x".toList] (FileTree.lacks_of_nodes (by decide)) hasBuildFolder_buildTarget
    hpatterns
  exact ⟨find_withBuild, hfound _ _ find_withBuild⟩

end Scan

end InsecureLinks
