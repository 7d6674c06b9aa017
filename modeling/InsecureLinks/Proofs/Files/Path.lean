import Mathlib
import InsecureLinks.Files.FileTree
import InsecureLinks.Proofs.Text.Field

/-!
# Paths as they are written

A path that has been read has no empty names, no `.` and no slash in a name (`Path.IsNormal`).
Such a path is got back from what is written for it (`ofText_text`), and a look-up goes through its
names (`lookupNames_text`).
-/

namespace InsecureLinks.Path

/-- Whether a path has only names that reading a path leaves in it. -/
def IsNormal (p : Path) : Prop := ∀ n ∈ p.names, n ≠ [] ∧ n ≠ dot ∧ '/' ∉ n

theorem isNormal_ofText (t : Text) : (ofText t).IsNormal := by
  intro n hn
  obtain ⟨hfield, hname⟩ := List.mem_filter.1 hn
  have hname : n ≠ [] ∧ n ≠ dot := by simpa using hname
  exact ⟨hname.1, hname.2, Text.not_mem_of_mem_fields hfield⟩

section Names

variable {names : List Text} (hnames : ∀ n ∈ names, n ≠ [] ∧ n ≠ dot ∧ '/' ∉ n)

include hnames

theorem head_join_names {c : Char} (h : (Text.join ['/'] names).head? = some c) : c ≠ '/' := by
  rcases names with _ | ⟨n, ns⟩
  · simp [Text.join] at h
  · obtain ⟨hne, -, hslash⟩ := hnames n (by simp)
    obtain ⟨d, n', rfl⟩ := List.exists_cons_of_ne_nil hne
    have hc : d = c := by
      rcases eq_or_ne ns [] with rfl | hns
      · simpa [Text.join] using h
      · simpa [Text.join_cons hns] using h
    rw [← hc]
    rintro rfl
    simp at hslash

theorem join_names_ne_nil (hne : names ≠ []) : Text.join ['/'] names ≠ [] := by
  obtain ⟨n, ns, rfl⟩ := List.exists_cons_of_ne_nil hne
  obtain ⟨hn, -⟩ := hnames n (by simp)
  rcases eq_or_ne ns [] with rfl | hns
  · exact hn
  · rw [Text.join_cons hns]
    simp [hn]

theorem getLast_join_names (hne : names ≠ []) : (Text.join ['/'] names).getLast? ≠ some '/' := by
  induction names with
  | nil => exact absurd rfl hne
  | cons n ns ih =>
    rcases eq_or_ne ns [] with rfl | hns
    · intro h
      exact (hnames n (by simp)).2.2 (List.mem_of_getLast? h)
    · have hrest := fun m hm => hnames m (List.mem_cons_of_mem _ hm)
      rw [Text.join_cons hns, ← List.append_assoc,
        List.getLast?_append_of_ne_nil _ (join_names_ne_nil hrest hns)]
      exact ih hrest hns

theorem namesOf_join : namesOf (Text.join ['/'] names) = names := by
  rcases eq_or_ne names [] with rfl | hne
  · decide
  · rw [namesOf, Text.fields_join hne fun n hn => (hnames n hn).2.2, List.filter_eq_self]
    intro n hn
    simpa using ⟨(hnames n hn).1, (hnames n hn).2.1⟩

theorem takeWhile_join_names : (Text.join ['/'] names).takeWhile (· = '/') = [] := by
  rcases hjoin : Text.join ['/'] names with _ | ⟨c, t⟩
  · rfl
  · rw [List.takeWhile_cons_of_neg]
    simpa using head_join_names hnames (hjoin ▸ rfl)

theorem ofText_join : ofText (Text.join ['/'] names) = ⟨.here, names⟩ := by
  rw [ofText, namesOf_join hnames, startOf, takeWhile_join_names hnames]
  rfl

end Names

theorem namesOf_slash (t : Text) : namesOf ('/' :: t) = namesOf t := by
  rw [namesOf, namesOf, Text.fields, if_pos rfl, List.filter_cons_of_neg (by simp)]

theorem text_of_ne_nil (s : PathStart) {names : List Text} (h : names ≠ []) :
    text ⟨s, names⟩ = startText s ++ Text.join ['/'] names := by
  obtain ⟨n, ns, rfl⟩ := List.exists_cons_of_ne_nil h
  rcases s with _ | _ | _
  · rfl
  · rfl
  · rfl

/-- A path is got back from what is written for it. -/
theorem ofText_text {p : Path} (h : p.IsNormal) : ofText p.text = p := by
  obtain ⟨start, names⟩ := p
  rcases eq_or_ne names [] with rfl | hne
  · cases start with
    | here | top | topTwice => decide
  · have hnames : namesOf (Text.join ['/'] names) = names := namesOf_join h
    have htake := takeWhile_join_names h
    rw [text_of_ne_nil start hne]
    cases start with
    | here => exact ofText_join h
    | top =>
      rw [startText, List.singleton_append, ofText, namesOf_slash, hnames, startOf]
      simp [htake, PathStart.ofSlashes]
    | topTwice =>
      rw [startText, List.cons_append, List.singleton_append, ofText, namesOf_slash,
        namesOf_slash, hnames, startOf]
      simp [htake, PathStart.ofSlashes]

/-- The path to names beneath a path. -/
theorem join_names (p : Path) {names : List Text}
    (h : ∀ n ∈ names, n ≠ [] ∧ n ≠ dot ∧ '/' ∉ n) :
    p.join (Text.join ['/'] names) = ⟨p.start, p.names ++ names⟩ := by
  rw [join, ofText_join h, append, isAbsolute]
  rfl

theorem isNormal_join_names {p : Path} (hp : p.IsNormal) {names : List Text}
    (h : ∀ n ∈ names, n ≠ [] ∧ n ≠ dot ∧ '/' ∉ n) : (p.join (Text.join ['/'] names)).IsNormal := by
  rw [join_names p h]
  intro n hn
  rcases List.mem_append.1 hn with hn | hn
  · exact hp n hn
  · exact h n hn

/-- A look-up of a written path goes through its names.  A path without names asks for a folder
where it begins. -/
theorem lookupNames_text {p : Path} (h : p.IsNormal) :
    FileTree.lookupNames p.text = if p.names = [] then [dot] else p.names := by
  obtain ⟨start, names⟩ := p
  rcases eq_or_ne names [] with rfl | hne
  · cases start with
    | here | top | topTwice => decide
  · have hfields : Text.fields '/' (Text.join ['/'] names) = names :=
      Text.fields_join hne fun n hn => (h n hn).2.2
    have hfilter : names.filter (· ≠ []) = names := by
      rw [List.filter_eq_self]
      intro n hn
      simpa using (h n hn).1
    have hlast : (startText start ++ Text.join ['/'] names).getLast? ≠ some '/' := by
      rw [List.getLast?_append_of_ne_nil _ (join_names_ne_nil h hne)]
      exact getLast_join_names h hne
    rw [if_neg hne, FileTree.lookupNames, text_of_ne_nil start hne, if_neg hlast, List.append_nil]
    cases start with
    | here => rw [startText, List.nil_append, hfields, hfilter]
    | top =>
      rw [startText, List.singleton_append, Text.fields, if_pos rfl, List.filter_cons_of_neg (by simp),
        hfields, hfilter]
    | topTwice =>
      rw [startText, List.cons_append, List.singleton_append, Text.fields, if_pos rfl,
        List.filter_cons_of_neg (by simp), Text.fields, if_pos rfl,
        List.filter_cons_of_neg (by simp), hfields, hfilter]

/-- Apart from dots and slashes, a path has the characters of its names. -/
theorem not_mem_text {p : Path} {c : Char} (hdot : c ≠ '.') (hslash : c ≠ '/')
    (h : ∀ n ∈ p.names, c ∉ n) : c ∉ p.text := by
  obtain ⟨start, names⟩ := p
  have hstart : c ∉ startText start := by cases start <;> simp [startText, hslash]
  rcases eq_or_ne names [] with rfl | hne
  · cases start with
    | here => simpa [text, dot] using hdot
    | top | topTwice => simpa [text, Text.join] using hstart
  · rw [text_of_ne_nil start hne, List.mem_append, not_or]
    refine ⟨hstart, fun hmem => ?_⟩
    rcases Text.mem_join hmem with hsep | ⟨n, hn, hc⟩
    · exact hslash (List.mem_singleton.1 hsep)
    · exact h n hn hc

/-- Apart from dots and slashes, nothing in a text is lost when it is read as a path. -/
theorem mem_text_ofText {t : Text} {c : Char} (hdot : c ≠ '.') (hslash : c ≠ '/') (h : c ∈ t) :
    c ∈ (ofText t).text := by
  rw [← Text.join_fields '/' t] at h
  rcases Text.mem_join h with hsep | ⟨n, hn, hc⟩
  · exact absurd (List.mem_singleton.1 hsep) hslash
  · have hname : n ∈ namesOf t := by
      refine List.mem_filter.2 ⟨hn, decide_eq_true ⟨List.ne_nil_of_mem hc, ?_⟩⟩
      rintro rfl
      exact hdot (List.mem_singleton.1 hc)
    rw [ofText, text_of_ne_nil _ (List.ne_nil_of_mem hname)]
    exact List.mem_append_right _ (Text.subset_join hname hc)

theorem text_ne_nil {p : Path} (h : p.IsNormal) : p.text ≠ [] := by
  obtain ⟨start, names⟩ := p
  rcases eq_or_ne names [] with rfl | hne
  · cases start with
    | here | top | topTwice => decide
  · rw [text_of_ne_nil start hne]
    simp [join_names_ne_nil h hne]

end InsecureLinks.Path
