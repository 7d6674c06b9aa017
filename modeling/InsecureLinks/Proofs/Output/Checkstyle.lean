import Mathlib
import InsecureLinks.Proofs.Grouping
import InsecureLinks.Proofs.Number.Numeral
import InsecureLinks.Proofs.Outcome
import InsecureLinks.Proofs.Output.Xml

/-!
# Reading a Checkstyle document

What a reader of XML finds in the document of a report (`Checkstyle.read_document`): every character of
the document is one that XML can hold, every value is written plainly, and the elements are those of the
violations, by file, whatever characters and surrogates there are in paths and lines.  Only a line or a
column with too many digits to be written keeps a report from having a document.

An element that is written is read back first of all with its values as they are written
(`Xml.Reader.feed?_text`), since no value has a quote or a `<` in it that would end it.  Each value that
is written is then resolved to what it was (`Xml.value?_escape`).
-/

namespace InsecureLinks

open Checkstyle (Element)

/-- Whether the numbers of a violation have no more digits than can be written. -/
structure Finding.IsShort (f : Finding) : Prop where
  line : Numeral.IsShort f.lineNumber
  column : Numeral.IsShort (f.columnOffset + 1)

/-- Whether the numbers of a violation have no more digits than can be written. -/
abbrev Violation.IsShort (v : Violation) : Prop := (Finding.of v).IsShort

namespace Checkstyle.Element

/-- Whether something holds of the name and the attributes of an element and of all elements in it. -/
inductive Forall (P : Text → List (Text × Text) → Prop) : Element → Prop
  | mk {name attributes children} (own : P name attributes) (inner : ∀ c ∈ children, Forall P c) :
      Forall P (.mk name attributes children)

mutual

/-- An element with the values of its attributes as they are written. -/
def written : Element → Element
  | .mk name attributes children =>
    .mk name (attributes.map fun a => (a.1, escape a.2)) (writtenAll children)

/-- Elements with the values of their attributes as they are written. -/
def writtenAll : List Element → List Element
  | [] => []
  | child :: rest => written child :: writtenAll rest

end

theorem writtenAll_eq_map (es : List Element) : writtenAll es = es.map written := by
  induction es with
  | nil => rfl
  | cons e es ih => rw [writtenAll, ih, List.map_cons]

/-- How an element with elements in it is written: its start tag, the elements, and its end tag. -/
theorem text_cons (depth : ℕ) (name : Text) (attributes : List (Text × Text)) (child : Element)
    (rest : List Element) :
    (Element.mk name attributes (child :: rest)).text depth =
      '<' :: name ++ attributes.flatMap attributeText ++
        '>' :: (childrenText (depth + 1) (child :: rest) ++
          (indent depth ++ ('<' :: '/' :: name ++ ['>']))) := by
  rw [text]
  simp only [List.cons_append, List.append_assoc]

theorem Forall.mono {P Q : Text → List (Text × Text) → Prop} (h : ∀ n as, P n as → Q n as)
    {e : Element} (he : e.Forall P) : e.Forall Q := by
  induction he with
  | mk own inner ih => exact .mk (h _ _ own) ih

theorem Forall.written {P Q : Text → List (Text × Text) → Prop}
    (h : ∀ n as, P n as → Q n (as.map fun a => (a.1, escape a.2))) {e : Element}
    (he : e.Forall P) : e.written.Forall Q := by
  induction he with
  | @mk name attributes children own inner ih =>
    rw [Element.written, writtenAll_eq_map]
    refine .mk (h _ _ own) fun c hc => ?_
    obtain ⟨child, hchild, rfl⟩ := List.mem_map.1 hc
    exact ih child hchild

end Checkstyle.Element

namespace Checkstyle

/-! ## Values -/

theorem isLegal_iff (c : CodePoint) : isLegal c = true ↔ Xml.IsCharCode c.val := by
  have hmax := c.isLt
  simp only [isLegal, Xml.IsCharCode, Bool.or_eq_true, Bool.and_eq_true, decide_eq_true_eq]
  omega

/-- A character is written as it is, or as a reference to it. -/
theorem escapeChar_cases (c : Char) :
    (escapeChar c = [c] ∧ c ≠ '&' ∧ c ≠ '<' ∧ c ≠ '"' ∧ c ≠ '\t' ∧ c ≠ '\r' ∧ c ≠ '\n') ∨
    ∃ name, escapeChar c = '&' :: (name ++ [';']) ∧ Xml.reference? name = some c ∧
      ∀ d ∈ name, Xml.IsNameChar d ∨ d = '#' := by
  have hname {name : Text} (h : name.all (fun d => Xml.IsNameChar d ∨ d = '#') = true) :
      ∀ d ∈ name, Xml.IsNameChar d ∨ d = '#' := by simpa using h
  rw [escapeChar]
  split_ifs with hamp hlt hgt hquot hr hn ht
  · exact .inr ⟨"amp".toList, rfl, hamp ▸ by decide, hname (by decide)⟩
  · exact .inr ⟨"lt".toList, rfl, hlt ▸ by decide, hname (by decide)⟩
  · exact .inr ⟨"gt".toList, rfl, hgt ▸ by decide, hname (by decide)⟩
  · exact .inr ⟨"quot".toList, rfl, hquot ▸ by decide, hname (by decide)⟩
  · exact .inr ⟨"#13".toList, rfl, hr ▸ by decide, hname (by decide)⟩
  · exact .inr ⟨"#10".toList, rfl, hn ▸ by decide, hname (by decide)⟩
  · exact .inr ⟨"#09".toList, rfl, ht ▸ by decide, hname (by decide)⟩
  · exact .inl ⟨rfl, hamp, hlt, hquot, ht, hr, hn⟩

/-- What is in a written value is in it as it was, in a reference, or a mark around a reference. -/
theorem mem_escape {v : Text} {d : Char} (h : d ∈ escape v) :
    (d ∈ v ∧ d ≠ '&' ∧ d ≠ '<' ∧ d ≠ '"' ∧ d ≠ '\t' ∧ d ≠ '\r' ∧ d ≠ '\n') ∨
      Xml.IsNameChar d ∨ d = '#' ∨ d = '&' ∨ d = ';' := by
  obtain ⟨c, hc, hd⟩ := List.mem_flatMap.1 h
  rcases escapeChar_cases c with ⟨hself, hplain⟩ | ⟨name, hreference, -, hname⟩
  · rw [hself] at hd
    obtain rfl := List.mem_singleton.1 hd
    exact .inl ⟨hc, hplain⟩
  · rw [hreference] at hd
    simp only [List.mem_cons, List.mem_append, List.not_mem_nil, or_false] at hd
    rcases hd with rfl | hd | rfl
    · exact .inr (by simp)
    · rcases hname d hd with hd | rfl
      · exact .inr (.inl hd)
      · exact .inr (by simp)
    · exact .inr (by simp)

theorem escape_cons (c : Char) (v : Text) : escape (c :: v) = escapeChar c ++ escape v :=
  List.flatMap_cons

end Checkstyle

namespace Xml

open Checkstyle

/-- A value is got back from how it is written. -/
theorem value?_escape (v : Text) : value? (escape v) = some v := by
  induction v with
  | nil => rfl
  | cons c v ih =>
    rw [value?] at ih
    rw [value?, escape_cons]
    rcases escapeChar_cases c with ⟨hself, hamp, -, -, ht, hr, hn⟩ | ⟨name, href, hc, hname⟩
    · have hspace : (if IsSpace c then ' ' else c) = c := by
        split_ifs with h
        · rcases h with rfl | rfl | rfl | rfl
          · rfl
          · exact absurd rfl ht
          · exact absurd rfl hr
          · exact absurd rfl hn
        · rfl
      rw [hself, List.singleton_append, valueFrom?, if_neg hamp, ih, hspace]
      rfl
    · have hsemicolon : ';' ∉ name := fun hmem => absurd (hname _ hmem) (by decide)
      rw [href, List.cons_append, List.append_assoc, valueFrom?, if_pos rfl, List.singleton_append,
        valueFrom?_reference hsemicolon, List.nil_append, hc, Option.bind_some, ih]
      rfl

example : value? "&lt;&#09;&amp;amp;".toList = some "<\t&amp;".toList := by decide

theorem suffix_of_not_mem {c : Char} {rest u t : Text} (hc : c ∉ u) (h : c :: rest <:+ u ++ t) :
    c :: rest <:+ t := by
  induction u with
  | nil => exact h
  | cons d u ih =>
    rw [List.mem_cons, not_or] at hc
    rcases List.suffix_cons_iff.1 h with h | h
    · exact absurd (List.cons.inj h).1 hc.1
    · exact ih hc.2 h

/-- What is written is plain. -/
theorem isPlain_escape (v : Text) : IsPlain (escape v) where
  unescaped d hd := by
    rcases mem_escape hd with ⟨-, -, hlt, hquot, ht, hr, hn⟩ | hname | rfl | rfl | rfl
    · exact ⟨hlt, hquot, ht, hr, hn⟩
    · refine ⟨?_, ?_, ?_, ?_, ?_⟩ <;> rintro rfl <;> revert hname <;> decide
    · decide
    · decide
    · decide
  reference rest hrest := by
    induction v with
    | nil => cases (List.suffix_nil.1 hrest)
    | cons c v ih =>
      rw [escape_cons] at hrest
      rcases escapeChar_cases c with ⟨hself, hamp, -⟩ | ⟨name, href, hc, hname⟩
      · rw [hself, List.singleton_append, List.suffix_cons_iff] at hrest
        rcases hrest with hrest | hrest
        · exact absurd (List.cons.inj hrest).1.symm hamp
        · exact ih hrest
      · have hinside : '&' ∉ name ++ [';'] := by
          rw [List.mem_append, List.mem_singleton]
          rintro (hmem | hmem)
          · exact absurd (hname _ hmem) (by decide)
          · exact absurd hmem (by decide)
        rw [href, List.cons_append, List.suffix_cons_iff] at hrest
        rcases hrest with hrest | hrest
        · refine ⟨name, escape v, ?_, by rw [hc]; rfl⟩
          rw [(List.cons.inj hrest).2, List.append_assoc, List.singleton_append]
        · exact ih (suffix_of_not_mem hinside hrest)

/-! ## Elements -/

/-- Whether an element can be written so that it is read back: its name and the names of its
attributes are names, and no two attributes have the same. -/
def IsNamed (name : Text) (attributes : List (Text × Text)) : Prop :=
  IsName name ∧ (∀ a ∈ attributes, IsName a.1) ∧ (attributes.map Prod.fst).Nodup

namespace Reader

variable {r : Reader}

/-- The attributes of a start tag. -/
theorem feed?_attributes {tag : Tag} {attributes : List (Text × Text)}
    (hnames : ∀ a ∈ attributes, IsName a.1)
    (hnodup : ((tag.attributes ++ attributes).map Prod.fst).Nodup) :
    feed? (r.goto (.parted tag)) (attributes.flatMap Element.attributeText) =
      some (r.goto (.parted
        ⟨tag.name, tag.attributes ++ attributes.map fun a => (a.1, escape a.2)⟩)) := by
  induction attributes generalizing tag with
  | nil => rw [List.map_nil, List.append_nil]; rfl
  | cons a attributes ih =>
    obtain ⟨ha, hnames⟩ := List.forall_mem_cons.1 hnames
    have hnew : a.1 ∉ tag.attributes.map Prod.fst := by
      rw [List.map_append, List.map_cons, List.nodup_append] at hnodup
      exact fun hmem => hnodup.2.2 _ hmem _ (List.mem_cons_self ..) rfl
    have hvalue : ∀ c ∈ escape a.2, c ≠ '"' ∧ c ≠ '<' := fun c hc =>
      ⟨((isPlain_escape a.2).unescaped c hc).2.1, ((isPlain_escape a.2).unescaped c hc).1⟩
    have hnodup : ((tag.attributes ++ [(a.1, escape a.2)] ++ attributes).map Prod.fst).Nodup := by
      simpa using hnodup
    rw [List.flatMap_cons, feed?_append, Element.attributeText, feed?_attribute ha hnew hvalue,
      Option.bind_some, ih hnames hnodup, List.append_assoc, List.singleton_append, List.map_cons]

/-- A start tag up to its last attribute. -/
theorem feed?_startTag {name : Text} {attributes : List (Text × Text)}
    (h : IsNamed name attributes) {c : Char} (hc : c = ' ' ∨ c = '>') (t : Text) :
    feed? (r.goto .content)
        ('<' :: name ++ attributes.flatMap Element.attributeText ++ c :: t) =
      feed? (r.goto (.parted ⟨name, attributes.map fun a => (a.1, escape a.2)⟩)) (c :: t) := by
  obtain ⟨hname, hnames, hnodup⟩ := h
  have hall := @feed?_attributes r ⟨name, []⟩ attributes hnames hnodup
  -- The name ends at the first attribute, or at `c` if there is none.
  have hpart : feed? (r.goto (.name name)) (attributes.flatMap Element.attributeText ++ c :: t) =
      feed? (r.goto (.parted ⟨name, []⟩)) (attributes.flatMap Element.attributeText ++ c :: t) := by
    rcases attributes with _ | ⟨a, attributes⟩
    · refine feed?_of_name ?_ t
      rcases hc with rfl | rfl
      · decide
      · decide
    · exact feed?_of_name (by decide) _
  rw [List.append_assoc, feed?_append, feed?_name hname, Option.bind_some, hpart, feed?_append, hall,
    Option.bind_some, List.nil_append]

theorem feed?_indent (depth : ℕ) :
    feed? (r.goto .content) (Element.indent depth) = some (r.goto .content) := by
  refine feed?_spaces fun c hc => ?_
  rcases List.mem_cons.1 hc with rfl | hc
  · decide
  · rw [List.eq_of_mem_replicate hc]
    decide

/-- Elements that are read back one by one are read back after each other. -/
theorem feed?_childrenText {children : List Element} (h : ∀ e ∈ children, ∀ depth (r : Reader),
      feed? (r.goto .content) (e.text depth) = some (r.put e.written))
    (depth : ℕ) {tag : Tag} (inner : List Element) (rest : List (Tag × List Element))
    (found : List Element) :
    feed? ⟨.content, (tag, inner) :: rest, found⟩ (Element.childrenText depth children) =
      some ⟨.content, (tag, inner ++ children.map Element.written) :: rest, found⟩ := by
  induction children generalizing inner with
  | nil => rw [List.map_nil, List.append_nil]; rfl
  | cons e children ih =>
    obtain ⟨he, hchildren⟩ := List.forall_mem_cons.1 h
    let inside : Reader := ⟨.content, (tag, inner) :: rest, found⟩
    have hfirst : feed? inside (Element.indent depth ++ e.text depth) =
        some ⟨.content, (tag, inner ++ [e.written]) :: rest, found⟩ := by
      rw [feed?_append, show inside = inside.goto .content from rfl, feed?_indent, Option.bind_some,
        he depth inside]
      rfl
    rw [Element.childrenText, feed?_append, hfirst, Option.bind_some, ih hchildren, List.map_cons,
      List.append_assoc, List.singleton_append]

/-- An element that is written is read back with its values as they are written. -/
theorem feed?_text {e : Element} (h : e.Forall IsNamed) (depth : ℕ) (r : Reader) :
    feed? (r.goto .content) (e.text depth) = some (r.put e.written) := by
  induction h generalizing depth r with
  | @mk name attributes children own inner ih =>
    -- An element with nothing in it has no end tag.
    rcases children with _ | ⟨child, rest⟩
    · rw [Element.text]
      exact feed?_startTag own (.inl rfl) _
    · let tag : Tag := ⟨name, attributes.map fun a => (a.1, escape a.2)⟩
      let inside (inner : List Element) : Reader := ⟨.content, (tag, inner) :: r.stack, r.found⟩
      let read := inside ((child :: rest).map Element.written)
      have hinner : feed? (inside []) (Element.childrenText (depth + 1) (child :: rest)) =
          some read := feed?_childrenText ih (depth + 1) [] r.stack r.found
      have hindent : feed? read (Element.indent depth) = some read := @feed?_indent read depth
      have hend : feed? read ('<' :: '/' :: name ++ ['>']) =
          some (r.put (Element.mk name attributes (child :: rest)).written) := by
        rw [Element.written, Element.writtenAll_eq_map]
        exact @feed?_endTag r tag _ own.1
      rw [Element.text_cons, feed?_startTag own (.inr rfl)]
      change feed? (inside []) _ = _
      rw [feed?_append, hinner, Option.bind_some, feed?_append, hindent, Option.bind_some, hend]

end Reader

theorem mapM_attribute? (attributes : List (Text × Text)) :
    (attributes.map fun a => (a.1, escape a.2)).mapM attribute? = some attributes := by
  induction attributes with
  | nil => rfl
  | cons a attributes ih =>
    rw [List.map_cons, List.mapM_cons, ih, attribute?, value?_escape]
    rfl

/-- Resolving the values of an element as they are written gives the element. -/
theorem expand?_written {P : Text → List (Text × Text) → Prop} {e : Element} (h : e.Forall P) :
    expand? e.written = some e := by
  induction h with
  | @mk name attributes children own inner ih =>
    have hall : ∀ es ⊆ children, expandAll? (es.map Element.written) = some es := by
      intro es hes
      induction es with
      | nil => rfl
      | cons e es ih' =>
        obtain ⟨he, hes⟩ := List.cons_subset.1 hes
        rw [List.map_cons, expandAll?, ih e he, ih' hes]
        rfl
    rw [Element.written, Element.writtenAll_eq_map, expand?, mapM_attribute?,
      hall children (List.Subset.refl _)]
    rfl

end Xml

namespace Checkstyle

/-! ## The characters of a document -/

section Characters

variable {P : Char → Prop} (hmarks : ∀ c ∈ ['<', '>', '/', '=', '"', ' ', '\n'], P c)

include hmarks

theorem forall_mem_indent (depth : ℕ) : ∀ c ∈ Element.indent depth, P c := by
  refine List.forall_mem_cons.2 ⟨hmarks _ (by decide), fun c hc => ?_⟩
  rw [List.eq_of_mem_replicate hc]
  exact hmarks _ (by decide)

/-- A property of what stands around names and values holds throughout an element if it holds in them. -/
theorem forall_mem_text {e : Element}
    (h : e.Forall fun name attributes => (∀ c ∈ name, P c) ∧
      ∀ a ∈ attributes, (∀ c ∈ a.1, P c) ∧ ∀ c ∈ escape a.2, P c)
    (depth : ℕ) : ∀ c ∈ e.text depth, P c := by
  have hindent := forall_mem_indent hmarks
  obtain ⟨hlt, hgt, hslash, heq, hquot, hspace, -⟩ :
      P '<' ∧ P '>' ∧ P '/' ∧ P '=' ∧ P '"' ∧ P ' ' ∧ P '\n' := by simpa using hmarks
  induction h generalizing depth with
  | @mk name attributes children own inner ih =>
    obtain ⟨hname, hattributes⟩ := own
    have hstart : ∀ c ∈ '<' :: name ++ attributes.flatMap Element.attributeText, P c := by
      refine List.forall_mem_append.2 ⟨List.forall_mem_cons.2 ⟨hlt, hname⟩, fun c hc => ?_⟩
      obtain ⟨a, ha, hc⟩ := List.mem_flatMap.1 hc
      obtain ⟨hn, hv⟩ := hattributes a ha
      simp only [Element.attributeText, List.mem_append, List.mem_cons, List.not_mem_nil,
        or_false] at hc
      rcases hc with ((rfl | hc) | rfl | rfl | hc) | rfl
      · exact hspace
      · exact hn c hc
      · exact heq
      · exact hquot
      · exact hv c hc
      · exact hquot
    have hinner : ∀ es ⊆ children, ∀ c ∈ Element.childrenText (depth + 1) es, P c := by
      intro es hes
      induction es with
      | nil => simp [Element.childrenText]
      | cons e es ih' =>
        obtain ⟨he, hes⟩ := List.cons_subset.1 hes
        rw [Element.childrenText]
        exact List.forall_mem_append.2
          ⟨List.forall_mem_append.2 ⟨hindent _, ih e he _⟩, ih' hes⟩
    rcases children with _ | ⟨child, rest⟩
    · rw [Element.text]
      refine List.forall_mem_append.2 ⟨hstart, ?_⟩
      simp [hspace, hslash, hgt]
    · have hend : ∀ c ∈ '<' :: '/' :: name ++ ['>'], P c := by
        simpa [or_imp, forall_and, hlt, hslash, hgt] using hname
      rw [Element.text_cons]
      refine List.forall_mem_append.2 ⟨hstart, List.forall_mem_cons.2 ⟨hgt, ?_⟩⟩
      exact List.forall_mem_append.2 ⟨hinner _ (List.Subset.refl _),
        List.forall_mem_append.2 ⟨hindent _, hend⟩⟩

end Characters

/-! ## The elements of a report -/

/-- The element that is to be found for a violation. -/
def errorOf (f : Finding) : Element :=
  .mk "error".toList
    [("line".toList, Text.integer f.lineNumber), ("column".toList, Text.integer (f.columnOffset + 1)),
      ("severity".toList, "error".toList),
      ("message".toList,
        Xml.replaced (RawText.ofText "http:// is not allowed: ".toList ++ f.lineText.strip)),
      ("source".toList, "nohttp".toList)] []

/-- The path of a file beneath its root, or the path alone if there is no root. -/
def pathOf (root filePath : RawText) : RawText :=
  if root = [] then filePath else RawPath.joined root filePath

/-- The element that is to be found for a file, with one element for each violation in it. -/
def fileOf (fs : List Finding) (file : RawText × RawText) : Element :=
  .mk "file".toList [("name".toList, Xml.replaced (pathOf file.1 file.2))]
    ((fs.filter fun f => (f.root, f.filePath) = file).map errorOf)

/-- The element that is to be found for a report, with one element for each file in which there are
violations, the files in the order in which they first appear. -/
def elementOf (fs : List Finding) : Element :=
  .mk "checkstyle".toList [("version".toList, "8.29".toList)]
    ((fs.map fun f => (f.root, f.filePath)).eraseDups.map (fileOf fs))

theorem legal_eq_replaced (t : RawText) : legal t = Xml.replaced t := by
  refine List.map_congr_left fun c _ => ?_
  by_cases h : Xml.IsCharCode c.val
  · rw [if_pos ((isLegal_iff c).2 h), if_pos h]
  · rw [if_neg (mt (isLegal_iff c).1 h), if_neg h]
    rfl

theorem errorElement_of_isShort {f : Finding} (h : f.IsShort) : errorElement f = .ok (errorOf f) := by
  rw [errorElement, Numeral.write_of_isShort h.line, Finding.column, Numeral.write_of_isShort h.column,
    legal_eq_replaced]
  rfl

theorem errorElement_of_not_isShort {f : Finding} (h : ¬f.IsShort) :
    errorElement f = .error .tooManyDigits := by
  by_cases hline : Numeral.IsShort f.lineNumber
  · have hcolumn : ¬Numeral.IsShort (f.columnOffset + 1) := fun hcolumn => h ⟨hline, hcolumn⟩
    rw [errorElement, Numeral.write_of_isShort hline, Finding.column, Numeral.write_of_not_isShort hcolumn]
    rfl
  · rw [errorElement, Numeral.write_of_not_isShort hline]
    rfl

/-- The group of a file. -/
def groupOf (fs : List Finding) (file : RawText × RawText) : (RawText × RawText) × List Finding :=
  (file, fs.filter fun f => f.key = file)

theorem groups_eq (fs : List Finding) :
    Groups.of Finding.key fs = (fs.map Finding.key).eraseDups.map (groupOf fs) :=
  Groups.of_eq_map _ _

/-- The element that is written for a report is the one that is to be found, if all numbers can be
written. -/
theorem element_of_isShort {fs : List Finding} (h : ∀ f ∈ fs, f.IsShort) :
    element fs = .ok (elementOf fs) := by
  have hfile : ∀ file, fileElement (groupOf fs file) = .ok (fileOf fs file) := by
    intro file
    have herrors : (fs.filter fun f => f.key = file).mapM errorElement =
        .ok ((fs.filter fun f => f.key = file).map errorOf) :=
      mapM_eq_ok_map fun f hf => errorElement_of_isShort (h f (List.mem_of_mem_filter hf))
    have hname : fileName file.1 file.2 = pathOf file.1 file.2 := by
      simp only [fileName, pathOf, List.isEmpty_iff]
    rw [fileElement, groupOf, herrors, hname, legal_eq_replaced]
    rfl
  have hfiles : (Groups.of Finding.key fs).mapM fileElement =
      .ok ((fs.map Finding.key).eraseDups.map (fileOf fs)) := by
    rw [groups_eq, List.mapM_map]
    exact mapM_eq_ok_map fun file _ => hfile file
  rw [element, hfiles]
  rfl

/-- If a number cannot be written, there is no element. -/
theorem element_of_not_isShort {fs : List Finding} {f : Finding} (hf : f ∈ fs) (h : ¬f.IsShort) :
    element fs = .error .tooManyDigits := by
  rcases helement : element fs with ⟨⟩ | e
  · rfl
  · -- Whatever is written holds the element of each violation, also of this one.
    obtain ⟨files, hfiles, -⟩ := bind_eq_ok.1 helement
    have hgroup : groupOf fs f.key ∈ Groups.of Finding.key fs := by
      rw [groups_eq]
      exact List.mem_map_of_mem (List.mem_eraseDups.2 (List.mem_map_of_mem hf))
    obtain ⟨file, hfile⟩ := exists_of_mapM hfiles _ hgroup
    obtain ⟨errors, herrors, -⟩ := bind_eq_ok.1 hfile
    obtain ⟨error, herror⟩ := exists_of_mapM herrors f (List.mem_filter.2 ⟨hf, by simp⟩)
    rw [errorElement_of_not_isShort h] at herror
    cases herror

theorem isChar_of_mem_replaced {t : RawText} {c : Char} (h : c ∈ Xml.replaced t) : Xml.IsChar c := by
  obtain ⟨d, -, rfl⟩ := List.mem_map.1 h
  split_ifs with hd
  · exact Xml.isChar_ofNat hd
  · decide

theorem isChar_of_mem_integer {i : ℤ} {c : Char} (h : c ∈ Text.integer i) : Xml.IsChar c := by
  have hall : ∀ d < 10, Xml.IsChar (Text.digit d) := by decide
  rcases Text.mem_integer h with rfl | ⟨d, hd, rfl⟩
  · decide
  · exact hall d hd

/-- Whether an element can be written and read back: it has names, and there are only characters that
XML can hold in its values. -/
def IsWritable (name : Text) (attributes : List (Text × Text)) : Prop :=
  Xml.IsNamed name attributes ∧ ∀ a ∈ attributes, ∀ c ∈ a.2, Xml.IsChar c

theorem forall_elementOf (fs : List Finding) : (elementOf fs).Forall IsWritable := by
  have hconstant {t : Text} (h : t.all (fun c => Xml.IsChar c) = true) : ∀ c ∈ t, Xml.IsChar c := by
    simpa using h
  have herror : ∀ f, (errorOf f).Forall IsWritable := by
    intro f
    refine .mk ⟨⟨by decide, ?_, by simp⟩, ?_⟩ (by simp)
    · simp only [List.forall_mem_cons]
      exact ⟨by decide, by decide, by decide, by decide, by decide, by simp⟩
    · simp only [List.forall_mem_cons]
      exact ⟨fun c => isChar_of_mem_integer, fun c => isChar_of_mem_integer, hconstant (by decide),
        fun c => isChar_of_mem_replaced, hconstant (by decide), by simp⟩
  have hfile : ∀ file, (fileOf fs file).Forall IsWritable := by
    intro file
    refine .mk ⟨⟨by decide, ?_, by simp⟩, ?_⟩ fun e he => ?_
    · simp only [List.forall_mem_cons]
      exact ⟨by decide, by simp⟩
    · simp only [List.forall_mem_cons]
      exact ⟨fun c => isChar_of_mem_replaced, by simp⟩
    · obtain ⟨f, -, rfl⟩ := List.mem_map.1 he
      exact herror f
  refine .mk ⟨⟨by decide, ?_, by simp⟩, ?_⟩ fun e he => ?_
  · simp only [List.forall_mem_cons]
    exact ⟨by decide, by simp⟩
  · simp only [List.forall_mem_cons]
    exact ⟨hconstant (by decide), by simp⟩
  · obtain ⟨file, -, rfl⟩ := List.mem_map.1 he
    exact hfile file

/-- In what is written there are only characters that XML can hold, and no carriage return, which a
reader would turn into a line feed. -/
theorem isChar_of_mem_text {e : Element} (h : e.Forall IsWritable) (depth : ℕ) :
    ∀ c ∈ e.text depth, Xml.IsChar c ∧ c ≠ '\r' := by
  have hname {c : Char} (hc : Xml.IsNameChar c) : Xml.IsChar c ∧ c ≠ '\r' := by
    refine ⟨hc.isChar, ?_⟩
    rintro rfl
    exact absurd hc (by decide)
  have hmarks : ∀ c ∈ ['<', '>', '/', '=', '"', ' ', '\n'], Xml.IsChar c ∧ c ≠ '\r' := by
    simp only [List.forall_mem_cons]
    exact ⟨by decide, by decide, by decide, by decide, by decide, by decide, by decide, by simp⟩
  refine forall_mem_text hmarks (h.mono fun n as hwritable => ?_) depth
  obtain ⟨⟨hn, has, -⟩, hvalues⟩ := hwritable
  refine ⟨fun c hc => hname (hn.isNameChar c hc), fun a ha => ⟨fun c hc => ?_, fun c hc => ?_⟩⟩
  · exact hname ((has a ha).isNameChar c hc)
  · rcases mem_escape hc with ⟨hmem, -, -, -, -, hr, -⟩ | hc | rfl | rfl | rfl
    · exact ⟨hvalues a ha c hmem, hr⟩
    · exact hname hc
    · decide
    · decide
    · decide

theorem documentOf_eq (e : Element) :
    documentOf e = Xml.declaration ++ ('\n' :: e.text 0 ++ ['\n']) := by
  have hdeclaration : "<?xml version=\"1.0\" encoding=\"UTF-8\"?>\n".toList =
      Xml.declaration ++ ['\n'] := by decide
  unfold documentOf
  rw [hdeclaration, List.append_assoc, List.append_assoc, List.singleton_append, List.cons_append]

section Documents

variable {e : Element} (he : e.Forall IsWritable)

include he

theorem isChar_of_mem_documentOf : ∀ c ∈ documentOf e, Xml.IsChar c ∧ c ≠ '\r' := by
  have hdeclaration : ∀ c ∈ Xml.declaration, Xml.IsChar c ∧ c ≠ '\r' := by
    have hall : Xml.declaration.all (fun c => Xml.IsChar c ∧ c ≠ '\r') = true := by decide
    simpa using hall
  have hfeed : Xml.IsChar '\n' ∧ '\n' ≠ '\r' := by decide
  have htext := isChar_of_mem_text he 0
  rw [documentOf_eq]
  refine List.forall_mem_append.2 ⟨hdeclaration, List.forall_mem_append.2 ⟨?_, ?_⟩⟩
  · exact List.forall_mem_cons.2 ⟨hfeed, htext⟩
  · simpa using hfeed

/-- A reader finds the element that is written, with the values as they are written. -/
theorem parse?_documentOf : Xml.parse? (documentOf e) = some e.written := by
  have hlegal : ∀ c ∈ documentOf e, Xml.IsChar c := fun c hc =>
    (isChar_of_mem_documentOf he c hc).1
  have hbreaks : Text.unifyBreaks (documentOf e) = documentOf e :=
    Xml.unifyBreaks_of_not_mem fun hmem => (isChar_of_mem_documentOf he _ hmem).2 rfl
  let start : Xml.Reader := ⟨.content, [], []⟩
  have hfeed : Xml.Reader.feed? start ['\n'] = some start := rfl
  have htext : Xml.Reader.feed? start (e.text 0) = some (start.put e.written) :=
    Xml.Reader.feed?_text (he.mono fun _ _ h => h.1) 0 start
  have hread : Xml.Reader.feed? start ('\n' :: e.text 0 ++ ['\n']) =
      some ⟨.content, [], [e.written]⟩ := by
    rw [← List.singleton_append, List.append_assoc, Xml.Reader.feed?_append, hfeed, Option.bind_some,
      Xml.Reader.feed?_append, htext]
    rfl
  rw [Xml.parse?, if_pos hlegal, hbreaks, documentOf_eq, Xml.dropPrefix?_append]
  change (Xml.Reader.feed? start _).bind _ = _
  rw [hread]
  rfl

end Documents

theorem document_eq_ok {r : Report} {t : Text} (h : document r = .ok t) :
    t = documentOf (elementOf (r.violations.map Finding.of)) := by
  by_cases hshort : ∀ f ∈ r.violations.map Finding.of, f.IsShort
  · rw [document, render, element_of_isShort hshort] at h
    cases h
    rfl
  · obtain ⟨f, hf, hlong⟩ : ∃ f ∈ r.violations.map Finding.of, ¬f.IsShort := by simpa using hshort
    rw [document, render, element_of_not_isShort hf hlong] at h
    cases h

theorem document_of_isShort {r : Report} (h : ∀ v ∈ r.violations, v.IsShort) :
    ∃ t, document r = .ok t := by
  have hshort : ∀ f ∈ r.violations.map Finding.of, f.IsShort := List.forall_mem_map.2 h
  refine ⟨documentOf (elementOf (r.violations.map Finding.of)), ?_⟩
  rw [document, render, element_of_isShort hshort]
  rfl

theorem document_of_not_isShort {r : Report} {v : Violation} (hv : v ∈ r.violations)
    (h : ¬v.IsShort) : document r = .error .tooManyDigits := by
  rw [document, render, element_of_not_isShort (List.mem_map_of_mem hv) h]
  rfl

/-- What a reader finds in the document of some violations: an element for each file with violations and
in it one for each of them, with nothing but characters that XML can hold in the document and with each
value written plainly.  There is a document exactly if all lines and columns can be written. -/
theorem read_document (fs : List Finding) :
    ((∀ f ∈ fs, f.IsShort) ∧ ∃ document, render fs = .ok document ∧
      (∀ c ∈ document, Xml.IsChar c) ∧
      ∃ raw, Xml.parse? document = some raw ∧
        raw.Forall (fun _ attributes => ∀ a ∈ attributes, Xml.IsPlain a.2) ∧
        Xml.expand? raw = some (elementOf fs)) ∨
    (∃ f ∈ fs, ¬f.IsShort) ∧ render fs = .error .tooManyDigits := by
  by_cases hshort : ∀ f ∈ fs, f.IsShort
  · have hwritable := forall_elementOf fs
    refine .inl ⟨hshort, documentOf (elementOf fs), ?_, ?_, (elementOf fs).written,
      parse?_documentOf hwritable, ?_, Xml.expand?_written hwritable⟩
    · rw [render, element_of_isShort hshort]
      rfl
    · exact fun c hc => (isChar_of_mem_documentOf hwritable c hc).1
    · refine hwritable.written fun _ as _ a ha => ?_
      obtain ⟨b, -, rfl⟩ := List.mem_map.1 ha
      exact Xml.isPlain_escape b.2
  · obtain ⟨f, hf, hlong⟩ : ∃ f ∈ fs, ¬f.IsShort := by simpa using hshort
    refine .inr ⟨⟨f, hf, hlong⟩, ?_⟩
    rw [render, element_of_not_isShort hf hlong]
    rfl

/-- A violation whose column has one digit more than can be written. -/
def wideViolation : Violation := ⟨"a".toList, 1, 10 ^ 4300 - 1, "http://".toList, "r".toList⟩

/-- A report of this violation. -/
def wideReport : Report :=
  ⟨[wideViolation], 1, 0, [], ["r".toList], .real Binary64.zero, .real Binary64.zero⟩

theorem not_isShort_wideViolation : ¬wideViolation.IsShort := by
  intro h
  have hcolumn : (Finding.of wideViolation).columnOffset + 1 = 10 ^ 4300 := by
    rw [Finding.of, wideViolation, sub_add_cancel]
  have hlength := h.column
  rw [hcolumn, Numeral.isShort_iff, Numeral.natAbs_ten_pow] at hlength
  exact lt_irrefl _ hlength

/-- There is a report without a document. -/
theorem document_of_wideReport : document wideReport = .error .tooManyDigits :=
  document_of_not_isShort (List.mem_singleton_self wideViolation) not_isShort_wideViolation

end Checkstyle

end InsecureLinks
