import Mathlib
import InsecureLinks.Output.Checkstyle
import InsecureLinks.Text.DecimalDigit
import InsecureLinks.Text.LineBreak

/-!
# Reading XML

A reader of XML documents: a declaration, then one element, in which there are elements and white space
only.  It knows names of ASCII characters, the five entities that every document has, and decimal
character references, and it refuses whatever else a document could hold.  What it takes for a document
is one, so the elements that it finds in it are those that any other reader finds.

The reader goes from character to character (`step`), with the elements that are open on a stack.  It
gives the value of each attribute as it stands between the quotes (`parse?`); the references in the
values are resolved afterwards (`expand?`), together with the white space in them, which is read as
spaces unless it is written as a reference.
-/

namespace InsecureLinks.Xml

open Checkstyle (Element)

/-! ## Characters -/

/-- The codes of the characters that a document can hold. -/
def IsCharCode (n : ℕ) : Prop :=
  n = 0x9 ∨ n = 0xA ∨ n = 0xD ∨ (0x20 ≤ n ∧ n ≤ 0xD7FF) ∨ (0xE000 ≤ n ∧ n ≤ 0xFFFD) ∨
    (0x10000 ≤ n ∧ n ≤ 0x10FFFF)

instance (n : ℕ) : Decidable (IsCharCode n) := inferInstanceAs (Decidable (_ ∨ _))

/-- The characters that a document can hold. -/
def IsChar (c : Char) : Prop := IsCharCode c.toNat

instance (c : Char) : Decidable (IsChar c) := inferInstanceAs (Decidable (IsCharCode _))

/-- White space. -/
def IsSpace (c : Char) : Prop := c = ' ' ∨ c = '\t' ∨ c = '\r' ∨ c = '\n'

instance (c : Char) : Decidable (IsSpace c) := inferInstanceAs (Decidable (_ ∨ _))

/-- The characters that a name can begin with. -/
def IsNameStart (c : Char) : Prop :=
  ('a'.toNat ≤ c.toNat ∧ c.toNat ≤ 'z'.toNat) ∨ ('A'.toNat ≤ c.toNat ∧ c.toNat ≤ 'Z'.toNat) ∨ c = '_'

instance (c : Char) : Decidable (IsNameStart c) := inferInstanceAs (Decidable (_ ∨ _))

/-- The characters that a name is made of. -/
def IsNameChar (c : Char) : Prop :=
  IsNameStart c ∨ Text.isAsciiDigit c = true ∨ c = '-' ∨ c = '.'

instance (c : Char) : Decidable (IsNameChar c) := inferInstanceAs (Decidable (_ ∨ _))

/-- The character that stands for one that a document cannot hold. -/
def replacement : Char := Char.ofNat 0xFFFD

/-- A raw text with each code point that a document cannot hold replaced. -/
def replaced (t : RawText) : Text :=
  t.map fun c => if IsCharCode c.val then Char.ofNat c.val else replacement

theorem toNat_ofNat {n : ℕ} (h : IsCharCode n) : (Char.ofNat n).toNat = n := by
  have hvalid : n.isValidChar := by
    simp only [IsCharCode] at h
    rw [Nat.isValidChar]
    omega
  rw [Char.ofNat, dif_pos hvalid]
  exact Char.toNat_ofNatAux hvalid

theorem isChar_ofNat {n : ℕ} (h : IsCharCode n) : IsChar (Char.ofNat n) := by
  rwa [IsChar, toNat_ofNat h]

/-- Whether a text is a name. -/
def IsName : Text → Prop
  | [] => False
  | c :: t => IsNameStart c ∧ ∀ d ∈ t, IsNameChar d

instance : (n : Text) → Decidable (IsName n)
  | [] => isFalse id
  | c :: t =>
    have : Decidable (∀ d ∈ t, IsNameChar d) := List.decidableBAll ..
    inferInstanceAs (Decidable (IsNameStart c ∧ ∀ d ∈ t, IsNameChar d))

theorem IsName.isNameChar {n : Text} (h : IsName n) : ∀ c ∈ n, IsNameChar c := by
  rcases n with _ | ⟨c, t⟩
  · exact h.elim
  · exact List.forall_mem_cons.2 ⟨.inl h.1, h.2⟩

theorem IsNameChar.range {c : Char} (h : IsNameChar c) : 0x2D ≤ c.toNat ∧ c.toNat ≤ 0x7A := by
  have ha : 'a'.toNat = 0x61 := rfl
  have hz : 'z'.toNat = 0x7A := rfl
  have hA : 'A'.toNat = 0x41 := rfl
  have hZ : 'Z'.toNat = 0x5A := rfl
  simp only [IsNameChar, IsNameStart, Text.isAsciiDigit, Bool.and_eq_true, decide_eq_true_eq] at h
  rcases h with (h | h | rfl) | h | rfl | rfl
  · omega
  · omega
  · decide
  · omega
  · decide
  · decide

theorem IsNameChar.isChar {c : Char} (h : IsNameChar c) : IsChar c := by
  have hrange := h.range
  exact .inr (.inr (.inr (.inl ⟨by omega, by omega⟩)))

/-! ## Documents -/

/-- The start of an element: its name and the attributes that have been read. -/
structure Tag where
  name : Text
  attributes : List (Text × Text)

/-- Where a reader is. -/
inductive Mode
  /-- Between tags. -/
  | content
  /-- After the `<` of a tag. -/
  | opened
  /-- In the name of a start tag. -/
  | name (n : Text)
  /-- After the name of a start tag, or after the value of an attribute. -/
  | parted (tag : Tag)
  /-- After white space in a start tag. -/
  | spaced (tag : Tag)
  /-- In the name of an attribute. -/
  | attribute (tag : Tag) (n : Text)
  /-- After the `=` of an attribute. -/
  | equals (tag : Tag) (n : Text)
  /-- In the value of an attribute, which ends at the next `quote`. -/
  | value (tag : Tag) (n : Text) (quote : Char) (v : Text)
  /-- After the `/` that ends an element without an end tag. -/
  | slash (tag : Tag)
  /-- In the name of an end tag. -/
  | closing (n : Text)

/-- A reader: where it is, the elements that are open, from the innermost, with the elements in them
so far, and the elements that are in no other. -/
structure Reader where
  mode : Mode
  stack : List (Tag × List Element)
  found : List Element

namespace Reader

/-- The reader in another place. -/
def goto (r : Reader) (mode : Mode) : Reader := { r with mode }

/-- The reader after an element, which is in the innermost of those that are open. -/
def put (r : Reader) (e : Element) : Reader :=
  match r.stack with
  | [] => ⟨.content, [], r.found ++ [e]⟩
  | (tag, inner) :: rest => ⟨.content, (tag, inner ++ [e]) :: rest, r.found⟩

/-- What a reader makes of a character in a start tag that belongs to no name. -/
def inTag? (r : Reader) (tag : Tag) (c : Char) : Option Reader :=
  if IsSpace c then some (r.goto (.spaced tag))
  else if c = '/' then some (r.goto (.slash tag))
  else if c = '>' then some ⟨.content, (tag, []) :: r.stack, r.found⟩
  else none

/-- What a reader makes of a character; none if there can be no such character. -/
def step? (r : Reader) (c : Char) : Option Reader :=
  match r.mode with
  | .content =>
    if c = '<' then some (r.goto .opened) else if IsSpace c then some r else none
  | .opened =>
    if c = '/' then some (r.goto (.closing []))
    else if IsNameStart c then some (r.goto (.name [c])) else none
  | .name n => if IsNameChar c then some (r.goto (.name (n ++ [c]))) else r.inTag? ⟨n, []⟩ c
  | .parted tag => r.inTag? tag c
  | .spaced tag =>
    if IsNameStart c then some (r.goto (.attribute tag [c])) else r.inTag? tag c
  | .attribute tag n =>
    if IsNameChar c then some (r.goto (.attribute tag (n ++ [c])))
    else if c = '=' ∧ n ∉ tag.attributes.map Prod.fst then some (r.goto (.equals tag n)) else none
  | .equals tag n => if c = '"' ∨ c = '\'' then some (r.goto (.value tag n c [])) else none
  | .value tag n quote v =>
    if c = quote then some (r.goto (.parted ⟨tag.name, tag.attributes ++ [(n, v)]⟩))
    else if c = '<' then none else some (r.goto (.value tag n quote (v ++ [c])))
  | .slash tag => if c = '>' then some (r.put (.mk tag.name tag.attributes [])) else none
  | .closing n =>
    if IsNameChar c then some (r.goto (.closing (n ++ [c])))
    else match r.stack with
      | [] => none
      | (tag, inner) :: rest =>
        if c = '>' ∧ tag.name = n then
          some (put ⟨.content, rest, r.found⟩ (.mk tag.name tag.attributes inner))
        else none

/-- What a reader makes of a text. -/
def feed? (r : Reader) (t : Text) : Option Reader := t.foldlM step? r

/-- The element of a document that has been read to its end. -/
def element? (r : Reader) : Option Element :=
  match r with
  | ⟨.content, [], [e]⟩ => some e
  | _ => none

end Reader

/-- The declaration of a document. -/
def declaration : Text := "<?xml version=\"1.0\" encoding=\"UTF-8\"?>".toList

/-- The element of a document, with the values of the attributes as they stand between the quotes. -/
def parse? (t : Text) : Option Element :=
  if ∀ c ∈ t, IsChar c then do
    let rest ← Text.dropPrefix? declaration (Text.unifyBreaks t)
    (← Reader.feed? ⟨.content, [], []⟩ rest).element?
  else none

/-! ### Reading in parts -/

theorem unifyBreaks_of_not_mem {t : Text} (h : '\r' ∉ t) : Text.unifyBreaks t = t := by
  induction t with
  | nil => rfl
  | cons c t ih =>
    rw [List.mem_cons, not_or] at h
    rw [Text.unifyBreaks.eq_4 _ _ (fun _ hc _ => h.1 hc.symm) (fun hc => h.1 hc.symm), ih h.2]

theorem dropPrefix?_append (start t : Text) : Text.dropPrefix? start (start ++ t) = some t := by
  rw [Text.dropPrefix?, if_pos (by simp), List.drop_left]

namespace Reader

variable {r : Reader}

theorem feed?_nil : feed? r [] = some r := rfl

theorem feed?_cons (c : Char) (t : Text) : feed? r (c :: t) = (step? r c).bind (feed? · t) := rfl

theorem feed?_append (t u : Text) : feed? r (t ++ u) = (feed? r t).bind (feed? · u) :=
  List.foldlM_append ..

/-- Characters that a reader gathers, whatever it has gathered of them. -/
theorem feed?_gather (mode : Text → Mode) {P : Char → Prop}
    (hstep : ∀ n c, P c → step? (r.goto (mode n)) c = some (r.goto (mode (n ++ [c])))) {t : Text}
    (ht : ∀ c ∈ t, P c) (n : Text) : feed? (r.goto (mode n)) t = some (r.goto (mode (n ++ t))) := by
  induction t generalizing n with
  | nil => rw [List.append_nil, feed?_nil]
  | cons c t ih =>
    obtain ⟨hc, ht⟩ := List.forall_mem_cons.1 ht
    rw [feed?_cons, hstep n c hc, Option.bind_some, ih ht, List.append_assoc, List.singleton_append]

theorem feed?_spaces {t : Text} (ht : ∀ c ∈ t, IsSpace c) :
    feed? (r.goto .content) t = some (r.goto .content) := by
  refine feed?_gather (fun _ => .content) (fun _ c hc => ?_) ht []
  have hne : c ≠ '<' := by
    rintro rfl
    exact absurd hc (by decide)
  exact (if_neg hne).trans (if_pos hc)

/-- The name of a start tag. -/
theorem feed?_name {n : Text} (hn : IsName n) :
    feed? (r.goto .content) ('<' :: n) = some (r.goto (.name n)) := by
  obtain ⟨c, t, rfl⟩ := List.exists_cons_of_ne_nil (show n ≠ [] by rintro rfl; exact hn)
  have hslash : c ≠ '/' := by
    rintro rfl
    exact absurd hn.1 (by decide)
  have hopen : step? (r.goto .opened) c = some (r.goto (.name [c])) :=
    (if_neg hslash).trans (if_pos hn.1)
  rw [feed?_cons, show step? (r.goto .content) '<' = some (r.goto .opened) from rfl, Option.bind_some,
    feed?_cons, hopen, Option.bind_some]
  exact feed?_gather .name (fun n d hd => if_pos hd) hn.2 [c]

/-- A name ends where there is a character that is in no name. -/
theorem feed?_of_name {n : Text} {c : Char} (hc : ¬IsNameChar c) (t : Text) :
    feed? (r.goto (.name n)) (c :: t) = feed? (r.goto (.parted ⟨n, []⟩)) (c :: t) := by
  have hstep : step? (r.goto (.name n)) c = step? (r.goto (.parted ⟨n, []⟩)) c := if_neg hc
  rw [feed?_cons, feed?_cons, hstep]

/-- An attribute. -/
theorem feed?_attribute {tag : Tag} {n v : Text} (hn : IsName n)
    (hnew : n ∉ tag.attributes.map Prod.fst) (hv : ∀ c ∈ v, c ≠ '"' ∧ c ≠ '<') :
    feed? (r.goto (.parted tag)) (' ' :: n ++ '=' :: '"' :: v ++ ['"']) =
      some (r.goto (.parted ⟨tag.name, tag.attributes ++ [(n, v)]⟩)) := by
  have hname : feed? (r.goto (.parted tag)) (' ' :: n) = some (r.goto (.attribute tag n)) := by
    obtain ⟨c, t, rfl⟩ := List.exists_cons_of_ne_nil (show n ≠ [] by rintro rfl; exact hn)
    have hstart : step? (r.goto (.spaced tag)) c = some (r.goto (.attribute tag [c])) := if_pos hn.1
    rw [feed?_cons, show step? (r.goto (.parted tag)) ' ' = some (r.goto (.spaced tag)) from rfl,
      Option.bind_some, feed?_cons, hstart, Option.bind_some]
    exact feed?_gather (.attribute tag) (fun n d hd => if_pos hd) hn.2 [c]
  have hequals : step? (r.goto (.attribute tag n)) '=' = some (r.goto (.equals tag n)) := by
    have hchar : ¬IsNameChar '=' := by decide
    simp only [step?, goto, hchar, hnew, if_false, not_false_eq_true, and_self, if_true]
  have hvalue : feed? (r.goto (.value tag n '"' [])) v = some (r.goto (.value tag n '"' v)) :=
    feed?_gather (.value tag n '"') (fun _ d hd => (if_neg hd.1).trans (if_neg hd.2)) hv []
  rw [feed?_append, feed?_append, hname, Option.bind_some, feed?_cons, hequals, Option.bind_some,
    feed?_cons, show step? (r.goto (.equals tag n)) '"' = some (r.goto (.value tag n '"' [])) from rfl,
    Option.bind_some, hvalue]
  rfl

/-- An end tag. -/
theorem feed?_endTag {tag : Tag} {inner : List Element} (hname : IsName tag.name) :
    feed? ⟨.content, (tag, inner) :: r.stack, r.found⟩ ('<' :: '/' :: tag.name ++ ['>']) =
      some (r.put (.mk tag.name tag.attributes inner)) := by
  let inside : Reader := ⟨.content, (tag, inner) :: r.stack, r.found⟩
  have hgather : feed? (inside.goto (.closing [])) tag.name =
      some (inside.goto (.closing tag.name)) :=
    feed?_gather .closing (fun n d hd => if_pos hd) hname.isNameChar []
  have hclose : step? (inside.goto (.closing tag.name)) '>' =
      some (r.put (.mk tag.name tag.attributes inner)) := by
    have hchar : ¬IsNameChar '>' := by decide
    simp only [step?, goto, inside, hchar, if_false, and_self, if_true]
    rfl
  have hopen : feed? inside ['<', '/'] = some (inside.goto (.closing [])) := rfl
  change feed? inside (['<', '/'] ++ tag.name ++ ['>']) = _
  rw [feed?_append, feed?_append, hopen, Option.bind_some, hgather, Option.bind_some, feed?_cons,
    hclose]
  rfl

end Reader

/-! ## Values -/

/-- The character that a reference stands for, from what is between the `&` and the `;`. -/
def reference? (name : Text) : Option Char :=
  match name with
  | '#' :: digits =>
    let c := Char.ofNat (Text.value digits)
    if digits ≠ [] ∧ digits.all Text.isAsciiDigit = true ∧ c.toNat = Text.value digits ∧ IsChar c then
      some c
    else none
  | _ =>
    if name = "amp".toList then some '&'
    else if name = "lt".toList then some '<'
    else if name = "gt".toList then some '>'
    else if name = "quot".toList then some '"'
    else if name = "apos".toList then some '\''
    else none

/-- The value that is written as a text, `reference` being the part of a reference that has been
read. -/
def valueFrom? : (reference : Option Text) → Text → Option Text
  | none, [] => some []
  | some _, [] => none
  | none, c :: t =>
    if c = '&' then valueFrom? (some []) t
    else (valueFrom? none t).map ((if IsSpace c then ' ' else c) :: ·)
  | some name, c :: t =>
    if c = ';' then (reference? name).bind fun d => (valueFrom? none t).map (d :: ·)
    else valueFrom? (some (name ++ [c])) t

/-- The value that is written as a text. -/
def value? (t : Text) : Option Text := valueFrom? none t

/-- An attribute with its value instead of how it is written. -/
def attribute? (a : Text × Text) : Option (Text × Text) := (value? a.2).map (a.1, ·)

mutual

/-- An element with the values of the attributes instead of how they are written. -/
def expand? : Element → Option Element
  | .mk name attributes children => do
    return .mk name (← attributes.mapM attribute?) (← expandAll? children)

/-- Elements with the values of the attributes instead of how they are written. -/
def expandAll? : List Element → Option (List Element)
  | [] => some []
  | child :: rest => do return (← expand? child) :: (← expandAll? rest)

end

/-- A reference is read to its end. -/
theorem valueFrom?_reference {name : Text} (h : ';' ∉ name) (read t : Text) :
    valueFrom? (some read) (name ++ ';' :: t) =
      (reference? (read ++ name)).bind fun d => (valueFrom? none t).map (d :: ·) := by
  induction name generalizing read with
  | nil => rw [List.nil_append, List.append_nil, valueFrom?, if_pos rfl]
  | cons c name ih =>
    rw [List.mem_cons, not_or] at h
    rw [List.cons_append, valueFrom?, if_neg (Ne.symm h.1), ih h.2, List.append_assoc,
      List.singleton_append]

/-- Whether a value is written plainly: it has no `<`, no quotes and no white space but spaces, and
each `&` begins a reference. -/
structure IsPlain (v : Text) : Prop where
  unescaped : ∀ c ∈ v, c ≠ '<' ∧ c ≠ '"' ∧ c ≠ '\t' ∧ c ≠ '\r' ∧ c ≠ '\n'
  reference : ∀ rest, '&' :: rest <:+ v →
    ∃ name rest', rest = name ++ ';' :: rest' ∧ (reference? name).isSome = true

end InsecureLinks.Xml
