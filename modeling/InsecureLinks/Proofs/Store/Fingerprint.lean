import Mathlib
import InsecureLinks.Proofs.Scan.Naming
import InsecureLinks.Proofs.Text.Field
import InsecureLinks.Proofs.Text.Numeral
import InsecureLinks.Proofs.Text.Utf8
import InsecureLinks.Proofs.Whitelist.Reading
import InsecureLinks.Store.Fingerprint

/-!
# What fingerprints tell apart

The bytes that are hashed do not always say what they were made from: a file may hold a root and a
path between zeros, as if the next file began there; it may hold what stands for a file that cannot
be opened; and the content of a whitelist entry may read `None`.  Where none of this is the case, the
entries (`entries_inj`), the files and what can be read of them (`files_inj`, `reading_eq`), and the
size limit (`maxFileSize_inj`) are got back from the bytes.  The entries that are written in a
whitelist are got back though zeros may stand in their paths (`written_entries_inj`): a line of the
text is then read from its end.
-/

namespace InsecureLinks.Fingerprint

open Utf8 (Bytes)

/-! ## Separators -/

theorem eq_nil_of_sep {α : Type} {z : α} {a c x y : List α} (hz : z ∉ a ++ c)
    (h : z :: x = c ++ z :: y) : c = [] := by
  rcases c with _ | ⟨w, c⟩
  · rfl
  · obtain ⟨rfl, -⟩ := List.cons.inj h
    exact absurd (by simp) hz

theorem append_sep_inj {α : Type} {z : α} {a b x y : List α} (ha : z ∉ a) (hb : z ∉ b)
    (h : a ++ z :: x = b ++ z :: y) : a = b ∧ x = y := by
  rcases List.append_eq_append_iff.1 h with ⟨c, rfl, hc⟩ | ⟨c, rfl, hc⟩
  · obtain rfl := eq_nil_of_sep hb hc
    exact ⟨by simp, (List.cons.inj hc).2⟩
  · obtain rfl := eq_nil_of_sep ha hc
    exact ⟨by simp, (List.cons.inj hc).2.symm⟩

/-- What ends before a separator ends at the first one or after it. -/
theorem cut_at_sep {α : Type} {z : α} {d r x y : List α} (hr : z ∉ r)
    (h : d ++ z :: x = r ++ z :: y) : d = r ∨ ∃ e, d = r ++ z :: e ∧ e ++ z :: x = y := by
  rcases List.append_eq_append_iff.1 h with ⟨c, rfl, hc⟩ | ⟨c, rfl, hc⟩
  · obtain rfl := eq_nil_of_sep hr hc
    exact .inl (by simp)
  · rcases c with _ | ⟨w, c⟩
    · exact .inl (by simp)
    · obtain ⟨rfl, hy⟩ := List.cons.inj hc
      exact .inr ⟨c, rfl, hy.symm⟩

/-- What follows the last separator. -/
theorem after_sep_inj {α : Type} {z : α} {a b x y : List α} (hx : z ∉ x) (hy : z ∉ y)
    (h : a ++ z :: x = b ++ z :: y) : x = y := by
  have hreverse : x.reverse ++ z :: a.reverse = y.reverse ++ z :: b.reverse := by
    simpa using congrArg List.reverse h
  exact List.reverse_injective (append_sep_inj (by simpa using hx) (by simpa using hy) hreverse).1

/-- A numeral has no character that comes before the minus sign. -/
theorem not_mem_integer {c : Char} (hc : c.toNat < 45) (i : ℤ) : c ∉ Text.integer i := by
  intro h
  rcases Text.mem_integer h with rfl | ⟨d, hd, h⟩
  · exact absurd hc (by decide)
  · have := (Text.IsDigit.toNat_range ⟨d, by omega, h⟩).1
    omega

/-- Lists are got back from what is laid out for their members in turn, if a member is got back from
what it begins. -/
theorem flatMap_inj {α β : Type} {f : α → List β} {as bs : List α} (hne : ∀ a, f a ≠ [])
    (hmember : ∀ a ∈ as, ∀ b ∈ bs, ∀ x y, f a ++ x = f b ++ y → a = b ∧ x = y)
    (h : as.flatMap f = bs.flatMap f) : as = bs := by
  induction as generalizing bs with
  | nil =>
    cases bs with
    | nil => rfl
    | cons b bs =>
      rw [List.flatMap_nil, List.flatMap_cons] at h
      exact absurd (List.append_eq_nil_iff.1 h.symm).1 (hne b)
  | cons a as ih =>
    cases bs with
    | nil =>
      rw [List.flatMap_nil, List.flatMap_cons] at h
      exact absurd (List.append_eq_nil_iff.1 h).1 (hne a)
    | cons b bs =>
      rw [List.flatMap_cons, List.flatMap_cons] at h
      obtain ⟨rfl, hrest⟩ := hmember a (by simp) b (by simp) _ _ h
      rw [ih (fun a ha b hb => hmember a (by simp [ha]) b (by simp [hb])) hrest]

/-! ## Targets -/

/-- The size limit is got back from the fields of a target. -/
theorem maxFileSize_inj {t t' : Target} {m m' : ℤ}
    (h : Text.join [separator] (targetFields t m) = Text.join [separator] (targetFields t' m')) :
    m = m' := by
  have hcut : ∀ (t : Target) (m : ℤ), ∃ before, Text.join [separator] (targetFields t m) =
      before ++ separator :: Text.integer m := by
    intro t m
    let named := "roots".toList :: t.roots ++ "include".toList :: t.included ++
      "exclude".toList :: t.effectiveExcludes ++ ["max".toList]
    have hfields : targetFields t m = named ++ [Text.integer m] := by
      simp [named, targetFields]
    refine ⟨Text.join [separator] named, ?_⟩
    rw [hfields, Text.join_append (by simp [named]) (by simp)]
    rfl
  obtain ⟨before, hbefore⟩ := hcut t m
  obtain ⟨before', hbefore'⟩ := hcut t' m'
  rw [hbefore, hbefore'] at h
  exact Text.integer_injective
    (after_sep_inj (not_mem_integer (by decide) m) (not_mem_integer (by decide) m') h)

/-! ## Whitelists -/

/-- Whether an entry cannot be mistaken in the text of a whitelist. -/
structure IsPlain (e : WhitelistEntry) : Prop where
  pattern : separator ∉ e.filePattern
  content : ∀ c, e.lineContent = some c → '\n' ∉ c ∧ c ≠ "None".toList

theorem not_mem_lineText {c : Char} (hc : c.toNat < 45) (n : Option ℤ) :
    c ∉ optionText Text.integer n := by
  cases n with
  | none =>
    intro h
    have hletter : c = 'N' ∨ c = 'o' ∨ c = 'n' ∨ c = 'e' := by simpa [optionText] using h
    rcases hletter with rfl | rfl | rfl | rfl
    all_goals exact absurd hc (by decide)
  | some i => exact not_mem_integer hc i

theorem lineText_injective : Function.Injective (optionText Text.integer) := by
  have hnone : ∀ i, Text.integer i ≠ "None".toList := by
    intro i h
    have hmem : 'N' ∈ Text.integer i := by
      rw [h]
      decide
    rcases Text.mem_integer hmem with h | ⟨d, hd, h⟩
    · exact absurd h (by decide)
    · have hall : ∀ d < 10, 'N' ≠ Text.digit d := by decide
      exact hall d hd h
  intro m n h
  cases m with
  | none =>
    cases n with
    | none => rfl
    | some j => exact absurd h.symm (hnone j)
  | some i =>
    cases n with
    | none => exact absurd h (hnone i)
    | some j => rw [Text.integer_injective h]

theorem newline_not_mem_contentText {e : WhitelistEntry} (h : IsPlain e) :
    '\n' ∉ optionText id e.lineContent := by
  rcases hcontent : e.lineContent with _ | c
  · decide
  · exact (h.content c hcontent).1

theorem contentText_inj {e e' : WhitelistEntry} (h : IsPlain e) (h' : IsPlain e')
    (heq : optionText id e.lineContent = optionText id e'.lineContent) :
    e.lineContent = e'.lineContent := by
  rcases hcontent : e.lineContent with _ | c
  · rcases hcontent' : e'.lineContent with _ | c'
    · rfl
    · rw [hcontent, hcontent'] at heq
      exact absurd heq.symm (h'.content c' hcontent').2
  · rcases hcontent' : e'.lineContent with _ | c'
    · rw [hcontent, hcontent'] at heq
      exact absurd heq (h.content c hcontent).2
    · rw [hcontent, hcontent'] at heq
      exact congrArg some heq

theorem entryText_append_inj {e e' : WhitelistEntry} {rest rest' : Text} (h : IsPlain e)
    (h' : IsPlain e') (heq : entryText e ++ rest = entryText e' ++ rest') :
    e = e' ∧ rest = rest' := by
  rcases e with ⟨p, n, c⟩
  rcases e' with ⟨p', n', c'⟩
  simp only [entryText, List.append_assoc, List.cons_append, List.nil_append] at heq
  obtain ⟨hpattern, hfields⟩ := append_sep_inj h.pattern h'.pattern heq
  obtain ⟨hline, hfields⟩ := append_sep_inj (not_mem_lineText (by decide) _)
    (not_mem_lineText (by decide) _) hfields
  obtain ⟨hcontent, hrest⟩ := append_sep_inj (newline_not_mem_contentText h)
    (newline_not_mem_contentText h') hfields
  obtain rfl : p = p' := hpattern
  obtain rfl : n = n' := lineText_injective hline
  obtain rfl : c = c' := contentText_inj h h' hcontent
  exact ⟨rfl, hrest⟩

theorem entryText_ne_nil (e : WhitelistEntry) : entryText e ≠ [] := by
  simp [entryText]

/-- The entries of a whitelist are got back from its text. -/
theorem entries_inj {es es' : List WhitelistEntry} (h : ∀ e ∈ es, IsPlain e)
    (h' : ∀ e ∈ es', IsPlain e) (heq : es.flatMap entryText = es'.flatMap entryText) :
    es = es' :=
  flatMap_inj entryText_ne_nil
    (fun e he e' he' _ _ hmember => entryText_append_inj (h e he) (h' e' he') hmember) heq

/-- The line of an entry without its break. -/
def entryLine (e : WhitelistEntry) : Text :=
  e.filePattern ++ separator :: optionText Text.integer e.lineNumber ++ separator :: "None".toList

theorem newline_not_mem_entryLine {e : WhitelistEntry} (h : e.IsWritten) : '\n' ∉ entryLine e := by
  intro hmem
  rw [entryLine, List.mem_append, List.mem_append, List.mem_cons] at hmem
  rcases hmem with (hpattern | hseparator | hline) | hcontent
  · exact absurd (h.pattern _ hpattern) (by decide)
  · exact absurd hseparator (by decide)
  · exact not_mem_lineText (by decide) _ hline
  · exact absurd hcontent (by decide)

/-- An entry that is written is got back from its line.  The path may hold zeros, but what follows
it does not. -/
theorem entryLine_inj {e e' : WhitelistEntry} (h : e.IsWritten) (h' : e'.IsWritten)
    (heq : entryLine e = entryLine e') : e = e' := by
  rcases e with ⟨p, n, c⟩
  rcases e' with ⟨p', n', c'⟩
  obtain rfl : c = none := h.content
  obtain rfl : c' = none := h'.content
  have hfields : p ++ separator :: optionText Text.integer n =
      p' ++ separator :: optionText Text.integer n' := List.append_cancel_right heq
  have hline := after_sep_inj (not_mem_lineText (by decide) n) (not_mem_lineText (by decide) n')
    hfields
  rw [hline] at hfields
  obtain rfl : p = p' := List.append_cancel_right hfields
  rw [lineText_injective hline]

theorem entryText_of_isWritten {e : WhitelistEntry} (h : e.IsWritten) :
    entryText e = entryLine e ++ ['\n'] := by
  rw [entryText, h.content, entryLine]
  rfl

/-- The entries that are written in a whitelist are got back from its text. -/
theorem written_entries_inj {es es' : List WhitelistEntry} (h : ∀ e ∈ es, e.IsWritten)
    (h' : ∀ e ∈ es', e.IsWritten) (heq : es.flatMap entryText = es'.flatMap entryText) :
    es = es' := by
  refine flatMap_inj entryText_ne_nil (fun e he e' he' x y hmember => ?_) heq
  rw [entryText_of_isWritten (h e he), entryText_of_isWritten (h' e' he'), List.append_assoc,
    List.append_assoc] at hmember
  obtain ⟨hline, hrest⟩ := append_sep_inj (newline_not_mem_entryLine (h e he))
    (newline_not_mem_entryLine (h' e' he')) hmember
  exact ⟨entryLine_inj (h e he) (h' e' he') hline, hrest⟩

/-! ## Files -/

/-- Whether the bytes of a file, or what stands for them, neither hold what looks like the root and
the path of one of some files nor end as if its root came next. -/
def IsUnframed (others : List SourceFile) (b : Bytes) : Prop :=
  ∀ g ∈ others, ¬(0 :: Utf8.encode g.root ++ 0 :: Utf8.encode g.relativePath ++ [0]) <:+: b ++ [0] ∧
    ¬(0 :: Utf8.encode g.root) <:+ b

section Files

variable {tree tree' : FileTree} {here here' : Place} {fs gs : List SourceFile}

theorem fileBytes_append (tree : FileTree) (here : Place) (f : SourceFile) (rest : Bytes) :
    fileBytes tree here f ++ rest = Utf8.encode f.root ++ 0 :: (Utf8.encode f.relativePath ++
      0 :: (contentBytes tree here f ++ 0 :: rest)) := by
  have hzero : Utf8.encode [separator] = [0] := by decide
  rw [fileBytes, ← List.singleton_append (x := separator), Utf8.encode_append, Utf8.encode_append,
    Utf8.encode_append, hzero]
  simp

theorem fileBytes_congr {f : SourceFile} (h : tree.read here f.path = tree'.read here' f.path) :
    fileBytes tree here f = fileBytes tree' here' f := by
  rw [fileBytes, fileBytes, contentBytes, contentBytes, h]

theorem IsUnframed.mono {c : Bytes} (h : IsUnframed gs c) (hsub : fs ⊆ gs) : IsUnframed fs c :=
  fun g hg => h g (hsub hg)

/-- A content without zeros cannot be mistaken. -/
theorem isUnframed_of_not_mem {b : Bytes} (h : 0 ∉ b) (others : List SourceFile) :
    IsUnframed others b := by
  refine fun g _ => ⟨fun hinside => ?_, fun hend => h (hend.subset (List.mem_cons_self ..))⟩
  -- What is framed has two zeros at least, and there is one behind the content.
  have hcount := hinside.sublist.count_le 0
  simp only [List.cons_append, List.count_cons_self, List.count_append, List.count_eq_zero.2 h,
    List.count_nil] at hcount
  omega

/-- A content that goes on where another ends holds the beginning of a file. -/
theorem not_isUnframed {g : SourceFile} {c d x y : Bytes} (hg : g.Lacks separator) (hmem : g ∈ gs)
    (h : d ++ 0 :: x = Utf8.encode g.root ++ 0 :: (Utf8.encode g.relativePath ++ 0 :: y)) :
    ¬IsUnframed gs (c ++ 0 :: d) := by
  intro hframe
  obtain ⟨hinside, hend⟩ := hframe g hmem
  rcases cut_at_sep (Utf8.zero_not_mem_encode hg.root) h with rfl | ⟨e, rfl, he⟩
  · exact hend ⟨c, rfl⟩
  · rcases cut_at_sep (Utf8.zero_not_mem_encode hg.relativePath) he with rfl | ⟨e', rfl, -⟩
    · exact hinside ⟨c, [], by simp⟩
    · exact hinside ⟨c, e' ++ [0], by simp⟩

/-- A content does not go on into the next file. -/
theorem content_not_longer (hgs : ∀ g ∈ gs, g.Lacks separator) {c a rest : Bytes}
    (hframe : IsUnframed gs (c ++ a))
    (h : 0 :: gs.flatMap (fileBytes tree here) = a ++ 0 :: rest) : a = [] := by
  rcases a with _ | ⟨z, d⟩
  · rfl
  · obtain ⟨rfl, hnext⟩ := List.cons.inj h
    cases gs with
    | nil => simp at hnext
    | cons g gs =>
      rw [List.flatMap_cons, fileBytes_append] at hnext
      exact absurd hframe (not_isUnframed (hgs g (by simp)) (by simp) hnext.symm)

/-- The content of a file is got back from what it begins. -/
theorem content_inj {c c' : Bytes} (hfs : ∀ f ∈ fs, f.Lacks separator) (hgs : ∀ g ∈ gs, g.Lacks separator)
    (hframe : IsUnframed gs c) (hframe' : IsUnframed fs c')
    (h : c ++ 0 :: fs.flatMap (fileBytes tree here) =
      c' ++ 0 :: gs.flatMap (fileBytes tree' here')) :
    c = c' ∧ fs.flatMap (fileBytes tree here) = gs.flatMap (fileBytes tree' here') := by
  rcases List.append_eq_append_iff.1 h with ⟨a, rfl, ha⟩ | ⟨a, rfl, ha⟩
  · obtain rfl := content_not_longer hfs hframe' ha
    exact ⟨by simp, (List.cons.inj ha).2⟩
  · obtain rfl := content_not_longer hgs hframe ha
    exact ⟨by simp, (List.cons.inj ha).2.symm⟩

/-- The files and their contents are got back from their bytes. -/
theorem files_inj (hfs : ∀ f ∈ fs, f.Lacks separator) (hgs : ∀ g ∈ gs, g.Lacks separator)
    (hframe : ∀ f ∈ fs, IsUnframed gs (contentBytes tree here f))
    (hframe' : ∀ g ∈ gs, IsUnframed fs (contentBytes tree' here' g))
    (h : fs.flatMap (fileBytes tree here) = gs.flatMap (fileBytes tree' here')) :
    fs = gs ∧ ∀ f ∈ fs, contentBytes tree here f = contentBytes tree' here' f := by
  induction fs generalizing gs with
  | nil =>
    cases gs with
    | nil => exact ⟨rfl, by simp⟩
    | cons g gs =>
      rw [List.flatMap_nil, List.flatMap_cons, fileBytes_append] at h
      simp at h
  | cons f fs ih =>
    cases gs with
    | nil =>
      rw [List.flatMap_nil, List.flatMap_cons, fileBytes_append] at h
      simp at h
    | cons g gs =>
      rw [List.flatMap_cons, List.flatMap_cons, fileBytes_append, fileBytes_append] at h
      have hf := hfs f (by simp)
      have hg := hgs g (by simp)
      obtain ⟨hroot, hfields⟩ := append_sep_inj (Utf8.zero_not_mem_encode hf.root)
        (Utf8.zero_not_mem_encode hg.root) h
      obtain ⟨hpath, hfields⟩ := append_sep_inj (Utf8.zero_not_mem_encode hf.relativePath)
        (Utf8.zero_not_mem_encode hg.relativePath) hfields
      have hfs : ∀ f ∈ fs, f.Lacks separator := fun f hf => hfs f (by simp [hf])
      have hgs : ∀ g ∈ gs, g.Lacks separator := fun g hg => hgs g (by simp [hg])
      obtain ⟨hcontent, hfields⟩ := content_inj hfs hgs
        ((hframe f (by simp)).mono (List.subset_cons_self g gs))
        ((hframe' g (by simp)).mono (List.subset_cons_self f fs)) hfields
      obtain ⟨rfl, hrest⟩ := ih hfs hgs
        (fun f hf => (hframe f (by simp [hf])).mono (List.subset_cons_self g gs))
        (fun g hg => (hframe' g (by simp [hg])).mono (List.subset_cons_self _ _)) hfields
      obtain rfl : f = g := by
        cases f
        cases g
        dsimp only at hroot hpath
        rw [Utf8.encode_injective hroot, Utf8.encode_injective hpath]
      exact ⟨rfl, by simpa using ⟨hcontent, hrest⟩⟩

/-- Whether a file that can be read in one tree does not hold what stands for it in another, where
it cannot. -/
def IsUnmarked (tree tree' : FileTree) (here : Place) (f : SourceFile) : Prop :=
  ∀ e, tree'.read here f.path = .error e →
    tree.read here f.path ≠ .ok (Utf8.encode (unreadableMark e.cause))

/-- What can be read of a file is got back from its content, or what stands for it. -/
theorem reading_eq {f : SourceFile} (hmark : IsUnmarked tree tree' here f)
    (hmark' : IsUnmarked tree' tree here f)
    (h : contentBytes tree here f = contentBytes tree' here f) :
    (tree.read here f.path).toOption = (tree'.read here f.path).toOption := by
  rw [contentBytes, contentBytes] at h
  rcases hread : tree.read here f.path with e | b
  · rcases hread' : tree'.read here f.path with e' | b'
    · rfl
    · rw [hread, hread'] at h
      obtain rfl : Utf8.encode (unreadableMark e.cause) = b' := h
      exact absurd hread' (hmark' e hread)
  · rcases hread' : tree'.read here f.path with e' | b'
    · rw [hread, hread'] at h
      obtain rfl : b = Utf8.encode (unreadableMark e'.cause) := h
      exact absurd hread (hmark e' hread')
    · rw [hread, hread'] at h
      exact congrArg some h

end Files

end InsecureLinks.Fingerprint
