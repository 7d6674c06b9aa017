import Mathlib
import InsecureLinks.Proofs.Replace.Reported
import InsecureLinks.Proofs.Replace.Visits

/-!
# Writing that is refused

A tree denies opening a file altogether.  A disk may also let a file be read and refuse only to have it
written, as it does for one that is read-only.  Here replacing goes on under any such refusals
(`reportUnder`); without them it is the replacing that runs (`reportUnder_none`).

What comes of one file is told by `Attempt`: four ways to fail and two to succeed.  All that can go wrong
goes wrong before the file is touched, since what is read once and is not empty can be written
(`attempt_iff`).
-/

namespace InsecureLinks

/-- Which files must not be written, though they may be read, and how a try to is answered. -/
abbrev Refusal := Path → Option AccessFault

namespace Replace

/-! ## Replacing under refusals -/

/-- Makes the links in one file secure, unless it would have to be written and must not be. -/
def inFileUnder (refuse : Refusal) (dryRun : Bool) (here : Place) (p : Path) (vs : List Violation)
    (tree : FileTree) : Except ReplaceFault (FileTree × ℕ) := do
  let (tree', n) ← inFile dryRun here p vs tree
  match refuse p with
  | none => return (tree', n)
  | some f => if n = 0 ∨ dryRun then return (tree', n) else throw (.access f)

/-- Makes the links in the files of some groups secure, one file after another.  After a fault the
files before it stay changed. -/
def inGroupsUnder (refuse : Refusal) (dryRun : Bool) (here : Place) (tree : FileTree) :
    Groups (Text × Text) Violation → FileTree × Except ReplaceFault Replaced
  | [] => (tree, .ok ⟨[], 0⟩)
  | g :: gs =>
    match inFileUnder refuse dryRun here (groupPath g) g.2 tree with
    | .error f => (tree, .error f)
    | .ok (tree, n) =>
      let (tree, result) := inGroupsUnder refuse dryRun here tree gs
      (tree, result.map (Replaced.add (groupPath g).text n))

/-- Makes the links of a report secure. -/
def reportUnder (refuse : Refusal) (dryRun : Bool) (here : Place) (r : Report) (tree : FileTree) :
    FileTree × Except ReplaceFault Replaced := inGroupsUnder refuse dryRun here tree r.byFile

variable {refuse : Refusal} {dryRun : Bool} {here : Place} {p : Path} {vs : List Violation}
  {tree tree₁ : FileTree} {g : (Text × Text) × List Violation} {gs : Groups (Text × Text) Violation}

theorem inGroupsUnder_of_fault {f : ReplaceFault}
    (hfile : inFileUnder refuse dryRun here (groupPath g) g.2 tree = .error f) :
    inGroupsUnder refuse dryRun here tree (g :: gs) = (tree, .error f) := by
  rw [inGroupsUnder, hfile]

theorem inGroupsUnder_cons {n : ℕ}
    (hfile : inFileUnder refuse dryRun here (groupPath g) g.2 tree = .ok (tree₁, n)) :
    inGroupsUnder refuse dryRun here tree (g :: gs) =
      ((inGroupsUnder refuse dryRun here tree₁ gs).1,
        (inGroupsUnder refuse dryRun here tree₁ gs).2.map (Replaced.add (groupPath g).text n)) := by
  rw [inGroupsUnder, hfile]

theorem inFileUnder_of_writable (h : refuse p = none) :
    inFileUnder refuse dryRun here p vs tree = inFile dryRun here p vs tree := by
  rw [inFileUnder, h]
  exact bind_pure _

theorem inGroupsUnder_none (gs : Groups (Text × Text) Violation) :
    inGroupsUnder (fun _ => none) dryRun here tree gs = inGroups dryRun here tree gs := by
  induction gs generalizing tree with
  | nil => rfl
  | cons g gs ih =>
    obtain ⟨⟨root, filePath⟩, vs⟩ := g
    rw [inGroupsUnder, inGroups, inFileUnder_of_writable rfl]
    show (match inFile dryRun here ((Path.ofText root).join filePath) vs tree with
      | .error f => _
      | .ok (tree, n) => _) = _
    rcases inFile dryRun here ((Path.ofText root).join filePath) vs tree with f | ⟨tree₁, n⟩
    · rfl
    · dsimp only
      rw [ih]
      rcases inGroups dryRun here tree₁ gs with ⟨tree₂, f | r⟩
      · rfl
      · dsimp only [Except.map]
        rw [Replaced.add]
        split_ifs
        · rfl
        · rfl

/-- Where nothing is refused, this is the replacing that runs. -/
theorem reportUnder_none (r : Report) :
    reportUnder (fun _ => none) dryRun here r tree = report dryRun here r tree :=
  inGroupsUnder_none r.byFile

/-! ## Lines that are not there -/

theorem lineIndex_eq_error_iff {count : ℕ} {lineNumber : ℤ} {f : ReplaceFault} :
    lineIndex count lineNumber = .error f ↔ f = .noSuchLine ∧ lineNumber + count < 1 := by
  unfold lineIndex
  dsimp only
  split_ifs with hafter hin hback
  · exact iff_of_false (fun h => nomatch h) (by omega)
  · exact iff_of_false (fun h => nomatch h) (by omega)
  · exact iff_of_false (fun h => nomatch h) (by omega)
  · rw [Except.error.injEq, eq_comm]
    exact (and_iff_left (by omega)).symm

theorem not_lineIndex_lt {count : ℕ} {lineNumber : ℤ} {k? : Option ℕ}
    (h : lineIndex count lineNumber = .ok k?) : ¬lineNumber + count < 1 := by
  intro hlt
  rw [lineIndex_eq_error_iff.2 ⟨rfl, hlt⟩] at h
  cases h

theorem secureLines_eq_error_iff {groups : Groups ℤ ℤ} {pieces : List Text} {f : ReplaceFault} :
    secureLines pieces groups = .error f ↔
      f = .noSuchLine ∧ ∃ g ∈ groups, g.1 + (pieces.length : ℤ) < 1 := by
  induction groups generalizing pieces with
  | nil => simp [secureLines]
  | cons g groups ih =>
    obtain ⟨lineNumber, columns⟩ := g
    simp only [List.mem_cons, exists_eq_or_imp]
    rw [secureLines]
    rcases hindex : lineIndex pieces.length lineNumber with f' | k?
    · obtain ⟨rfl, hlt⟩ := lineIndex_eq_error_iff.1 hindex
      constructor
      · intro h
        cases h
        exact ⟨rfl, .inl hlt⟩
      · rintro ⟨rfl, -⟩
        rfl
    · rw [or_iff_right (not_lineIndex_lt hindex)]
      rcases k? with _ | k
      · exact ih
      · have hset := @ih (pieces.set k
          (secureColumns (pieces.getD k []) (ordered columns)).1)
        rw [List.length_set] at hset
        refine Iff.trans ?_ hset
        show (secureLines (pieces.set k _) groups >>= _) = _ ↔ _
        refine bind_eq_error.trans (or_iff_left ?_)
        rintro ⟨⟨pieces₁, m⟩, -, h⟩
        cases h

theorem mem_columnsByLine_keys {lineNumber : ℤ} :
    (∃ g ∈ columnsByLine vs, g.1 = lineNumber) ↔ ∃ v ∈ vs, v.lineNumber = lineNumber := by
  rw [columnsByLine_eq, ← @Groups.mem_keys_of _ _ _ Violation.lineNumber vs]
  simp

/-- Securing links in a text fails only for a line before the first. -/
theorem inText_eq_error_iff {content : Text} {f : ReplaceFault} :
    inText content vs = .error f ↔ f = .noSuchLine ∧
      ∃ v ∈ vs, v.lineNumber + ((Text.pieces (cutMark content).2).length : ℤ) < 1 := by
  have hlines := @secureLines_eq_error_iff (columnsByLine vs) (Text.pieces (cutMark content).2) f
  have hkeys : (∃ g ∈ columnsByLine vs,
      g.1 + ((Text.pieces (cutMark content).2).length : ℤ) < 1) ↔
      ∃ v ∈ vs, v.lineNumber + ((Text.pieces (cutMark content).2).length : ℤ) < 1 := by
    constructor
    · rintro ⟨g, hg, hlt⟩
      obtain ⟨v, hv, hline⟩ := mem_columnsByLine_keys.1 ⟨g, hg, rfl⟩
      exact ⟨v, hv, hline ▸ hlt⟩
    · rintro ⟨v, hv, hlt⟩
      obtain ⟨g, hg, hline⟩ := mem_columnsByLine_keys.2 ⟨v, hv, rfl⟩
      exact ⟨g, hg, hline ▸ hlt⟩
  rw [← hkeys, ← hlines, inText]
  refine bind_eq_error.trans (or_iff_left ?_)
  rintro ⟨⟨pieces, n⟩, -, h⟩
  cases h

/-! ## One file -/

/-- What comes of the links in one file.  It cannot be read, is no text, has no line that a violation
names, or would have to be written and must not be; or else nothing is to be written, or all of the
secured text is put in its place. -/
inductive Attempt (refuse : Refusal) (dryRun : Bool) (here : Place) (p : Path) (vs : List Violation)
    (tree : FileTree) : Except ReplaceFault (FileTree × ℕ) → Prop
  | unread {f : AccessFault} (hread : tree.read here p = .error f) :
      Attempt refuse dryRun here p vs tree (.error (.access f))
  | notText {b : Utf8.Bytes} {f : Utf8.Fault} (hread : tree.read here p = .ok b)
      (hdecode : Utf8.decode b = .error f) :
      Attempt refuse dryRun here p vs tree (.error (.notText f))
  | noSuchLine {content : Text} (hread : tree.read here p = .ok (Utf8.encode content))
      (hline : ∃ v ∈ vs, v.lineNumber + ((Text.pieces (cutMark content).2).length : ℤ) < 1) :
      Attempt refuse dryRun here p vs tree (.error .noSuchLine)
  | refused {content changed : Text} {n : ℕ} {f : AccessFault}
      (hread : tree.read here p = .ok (Utf8.encode content))
      (htext : inText content vs = .ok (changed, n)) (hn : n ≠ 0) (hdry : dryRun = false)
      (hrefuse : refuse p = some f) :
      Attempt refuse dryRun here p vs tree (.error (.access f))
  | kept {content changed : Text} {n : ℕ} (hread : tree.read here p = .ok (Utf8.encode content))
      (htext : inText content vs = .ok (changed, n)) (hkept : n = 0 ∨ dryRun = true) :
      Attempt refuse dryRun here p vs tree (.ok (tree, n))
  | written {content changed : Text} {n : ℕ} {place : Place} {c : Content}
      (hread : tree.read here p = .ok (Utf8.encode content))
      (htext : inText content vs = .ok (changed, n)) (hn : n ≠ 0) (hdry : dryRun = false)
      (hrefuse : refuse p = none) (hreach : tree.reach here p.text = .ok (place, .file c)) :
      Attempt refuse dryRun here p vs tree
        (.ok (tree.put place (.file (.bytes (Utf8.encode changed))), n))

theorem secureLines_nil {groups : Groups ℤ ℤ} {pieces : List Text} {n : ℕ}
    (h : secureLines [] groups = .ok (pieces, n)) : n = 0 := by
  induction groups with
  | nil =>
    cases h
    rfl
  | cons g groups ih =>
    obtain ⟨lineNumber, columns⟩ := g
    rw [secureLines] at h
    obtain ⟨k?, hindex, h⟩ := bind_eq_ok.1 h
    rcases k? with _ | k
    · exact ih h
    · exact absurd (lineIndex_lt hindex) (Nat.not_lt_zero k)

/-- In a text without characters nothing is made secure, whatever lines are named. -/
theorem ne_nil_of_inText {content changed : Text} {n : ℕ}
    (h : inText content vs = .ok (changed, n)) (hn : n ≠ 0) : content ≠ [] := by
  rintro rfl
  rw [inText] at h
  obtain ⟨⟨pieces, m⟩, hlines, h⟩ := bind_eq_ok.1 h
  obtain ⟨-, rfl⟩ := Prod.mk.inj (Except.ok.inj h)
  exact hn (secureLines_nil hlines)

/-- What has been read and has links that are made secure can be written. -/
theorem exists_write {content : Text} (hread : tree.read here p = .ok (Utf8.encode content))
    (hne : content ≠ []) (b : Utf8.Bytes) :
    ∃ place c, tree.reach here p.text = .ok (place, .file c) ∧
      tree.write here p b = .ok (tree.put place (.file (.bytes b))) := by
  have hbytes : Utf8.encode content ≠ [] := fun hempty => hne (Utf8.encode_injective hempty)
  obtain ⟨place, c, hreadable, hreach⟩ := exists_file_of_read hread hbytes
  refine ⟨place, c, hreach, ?_⟩
  rw [FileTree.write, hreadable, FileTree.reach_eq_ok.1 hreach]
  rfl

theorem Attempt.inFileUnder_eq {x : Except ReplaceFault (FileTree × ℕ)}
    (h : Attempt refuse dryRun here p vs tree x) : inFileUnder refuse dryRun here p vs tree = x := by
  unfold inFileUnder
  cases h with
  | unread hread =>
    rw [inFile, hread]
    rfl
  | notText hread hdecode =>
    rw [inFile, hread]
    dsimp only
    rw [hdecode]
    rfl
  | noSuchLine hread hline =>
    rw [inFile, hread]
    dsimp only
    rw [Utf8.decode_encode]
    dsimp only
    rw [inText_eq_error_iff.2 ⟨rfl, hline⟩]
    rfl
  | @refused content changed n f hread htext hn hdry hrefuse =>
    obtain ⟨place, c, -, hwrite⟩ := exists_write hread (ne_nil_of_inText htext hn)
      (Utf8.encode changed)
    have hkept : ¬(n = 0 ∨ dryRun = true) := by simp [hn, hdry]
    rw [inFile_of_inText hread htext dryRun, if_neg hkept, hwrite, hrefuse]
    exact if_neg hkept
  | kept hread htext hkept =>
    rw [inFile_of_inText hread htext dryRun, if_pos hkept]
    rcases refuse p with _ | f
    · rfl
    · exact if_pos hkept
  | @written content changed n place c hread htext hn hdry hrefuse hreach =>
    obtain ⟨place, c, hreach', hwrite⟩ := exists_write hread (ne_nil_of_inText htext hn)
      (Utf8.encode changed)
    have hkept : ¬(n = 0 ∨ dryRun = true) := by simp [hn, hdry]
    rw [hreach] at hreach'
    obtain ⟨rfl, -⟩ := Prod.mk.inj (Except.ok.inj hreach')
    rw [inFile_of_inText hread htext dryRun, if_neg hkept, hwrite, hrefuse]
    rfl

theorem exists_attempt (refuse : Refusal) (dryRun : Bool) (here : Place) (p : Path)
    (vs : List Violation) (tree : FileTree) : ∃ x, Attempt refuse dryRun here p vs tree x := by
  rcases hread : tree.read here p with f | b
  · exact ⟨_, .unread hread⟩
  rcases hdecode : Utf8.decode b with f | content
  · exact ⟨_, .notText hread hdecode⟩
  obtain rfl := Utf8.decode_eq_ok_iff.1 hdecode
  rcases htext : inText content vs with f | ⟨changed, n⟩
  · exact ⟨_, .noSuchLine hread (inText_eq_error_iff.1 htext).2⟩
  by_cases hkept : n = 0 ∨ dryRun = true
  · exact ⟨_, .kept hread htext hkept⟩
  obtain ⟨hn, hdry⟩ := not_or.1 hkept
  rw [Bool.not_eq_true] at hdry
  rcases hrefuse : refuse p with _ | f
  · obtain ⟨place, c, hreach, -⟩ := exists_write hread (ne_nil_of_inText htext hn) []
    exact ⟨_, .written hread htext hn hdry hrefuse hreach⟩
  · exact ⟨_, .refused hread htext hn hdry hrefuse⟩

/-- Replacing in one file comes to what is attempted, and to nothing else. -/
theorem attempt_iff {x : Except ReplaceFault (FileTree × ℕ)} :
    Attempt refuse dryRun here p vs tree x ↔ inFileUnder refuse dryRun here p vs tree = x := by
  constructor
  · exact Attempt.inFileUnder_eq
  · rintro rfl
    obtain ⟨x, hx⟩ := exists_attempt refuse dryRun here p vs tree
    rwa [hx.inFileUnder_eq]

end Replace

end InsecureLinks
