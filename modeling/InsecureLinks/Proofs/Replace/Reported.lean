import Mathlib
import InsecureLinks.Proofs.Files.Lookup
import InsecureLinks.Proofs.Replace.Count
import InsecureLinks.Proofs.Replace.Places

/-!
# Securing what is reported

Replacing takes any violations: they may be out of date, come more than once, name lines and
columns that are not there, and stand in any order.  What counts are the places of the text that
one of them names and at which the link stands now (`IsReportedAt`).  Exactly there the text
changes (`inText_reported`), and the file is written only if there is such a place and it is no dry
run (`inFile_reported`).
-/

namespace InsecureLinks.Replace

/-- Whether one of some violations names a line and a column at which the link stands, and the
place `q` of the text is that column of that line. -/
def IsReportedAt (cut : List (Text × Text)) (vs : List Violation) (q : ℕ) : Prop :=
  ∃ v ∈ vs, ∃ (n k : ℕ) (line terminator : Text),
    v.lineNumber = ((n + 1 : ℕ) : ℤ) ∧ v.columnOffset = (k : ℤ) ∧
      cut[n]? = some (line, terminator) ∧ insecure <+: line.drop k ∧ q = Text.lineStart cut n + k

/-! ## From the lines to the text -/

/-- Lines that are secured one by one make a text that is secured at the places in all of them. -/
theorem exists_securesAt_flatMap {At : (Text × Text) × ℕ → ℕ → Prop}
    {change : (Text × Text) × ℕ → Text} {cut : List (Text × Text)} {n : ℕ}
    (h : ∀ p ∈ cut.zipIdx n, ∃ places, SecuresAt places (p.1.1 ++ p.1.2) (change p) ∧
      ∀ k, k ∈ places ↔ At p k) :
    ∃ places, SecuresAt places (cut.flatMap fun p => p.1 ++ p.2) ((cut.zipIdx n).flatMap change) ∧
      ∀ q, q ∈ places ↔
        ∃ i p k, cut[i]? = some p ∧ At (p, n + i) k ∧ q = Text.lineStart cut i + k := by
  induction cut generalizing n with
  | nil => exact ⟨[], .done [], by simp⟩
  | cons p cut ih =>
    obtain ⟨hp, hrest⟩ := List.forall_mem_cons.1 h
    obtain ⟨places, hsecures, hplaces⟩ := hp
    obtain ⟨places', hsecures', hplaces'⟩ := ih hrest
    refine ⟨_, hsecures.append hsecures', fun q => ?_⟩
    rw [List.mem_append, hplaces, List.mem_map]
    constructor
    · rintro (hq | ⟨q', hq', rfl⟩)
      · exact ⟨0, p, q, rfl, hq, by rw [Text.lineStart_zero, Nat.zero_add]⟩
      · obtain ⟨i, r, k, hr, hat, rfl⟩ := (hplaces' q').1 hq'
        refine ⟨i + 1, r, k, hr, ?_, ?_⟩
        · rwa [← Nat.add_assoc, Nat.add_right_comm]
        · rw [Text.lineStart_cons_succ, List.length_append, Nat.add_assoc (_ + _)]
    · rintro ⟨_ | i, r, k, hr, hat, rfl⟩
      · obtain rfl := Option.some.inj hr
        rw [Text.lineStart_zero, Nat.zero_add]
        exact .inl hat
      · refine .inr ⟨Text.lineStart cut i + k, (hplaces' _).2 ⟨i, r, k, hr, ?_, rfl⟩, ?_⟩
        · rwa [Nat.add_right_comm, Nat.add_assoc]
        · rw [Text.lineStart_cons_succ, List.length_append, Nat.add_assoc (_ + _)]

/-- Securing a line at some columns, whatever they are, secures it at those at which a link
stands. -/
theorem exists_securesAt_line {p : Text × Text} (hp : Text.CutLine p) {columns : List ℤ}
    (hcolumns : ∀ c ∈ columns, 0 ≤ c) :
    ∃ places, SecuresAt places (p.1 ++ p.2) (secureColumns (p.1 ++ p.2) (ordered columns)).1 ∧
      ∀ k, k ∈ places ↔ (k : ℤ) ∈ columns ∧ insecure <+: p.1.drop k := by
  obtain ⟨ks, hks⟩ : ∃ ks : List ℕ, ordered columns = ks.map fun (k : ℕ) => (k : ℤ) := by
    refine ⟨(ordered columns).map Int.toNat, ?_⟩
    rw [List.map_map]
    refine (List.map_id _).symm.trans (List.map_congr_left fun c hc => ?_)
    exact (Int.toNat_of_nonneg (hcolumns c (mem_ordered.1 hc))).symm
  have hsorted : ks.Pairwise (· > ·) := by
    have hpairwise := ordered_pairwise columns
    rw [hks, List.pairwise_map] at hpairwise
    exact hpairwise.imp fun h => Nat.cast_lt.1 h
  have hmem : ∀ k : ℕ, k ∈ ks ↔ (k : ℤ) ∈ columns := by
    intro k
    rw [← mem_ordered, hks]
    simp
  have hterminator := hp.isLineBreak_terminator
  obtain ⟨places, changed, hsecured, hsecures, hplaces⟩ :=
    @exists_securesAt_columns p.1 p.2 ks hsorted fun k _ hprefix => by
      rw [List.drop_append] at hprefix
      exact insecure_prefix_append (fun c hc => hterminator c (List.mem_of_mem_drop hc)) hprefix
  refine ⟨places, ?_, fun k => by rw [hplaces, hmem]⟩
  rw [hks, hsecured]
  simpa using hsecures.append (.done p.2)

/-! ## The text -/

theorem exists_securesAt_reported {vs : List Violation} (hcolumn : ∀ v ∈ vs, 0 ≤ v.columnOffset)
    (t : Text) :
    ∃ places, SecuresAt places t ((Text.cutLines t).zipIdx.flatMap (reportedLine vs)) ∧
      ∀ q, q ∈ places ↔ IsReportedAt (Text.cutLines t) vs q := by
  have hwhole : (Text.cutLines t).flatMap (fun p => p.1 ++ p.2) = t := Text.flatMap_cutLines t
  obtain ⟨places, hsecures, hplaces⟩ := @exists_securesAt_flatMap _ (reportedLine vs)
    (Text.cutLines t) 0 fun p hp => exists_securesAt_line
      (Text.cutLine_of_mem (List.fst_mem_of_mem_zipIdx hp)) fun c hc => by
        obtain ⟨v, hv, -, rfl⟩ := mem_get_columnsByLine.1 hc
        exact hcolumn v hv
  rw [hwhole] at hsecures
  refine ⟨places, hsecures, fun q => ?_⟩
  rw [hplaces]
  constructor
  · rintro ⟨n, ⟨line, terminator⟩, k, hp, ⟨hk, hprefix⟩, rfl⟩
    obtain ⟨v, hv, hnumber, hoffset⟩ := mem_get_columnsByLine.1 hk
    rw [Nat.zero_add] at hnumber
    exact ⟨v, hv, n, k, line, terminator, hnumber, hoffset, hp, hprefix, rfl⟩
  · rintro ⟨v, hv, n, k, line, terminator, hnumber, hoffset, hp, hprefix, rfl⟩
    rw [← Nat.zero_add n] at hnumber
    have hk := mem_get_columnsByLine.2 ⟨v, hv, hnumber, hoffset⟩
    exact ⟨n, (line, terminator), k, hp, ⟨hk, hprefix⟩, rfl⟩

/-- Replacing makes the links secure that are reported and stand there, and no others. -/
theorem inText_reported {vs : List Violation} (hline : ∀ v ∈ vs, 1 ≤ v.lineNumber)
    (hcolumn : ∀ v ∈ vs, 0 ≤ v.columnOffset) {mark t : Text}
    (hmark : mark = [Utf8.byteOrderMarkChar] ∨ mark = [] ∧ t.head? ≠ some Utf8.byteOrderMarkChar) :
    ∃ places changed, inText (mark ++ t) vs = .ok (mark ++ changed, places.length) ∧
      SecuresAt places t changed ∧ ∀ q, q ∈ places ↔ IsReportedAt (Text.cutLines t) vs q := by
  obtain ⟨n, hlines⟩ := secureLines_reported hline t
  obtain ⟨places, hsecures, hplaces⟩ := exists_securesAt_reported hcolumn t
  have htext : inText (mark ++ t) vs =
      .ok (mark ++ (Text.cutLines t).zipIdx.flatMap (reportedLine vs), n) := by
    rw [inText, cutMark_append hmark]
    dsimp only
    rw [hlines, List.flatMap_def]
    rfl
  -- Text and places agree on how much longer the text has become, and so on how many places.
  have hcount := length_of_inText htext
  rw [List.length_append, List.length_append, hsecures.length_eq] at hcount
  obtain rfl : n = places.length := by omega
  exact ⟨places, _, htext, hsecures, hplaces⟩

/-! ## The file -/

/-- What replacing should make of a text and how many links it should make secure there.  A byte
order mark stays, what follows it is cut into lines, and the places in them that are reported are
all that changes. -/
inductive SecuresReported (vs : List Violation) : Text → Text → ℕ → Prop
  | intro {mark changed : Text} {cut : List (Text × Text)} {places : List ℕ}
      (hmark : mark = [Utf8.byteOrderMarkChar] ∨
        mark = [] ∧ (cut.flatMap fun p => p.1 ++ p.2).head? ≠ some Utf8.byteOrderMarkChar)
      (hcut : Text.IsCut cut) (hsorted : places.Pairwise (· < ·))
      (hplaces : ∀ q, q ∈ places ↔ IsReportedAt cut vs q)
      (hsecures : SecuresAt places (cut.flatMap fun p => p.1 ++ p.2) changed) :
      SecuresReported vs (mark ++ cut.flatMap fun p => p.1 ++ p.2) (mark ++ changed) places.length

theorem cutMark_cases (content : Text) :
    ∃ mark t, content = mark ++ t ∧ (mark = [Utf8.byteOrderMarkChar] ∨
      mark = [] ∧ t.head? ≠ some Utf8.byteOrderMarkChar) := by
  rcases content with _ | ⟨c, t⟩
  · exact ⟨[], [], rfl, .inr ⟨rfl, by simp⟩⟩
  · by_cases hc : c = Utf8.byteOrderMarkChar
    · exact ⟨[c], t, rfl, .inl (by rw [hc])⟩
    · exact ⟨[], c :: t, rfl, .inr ⟨rfl, by simpa using hc⟩⟩

theorem exists_inText {vs : List Violation} (hline : ∀ v ∈ vs, 1 ≤ v.lineNumber)
    (hcolumn : ∀ v ∈ vs, 0 ≤ v.columnOffset) (content : Text) :
    ∃ changed n, inText content vs = .ok (changed, n) ∧ SecuresReported vs content changed n := by
  obtain ⟨mark, t, rfl, hmark⟩ := cutMark_cases content
  obtain ⟨places, changed, htext, hsecures, hplaces⟩ := inText_reported hline hcolumn hmark
  refine ⟨mark ++ changed, places.length, htext, ?_⟩
  have hwhole : (Text.cutLines t).flatMap (fun p => p.1 ++ p.2) = t := Text.flatMap_cutLines t
  have hintro := SecuresReported.intro (by rwa [hwhole]) (Text.isCut_cutLines t) hsecures.sorted
    hplaces (by rwa [hwhole])
  rwa [hwhole] at hintro

open FileTree

variable {tree : FileTree} {here : Place} {p : Path} {content : Text} {vs : List Violation}

/-- Replacing in a file is replacing in its text.  The text is written if it has changed and it is
no dry run. -/
theorem inFile_of_inText {changed : Text} {n : ℕ}
    (hread : tree.read here p = .ok (Utf8.encode content))
    (htext : inText content vs = .ok (changed, n)) (dryRun : Bool) :
    inFile dryRun here p vs tree =
      if n = 0 ∨ dryRun = true then .ok (tree, n)
      else ((tree.write here p (Utf8.encode changed)).map (·, n)).mapError .access := by
  rw [inFile, hread]
  dsimp only
  rw [Utf8.decode_encode]
  dsimp only
  rw [htext]
  simp only [bind, Except.bind]
  split_ifs
  · rfl
  · rcases tree.write here p (Utf8.encode changed) with f | tree'
    · rfl
    · rfl

/-- What has a text that is not empty is a file. -/
theorem exists_file_of_read {b : Utf8.Bytes} (h : tree.read here p = .ok b) (hne : b ≠ []) :
    ∃ place c, tree.unreadable.contains (routeOf here p) = false ∧
      tree.reach here p.text = .ok (place, .file c) := by
  rw [FileTree.read] at h
  split_ifs at h with hreadable
  rcases hreach : tree.reach here p.text with cause | ⟨place, x⟩
  · rw [hreach] at h
    cases h
  · rw [hreach] at h
    cases x with
    | file c => exact ⟨place, c, Bool.eq_false_of_not_eq_true hreadable, rfl⟩
    | folder => cases h
    | link target | pipe => exact absurd (Except.ok.inj h).symm hne

/-- In a text without characters nothing is secured. -/
theorem SecuresReported.eq_zero_of_nil {changed : Text} {n : ℕ}
    (h : SecuresReported vs content changed n) (hnil : content = []) : n = 0 := by
  obtain ⟨-, -, -, -, hsecures⟩ := h
  rw [hsecures.eq_nil (List.append_eq_nil_iff.1 hnil).2, List.length_nil]

/-- Replacing in a file secures what is reported in it.  If nothing is, or in a dry run, the tree
stays as it is; otherwise the changed text is written to the file and to nothing else. -/
theorem inFile_reported (hread : tree.read here p = .ok (Utf8.encode content))
    (hline : ∀ v ∈ vs, 1 ≤ v.lineNumber) (hcolumn : ∀ v ∈ vs, 0 ≤ v.columnOffset) (dryRun : Bool) :
    ∃ changed n, SecuresReported vs content changed n ∧
      (n = 0 ∨ dryRun = true → inFile dryRun here p vs tree = .ok (tree, n)) ∧
      (n ≠ 0 → dryRun = false → ∃ place c tree', tree.reach here p.text = .ok (place, .file c) ∧
        tree' = tree.put place (.file (.bytes (Utf8.encode changed))) ∧
        inFile dryRun here p vs tree = .ok (tree', n) ∧
        tree'.read here p = .ok (Utf8.encode changed)) := by
  obtain ⟨changed, n, htext, hsecures⟩ := exists_inText hline hcolumn content
  have hfile := inFile_of_inText hread htext dryRun
  refine ⟨changed, n, hsecures, fun hkept => by rw [hfile, if_pos hkept], fun hn hdry => ?_⟩
  have hne : Utf8.encode content ≠ [] := by
    intro hempty
    obtain rfl : content = [] := Utf8.encode_injective hempty
    exact hn (hsecures.eq_zero_of_nil rfl)
  obtain ⟨place, c, hreadable, hreach⟩ := exists_file_of_read hread hne
  have hlookup := reach_eq_ok.1 hreach
  have hnode := node?_of_reach hreach
  have hwrite : tree.write here p (Utf8.encode changed) =
      .ok (tree.put place (.file (.bytes (Utf8.encode changed)))) := by
    rw [FileTree.write, hreadable, hlookup]
    rfl
  have hput := reach_put hlookup (by simp [hnode]) (by simp [hnode]) (.bytes (Utf8.encode changed))
  refine ⟨place, c, _, hreach, rfl, ?_, ?_⟩
  · rw [hfile, if_neg (by simp [hn, hdry]), hwrite]
    rfl
  · rw [FileTree.read, put_unreadable, hreadable, hput]
    rfl

/-- A text with a byte order mark and a link in each of its two lines. -/
def linkedText : Text := Utf8.byteOrderMarkChar :: "a http://\r\nhttp://".toList

/-- The same text once both links are secure. -/
def linkedTextSecured : Text := Utf8.byteOrderMarkChar :: "a https://\r\nhttps://".toList

/-- A tree with that text in a file. -/
def linkedTree : FileTree := ⟨[(["f".toList], .file (.bytes (Utf8.encode linkedText)))], [], []⟩

/-- One link is reported twice and the other once, and three violations are out of date. -/
def staleViolations : List Violation :=
  [(2, 0), (1, 3), (7, 0), (1, 2), (2, 0), (2, 90)].map fun (line, column) =>
    ⟨"f".toList, line, column, [], []⟩

theorem inFile_reported_stale :
    (∀ v ∈ staleViolations, 1 ≤ v.lineNumber) ∧ (∀ v ∈ staleViolations, 0 ≤ v.columnOffset) ∧
    linkedTree.read [] (.ofText "f".toList) = .ok (Utf8.encode linkedText) ∧
    ∃ tree', inFile false [] (.ofText "f".toList) staleViolations linkedTree = .ok (tree', 2) ∧
      tree'.read [] (.ofText "f".toList) = .ok (Utf8.encode linkedTextSecured) ∧
      SecuresReported staleViolations linkedText linkedTextSecured 2 := by
  have hline : ∀ v ∈ staleViolations, 1 ≤ v.lineNumber := by decide
  have hcolumn : ∀ v ∈ staleViolations, 0 ≤ v.columnOffset := by decide
  have hread : linkedTree.read [] (.ofText "f".toList) = .ok (Utf8.encode linkedText) := by cbv
  have hrun : inFile false [] (.ofText "f".toList) staleViolations linkedTree =
      .ok (linkedTree.put ["f".toList] (.file (.bytes (Utf8.encode linkedTextSecured))), 2) := by
    cbv
  have hafter : (linkedTree.put ["f".toList] (.file (.bytes (Utf8.encode linkedTextSecured)))).read
      [] (.ofText "f".toList) = .ok (Utf8.encode linkedTextSecured) := by cbv
  obtain ⟨changed, n, hsecures, hkept, hwritten⟩ := inFile_reported hread hline hcolumn false
  have hn : n ≠ 0 := by
    rintro rfl
    have hzero := (Prod.mk.inj (Except.ok.inj (hrun.symm.trans (hkept (.inl rfl))))).2
    cases hzero
  obtain ⟨-, -, tree', -, -, hfile, hread'⟩ := hwritten hn rfl
  obtain ⟨rfl, rfl⟩ := Prod.mk.inj (Except.ok.inj (hfile.symm.trans hrun))
  obtain rfl := Utf8.encode_injective (Except.ok.inj (hread'.symm.trans hafter))
  exact ⟨hline, hcolumn, hread, _, hfile, hafter, hsecures⟩

end InsecureLinks.Replace
