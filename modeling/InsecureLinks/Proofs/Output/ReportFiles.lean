import Mathlib
import InsecureLinks.Output.ReportFiles
import InsecureLinks.Proofs.Files.Writing

/-!
# What writing a report does to a tree

Writing a report changes the two files of the report in its folder, and no other
(`write_growsAt`).
-/

namespace InsecureLinks

namespace ReportFiles

open FileTree

variable {tree tree' : FileTree} {make : Html.Maker} {here : Place} {folder : Path}
  {document page : Bool} {r : Report} {paths : List Path}

/-- The names of the files of a report. -/
def names : List Text := [baseName ++ ".xml".toList, baseName ++ ".html".toList]

/-- The places of the files of a report. -/
def places (t : FileTree) (here : Place) (folder : Path) : Set Place :=
  {q | ∃ n ∈ names, q ∈ t.ends here (folder.join n)}

theorem places_subset (h : Grows tree tree') : places tree here folder ⊆ places tree' here folder :=
  fun _ ⟨n, hn, hq⟩ => ⟨n, hn, h.ends_subset hq⟩

theorem writeFile_growsAt (ht : tree.IsRooted) (hhere : tree.node? here = some .folder) {n : Text}
    (hn : n ∈ names) {content : Except Fault Text} {p : Path}
    (h : writeFile here (folder.join n) content tree = (tree', .ok p)) :
    GrowsAt (places tree' here folder) tree tree' := by
  cases content with
  | error f => cases h
  | ok content =>
    rw [writeFile] at h
    split at h
    · next hwrite =>
      cases h
      exact (write_growsAt ht hhere hwrite).mono fun q hq => ⟨n, hn, hq⟩
    · cases h

/-- What has been done before the page, and then the page where it is wanted. -/
theorem page_growsAt (ht : tree.IsRooted) (hhere : tree.node? here = some .folder)
    {tree₁ : FileTree} {written : List Path} (hfirst : GrowsAt (places tree₁ here folder) tree tree₁)
    (h : (if page then
        let (tree, outcome) :=
          writeFile here (folder.join (baseName ++ ".html".toList)) (ReportFiles.page make r) tree₁
        (tree, outcome.map fun p => written ++ [p])
      else (tree₁, .ok written) : FileTree × Except Fault (List Path)) = (tree', .ok paths)) :
    GrowsAt (places tree' here folder) tree tree' := by
  split_ifs at h
  · rcases hwrite : writeFile here (folder.join (baseName ++ ".html".toList))
      (ReportFiles.page make r) tree₁ with ⟨tree₂, f | p⟩
    · rw [hwrite] at h
      cases h
    · rw [hwrite] at h
      cases h
      have hsecond := writeFile_growsAt (hfirst.grows.isRooted ht)
        (hfirst.grows.keeps.folder here hhere) (by simp [names]) hwrite
      exact (hfirst.mono (places_subset hsecond.grows)).trans hsecond
  · cases h
    exact hfirst

theorem writeBoth_growsAt (ht : tree.IsRooted) (hhere : tree.node? here = some .folder)
    (h : writeBoth make here folder document page r tree = (tree', .ok paths)) :
    GrowsAt (places tree' here folder) tree tree' := by
  rw [writeBoth] at h
  cases document with
  | false => exact page_growsAt ht hhere (.refl _ tree) h
  | true =>
    rcases hwrite : writeFile here (folder.join (baseName ++ ".xml".toList))
      ((Checkstyle.document r).mapError .noDocument) tree with ⟨tree₁, f | p⟩
    · simp only [hwrite, if_true] at h
      cases h
    · simp only [hwrite, if_true] at h
      exact page_growsAt ht hhere (writeFile_growsAt ht hhere (by simp [names]) hwrite) h

/-- A report that is written changes its own files only. -/
theorem write_growsAt (ht : tree.IsRooted) (hhere : tree.node? here = some .folder)
    (h : write make here folder document page r tree = (tree', .ok paths)) :
    GrowsAt (places tree' here folder) tree tree' := by
  rw [write] at h
  split_ifs at h
  · cases h
    exact .refl _ tree
  · cases h
  · split at h
    · cases h
    · next tree₀ hfolders =>
      have hmade := ensureFolders_growsAt ht hhere hfolders
      have hwritten := writeBoth_growsAt (hmade.grows.isRooted ht)
        (hmade.grows.keeps.folder here hhere) h
      exact (hmade.mono (Set.empty_subset _)).trans hwritten

/-! ## Folders that can be written to -/

section Write

variable {made tree₁ tree₂ : FileTree} {t u : Text} (hzero : folder.hasZero = false)
  (hmade : tree.ensureFolders here folder.start folder.names.length folder.names = .ok made)
  (hdocument : Checkstyle.document r = .ok t)
  (hfirst : made.write here (folder.join (baseName ++ ".xml".toList)) (Utf8.encode t) = .ok tree₁)

include hzero hmade hdocument hfirst

theorem write_of_page (hpage : ReportFiles.page make r = .ok u)
    (hsecond : tree₁.write here (folder.join (baseName ++ ".html".toList)) (Utf8.encode u) =
      .ok tree₂) :
    write make here folder true true r tree = (tree₂, .ok (names.map folder.join)) := by
  rw [write, hzero, hmade]
  simp only [writeBoth, writeFile, hdocument, hpage, Except.mapError, hfirst, hsecond, if_true]
  rfl

end Write

end ReportFiles

end InsecureLinks
