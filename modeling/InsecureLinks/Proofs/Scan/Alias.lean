import Mathlib
import InsecureLinks.Proofs.Scan.Selection
import InsecureLinks.Proofs.Scan.Entering

/-!
# What a walk misses

The patterns are asked about the names under which a walk comes to something, and a folder is entered
under one of its names only.  If these are not the ones that the patterns select, what is in the folder
is missed, although other names lead there that would have been selected (`missed_aliased`).

This is the only way to miss something: a file that can be come to by names that are selected, through
folders that can be listed and are not passed over, is found under some names, or on the way to it the
walk has entered a folder under other names and not gone on there as these names do
(`mem_found_or_missed`).
-/

namespace InsecureLinks.Walk

open FileTree

section Alias

variable (plan : Plan) (start : Place) (entered : List Entry)

/-- Whether every folder on the way can be listed, and none is passed over. -/
structure IsOpen (names : List Text) : Prop where
  listable : ∀ before name after, names = before ++ name :: after →
    routeFrom plan.route before ∉ plan.tree.unlistable
  unpruned : ∀ before name after, names = before ++ name :: after → before ≠ [] →
    ¬Glob.PassesOver plan.excluded (relative before)

/-- Whether a folder on the way has been entered under other names, under which it cannot be listed, or
the next folder is passed over, or the file at the end is not selected. -/
def IsMissed (names : List Text) : Prop :=
  ∃ before name after trail, ∃ e ∈ entered, names = before ++ name :: after ∧
    Leads plan.tree start before trail e.place ∧ e.names ≠ before ∧
      (routeFrom plan.route e.names ∈ plan.tree.unlistable ∨
        after ≠ [] ∧ Glob.PassesOver plan.excluded (relative (e.names ++ [name])) ∨
        after = [] ∧ ¬Glob.Selects plan.included plan.excluded (relative (e.names ++ [name])))

end Alias

section Visit

variable {plan : Plan} {start p : Place} {entered : List Entry} {new : List (List Text)}
  {names : List Text} {trail : List Place}

variable (hvisit : IsVisit plan start entered new)
  (hpruned : ∀ l, isPruned plan l = true ↔ Glob.PassesOver plan.excluded (relative l))

include hvisit hpruned

/-- A folder to which open names lead is entered, or what they lead to beyond it is missed. -/
theorem IsVisit.entered_or_missed (hleads : Leads plan.tree start names trail p)
    (hfolder : plan.tree.node? p = some .folder)
    {name : Text} {rest : List Text} (hopen : IsOpen plan (names ++ name :: rest)) :
    (∃ e ∈ entered, e.place = p) ∨ IsMissed plan start entered (names ++ name :: rest) := by
  induction hleads generalizing name rest with
  | start => exact .inl ⟨_, hvisit.begins, rfl⟩
  | @step names trail p n q x hleads hp hnew hname hbehind ih =>
    rw [List.append_assoc, List.singleton_append] at hopen ⊢
    rcases ih hp hopen with ⟨e, he, rfl⟩ | hmissed
    · by_cases hlist : routeFrom plan.route e.names ∈ plan.tree.unlistable
      · have hother : e.names ≠ names := by
          rintro rfl
          exact hopen.listable _ _ _ rfl hlist
        exact .inr ⟨names, n, name :: rest, trail, e, he, rfl, hleads, hother, .inl hlist⟩
      · by_cases hover : Glob.PassesOver plan.excluded (relative (e.names ++ [n]))
        · have hother : e.names ≠ names := by
            rintro rfl
            exact hopen.unpruned (e.names ++ [n]) name rest (by simp) (by simp) hover
          exact .inr ⟨names, n, name :: rest, trail, e, he, rfl, hleads, hother,
            .inr (.inl ⟨List.cons_ne_nil _ _, hover⟩)⟩
        · have hgoes : GoesInto plan e ⟨e.names ++ [n], q⟩ := by
            obtain rfl : x = .folder := by
              rw [node?_of_behind hbehind] at hfolder
              exact Option.some.inj hfolder
            refine ⟨n, ⟨_, list?_of_listable hlist, hname, hbehind⟩, rfl, ?_⟩
            rw [Bool.eq_false_iff, Ne, hpruned]
            exact hover
          exact .inl (List.mem_map.1 (hvisit.goesOn e he _ hgoes))
    · exact .inr hmissed

/-- A file to which open names lead that are selected is found under some names, or missed. -/
theorem IsVisit.mem_or_missed (hplan : plan.IsReadable) {content : Content}
    (hleads : Leads plan.tree start names trail p) (hstart : plan.tree.node? start = some .folder)
    (hfile : plan.tree.node? p = some (.file content)) (hopen : IsOpen plan names)
    (hselects : Glob.Selects plan.included plan.excluded (relative names)) :
    (∃ l ∈ new, ∃ trail, Leads plan.tree start l trail p ∧ selects plan (relative l) = .ok true) ∨
      IsMissed plan start entered names := by
  cases hleads with
  | start =>
    rw [hstart] at hfile
    cases hfile
  | @step names trail p name q x hleads hp hnew hname hbehind =>
    obtain rfl : x = .file content := by
      rw [node?_of_behind hbehind] at hfile
      exact Option.some.inj hfile
    rcases hvisit.entered_or_missed hpruned hleads hp hopen with ⟨e, he, rfl⟩ | hmissed
    · by_cases hlist : routeFrom plan.route e.names ∈ plan.tree.unlistable
      · have hother : e.names ≠ names := by
          rintro rfl
          exact hopen.listable _ _ _ rfl hlist
        exact .inr ⟨names, name, [], trail, e, he, rfl, hleads, hother, .inl hlist⟩
      · obtain ⟨b, hb, hiff⟩ := selects_eq_ok hplan (relative (e.names ++ [name]))
        cases b with
        | false =>
          have hno : ¬Glob.Selects plan.included plan.excluded (relative (e.names ++ [name])) := by
            rw [← hiff]
            exact Bool.false_ne_true
          have hother : e.names ≠ names := by
            rintro rfl
            exact hno hselects
          exact .inr ⟨names, name, [], trail, e, he, rfl, hleads, hother, .inr (.inr ⟨rfl, hno⟩)⟩
        | true =>
          obtain ⟨trail', hleads', hfresh⟩ := hvisit.leads e he
          have hfinds : Finds plan e (e.names ++ [name]) :=
            ⟨name, p, content, ⟨_, list?_of_listable hlist, hname, hbehind⟩, rfl, hb⟩
          exact .inl ⟨_, (hvisit.mem_iff _).2 ⟨e, he, hfinds⟩, _,
            hleads'.step hp hfresh hname hbehind, hb⟩
    · exact .inr hmissed

end Visit

/-! ## The roots -/

section Roots

variable {tree : FileTree} {here : Place} {roots included excluded : List Text}

theorem files_prefix_of_root {written : Text} {s s' : State}
    (h : root tree here included excluded written s = .ok s') : s.files <+: s'.files := by
  obtain ⟨place, pruned, hreach, -, hwalk⟩ := exists_of_root_eq_ok h
  refine (folder_invariant (P := fun u => s.files <+: u.files) (Q := fun _ _ _ => True)
    (fun _ _ _ hu => hu) (fun _ _ _ _ _ _ _ hu => hu.trans (List.prefix_append _ _))
    (fun _ _ hu => hu) (fun _ _ _ _ _ _ => trivial) (fun _ _ _ _ _ _ _ _ _ _ _ => trivial)
    (node?_of_reach hreach) trivial ?_ hwalk).1
  exact List.prefix_rfl

/-- Every root has its walk, and what it finds is found. -/
theorem exists_root_of_mem {found : List SourceFile} {met : List Diagnostic}
    (h : Walk.roots tree here roots included excluded = .ok (found, met)) {r : Text} (hr : r ∈ roots) :
    ∃ s s', root tree here included excluded r s = .ok s' ∧ s'.files <+: found := by
  rw [Walk.roots, bind_eq_ok] at h
  obtain ⟨last, hfold, hfound⟩ := h
  cases hfound
  obtain ⟨before, after, rfl⟩ := List.append_of_mem hr
  rw [List.foldlM_append, bind_eq_ok] at hfold
  obtain ⟨s, -, hfold⟩ := hfold
  rw [List.foldlM_cons, bind_eq_ok] at hfold
  obtain ⟨s', hroot, hrest⟩ := hfold
  refine ⟨s, s', hroot, ?_⟩
  exact foldlM_invariant (fun u : State => s'.files <+: u.files)
    (fun _ _ _ _ hu hroot => hu.trans (files_prefix_of_root hroot)) List.prefix_rfl hrest

/-- Roots that lead to folders are all walked if all patterns can be read.  If open names lead from a
root to a file and the patterns select it under them, it is found under some names, or missed because
a folder on the way was entered under other names. -/
theorem mem_found_or_missed (ht : tree.IsSound)
    (hroots : ∀ r ∈ roots, ∃ place, tree.reach here (Path.ofText r).text = .ok (place, .folder))
    (hincluded : ∀ p ∈ included, ∃ ts, Glob.parse p = .ok ts)
    (hexcluded : ∀ p ∈ excluded, ∃ ts, Glob.parse p = .ok ts) :
    ∃ found met pruned, Walk.roots tree here roots included excluded = .ok (found, met) ∧
      Glob.subtrees excluded = .ok pruned ∧
      ∀ r ∈ roots, ∀ start, tree.reach here (Path.ofText r).text = .ok (start, .folder) →
        let plan := planOf tree here included excluded pruned r
        ∃ entered new, IsVisit plan start entered new ∧ new.map (fileAt plan) <:+: found ∧
          ∀ names trail p content, Leads tree start names trail p →
            tree.node? p = some (.file content) → IsOpen plan names →
            Glob.Selects included excluded (relative names) →
            (∃ f ∈ found, ComesTo tree here roots included excluded f p) ∨
              IsMissed plan start entered names := by
  obtain ⟨pruned, hpruned, hmem⟩ := Glob.subtrees_eq_ok hexcluded
  obtain ⟨⟨found, met⟩, hfound⟩ := roots_eq_ok hroots hincluded hexcluded
  refine ⟨found, met, pruned, hfound, hpruned, fun r hr start hreach => ?_⟩
  obtain ⟨s, s', hroot, hfiles⟩ := exists_root_of_mem hfound hr
  obtain ⟨entered, new, -, hnew, hvisit⟩ := exists_visit ht hreach hpruned hroot
  have hinfix : new.map (fileAt (planOf tree here included excluded pruned r)) <:+: found :=
    (List.IsSuffix.isInfix ⟨_, hnew.symm⟩).trans hfiles.isInfix
  refine ⟨entered, new, hvisit, hinfix, fun names trail p content hleads hfile hopen hselects => ?_⟩
  refine (hvisit.mem_or_missed (isPruned_iff hmem) ⟨hincluded, hexcluded⟩ hleads
    (node?_of_reach hreach) hfile hopen hselects).imp_left ?_
  rintro ⟨l, hl, trail', hleads', hselected⟩
  exact ⟨_, hinfix.subset (List.mem_map_of_mem hl), .intro hr hreach hleads' hfile hselected⟩

end Roots

/-- A folder `r` with a folder `a`, which holds a file `x`, and a link `b` to that folder. -/
def aliased : FileTree :=
  ⟨[(["r".toList], .folder), (["r".toList, "a".toList], .folder),
    (["r".toList, "a".toList, "x".toList], .file (.bytes [])),
    (["r".toList, "b".toList], .link "a".toList)], [], []⟩

theorem isSound_aliased : aliased.IsSound where
  nodup := by decide
  parent := by
    intro p hp
    simp only [aliased, List.mem_cons, List.not_mem_nil, or_false] at hp
    rcases hp with rfl | rfl | rfl | rfl
    · exact ⟨[], _, rfl, isName_singleton (by decide) (by decide), rfl⟩
    · exact ⟨["r".toList], _, rfl, isName_singleton (by decide) (by decide), rfl⟩
    · exact ⟨["r".toList, "a".toList], _, rfl, isName_singleton (by decide) (by decide), rfl⟩
    · exact ⟨["r".toList], _, rfl, isName_singleton (by decide) (by decide), rfl⟩

theorem reach_aliased : aliased.reach [] (Path.ofText "r".toList).text = .ok (["r".toList], .folder) := by
  cbv

theorem exists_parse_underLink : ∀ p ∈ ["b/*".toList], ∃ ts, Glob.parse p = .ok ts :=
  fun p hp => List.mem_singleton.1 hp ▸ Glob.exists_parse_of_noClass (by decide)

theorem mem_found_or_missed_aliased :
    ∃ found met pruned, Walk.roots aliased [] ["r".toList] ["b/*".toList] [] = .ok (found, met) ∧
      Glob.subtrees [] = .ok pruned ∧
      ∀ r ∈ ["r".toList], ∀ start, aliased.reach [] (Path.ofText r).text = .ok (start, .folder) →
        let plan := planOf aliased [] ["b/*".toList] [] pruned r
        ∃ entered new, IsVisit plan start entered new ∧ new.map (fileAt plan) <:+: found ∧
          ∀ names trail p content, Leads aliased start names trail p →
            aliased.node? p = some (.file content) → IsOpen plan names →
            Glob.Selects ["b/*".toList] [] (relative names) →
            (∃ f ∈ found, ComesTo aliased [] ["r".toList] ["b/*".toList] [] f p) ∨
              IsMissed plan start entered names :=
  mem_found_or_missed isSound_aliased (fun _ hr => ⟨_, List.mem_singleton.1 hr ▸ reach_aliased⟩)
    exists_parse_underLink (by simp)

/-- Nothing is found in a folder that is entered under the name `a`, although a file in it is selected
under the name `b` that also leads there. -/
theorem missed_aliased :
    aliased.IsSound ∧ aliased.reach [] (Path.ofText "r".toList).text = .ok (["r".toList], .folder) ∧
      (∃ trail, Leads aliased ["r".toList] ["b".toList, "x".toList] trail
        ["r".toList, "a".toList, "x".toList]) ∧
      aliased.node? ["r".toList, "a".toList, "x".toList] = some (.file (.bytes [])) ∧
      IsOpen (planOf aliased [] ["b/*".toList] [] [] "r".toList) ["b".toList, "x".toList] ∧
      Glob.Selects ["b/*".toList] [] (relative ["b".toList, "x".toList]) ∧
      Walk.roots aliased [] ["r".toList] ["b/*".toList] [] = .ok ([], []) := by
  have hb : behind aliased ["r".toList] "b".toList = .ok (some (["r".toList, "a".toList], .folder)) := by
    cbv
  have hx : behind aliased ["r".toList, "a".toList] "x".toList =
      .ok (some (["r".toList, "a".toList, "x".toList], .file (.bytes []))) := by
    cbv
  have hstart : Leads aliased ["r".toList] [] [] ["r".toList] := .start
  have hleads := (hstart.step rfl (by simp) (mem_names.2 ⟨_, rfl⟩) hb).step rfl (by decide)
    (mem_names.2 ⟨_, rfl⟩) hx
  let plan := planOf aliased [] ["b/*".toList] [] [] "r".toList
  have hplan : plan.IsReadable := ⟨exists_parse_underLink, List.forall_mem_nil _⟩
  have hopen : IsOpen plan ["b".toList, "x".toList] := by
    refine ⟨fun _ _ _ _ => List.not_mem_nil, ?_⟩
    rintro _ _ _ _ _ ⟨p, hp, -⟩
    cases hp
  have hselects : selects plan (relative ["b".toList, "x".toList]) = .ok true := by cbv
  obtain ⟨b, hb, hiff⟩ := selects_eq_ok hplan (relative ["b".toList, "x".toList])
  cases hselects.symm.trans hb
  exact ⟨isSound_aliased, reach_aliased, ⟨_, hleads⟩, rfl, hopen, hiff.1 rfl, by cbv⟩

end InsecureLinks.Walk
