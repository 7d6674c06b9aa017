import InsecureLinks.Text.Basic

/-!
# Scan targets

What is to be scanned: the roots, and the patterns that say which of the files beneath them.  A
few patterns of excluded files are always in force, whatever else is excluded.
-/

namespace InsecureLinks

/-- The build folder, unless another is named. -/
def defaultBuildDir : Text := "build".toList

/-- The name of a build folder without slashes around it. -/
def trimBuildDir (buildDir : Text) : Text :=
  let t := ((buildDir.dropWhile (· = '/')).reverse.dropWhile (· = '/')).reverse
  if t.isEmpty then defaultBuildDir else t

/-- The patterns that are always excluded: version control and editor folders, compiled classes,
key stores, the build folder, and files that hold namespace names by design. -/
def defaultExcludes (buildDir : Text) : List Text :=
  [".git/**".toList, ".idea/**".toList, "**/*.class".toList, "**/*.jks".toList,
    trimBuildDir buildDir ++ "/**".toList, "**/META-INF/spring.handlers".toList,
    "**/META-INF/spring.schemas".toList]

/-- Roots and patterns.  With no pattern of included files, all are included. -/
structure Target where
  roots : List Text
  included : List Text
  excluded : List Text
  buildDir : Text
deriving DecidableEq, Repr

namespace Target

/-- All patterns of excluded files, the default ones first. -/
def effectiveExcludes (t : Target) : List Text :=
  let defaults := defaultExcludes t.buildDir
  defaults ++ t.excluded.filter fun p => !defaults.contains p

end Target

end InsecureLinks
