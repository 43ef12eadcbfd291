import GemStaging.Path

/-!
Packages and the names of the files that belong to them. Everything a package owns is named after
its full name `name-version`: the archive, the unpacked directory and the descriptor, the last two
with an optional suffix for a platform.
-/

namespace GemStaging

/-- A package to stage: a name and a version, and whether only its descriptor is staged. -/
structure Package where
  name : String
  version : String
  specOnly : Bool
deriving DecidableEq, Inhabited

namespace Package

/-- The stem shared by every file of the package. -/
def fullName (p : Package) : String :=
  p.name ++ "-" ++ p.version

def archiveName (p : Package) : String :=
  p.fullName ++ ".gem"

def repositoryPath (p : Package) : Path :=
  ⟨"rubygems/" ++ p.name ++ "/" ++ p.version ++ "/" ++ p.archiveName⟩

/-- The file name is that of a descriptor of the package: it starts with the full name and ends in
`.gemspec`. -/
def matchesDescriptor (p : Package) (file : String) : Bool :=
  p.fullName.toList.isPrefixOf file.toList && ".gemspec".toList.isSuffixOf file.toList

/-- The directory name is that of an unpacked copy of the package: it starts with the full name. -/
def matchesUnpacked (p : Package) (dir : String) : Bool :=
  p.fullName.toList.isPrefixOf dir.toList

end Package

end GemStaging
