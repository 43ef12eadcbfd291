import GemStaging.Deploy.Plan
import GemStaging.Layout
import GemStaging.Package
import GemStaging.Property.Basic

/-!
Manifests: what is to be staged and deployed, as it is written down. A manifest is well formed
when its package names are not blank and all different, every name that is marked as specification
only belongs to a package, and every loader stub lists an archive; `Manifest.validate` finds the
first fault.
-/

namespace GemStaging

/-- A package as a manifest lists it. The version may refer to properties. -/
structure PackageEntry where
  name : String
  version : Scalar
deriving DecidableEq, Inhabited

/-- A loader stub: where it goes and which archives it requires. -/
structure LoaderStub where
  path : Path
  archives : List String
deriving DecidableEq, Inhabited

/-- The program that installs archives, and what it is given besides. -/
structure InstallerSection where
  program : String := "gem"
  args : List String := []
deriving DecidableEq, Inhabited

structure Manifest where
  properties : Table String Scalar := .empty
  repository : Option String := some "http://rubygems-proxy.torquebox.org/releases"
  localRepository : Option Path := none
  packages : List PackageEntry := []
  specOnly : List String := []
  layout : LayoutSection := {}
  placeholders : List Path := [⟨"target/lib/openssl.rb"⟩]
  loaderStubs : List LoaderStub :=
    [⟨⟨"ruby/shared/bouncy-castle-java.rb"⟩,
      ["bcpkix-jdk15on-147.jar", "bcprov-jdk15on-147.jar"]⟩]
  installer : InstallerSection := {}
  deploy : Option Deploy.Section := none

namespace Manifest

/-- The first fault of a list of packages, after packages with the names `seen`. -/
def packageFault? (seen : List String) : List PackageEntry → Option Defect
  | [] => none
  | entry :: rest =>
    if Text.isBlankText entry.name then some .blankPackageName
    else if seen.contains entry.name then some (.repeatedPackage entry.name)
    else packageFault? (entry.name :: seen) rest

/-- The first name marked as specification only that belongs to no package. -/
def specOnlyFault? (m : Manifest) : Option Defect :=
  (m.specOnly.find? fun name => !m.packages.any (·.name == name)).map .undeclaredSpecOnly

def stubFault? (m : Manifest) : Option Defect :=
  (m.loaderStubs.find? (·.archives.isEmpty)).map fun stub => .emptyStub stub.path

/-- The first fault: of the packages, then of the marks on them, then of the loader stubs. -/
def fault? (m : Manifest) : Option Defect :=
  packageFault? [] m.packages <|> m.specOnlyFault? <|> m.stubFault?

def validate (m : Manifest) : Except Fault Unit :=
  match m.fault? with
  | some defect => .error (.invalid defect)
  | none => .ok ()

/-- The package of an entry, with its version resolved. -/
def resolvePackage (m : Manifest) (p : Properties) (entry : PackageEntry) :
    Except Fault Package := do
  let raw ← entry.version.toText ("version of " ++ entry.name)
  let version ← p.interpolate raw
  if Text.isBlankText version then .error (.invalid (.blankVersion entry.name))
  else return ⟨entry.name, version, m.specOnly.contains entry.name⟩

/-- The packages in the order of the manifest; the first entry that cannot be resolved decides the
fault. -/
def resolvePackages (m : Manifest) (p : Properties) : Except Fault (List Package) :=
  m.packages.mapM (m.resolvePackage p)

end Manifest

end GemStaging
