import GemStaging.Manifest.Basic
import GemStaging.Yaml.Decode

/-!
Reading manifests and their sections from YAML. Fields are known by name; unknown ones are
refused, and those that are left out have the values that the sections give them.
-/

namespace GemStaging

open Yaml.Decode

/-- A value that stands for a text: a text, a number of at most 64 bits, or a truth value. -/
def Scalar.reader : Yaml.Decode Scalar := do
  match ← content ((← read).depth + 1) with
  | .atom (.text s) => return .text s
  | .atom (.integer n) => return .integer n
  | .atom (.decimal d) => return .decimal d
  | .atom (.truth b) => return .truth b
  | _ => complain (.noVariant "ScalarValue")

def Properties.declaredReader : Yaml.Decode (Table String Scalar) := table Scalar.reader

def textReader : Yaml.Decode String := text "a string"

def Path.reader : Yaml.Decode Path := return ⟨← Yaml.Decode.text "path string"⟩

def PackageEntry.reader : Yaml.Decode PackageEntry :=
  record "PackageEntry"
    [ required "name" textReader fun x v => { x with name := v },
      required "version" Scalar.reader fun x v => { x with version := v } ]
    default

def LoaderStub.reader : Yaml.Decode LoaderStub :=
  record "LoaderStubConfig"
    [ required "path" Path.reader fun x v => { x with path := v },
      required "archives" (list textReader) fun x v => { x with archives := v } ]
    default

def InstallerSection.reader : Yaml.Decode InstallerSection :=
  record "InstallerConfig"
    [ defaulted "program" textReader fun x v => { x with program := v },
      defaulted "args" (list textReader) fun x v => { x with args := v } ]
    {}

def LayoutSection.reader : Yaml.Decode LayoutSection :=
  record "LayoutConfig"
    [ defaulted "build_dir" Path.reader fun x v => { x with buildDir := v },
      defaulted "shared_lib" Path.reader fun x v => { x with sharedLib := v },
      defaulted "bin_stubs" Path.reader fun x v => { x with binStubs := v },
      defaulted "default_specs" Path.reader fun x v => { x with defaultSpecs := v } ]
    {}

namespace Deploy

def Form.reader : Yaml.Decode Form :=
  variant [("packed", .packed), ("unpacked", .unpacked)]

def DeploymentSection.reader : Yaml.Decode DeploymentSection :=
  record "DeploymentConfig"
    [ required "name" textReader fun x v => { x with name := v },
      required "form" Form.reader fun x v => { x with form := v },
      required "result" Path.reader fun x v => { x with result := v } ]
    default

def ServerSection.reader : Yaml.Decode ServerSection :=
  record "ServerConfig"
    [ required "install_dir" Path.reader fun x v => { x with installDir := v },
      required "name" textReader fun x v => { x with name := v } ]
    default

/-- The section without the fields that have to be given. -/
def Section.blank : Section :=
  { archive := default, exploded := default, server := default }

def Section.reader : Yaml.Decode Section :=
  record "DeployConfig"
    [ defaulted "package_command" (list textReader) fun x v => { x with packageCommand := v },
      required "archive" Path.reader fun x v => { x with archive := v },
      required "exploded" Path.reader fun x v => { x with exploded := v },
      required "server" ServerSection.reader fun x v => { x with server := v },
      defaulted "dropins" (optional Path.reader) fun x v => { x with dropins := v },
      defaulted "base_url" textReader fun x v => { x with baseUrl := v },
      defaulted "index" textReader fun x v => { x with index := v },
      defaulted "expected" (list textReader) fun x v => { x with expected := v },
      defaulted "dir_info" (optional Path.reader) fun x v => { x with dirInfo := v },
      defaulted "deployments" (list DeploymentSection.reader)
        fun x v => { x with deployments := v } ]
    .blank

end Deploy

namespace Manifest

def reader : Yaml.Decode Manifest :=
  record "Manifest"
    [ defaulted "properties" Properties.declaredReader fun x v => { x with properties := v },
      defaulted "repository" (optional textReader) fun x v => { x with repository := v },
      defaulted "local_repository" (optional Path.reader)
        fun x v => { x with localRepository := v },
      defaulted "packages" (list PackageEntry.reader) fun x v => { x with packages := v },
      defaulted "spec_only" (list textReader) fun x v => { x with specOnly := v },
      defaulted "layout" LayoutSection.reader fun x v => { x with layout := v },
      defaulted "placeholders" (list Path.reader) fun x v => { x with placeholders := v },
      defaulted "loader_stubs" (list LoaderStub.reader) fun x v => { x with loaderStubs := v },
      defaulted "installer" InstallerSection.reader fun x v => { x with installer := v },
      defaulted "deploy" (optional Deploy.Section.reader) fun x v => { x with deploy := v } ]
    {}

/-- The manifest that a text describes, checked. Faults name `source` as its place. -/
def ofText (source text : String) : Except Fault Manifest :=
  match Yaml.decode reader text with
  | .error e => .error (.manifestMalformed source e.message)
  | .ok m => do
    m.validate
    return m

end Manifest

end GemStaging
