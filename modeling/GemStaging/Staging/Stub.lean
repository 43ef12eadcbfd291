import GemStaging.Files.Basic

/-!
Loader stubs: files of `require` lines, one for each archive that stands beside the stub.
-/

namespace GemStaging.Staging

/-- The line that requires one archive by its place beside the stub. -/
def stubLine (archive : String) : String :=
  "require File.expand_path('" ++ archive ++ "', File.dirname(__FILE__))\n"

def renderStub (archives : List String) : String :=
  String.join (archives.map stubLine)

/-- Writes a stub, in the place of what stood there. -/
def writeStub (path : Path) (archives : List String) : Files Unit :=
  Files.writeText path (renderStub archives)

end GemStaging.Staging
