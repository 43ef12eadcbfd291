import GemStaging.Path

/-!
What can go wrong, as causes. A `Fault` ends a command; `Fault.message` is the one line that the
user reads, `Fault.code` names the cause for other tools, and `Fault.help?` says what to do about
it where something can be said. `OsError` are the refusals of the file system.
-/

namespace GemStaging

inductive OsError where
  | notFound
  | inputOutput
  | badFormat
  | denied
  | exists
  | notDirectory
  | isDirectory
  | tooLarge
  | nameTooLong
  | tooManyLinks
  | nulInName
  | nulInArgument
  | notText
  | notRegularSource
deriving DecidableEq

/-- The words for a refusal, with the number of the system where it has one. -/
def OsError.message : OsError → String
  | .notFound => "No such file or directory (os error 2)"
  | .inputOutput => "Input/output error (os error 5)"
  | .badFormat => "Exec format error (os error 8)"
  | .denied => "Permission denied (os error 13)"
  | .exists => "File exists (os error 17)"
  | .notDirectory => "Not a directory (os error 20)"
  | .isDirectory => "Is a directory (os error 21)"
  | .tooLarge => "File too large (os error 27)"
  | .nameTooLong => "File name too long (os error 36)"
  | .tooManyLinks => "Too many levels of symbolic links (os error 40)"
  | .nulInName => "file name contained an unexpected NUL byte"
  | .nulInArgument => "nul byte found in provided data"
  | .notText => "stream did not contain valid UTF-8"
  | .notRegularSource => "the source path is neither a regular file nor a symlink to a regular file"

/-- What is wrong with a configuration that could be read. -/
inductive Defect where
  | blankPackageName
  | repeatedPackage (name : String)
  | undeclaredSpecOnly (name : String)
  | emptyStub (path : Path)
  | unquotedDecimal (what number : String)
  | unterminatedReference (text : String)
  | blankReference (text : String)
  | blankVersion (package : String)
  | noDeploySection (manifest : Path)
  | unknownShell (name : String)
  | stated (text : String)
deriving DecidableEq

def Defect.message : Defect → String
  | .blankPackageName => "package name must not be empty"
  | .repeatedPackage name => "package '" ++ name ++ "' is declared more than once"
  | .undeclaredSpecOnly name =>
    "spec_only lists '" ++ name ++ "', which is not a declared package"
  | .emptyStub path => "loader stub " ++ path.text ++ " lists no archives"
  | .unquotedDecimal what number =>
    "quote " ++ what ++ " '" ++ number
      ++ "': unquoted decimals are read as numbers and lose trailing zeros"
  | .unterminatedReference text => "unterminated property reference in '" ++ text ++ "'"
  | .blankReference text => "empty property reference in '" ++ text ++ "'"
  | .blankVersion package => "package '" ++ package ++ "' resolves to an empty version"
  | .noDeploySection manifest => manifest.text ++ " has no `deploy:` section"
  | .unknownShell name =>
    "unknown shell '" ++ name ++ "' (supported: bash, elvish, fish, powershell, zsh)"
  | .stated text => text

inductive Fault where
  | manifestMissing (path : String)
  | manifestUnreadable (path reason : String)
  | manifestMalformed (path reason : String)
  | invalid (defect : Defect)
  | undefinedProperty (name : String)
  | fileMissing (path : String)
  | fileUnreadable (path reason : String)
  | fileUnwritable (path reason : String)
  | io (message : String)
  | archiveMissing (name version path : String)
  | installFailed (name version reason : String)
  | descriptorMissing (name version dir : String)
  | spawnFailed (program reason : String)
  | programFailed (command status stderr : String)
  | requestFailed (url reason : String)
  | missingExpected (expected url : String)
  | serverFailed (server action reason : String)
deriving DecidableEq

namespace Fault

def message : Fault → String
  | manifestMissing path => "Configuration file not found: " ++ path
  | manifestUnreadable path reason =>
    "Failed to read configuration file: " ++ path ++ ": " ++ reason
  | manifestMalformed path reason =>
    "Failed to parse configuration file: " ++ path ++ ": " ++ reason
  | invalid defect => "Invalid configuration: " ++ defect.message
  | undefinedProperty name => "Undefined property '" ++ name ++ "'"
  | fileMissing path => "File not found: " ++ path
  | fileUnreadable path reason => "Failed to read file: " ++ path ++ ": " ++ reason
  | fileUnwritable path reason => "Failed to write file: " ++ path ++ ": " ++ reason
  | io message => "IO error: " ++ message
  | archiveMissing name version path =>
    "Gem archive not found for " ++ name ++ "-" ++ version ++ ": " ++ path
  | installFailed name version reason =>
    "Failed to install gem " ++ name ++ "-" ++ version ++ ": " ++ reason
  | descriptorMissing name version dir =>
    "No specification for " ++ name ++ "-" ++ version ++ " in " ++ dir ++ " after install"
  | spawnFailed program reason => "Failed to run '" ++ program ++ "': " ++ reason
  | programFailed command status stderr =>
    "'" ++ command ++ "' exited with " ++ status ++ ": " ++ stderr
  | requestFailed url reason => "HTTP request to " ++ url ++ " failed: " ++ reason
  | missingExpected expected _ => "missed expected string in download: " ++ expected
  | serverFailed server action reason =>
    "Server '" ++ server ++ "' failed to " ++ action ++ ": " ++ reason

def code : Fault → String
  | manifestMissing .. => "gemstage::config::not_found"
  | manifestUnreadable .. => "gemstage::config::read_failed"
  | manifestMalformed .. => "gemstage::config::parse_failed"
  | invalid .. => "gemstage::config::invalid"
  | undefinedProperty .. => "gemstage::config::undefined_property"
  | fileMissing .. => "gemstage::fs::not_found"
  | fileUnreadable .. => "gemstage::fs::read_failed"
  | fileUnwritable .. => "gemstage::fs::write_failed"
  | io .. => "gemstage::fs::io_error"
  | archiveMissing .. => "gemstage::staging::archive_missing"
  | installFailed .. => "gemstage::staging::install_failed"
  | descriptorMissing .. => "gemstage::staging::descriptor_missing"
  | spawnFailed .. => "gemstage::process::spawn_failed"
  | programFailed .. => "gemstage::process::exit_status"
  | requestFailed .. => "gemstage::http::request_failed"
  | missingExpected .. => "gemstage::deploy::missing_substring"
  | serverFailed .. => "gemstage::deploy::server_control"

/-- What to do about the fault, for the causes where something can be said. -/
def help? : Fault → Option String
  | manifestMissing .. =>
    some "Pass --config <path> or create gemstage.yaml in the current directory"
  | undefinedProperty name =>
    some ("Declare it under `properties:` or pass -D " ++ name ++ "=<value>")
  | archiveMissing .. =>
    some "Check the repository setting and that the version property is correct"
  | spawnFailed .. => some "Check that the program is installed and on PATH"
  | missingExpected _ url =>
    some ("The response saved for " ++ url ++ " did not contain the expected text")
  | _ => none

end Fault

end GemStaging
