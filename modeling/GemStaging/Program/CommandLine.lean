/-!
A program and its arguments as one line, for messages.
-/

namespace GemStaging.Program

/-- The program and its arguments with single blanks between them. -/
def commandLine (program : String) (args : List String) : String :=
  " ".intercalate (program :: args)

end GemStaging.Program
