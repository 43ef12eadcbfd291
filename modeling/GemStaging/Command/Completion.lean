import GemStaging.Command.Reading
import GemStaging.Fault

/-!
Completion of command lines in a user's shell: which shells are known, and a script for each of
them that offers the names of the commands.
-/

namespace GemStaging.Command

inductive UserShell where
  | bash
  | elvish
  | fish
  | powershell
  | zsh
deriving DecidableEq

/-- The shell of a name, in any mix of small and capital letters. Letters outside ASCII are in no
name. -/
def UserShell.parse (name : String) : Except Fault UserShell :=
  match name.toLower with
  | "bash" => .ok bash
  | "elvish" => .ok elvish
  | "fish" => .ok fish
  | "powershell" => .ok powershell
  | "pwsh" => .ok powershell
  | "zsh" => .ok zsh
  | _ => .error (.invalid (.unknownShell name))

/-- The script that offers the names of the commands. -/
def UserShell.script (shell : UserShell) : String :=
  let names := " ".intercalate topLevel.commands
  match shell with
  | bash => "complete -W '" ++ names ++ "' gemstage\n"
  | elvish =>
    "set edit:completion:arg-completer[gemstage] = \x7b|@words| put " ++ names ++ "\x7d\n"
  | fish => "complete -c gemstage -f -a '" ++ names ++ "'\n"
  | powershell =>
    "Register-ArgumentCompleter -Native -CommandName gemstage -ScriptBlock \x7b '" ++ names
      ++ "' -split ' ' \x7d\n"
  | zsh => "#compdef gemstage\ncompadd " ++ names ++ "\n"

end GemStaging.Command
