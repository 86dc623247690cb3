import Scriptlet.Host

/-!
The command: `scriptlet [--inline] [--debug] [--] CONTENTS`.
-/

namespace Scriptlet.Command

structure Options where
  inline : Bool := false
  debug : Bool := false
  contents : Option String := none

/-- Reads the arguments; after `--` they are taken as they are. -/
def options? (literally : Bool) (o : Options) : List String → Option Options
  | [] => some o
  | arg :: args =>
    if !literally && arg == "--" then options? true o args
    else if !literally && (arg == "--inline" || arg == "-i") then
      options? false { o with inline := true } args
    else if !literally && (arg == "--debug" || arg == "-d") then
      options? false { o with debug := true } args
    else if (!literally && arg.startsWith "-" && arg != "-") || o.contents.isSome then none
    else options? literally { o with contents := some arg } args

def source (inline : Bool) (contents : String) : IO Source := do
  if inline then
    return .inline contents
  else
    let bytes ← (some <$> IO.FS.readBinFile contents) <|> pure none
    return .file contents bytes

def usage : String :=
  "usage: scriptlet [--inline] [--debug] [--] CONTENTS\n"

end Scriptlet.Command

open Scriptlet in
def main (args : List String) : IO UInt32 := do
  let some o := Command.options? false {} args | IO.eprint Command.usage; return 2
  let some contents := o.contents | IO.eprint Command.usage; return 2
  let report := Host.answer o.debug (← Command.source o.inline contents)
  IO.print report.stdout
  IO.eprint report.stderr
  return report.status.toUInt32
