import MethodBody.CommandLine.Arguments
import MethodBody.Listing.Reader
import MethodBody.ReportFormat
import MethodBody.Edit

namespace MethodBody

def decodeText (bytes : ByteArray) : Except FileFault String :=
  match String.fromUTF8? bytes with
  | some text => .ok text
  | none => .error .notText

/-- What a command prints, given what its input file holds. -/
def Command.run (c : Command) (content : Except FileFault ByteArray) : Except Failure String := do
  let text ← (content.bind decodeText).mapError (.file c.input)
  let locals ← (readLocals 0 text).mapError (.locals c.input)
  let code ← (readCode locals text).mapError (.code c.input)
  match c with
  | complement _ wanted json =>
    let sites ← sitesOf wanted code
    if json then return (← printJson sites) ++ "\n" else return printText sites
  | reload _ position =>
    let code ← (reloadAfter position code).mapError (.reload position)
    return String.ofList (printListing locals code)

inductive Outcome where
  | printed (output : String)
  | failed (failure : Failure)
  | misused

namespace Outcome

def exitCode : Outcome → UInt32
  | printed _ => 0
  | failed _ => 1
  | misused => 2

def stdout : Outcome → String
  | printed output => output
  | failed _ => ""
  | misused => ""

def stderr : Outcome → String
  | printed _ => ""
  | failed failure => failure.report
  | misused =>
    "usage: complement INPUT [-d any|load|store] [--json]\n       reload INPUT -a POSITION\n"

end Outcome

/-- Answers the arguments of the program. A file is read only once they are understood. -/
def respond {m : Type → Type} [Monad m] (read : String → m (Except FileFault ByteArray))
    (args : List String) : m Outcome :=
  match Command.ofArguments? args with
  | none => return .misused
  | some c => do
    match c.run (← read c.input) with
    | .ok output => return .printed output
    | .error failure => return .failed failure

end MethodBody
