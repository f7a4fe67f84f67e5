import MethodBody.Error

namespace MethodBody

/-- Why the text of a file is not to be had. -/
inductive FileFault where
  | missing
  | denied
  | notDirectory
  | isDirectory
  | nameTooLong
  | other (reason : String) (code : Nat)
  | notText

def FileFault.message : FileFault → String
  | missing => "No such file or directory (os error 2)"
  | denied => "Permission denied (os error 13)"
  | notDirectory => "Not a directory (os error 20)"
  | isDirectory => "Is a directory (os error 21)"
  | nameTooLong => "File name too long (os error 36)"
  | other reason code => reason ++ " (os error " ++ String.ofList (decimal code) ++ ")"
  | notText => "stream did not contain valid UTF-8"

inductive Failure where
  | file (path : String) (fault : FileFault)
  | locals (path : String) (error : Error)
  | code (path : String) (error : Error)
  | scan (direction : Direction) (error : Error)
  | encoding (position : Nat) (error : Error)
  | reload (position : Nat) (error : Error)

namespace Failure

def context : Failure → String
  | file path _ => "Failed to read " ++ path
  | locals path _ => "Failed to parse locals in " ++ path
  | code path _ => "Failed to parse " ++ path
  | scan .load _ => "Load scan failed"
  | scan .store _ => "Store scan failed"
  | encoding position _ =>
    "Failed to encode complement of instruction " ++ String.ofList (decimal position)
  | reload position _ =>
    "Cannot insert reload after instruction " ++ String.ofList (decimal position)

def cause : Failure → String
  | file _ fault => fault.message
  | locals _ error | code _ error | scan _ error | encoding _ error | reload _ error =>
    error.message

def message (f : Failure) : String :=
  f.context ++ ": " ++ f.cause

def report (f : Failure) : String :=
  "Error: " ++ f.context ++ "\n\nCaused by:\n    " ++ f.cause ++ "\n"

end Failure

end MethodBody
