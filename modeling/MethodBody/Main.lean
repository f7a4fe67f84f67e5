import MethodBody.CommandLine.Outcome

namespace MethodBody

/-- The fault behind a number of the operating system, which may come with its sign changed. -/
def FileFault.ofCode (code : UInt32) (reason : String) : FileFault :=
  match code.toInt32.toInt.natAbs with
  | 2 => .missing
  | 13 => .denied
  | 20 => .notDirectory
  | 21 => .isDirectory
  | 36 => .nameTooLong
  | n => .other reason n

def FileFault.ofError : IO.Error → FileFault
  | .noFileOrDirectory _ code reason => .ofCode code reason
  | .permissionDenied _ code reason => .ofCode code reason
  | .inappropriateType _ code reason => .ofCode code reason
  | .invalidArgument _ code reason => .ofCode code reason
  | .resourceExhausted _ code reason => .ofCode code reason
  | .hardwareFault code reason => .ofCode code reason
  | .otherError code reason => .ofCode code reason
  | error => .other (toString error) 0

def readFile (path : String) : IO (Except FileFault ByteArray) := do
  try
    return .ok (← IO.FS.readBinFile path)
  catch error =>
    return .error (.ofError error)

end MethodBody

def main (args : List String) : IO UInt32 := do
  let outcome ← MethodBody.respond MethodBody.readFile args
  IO.print outcome.stdout
  IO.eprint outcome.stderr
  return outcome.exitCode
