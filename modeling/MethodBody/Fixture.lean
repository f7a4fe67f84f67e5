import MethodBody.AccessPair
import MethodBody.Listing.Reader

namespace MethodBody

inductive FixtureError where
  | declaration (type : String) (error : Error)
  | listing (text : String) (error : Error)

def FixtureError.message : FixtureError → String
  | declaration type error => "cannot declare local of type " ++ type ++ ": " ++ error.message
  | listing text error => "listing parse failed: " ++ error.message ++ "\n" ++ text

/-- The locals of a method with one unpinned local of each type. -/
def fixtureLocals (method : Nat) (types : List String) : Except FixtureError Locals :=
  types.foldlM
    (fun locals type =>
      match locals.declare ⟨type, false⟩ with
      | (.ok _, locals) => .ok locals
      | (.error error, _) => .error (.declaration type error))
    (.empty method)

def fixtureCode (locals : Locals) (text : String) : Except FixtureError (List Instruction) :=
  (readCode locals text).mapError (.listing text)

def AccessPair.hasOpcodes (p : AccessPair) (load store : Opcode) : Bool :=
  p.load.opcode == load && p.store.opcode == store

def AccessPair.sameSlot (p : AccessPair) : Bool :=
  match p.load.slot?, p.store.slot? with
  | some a, some b => a.same b
  | _, _ => false

end MethodBody
