import MethodBody.Encoding
import MethodBody.Failure
import MethodBody.Listing.Printer
import MethodBody.Site

namespace MethodBody

/-- The sites in the wanted direction, or in both, by position. A failure at the stores wins. -/
def sitesOf (wanted : Option Direction) (code : List Instruction) : Except Failure (List Site) := do
  let stores ←
    if wanted = some .load then pure [] else (allSites .store code).mapError (.scan .store)
  let loads ←
    if wanted = some .store then pure [] else (allSites .load code).mapError (.scan .load)
  return (stores ++ loads).mergeSort fun a b => a.position ≤ b.position

def Site.print (s : Site) : List Char :=
  decimal s.position ++ ": ".toList ++ s.pair.load.print ++ " <-> ".toList ++
    s.pair.store.print ++ ['\n']

structure ReportEntry where
  position : Nat
  slot : Option UInt16
  source : Direction
  load : String
  store : String
  complementBytes : List UInt8
deriving DecidableEq

def Site.entry (s : Site) : Except Failure ReportEntry := do
  let bytes ← s.pair.complement.encode.mapError (.encoding s.position)
  return ⟨s.position, s.pair.load.slot?.map Slot.index, s.pair.source, s.pair.load.text,
    s.pair.store.text, bytes⟩

def reportEntries (sites : List Site) : Except Failure (List ReportEntry) :=
  sites.mapM Site.entry

end MethodBody
