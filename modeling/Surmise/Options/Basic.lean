/-!
Options of an analysis: whether faults are recovered or thrown, the filename for unnamed code, and how
deep calls may nest.
-/

namespace Surmise

structure Options where
  /-- Follow one concrete run: every fault is thrown. -/
  exactMode : Bool := false
  /-- Turn faults into diagnostics where that is possible. -/
  recovery : Bool := true
  defaultFilename : String := "<anonymous>"
  maxCallDepth : Nat := 256
deriving DecidableEq, Repr

namespace Options

def exact : Options := { exactMode := true }

def allowsRecovery (o : Options) : Bool := o.recovery && !o.exactMode

end Options
end Surmise
