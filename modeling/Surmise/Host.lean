import Surmise.Evaluation.Body
import Surmise.Script.Grammar

/-!
The surroundings of a session: how source text is read, and what functions the host adds to those of the
language.
-/

namespace Surmise

variable [Platform]

structure Fragment where
  strict : Bool
  run : Invoke → Eval Completion

def Program.fragment (p : Program) : Fragment := ⟨p.strict, fun call => p.run call⟩

structure Host where
  read : (source filename : String) → Except HostError Fragment
  foreign : (name : String) → Invoke → Value → List Value → CallOptions → Eval Value

namespace Host

def readScript (source _filename : String) : Except HostError Fragment :=
  (Program.parse source).map Program.fragment

/-- Scripts are read, and there are no functions but those of the language. -/
def standard : Host where
  read := readScript
  foreign _ _ _ _ _ := return .unknown

end Host
end Surmise
