import Surmise.Record.Array

/-!
Records of the other classes: errors, functions and wrappers of primitive values.
-/

namespace Surmise.Record

def ofError (kind : ErrorKind) (name message : Value) : Record :=
  ((empty (.error kind)).setProperty "name" ⟨name, .hidden⟩).setProperty "message" ⟨message, .hidden⟩

/-- The error of this name. Names other than those of the built-in kinds make generic errors. -/
def errorNamed (name message : String) : Record :=
  ofError (.ofName name) (.string name) (.string message)

def ofCallable (c : Callable) : Record :=
  { (empty .function).setProperty "length" ⟨.number (Number.ofNat c.arity), .fixed⟩ with
    callable := some c }

def wrapper? : Value → Option Record
  | .boolean b => some { objectClass := .boolean, primitive := some (.boolean b) }
  | .number x => some { objectClass := .number, primitive := some (.number x) }
  | .string s =>
    some { (empty .string).setProperty "length"
        ⟨.number (Number.ofNat (Text.unitCount s)), .fixed⟩ with primitive := some (.string s) }
  | _ => none

end Surmise.Record
