import Surmise.Options.Reader
import Surmise.Session.Run

/-!
The command line: a script is run in a new session, its value is printed, and every diagnostic goes to
the error output.
-/

namespace Surmise

structure CommandLine where
  file : Option String := none
  code : Option String := none
  config : Option String := none
  exact : Bool := false
  noRecovery : Bool := false
deriving DecidableEq, Repr

namespace CommandLine

def after? (start arg : String) : Option String :=
  let cs := start.toList
  if cs.isPrefixOf arg.toList then some (String.ofList (arg.toList.drop cs.length)) else none

def isVerbosity (arg : String) : Bool :=
  arg = "--verbose" ||
    (match arg.toList with
      | '-' :: 'v' :: cs => cs.all (· = 'v')
      | _ => false)

def withArgument (c : CommandLine) (arg : String) : CommandLine :=
  if arg = "--exact" then { c with exact := true }
  else if arg = "--no-recovery" then { c with noRecovery := true }
  else if isVerbosity arg then c
  else
    match after? "--eval=" arg, after? "--config=" arg with
    | some code, _ => { c with code := some code }
    | _, some path => { c with config := some path }
    | none, none => { c with file := some arg }

def readFrom (c : CommandLine) : List String → CommandLine
  | [] => c
  | [arg] => c.withArgument arg
  | arg :: value :: rest =>
    if arg = "-e" ∨ arg = "--eval" then readFrom { c with code := some value } rest
    else if arg = "-c" ∨ arg = "--config" then readFrom { c with config := some value } rest
    else readFrom (c.withArgument arg) (value :: rest)
termination_by args => args.length

def ofArguments (args : List String) : CommandLine := readFrom {} args

structure Report where
  code : Nat
  output : String
  errors : String
deriving DecidableEq, Repr

def lines (l : List String) : String := String.join (l.map (· ++ "\n"))

def failure (message : String) : Report := ⟨1, "", lines [message]⟩

def fileOptions (readFile : String → Except String String) (path : String) :
    Except String Options :=
  let context := "failed to load config '" ++ path ++ "': "
  match readFile path with
  | .error cause => .error (context ++ (HostError.file cause).text ++ ": " ++ cause)
  | .ok text =>
    match Options.load text with
    | .error e => .error (context ++ e.text)
    | .ok o => .ok o

def options (c : CommandLine) (readFile : String → Except String String) : Except String Options :=
  (c.config.elim (.ok {}) (fileOptions readFile)).map fun o =>
    { o with exactMode := o.exactMode || c.exact, recovery := o.recovery && !c.noRecovery }

def source (c : CommandLine) (readFile : String → Except String String) (o : Options) :
    Except String (String × String) :=
  match c.file, c.code with
  | some path, _ =>
    match readFile path with
    | .ok text => .ok (text, path)
    | .error cause => .error ("error reading '" ++ path ++ "': " ++ cause)
  | none, some code => .ok (code, o.defaultFilename)
  | none, none => .error "no input: pass a FILE or -e CODE (jsabstract 0.1.0)"

def shown (h : Heap) (otherwise : String) (v? : Option Value) : String := v?.elim otherwise h.display

def report (result : RunResult) (s : Session) : Report :=
  let diagnostics := s.diagnostics.toList.map Diagnostic.text
  match result with
  | .completed (.normal v) => ⟨0, lines [shown s.heap "undefined" v], lines diagnostics⟩
  | .completed (.throw v) =>
    ⟨1, "", lines (diagnostics ++ ["Uncaught " ++ shown s.heap "exception" v])⟩
  | .refused e => ⟨1, "", lines (diagnostics ++ [e.text])⟩
  | .unfinished => ⟨1, "", lines (diagnostics ++ [stackExceeded])⟩

def perform (c : CommandLine) (readFile : String → Except String String) : Report :=
  match c.options readFile with
  | .error message => failure message
  | .ok o =>
    match c.source readFile o with
    | .error message => failure message
    | .ok (source, filename) =>
      let (result, s) := (Session.new o).runFile .standard source filename
      report result s

end CommandLine
end Surmise
