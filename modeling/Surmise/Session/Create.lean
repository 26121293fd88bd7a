import Surmise.Builtin.Math
import Surmise.Session.Basic

/-!
New sessions: the global object with all that is built in.
-/

namespace Surmise

namespace Store

def defineConstant (target : ObjectId) (s : Store) (c : String × Value) : Store :=
  (s.define target c.1 ⟨c.2, .fixed⟩).1

def defineCallable (target : ObjectId) (s : Store) (c : Callable) : Store :=
  let (s, id) := s.allocate (.ofCallable c)
  (s.define target c.name ⟨.object id, .hidden⟩).1

def defineNamespace (target : ObjectId) (s : Store) (c : ObjectClass)
    (constants : List (String × Value)) (functions : List Builtin) : Store :=
  let (s, id) := s.allocate (.empty c)
  let s := constants.foldl (defineConstant id) s
  let s := functions.foldl (fun s b => s.defineCallable id (.builtin b)) s
  (s.define target c.name ⟨.object id, .hidden⟩).1

end Store

def Builtin.globals : List Builtin :=
  [eval, parseInt, parseFloat, isNaN, isFinite, decodeURI, decodeURIComponent, encodeURI,
    encodeURIComponent]

namespace Store

def addGlobal (s : Store) : Store × ObjectId × ScopeId :=
  let (s, global) := s.allocate (.empty .object)
  let s := [("NaN", .number Number.nan), ("Infinity", .number Number.infinity),
    ("undefined", .undefined)].foldl (defineConstant global) s
  let s := Builtin.globals.foldl (fun s b => s.defineCallable global (.builtin b)) s
  let s := s.defineNamespace global .math (mathConstants.map fun c => (c.1, .number c.2))
    (MathFunction.all.map .math)
  let s := s.defineNamespace global .json [] [.jsonParse, .jsonStringify]
  let (s, scope) := s.newScope { object := some global }
  (s, global, scope)

end Store

namespace Session

def fromStore (store : Store) (options : Options) (randoms : Randoms := .standard) : Session :=
  let (store, globalObject, scope) := store.addGlobal
  { options, store, globalObject, randoms
    globalContext :=
      { lexical := [scope], varChain := [scope], receiver := .object globalObject, strict := false,
        direct := false, filename := options.defaultFilename } }

def new (options : Options) (randoms : Randoms := .standard) : Session :=
  fromStore {} options randoms

end Session
end Surmise
