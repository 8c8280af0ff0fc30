import Reach.Assoc
import Reach.Label
import Reach.Term.Order
import Reach.Term.Parts
import Reach.Term.Printer

/-!
A signature declares labels, each once, with the sorts of their arguments and of their result. A
function label is evaluated; any other label is a constructor. A function may be computed by a
builtin, which is named by its hook.
-/

namespace Reach

/-- Why a declaration, a term or a rule is refused. -/
inductive SortError
  | mismatch (expected found : TermSort) (context : String)
  | unknownLabel (label : String)
  | redeclaredLabel (label : String)
  | arity (label : String) (expected found : Nat)
  | duplicateKey (key : Term)
  | entryShape (kind : Kind)
  | frameSort (kind : Kind) (found : TermSort)
  deriving DecidableEq

/-- Maps cannot hold elements, and the other kinds cannot hold bindings. -/
def SortError.message : SortError → String
  | mismatch expected found context =>
    "expected " ++ expected.name ++ " but found " ++ found.name ++ " in " ++ context
  | unknownLabel label => "label " ++ label ++ " was not declared"
  | redeclaredLabel label => "label " ++ label ++ " was declared multiple times"
  | arity label expected found =>
    "label " ++ label ++ " expected " ++ expected.repr ++ " args but found " ++ found.repr ++ " args"
  | duplicateKey key => "duplicate key " ++ key.text ++ " in map"
  | entryShape kind =>
    kind.sort.name ++ " collections cannot hold " ++ (if kind = .map then "elements" else "bindings")
  | frameSort kind found => "frame of a " ++ kind.sort.name ++ " collection has sort " ++ found.name

structure Declaration where
  name : String
  args : List TermSort
  sort : TermSort
  function : Bool
  hook : Option String
  deriving DecidableEq

namespace Declaration

def constructor (name : String) (args : List TermSort) (sort : TermSort) : Declaration :=
  { name, args, sort, function := false, hook := none }

def functional (name : String) (args : List TermSort) (sort : TermSort) : Declaration :=
  { name, args, sort, function := true, hook := none }

def hooked (name : String) (args : List TermSort) (sort : TermSort) (hook : String) :
    Declaration :=
  { name, args, sort, function := true, hook := some hook }

end Declaration

/-- The declared labels, in order of declaration. -/
structure Signature where
  labels : Assoc String Declaration

namespace Signature

def empty : Signature :=
  ⟨.empty⟩

def declare (sig : Signature) (decl : Declaration) : Except SortError Signature :=
  if sig.labels.contains decl.name then .error (.redeclaredLabel decl.name)
  else .ok ⟨sig.labels.insert decl.name decl⟩

def declareAll (sig : Signature) (decls : List Declaration) : Except SortError Signature :=
  decls.foldlM declare sig

def label (sig : Signature) (name : String) : Except SortError Declaration :=
  match sig.labels.get? name with
  | some decl => .ok decl
  | none => .error (.unknownLabel name)

def isFunction (sig : Signature) (name : String) : Bool :=
  (sig.labels.get? name).any Declaration.function

def hook? (sig : Signature) (name : String) : Option String :=
  (sig.labels.get? name).bind Declaration.hook

/-- Whether the term is an application of a function label. -/
def isCall (sig : Signature) (term : Term) : Bool :=
  term.label?.any sig.isFunction

/-- The hooked labels that come with the builtin sorts. -/
def builtinDeclarations : List Declaration :=
  let hooked := Declaration.hooked
  [ hooked Label.intAdd [.int, .int] .int "INT.add",
    hooked Label.intSub [.int, .int] .int "INT.sub",
    hooked Label.intMul [.int, .int] .int "INT.mul",
    hooked Label.intDiv [.int, .int] .int "INT.div",
    hooked Label.intMod [.int, .int] .int "INT.mod",
    hooked Label.intMin [.int, .int] .int "INT.min",
    hooked Label.intMax [.int, .int] .int "INT.max",
    hooked Label.intAbs [.int] .int "INT.abs",
    hooked Label.intLt [.int, .int] .bool "INT.lt",
    hooked Label.intLe [.int, .int] .bool "INT.le",
    hooked Label.intGt [.int, .int] .bool "INT.gt",
    hooked Label.intGe [.int, .int] .bool "INT.ge",
    hooked Label.intEq [.int, .int] .bool "INT.eq",
    hooked Label.intNe [.int, .int] .bool "INT.ne",
    hooked Label.boolAnd [.bool, .bool] .bool "BOOL.and",
    hooked Label.boolOr [.bool, .bool] .bool "BOOL.or",
    hooked Label.boolNot [.bool] .bool "BOOL.not",
    hooked Label.boolImplies [.bool, .bool] .bool "BOOL.implies",
    hooked Label.boolXor [.bool, .bool] .bool "BOOL.xor",
    hooked Label.boolEq [.bool, .bool] .bool "BOOL.eq",
    hooked Label.stringConcat [.string, .string] .string "STRING.concat",
    hooked Label.stringLength [.string] .int "STRING.length",
    hooked Label.stringEq [.string, .string] .bool "STRING.eq",
    hooked Label.termEq [.top, .top] .bool "K.eq",
    hooked Label.termNe [.top, .top] .bool "K.ne",
    hooked Label.mapLookup [.map, .top] .top "MAP.lookup",
    hooked Label.mapUpdate [.map, .top, .top] .map "MAP.update",
    hooked Label.mapRemove [.map, .top] .map "MAP.remove",
    hooked Label.mapInKeys [.top, .map] .bool "MAP.in_keys",
    hooked Label.mapSize [.map] .int "MAP.size",
    hooked Label.setIn [.top, .set] .bool "SET.in",
    hooked Label.setSize [.set] .int "SET.size",
    hooked Label.listSize [.list] .int "LIST.size",
    hooked Label.sha256 [.string] .string "HASH.sha256" ]

def builtin : Signature :=
  ⟨.ofList (builtinDeclarations.map fun decl => (decl.name, decl))⟩

end Signature

end Reach
