import Reach.Term.Basic
import Reach.Text.Quoted

/-!
Terms as JSON text: one object per node, keyed by its constructor, with the fields in the order of
their declaration and no blanks.
-/

namespace Reach

/-- An object with these members, whose values are JSON text already. -/
def jsonObject (members : List (String × String)) : String :=
  let member := fun (key, value) => Text.jsonString key ++ ":" ++ value
  "\x7b" ++ ",".intercalate (members.map member) ++ "\x7d"

def jsonArray (items : List String) : String :=
  "[" ++ ",".intercalate items ++ "]"

def TermSort.json : TermSort → String
  | named name => jsonObject [("Named", Text.jsonString name)]
  | sort => Text.jsonString sort.name

def Variable.json (v : Variable) : String :=
  jsonObject [("name", Text.jsonString v.name), ("sort", v.sort.json)]

def Entry.writeJson : Entry String → String
  | element item => jsonObject [("Element", item)]
  | binding key value => jsonObject [("Binding", jsonArray [key, value])]

namespace Term

def json : Term → String :=
  fold {
    var := fun v => jsonObject [("Variable", v.json)]
    app := fun label sort args =>
      jsonObject [("App", jsonObject
        [("label", Text.jsonString label), ("sort", sort.json), ("args", jsonArray args)])]
    token := fun sort value =>
      jsonObject [("Token", jsonObject [("sort", sort.json), ("value", Text.jsonString value)])]
    collection := fun kind entries frame =>
      jsonObject [("Collection", jsonObject
        [("kind", Text.jsonString kind.sort.name),
          ("entries", jsonArray (entries.map Entry.writeJson)),
          ("frame", frame.getD "null")])] }

end Term

end Reach
