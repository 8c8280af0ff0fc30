import Reach.Term.Basic
import Reach.Text.Quoted

/-!
Terms as plain text. The sort of a token is written unless the token shows it, and the sort of an
application is never written.
-/

namespace Reach

def Variable.text (v : Variable) : String :=
  v.name ++ ":" ++ v.sort.name

/-- An entry whose parts have been written. -/
def Entry.write : Entry String → String
  | element item => item
  | binding key value => key ++ " |-> " ++ value

namespace Term

def tokenText (sort : TermSort) (value : String) : String :=
  match sort with
  | .string => Text.quoted value
  | .int | .bool => value
  | sort => value ++ ":" ++ sort.name

def appText (label : String) (args : List String) : String :=
  if args.isEmpty then label else label ++ "(" ++ ", ".intercalate args ++ ")"

/-- Lists stand in square brackets, the other kinds in braces; a bar comes before the frame. -/
def collectionText (kind : Kind) (entries : List String) (frame : Option String) : String :=
  let (opening, closing) := if kind.ordered then ("[", "]") else ("\x7b", "\x7d")
  let rest :=
    match frame with
    | none => ""
    | some frame => (if entries.isEmpty then "| " else " | ") ++ frame
  kind.sort.name ++ opening ++ ", ".intercalate entries ++ rest ++ closing

def text : Term → String :=
  fold {
    var := Variable.text
    app := fun label _ args => appText label args
    token := tokenText
    collection := fun kind entries frame => collectionText kind (entries.map Entry.write) frame }

end Term

def Entry.text (entry : Entry Term) : String :=
  (entry.map Term.text).write

end Reach
