import Reach.Ordered
import Reach.Rule

/-!
A definition is a signature with rules. Rules headed by a function label define that function; the
others are the semantic rules, which are indexed by the outermost label of their left-hand side.
-/

namespace Reach

structure Definition where
  signature : Signature
  /-- The semantic rules, in the order in which they were given. -/
  rules : List Rule
  /-- Positions of the semantic rules headed by each label, ascending. -/
  index : Assoc String (List Nat)
  /-- Positions of the semantic rules not headed by a label, ascending. -/
  unindexed : List Nat
  /-- The rules of each function. -/
  functions : Assoc String (List Rule)

namespace Definition

def empty (sig : Signature) : Definition :=
  { signature := sig, rules := [], index := .empty, unindexed := [], functions := .empty }

/-- Files a rule under the head of its left-hand side. -/
def add (d : Definition) (rule : Rule) : Definition :=
  match rule.lhs.label? with
  | some label =>
    if d.signature.isFunction label then
      { d with functions := d.functions.insert label ((d.functions.get? label).getD [] ++ [rule]) }
    else
      { d with
        rules := d.rules ++ [rule]
        index := d.index.insert label ((d.index.get? label).getD [] ++ [d.rules.length]) }
  | none =>
    { d with rules := d.rules ++ [rule], unindexed := d.unindexed ++ [d.rules.length] }

/-- Checks and files the rules in order; the first one that is ill-sorted is the error. -/
def ofRules (sig : Signature) (rules : List Rule) : Except SortError Definition :=
  rules.foldlM (fun d rule => do
    rule.check sig
    return d.add rule) (empty sig)

/-- The semantic rules that may apply to `term`, in order: those under its outermost label and
those under no label. -/
def candidates (d : Definition) (term : Term) : List Rule :=
  let indexed := (term.label?.bind d.index.get?).getD []
  (Ordered.sort (indexed ++ d.unindexed)).filterMap fun position => d.rules[position]?

def functionRules (d : Definition) (label : String) : List Rule :=
  (d.functions.get? label).getD []

end Definition

end Reach
