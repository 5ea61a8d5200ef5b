import HypercubeSum.Record.Codec

/-!
# The table behind the demonstration

Documents by key, and the fields of a submitted form. A request changes the table step by step and
keeps the steps it made before it failed.
-/

namespace HypercubeSum.Demo

/-- Stored documents by key. -/
abbrev Table := List (String × Document)

abbrev Form := List (String × String)

inductive Answer
  | redirect (path : String)
  | page (body : Document)
  | refused (reason : String)

namespace Table

/-- The document under a key, which is nothing if there is none. -/
def find (table : Table) (key : String) : Document := (table.lookup key).getD .null

/-- A document under a key, in place of the one before it. -/
def put (table : Table) (key : String) (d : Document) : Table :=
  if table.any (·.1 == key) then table.map fun entry => if entry.1 == key then (key, d) else entry
  else table ++ [(key, d)]

def erase (table : Table) (key : String) : Table := table.filter (·.1 != key)

/-- Nothing under the keys that begin with a text. -/
def eraseFamily (table : Table) (start : String) : Table :=
  table.filter fun entry => !start.toList.isPrefixOf entry.1.toList

end Table

def load (key : String) : Run Table Document := do return (← get).find key

def save (key : String) (d : Document) : Run Table Unit := modify (·.put key d)

def remove (key : String) : Run Table Unit := modify (·.erase key)

def removeFamily (start : String) : Run Table Unit := modify (·.eraseFamily start)

/-- The integer in a form field, or a default if the field is missing or empty. -/
def formInteger (form : Form) (name : String) (default : Int) : Except Fault Int :=
  match form.lookup name with
  | none => .ok default
  | some "" => .ok default
  | some text =>
    match Text.numeral mostDigits text with
    | .ok z => .ok z
    | .error _ => .error (.formNumeralExpected name (Text.quoted text))

def mostVariables : Nat := 10

/-- The verdict on a proof that was turned down. -/
def rejectedVerdict (round : Nat) (fault : Fault) : Document :=
  .record
    [("status", .text "rejected"), ("round", .whole round), ("reason", .text fault.message)]

end HypercubeSum.Demo
