import PathSearch.Error

/-! # Descriptions

Programs, expressions, actions and settings are described by nested lists of numbers and texts, as
a file of scenarios would hold them. Reading a description fails in two ways: it has no meaning, or
it means something that the library refuses.
-/

namespace PathSearch

/-- A piece of a description. -/
inductive Datum where
  | null
  | flag (value : Bool)
  | number (value : Int)
  | text (value : String)
  | list (items : List Datum)
  /-- Values under names. -/
  | record (fields : List (String × Datum))
  deriving Inhabited

/-- Why a description cannot be read. -/
inductive ReadError where
  | malformed
  | refused (error : Error)
  deriving Repr, DecidableEq, Inhabited

/-- What reading gives. -/
abbrev Reading := Except ReadError

namespace Datum

/-- A description without a meaning. -/
def malformed {α : Type} : Reading α := .error .malformed

/-- A result of the library as a result of reading. -/
def checked {α : Type} (r : Except Error α) : Reading α := r.mapError .refused

/-- What a description must give. -/
def expect {α : Type} : Option α → Reading α
  | some a => .ok a
  | none => malformed

/-- A number, plain or as a text. -/
def int : Datum → Reading Int
  | .number n => .ok n
  | .text s => match Text.number? s with
    | some n => .ok n
    | none => malformed
  | _ => malformed

def nat (d : Datum) : Reading Nat := Int.toNat <$> d.int

def word (d : Datum) : Reading Word := Word.ofSigned <$> d.int

def string : Datum → Reading String
  | .text s => .ok s
  | _ => malformed

def bool : Datum → Reading Bool
  | .flag b => .ok b
  | _ => malformed

def items : Datum → Reading (List Datum)
  | .list xs => .ok xs
  | _ => malformed

/-- Bytes, written as a text of two digits each. -/
def bytes (d : Datum) : Reading (List UInt8) := do expect (Text.bytes? (← d.string).toList)

/-- A number, or nothing. -/
def nat? : Datum → Reading (Option Nat)
  | .null => .ok none
  | d => some <$> d.nat

/-- The value under a name, if there is one. -/
def field? : Datum → String → Option Datum
  | .record fields, name => fields.lookup name
  | _, _ => none

/-- The value under a name. -/
def field (d : Datum) (name : String) : Reading Datum := expect (d.field? name)

/-- The items of the list under a name; without the name there are none. -/
def fieldItems (d : Datum) (name : String) : Reading (List Datum) :=
  match d.field? name with
  | some v => v.items
  | none => .ok []

/-- Numbers. -/
def nats (items : List Datum) : Reading (List Nat) := items.mapM nat

/-- The value under a name, read in some way; without the name it has a given value. -/
def fieldD {α : Type} (d : Datum) (name : String) (read : Datum → Reading α) (absent : α) :
    Reading α :=
  match d.field? name with
  | some v => read v
  | none => .ok absent

/-- Numbers under names. -/
def bindings : Datum → Reading (List (String × Word))
  | .record fields => fields.mapM fun (name, value) => return (name, ← value.word)
  | _ => malformed

/-- A list of two. -/
def pair : Datum → Reading (Datum × Datum)
  | .list [a, b] => .ok (a, b)
  | _ => malformed

/-- A list that begins with a keyword. -/
def command : Datum → Reading (String × List Datum)
  | .list (.text head :: args) => .ok (head, args)
  | _ => malformed

end Datum

end PathSearch
