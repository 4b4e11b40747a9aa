import SchemaGrammar.Check.Path
import SchemaGrammar.Json.Problem
import SchemaGrammar.Schema.Basic

/-!
# Mismatches between values and schemas

The ways in which a value does not fit a schema, and their wording. A text that is not JSON fits
no schema.
-/

namespace SchemaGrammar

open Json (Value Kind)

/-- How a value fails to fit a schema. -/
inductive Mismatch where
  | noBranch (branches : Nat) (value : Value)
  | notConstant (expected value : Value)
  | notMember (members : List Value) (value : Value)
  | wrongType (type : TypeName) (found : Kind)
  | noType (types : List TypeName) (found : Kind)
  | unexpectedKeys (keys : List String)
  | missingKeys (keys : List String)
  | itemCount (least : Nat) (most : Option Nat) (found : Nat)
  | lengthCount (least : Nat) (most : Option Nat) (found : Nat)
  | wrongFormat (format : TextFormat) (text : String)
  | unresolvedReference (reference : String)
  | selfReference (name : String)
  | exhausted (name : String)
  | notJson (fault : Json.ReadError)
deriving Repr

/-- The wording of a count outside its bounds. -/
def countMessage (noun : String) (least : Nat) (most : Option Nat) (found : Nat) : String :=
  let wanted := match most with
    | some most =>
      if most = least then "exactly " ++ toString least
      else if most < found then "at most " ++ toString most
      else "at least " ++ toString least
    | none => "at least " ++ toString least
  "expected " ++ wanted ++ " " ++ noun ++ " but got " ++ toString found

/-- The wording of a mismatch. -/
def Mismatch.message : Mismatch → String
  | .noBranch branches value =>
    "expected one of " ++ toString branches ++ " schemas but got " ++ value.text
  | .notConstant expected value => "expected " ++ expected.text ++ " but got " ++ value.text
  | .notMember members value =>
    "expected one of [" ++ ", ".intercalate (members.map Value.text) ++ "] but got " ++ value.text
  | .wrongType type found =>
    "expected type " ++ Text.quoted type.name ++ " but got " ++ Text.quoted found.name
  | .noType types found =>
    "expected one type of [" ++ Text.quotedList (types.map TypeName.name) ++ "] but got type " ++
      Text.quoted found.name
  | .unexpectedKeys keys => "unexpected keys: " ++ Text.quotedList keys
  | .missingKeys keys => "missing keys: " ++ Text.quotedList keys
  | .itemCount least most found => countMessage "items" least most found
  | .lengthCount least most found => countMessage "characters" least most found
  | .wrongFormat format text =>
    "expected a valid " ++ format.name ++ " string but got " ++ Text.quoted text
  | .unresolvedReference reference => "unresolved reference: " ++ reference
  | .selfReference name =>
    "def " ++ Text.quoted name ++ " refers back to itself before matching any value"
  | .exhausted name => "def " ++ Text.quoted name ++ " nests without end"
  | .notJson fault => "invalid JSON: " ++ fault.message

/-- A mismatch and the place of the value that does not fit. -/
structure Failure where
  path : Path
  mismatch : Mismatch
deriving Repr

namespace Failure

/-- What is wrong. -/
def message (f : Failure) : String := f.mismatch.message

/-- What is wrong, and where. -/
def text (f : Failure) : String := f.message ++ " (at " ++ f.path.text ++ ")"

end Failure

end SchemaGrammar
