import Mathlib.Data.List.Basic

/-! # Documents as a reader finds them

A JSON text that is read from its start, up to the place where it stops being JSON
or the reader gives up. Arrays and objects say whether their end was found. -/
namespace Json

inductive Document where
  | text (value : String)
  | natural (value : Nat)
  /-- Any other number, a boolean or null. -/
  | other
  | array (items : List Document) (closed : Bool)
  | object (members : List (String × Document)) (closed : Bool)
  /-- Nothing that could be read as a value. -/
  | broken

namespace Document

/-! ## Documents that were read to their end -/

mutual

def whole : Document → Bool
  | .array items closed => wholeItems items && closed
  | .object members closed => wholeMembers members && closed
  | .broken => false
  | .text _ | .natural _ | .other => true

def wholeItems : List Document → Bool
  | [] => true
  | item :: rest => item.whole && wholeItems rest

def wholeMembers : List (String × Document) → Bool
  | [] => true
  | (_, value) :: rest => value.whole && wholeMembers rest

end

/-! ## Longer texts -/

/-- `d.Extends d'`: the text of `d'` goes on where the text of `d` stopped. What was
read before stays as it is. -/
inductive Extends : Document → Document → Prop where
  | same (d : Document) : Extends d d
  | broken (d : Document) : Extends .broken d
  | items (items rest : List Document) (closed : Bool) :
    Extends (.array items false) (.array (items ++ rest) closed)
  | item (items rest : List Document) (closed : Bool) {last last' : Document} :
    Extends last last' →
      Extends (.array (items ++ [last]) false) (.array (items ++ last' :: rest) closed)
  | members (members rest : List (String × Document)) (closed : Bool) :
    Extends (.object members false) (.object (members ++ rest) closed)
  | member (members rest : List (String × Document)) (closed : Bool) (key : String)
    {value value' : Document} : Extends value value' →
      Extends (.object (members ++ [(key, value)]) false)
        (.object (members ++ (key, value') :: rest) closed)

end Document

end Json
