import ProtoSchema.Number.Layout

/-!
# JSON

JSON values and their compact text, which has no blanks. Members of an object keep their order.
-/

namespace ProtoSchema

/-- A JSON value; integers and floating-point numbers are kept apart. -/
inductive Json where
  | null
  | int (n : Int)
  | float (x : Binary64)
  | str (text : String)
  | arr (items : List Json)
  | obj (members : List (String × Json))
  deriving Repr

namespace Json

/-- JSON writes numbers as short as possible, with a fraction or an exponent that has a sign. -/
def floatLayout : FloatLayout where
  tie := .even
  positional := some (-4, 16)
  wholeFraction := true
  plusSign := true

/-- A character in a string: quotes, backslashes and control characters are escaped. -/
def stringChar (c : Char) : List Char :=
  match c with
  | '"' => ['\\', '"']
  | '\\' => ['\\', '\\']
  | '\x08' => ['\\', 'b']
  | '\x0c' => ['\\', 'f']
  | '\n' => ['\\', 'n']
  | '\r' => ['\\', 'r']
  | '\t' => ['\\', 't']
  | _ =>
    if c.toNat < 0x20 then
      ['\\', 'u', '0', '0', Nat.digitChar (c.toNat / 16), Nat.digitChar (c.toNat % 16)]
    else [c]

/-- A string between its quotes. -/
def stringText (text : String) : String :=
  String.ofList ('"' :: text.toList.flatMap stringChar ++ ['"'])

/-- Parts with commas between them. -/
def commas (parts : List String) : String :=
  ",".intercalate parts

mutual

/-- A value as compact text; numbers that are not finite have none and become `null`. -/
def text : Json → String
  | null => "null"
  | int n => toString n
  | float x => if x.isFinite then String.ofList (floatLayout.text x) else "null"
  | str s => stringText s
  | arr items => "[" ++ commas (texts items) ++ "]"
  | obj members => "\x7b" ++ commas (memberTexts members) ++ "\x7d"

/-- Values as compact text, one by one. -/
def texts : List Json → List String
  | [] => []
  | item :: items => item.text :: texts items

/-- A member as compact text. -/
def memberText : String × Json → String
  | (name, value) => stringText name ++ ":" ++ value.text

/-- Members as compact text, one by one. -/
def memberTexts : List (String × Json) → List String
  | [] => []
  | member :: members => memberText member :: memberTexts members

end

/-- An object with one member. -/
def tagged (name : String) (value : Json) : Json :=
  obj [(name, value)]

/-- A natural number. -/
def nat (n : Nat) : Json := int n

end Json

end ProtoSchema
