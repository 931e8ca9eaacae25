import ProtoSchema.Number.Layout
import ProtoSchema.Schema.Value
import ProtoSchema.Text.Quoted

/-!
# Values as text

How values and settings are written in a schema file. Entries of lists and maps stand on one line,
with commas between them.
-/

namespace ProtoSchema

/-- Values are written as short as possible and always with a fraction or an exponent. -/
def Value.floatLayout : FloatLayout where
  tie := .up
  positional := some (-3, 16)
  wholeFraction := true
  plusSign := false

/-- Parts with commas between them. -/
def commaList (parts : List String) : String :=
  ", ".intercalate parts

mutual

/-- A value as text. -/
def Value.text : Value → String
  | .int n => toString n
  | .float x => String.ofList (Value.floatLayout.text x)
  | .str text => String.ofList (Quoted.text text.toList)
  | .bytes bytes => String.ofList (Quoted.bytes bytes)
  | .ident name => name
  | .list items => "[" ++ commaList (Value.texts items) ++ "]"
  | .map [] => "\x7b\x7d"
  | .map (entry :: entries) =>
    "\x7b " ++ commaList (Setting.entryText entry :: Setting.entryTexts entries) ++ " \x7d"

/-- Values as text, one by one. -/
def Value.texts : List Value → List String
  | [] => []
  | v :: vs => v.text :: Value.texts vs

/-- An entry of a map as text. -/
def Setting.entryText : Setting → String
  | ⟨name, value⟩ => name ++ ": " ++ value.text

/-- Entries of a map as text, one by one. -/
def Setting.entryTexts : List Setting → List String
  | [] => []
  | s :: ss => s.entryText :: Setting.entryTexts ss

end

theorem Value.texts_eq_map (vs : List Value) : Value.texts vs = vs.map Value.text := by
  induction vs with
  | nil => simp [Value.texts]
  | cons v vs ih => simp [Value.texts, ih]

theorem Setting.entryTexts_eq_map (ss : List Setting) :
    Setting.entryTexts ss = ss.map Setting.entryText := by
  induction ss with
  | nil => simp [Setting.entryTexts]
  | cons s ss ih => simp [Setting.entryTexts, ih]

/-- A setting as it stands in an option statement. -/
def Setting.text (s : Setting) : String :=
  s.name ++ " = " ++ s.value.text

end ProtoSchema
