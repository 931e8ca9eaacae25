import ProtoSchema.Number.Binary64
import ProtoSchema.Text.Utf8

/-!
# Values and settings

The values that options take, and settings, which give a value to a name. The entries of a map are
settings too, in the order in which they were written. Floating-point numbers are equal when their
patterns of bits are.
-/

namespace ProtoSchema

mutual

/-- The value of an option. -/
inductive Value where
  | int (n : Int)
  | float (x : Binary64)
  | str (text : String)
  /-- A literal whose bytes are not text. -/
  | bytes (bytes : List UInt8)
  | ident (name : String)
  | list (items : List Value)
  | map (entries : List Setting)
  deriving Repr

/-- A name and the value that it is given. -/
structure Setting where
  name : String
  value : Value
  deriving Repr

end

/-! ### Equality -/

mutual

/-- Whether two values are the same. -/
def Value.same : Value → Value → Bool
  | .int m, .int n => m = n
  | .float x, .float y => x = y
  | .str s, .str t => s = t
  | .bytes b, .bytes c => b = c
  | .ident s, .ident t => s = t
  | .list vs, .list ws => Value.sameAll vs ws
  | .map es, .map fs => Setting.sameAll es fs
  | _, _ => false

/-- Whether two lists of values are the same. -/
def Value.sameAll : List Value → List Value → Bool
  | [], [] => true
  | v :: vs, w :: ws => v.same w && Value.sameAll vs ws
  | _, _ => false

/-- Whether two settings are the same. -/
def Setting.same : Setting → Setting → Bool
  | ⟨name, value⟩, ⟨name', value'⟩ => name = name' && value.same value'

/-- Whether two lists of settings are the same. -/
def Setting.sameAll : List Setting → List Setting → Bool
  | [], [] => true
  | s :: ss, t :: ts => s.same t && Setting.sameAll ss ts
  | _, _ => false

end

mutual

theorem Value.same_iff (v w : Value) : v.same w = true ↔ v = w := by
  match v with
  | .int _ | .float _ | .str _ | .bytes _ | .ident _ => cases w <;> simp [Value.same]
  | .list vs =>
    have items := Value.sameAll_iff vs
    cases w <;> simp [Value.same, items]
  | .map es =>
    have entries := Setting.sameAll_iff es
    cases w <;> simp [Value.same, entries]
termination_by structural v

theorem Value.sameAll_iff (vs ws : List Value) : Value.sameAll vs ws = true ↔ vs = ws := by
  match vs with
  | [] => cases ws <;> simp [Value.sameAll]
  | v :: vs =>
    have first := Value.same_iff v
    have rest := Value.sameAll_iff vs
    cases ws <;> simp [Value.sameAll, first, rest]
termination_by structural vs

theorem Setting.same_iff (s t : Setting) : s.same t = true ↔ s = t := by
  match s, t with
  | ⟨name, value⟩, ⟨name', value'⟩ => simp [Setting.same, Value.same_iff value]
termination_by structural s

theorem Setting.sameAll_iff (ss ts : List Setting) : Setting.sameAll ss ts = true ↔ ss = ts := by
  match ss with
  | [] => cases ts <;> simp [Setting.sameAll]
  | s :: ss =>
    have first := Setting.same_iff s
    have rest := Setting.sameAll_iff ss
    cases ts <;> simp [Setting.sameAll, first, rest]
termination_by structural ss

end

instance : DecidableEq Value := fun v w => decidable_of_iff _ (Value.same_iff v w)

instance : DecidableEq Setting := fun s t => decidable_of_iff _ (Setting.same_iff s t)

/-! ### Looking values up -/

namespace Setting

/-- The value that a name is given first. -/
def find? (settings : List Setting) (name : String) : Option Value :=
  (settings.find? (·.name = name)).map (·.value)

end Setting

namespace Value

/-- The integer that a value is. -/
def int? : Value → Option Int
  | int n => some n
  | _ => none

/-- The floating-point number that a value is, or the one nearest to the integer that it is. -/
def float? : Value → Option Binary64
  | float x => some x
  | int n => some (Binary64.ofInt n)
  | _ => none

/-- The text that a value is. -/
def str? : Value → Option String
  | str text => some text
  | _ => none

/-- The bytes of a literal, be it text or not. -/
def bytes? : Value → Option (List UInt8)
  | str text => some (Utf8.encode text.toList)
  | bytes b => some b
  | _ => none

/-- The identifier that a value is. -/
def ident? : Value → Option String
  | ident name => some name
  | _ => none

/-- The truth value that an identifier spells. -/
def bool? (v : Value) : Option Bool :=
  match v.ident? with
  | some name => if name = "true" then some true else if name = "false" then some false else none
  | none => none

/-- The items of a list. -/
def list? : Value → Option (List Value)
  | list items => some items
  | _ => none

/-- The entries of a map. -/
def map? : Value → Option (List Setting)
  | map entries => some entries
  | _ => none

/-- The value of a key in a map. -/
def get? (v : Value) (key : String) : Option Value :=
  match v with
  | map entries => Setting.find? entries key
  | _ => none

end Value

end ProtoSchema
