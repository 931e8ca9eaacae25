import ProtoSchema.Json.Basic
import ProtoSchema.Proofs.Lexing.Literal
import ProtoSchema.Proofs.Lexing.Numeral

/-!
# JSON texts are unambiguous

Compact text tells which JSON value it is of and where it ends. `Tells` says so of one value: if its
text and that of another value begin the same text, the values are the same and so is what stands
behind them. It holds of strings because of their quotes, of numbers because of what may stand behind
a value, and of arrays and objects if it holds of all that they hold. Numbers that are not finite are
the exception, for they have no text of their own.
-/

namespace ProtoSchema.Json

/-! ### Strings -/

/-- The character of the escape whose backslash was read, and what stands behind it. -/
def readEscape? : List Char → Option (Char × List Char)
  | 'b' :: rest => some ('\x08', rest)
  | 'f' :: rest => some ('\x0c', rest)
  | 'n' :: rest => some ('\n', rest)
  | 'r' :: rest => some ('\r', rest)
  | 't' :: rest => some ('\t', rest)
  | 'u' :: '0' :: '0' :: high :: low :: rest =>
    some (Char.ofNat (16 * (digitValue? high).getD 0 + (digitValue? low).getD 0), rest)
  | c :: rest => some (c, rest)
  | [] => none

/-- The character that a text in a string begins with, and what stands behind it. -/
def readChar? : List Char → Option (Char × List Char)
  | [] => none
  | c :: rest => if c = '\\' then readEscape? rest else some (c, rest)

theorem readChar?_stringChar (c : Char) (rest : List Char) :
    readChar? (stringChar c ++ rest) = some (c, rest) := by
  unfold stringChar
  split
  case h_8 _ noBackslash _ _ _ _ _ =>
    split
    next control =>
      have high := digitValue?_digitChar (n := c.toNat / 16) (by omega)
      have low := digitValue?_digitChar (n := c.toNat % 16) (by omega)
      have value : 16 * (c.toNat / 16) + c.toNat % 16 = c.toNat := by omega
      simp [readChar?, readEscape?, high, low, value]
    next => exact if_neg noBackslash
  all_goals rfl

/-- The characters of a string are told from its text, which ends at a quote. -/
theorem stringChars_append_inj {cs ds rest rest' : List Char}
    (same : cs.flatMap stringChar ++ '"' :: rest = ds.flatMap stringChar ++ '"' :: rest') :
    cs = ds ∧ rest = rest' := by
  -- A quote in a string is escaped, so none of its characters looks like the one at its end.
  have noEnd (c : Char) (rest rest' : List Char) : '"' :: rest ≠ stringChar c ++ rest' := by
    intro same
    have read := congrArg readChar? same
    rw [readChar?_stringChar] at read
    cases read
    cases same
  induction cs generalizing ds with
  | nil =>
    cases ds with
    | nil => exact ⟨rfl, List.cons.inj same |>.2⟩
    | cons d ds =>
      rw [List.flatMap_cons, List.append_assoc] at same
      exact absurd same (noEnd d _ _)
  | cons c cs ih =>
    cases ds with
    | nil =>
      rw [List.flatMap_cons, List.append_assoc] at same
      exact absurd same.symm (noEnd c _ _)
    | cons d ds =>
      rw [List.flatMap_cons, List.flatMap_cons, List.append_assoc, List.append_assoc] at same
      have read := congrArg readChar? same
      rw [readChar?_stringChar, readChar?_stringChar] at read
      obtain ⟨rfl, behind⟩ := Prod.mk.inj (Option.some.inj read)
      obtain ⟨rfl, ends⟩ := ih behind
      exact ⟨rfl, ends⟩

theorem toList_stringText (s : String) (rest : List Char) :
    (stringText s).toList ++ rest = '"' :: (s.toList.flatMap stringChar ++ '"' :: rest) := by
  simp [stringText]

theorem stringText_append_inj {s t : String} {rest rest' : List Char}
    (same : (stringText s).toList ++ rest = (stringText t).toList ++ rest') :
    s = t ∧ rest = rest' := by
  rw [toList_stringText, toList_stringText] at same
  obtain ⟨chars, ends⟩ := stringChars_append_inj (List.cons.inj same).2
  exact ⟨String.toList_inj.mp chars, ends⟩

/-! ### Numbers -/

/-- A numeral is told from what stands behind it. -/
theorem numeral_append_inj {negative negative' : Bool} {whole whole' rest rest' : List Char}
    {fraction fraction' : Option (List Char)} {exponent exponent' : Option Exponent}
    (plain : Numeral.IsPlain whole fraction exponent)
    (plain' : Numeral.IsPlain whole' fraction' exponent')
    (behind : IsApart rest) (behind' : IsApart rest')
    (same : minusSign negative ++ (Numeral.decimal whole fraction exponent).spelling ++ rest =
      minusSign negative' ++ (Numeral.decimal whole' fraction' exponent').spelling ++ rest') :
    (negative, Numeral.decimal whole fraction exponent) =
      (negative', Numeral.decimal whole' fraction' exponent') ∧ rest = rest' := by
  have unsigned {whole rest text : List Char} {fraction : Option (List Char)}
      {exponent : Option Exponent} (plain : Numeral.IsPlain whole fraction exponent) :
      '-' :: text ≠ (Numeral.decimal whole fraction exponent).spelling ++ rest := by
    intro same
    obtain ⟨c, digits, rfl⟩ := List.exists_cons_of_ne_nil plain.whole.1
    have digit := plain.whole.2 c List.mem_cons_self
    cases (List.cons.inj same).1
    cases digit
  have digits (same : (Numeral.decimal whole fraction exponent).spelling ++ rest =
      (Numeral.decimal whole' fraction' exponent').spelling ++ rest') :
      Numeral.decimal whole fraction exponent = Numeral.decimal whole' fraction' exponent' ∧
        rest = rest' := by
    have scanned := congrArg Numeral.scanDecimal same
    rw [Numeral.scanDecimal_append plain behind, Numeral.scanDecimal_append plain' behind'] at scanned
    exact Prod.mk.inj scanned
  rw [List.append_assoc, List.append_assoc] at same
  cases negative <;> cases negative'
  · obtain ⟨number, ends⟩ := digits same
    exact ⟨by rw [number], ends⟩
  · exact absurd same.symm (unsigned plain)
  · exact absurd same (unsigned plain')
  · obtain ⟨number, ends⟩ := digits (List.cons.inj same).2
    exact ⟨by rw [number], ends⟩

/-- The sign and the numeral that a number is written with. A floating-point number is worth its
numeral, which has a fraction or an exponent. -/
inductive IsWrittenWith : Json → Bool → Numeral → Prop
  | int {n : Int} :
      IsWrittenWith (.int n) (n < 0) (.decimal (Nat.toDigits 10 n.natAbs) none none)
  | float {x : Binary64} {whole : List Char} {fraction : Option (List Char)}
      {exponent : Option Exponent} : (fraction = none → exponent ≠ none) →
      Binary64.ofDecimal x.negative (Nat.ofDigitChars 10 (whole ++ fraction.getD []) 0)
        ((exponent.map Exponent.value).getD 0 - (fraction.getD []).length) = x →
      IsWrittenWith (.float x) x.negative (.decimal whole fraction exponent)

/-- Different numbers are written differently. -/
theorem IsWrittenWith.unique {x y : Json} {negative negative' : Bool} {numeral numeral' : Numeral}
    (h : IsWrittenWith x negative numeral) (h' : IsWrittenWith y negative' numeral')
    (same : (negative, numeral) = (negative', numeral')) : x = y := by
  obtain ⟨sign, number⟩ := Prod.mk.inj same
  cases h with
  | @int n =>
    cases h' with
    | @int m =>
      injection number with digits
      have value := congrArg (Nat.ofDigitChars 10 · 0) digits
      simp only [Nat.ofDigitChars_ten_toDigits] at value
      have sign : n < 0 ↔ m < 0 := by simpa using sign
      rw [show n = m by omega]
    | float marked =>
      injection number with _ noFraction noExponent
      exact absurd noExponent.symm (marked noFraction.symm)
  | float marked value =>
    cases h' with
    | int =>
      injection number with _ noFraction noExponent
      exact absurd noExponent (marked noFraction)
    | float _ value' =>
      injection number with whole fraction exponent
      rw [sign, whole, fraction, exponent] at value
      exact congrArg Json.float (value.symm.trans value')

/-! ### Values -/

/-- All numbers in a value are finite. -/
inductive IsFinite : Json → Prop
  | null : IsFinite .null
  | int {n : Int} : IsFinite (.int n)
  | float {x : Binary64} : x.isFinite = true → IsFinite (.float x)
  | str {text : String} : IsFinite (.str text)
  | arr {items : List Json} : (∀ item ∈ items, IsFinite item) → IsFinite (.arr items)
  | obj {members : List (String × Json)} :
      (∀ member ∈ members, IsFinite member.2) → IsFinite (.obj members)

attribute [simp] IsFinite.null IsFinite.int IsFinite.str

@[simp] theorem isFinite_float_iff {x : Binary64} : (float x).IsFinite ↔ x.isFinite = true :=
  ⟨fun h => by cases h with | float finite => exact finite, .float⟩

@[simp] theorem isFinite_arr_iff {items : List Json} :
    (arr items).IsFinite ↔ ∀ item ∈ items, item.IsFinite :=
  ⟨fun h => by cases h with | arr all => exact all, .arr⟩

@[simp] theorem isFinite_obj_iff {members : List (String × Json)} :
    (obj members).IsFinite ↔ ∀ member ∈ members, member.2.IsFinite :=
  ⟨fun h => by cases h with | obj all => exact all, .obj⟩

/-- The kinds of values that the first character of a text tells apart. -/
inductive Kind where
  | null
  | number
  | string
  | array
  | object
  deriving DecidableEq

/-- The kind of a value whose text begins with a character. -/
def kindOf? (c : Char) : Option Kind :=
  if c = 'n' then some .null
  else if c = '"' then some .string
  else if c = '[' then some .array
  else if c = '\x7b' then some .object
  else if c = '-' ∨ c.isDigit then some .number
  else none

def kind : Json → Kind
  | null => .null
  | int _ | float _ => .number
  | str _ => .string
  | arr _ => .array
  | obj _ => .object

/-- A number is written as a numeral. -/
theorem exists_numeral {x : Json} (finite : x.IsFinite) (number : x.kind = .number) :
    ∃ negative whole fraction exponent, Numeral.IsPlain whole fraction exponent ∧
      x.text.toList = minusSign negative ++ (Numeral.decimal whole fraction exponent).spelling ∧
      IsWrittenWith x negative (.decimal whole fraction exponent) := by
  cases finite with
  | int =>
    exact ⟨_, _, _, _, Numeral.isPlain_toDigits _, by rw [text, toList_toString_int], .int⟩
  | @float x finite =>
    obtain ⟨whole, fraction, exponent, plain, spelled, marked, value⟩ :=
      floatLayout.exists_numeral_of_text rfl finite
    refine ⟨_, whole, fraction, exponent, plain, ?_, .float marked value⟩
    rw [text, if_pos finite, String.toList_ofList, spelled]
  | _ => cases number

/-- Each text begins with a character that says of what kind the value is. -/
theorem exists_head {x : Json} (finite : x.IsFinite) :
    ∃ c cs, x.text.toList = c :: cs ∧ kindOf? c = some x.kind := by
  have number (isNumber : x.kind = .number) :
      ∃ c cs, x.text.toList = c :: cs ∧ kindOf? c = some x.kind := by
    obtain ⟨negative, whole, fraction, exponent, plain, text, _⟩ := exists_numeral finite isNumber
    rw [text, isNumber]
    cases negative with
    | true => exact ⟨'-', _, rfl, rfl⟩
    | false =>
      obtain ⟨c, digits, rfl⟩ := List.exists_cons_of_ne_nil plain.whole.1
      have digit := plain.whole.2 c List.mem_cons_self
      refine ⟨c, _, rfl, ?_⟩
      have other (d : Char) (none : d.isDigit = false) : c ≠ d := by
        rintro rfl
        exact absurd digit (by simp [none])
      simp [kindOf?, digit, other]
  cases finite with
  | null => exact ⟨'n', _, rfl, rfl⟩
  | int | float => exact number rfl
  | @str s => exact ⟨'"', s.toList.flatMap stringChar ++ ['"'], by simp [text, stringText], rfl⟩
  | @arr items => exact ⟨'[', (commas (texts items)).toList ++ [']'], by simp [text], rfl⟩
  | @obj members =>
    exact ⟨'\x7b', (commas (memberTexts members)).toList ++ ['\x7d'], by simp [text], rfl⟩

/-- What may stand behind a value: nothing, or a mark that ends it. -/
def EndsValue (rest : List Char) : Prop :=
  ∀ c ∈ rest.head?, c = ',' ∨ c = ']' ∨ c = '\x7d'

theorem EndsValue.isApart {rest : List Char} (h : EndsValue rest) : IsApart rest := by
  intro c first
  rcases h c first with rfl | rfl | rfl <;> decide

/-- The text of something is told from those of good things by itself, and from what stands behind
it. -/
def Tells {α : Type} (text : α → String) (good : α → Prop) (x : α) : Prop :=
  ∀ y rest rest', good y → EndsValue rest → EndsValue rest' →
    (text x).toList ++ rest = (text y).toList ++ rest' → x = y ∧ rest = rest'

section Rows

variable {α : Type} {text : α → String} {good : α → Prop} {close : Char} {xs ys : List α}
  {rest rest' : List Char}

theorem toList_commas_cons (x : String) (xs : List String) :
    (commas (x :: xs)).toList = x.toList ++ xs.flatMap fun y => ',' :: y.toList := by
  induction xs generalizing x with
  | nil => simp [commas, String.intercalate_singleton]
  | cons y ys ih =>
    have split : commas (x :: y :: ys) = x ++ "," ++ commas (y :: ys) :=
      String.intercalate_cons_cons
    simp [split, ih]

/-- Behind an element there is a comma or the closing mark. -/
private theorem endsValue_behind (closes : close = ']' ∨ close = '\x7d') (xs : List α) :
    EndsValue ((xs.flatMap fun y => ',' :: (text y).toList) ++ close :: rest) := by
  cases xs with
  | nil =>
    rintro _ ⟨⟩
    exact .inr closes
  | cons =>
    rintro _ ⟨⟩
    exact .inl rfl

/-- The elements behind the first one are told from each other. -/
private theorem behind_append_inj (closes : close = ']' ∨ close = '\x7d')
    (tells : ∀ x ∈ xs, Tells text good x) (others : ∀ y ∈ ys, good y)
    (same : (xs.flatMap fun y => ',' :: (text y).toList) ++ close :: rest =
      (ys.flatMap fun y => ',' :: (text y).toList) ++ close :: rest') :
    xs = ys ∧ rest = rest' := by
  have noComma : close ≠ ',' := by rcases closes with rfl | rfl <;> decide
  induction xs generalizing ys with
  | nil =>
    cases ys with
    | nil => exact ⟨rfl, (List.cons.inj same).2⟩
    | cons => exact absurd (List.cons.inj same).1 noComma
  | cons x xs ih =>
    cases ys with
    | nil => exact absurd (List.cons.inj same).1.symm noComma
    | cons y ys =>
      obtain ⟨first, later⟩ := List.forall_mem_cons.mp tells
      obtain ⟨isGood, others'⟩ := List.forall_mem_cons.mp others
      rw [List.flatMap_cons, List.flatMap_cons, List.cons_append, List.cons_append,
        List.cons_append, List.cons_append, List.append_assoc, List.append_assoc] at same
      obtain ⟨rfl, behind⟩ := first y _ _ isGood (endsValue_behind closes xs)
        (endsValue_behind closes ys) (List.cons.inj same).2
      obtain ⟨rfl, ends⟩ := ih later others' behind
      exact ⟨rfl, ends⟩

/-- Elements are told from their texts with commas between them and a mark that closes them, which no
element begins with. -/
theorem commas_append_inj (closes : close = ']' ∨ close = '\x7d')
    (opens : ∀ x, good x → ∀ rest, (text x).toList ++ rest ≠ close :: rest')
    (opens' : ∀ x, good x → ∀ rest', (text x).toList ++ rest' ≠ close :: rest)
    (tells : ∀ x ∈ xs, Tells text good x) (all : ∀ x ∈ xs, good x) (others : ∀ y ∈ ys, good y)
    (same : (commas (xs.map text)).toList ++ close :: rest =
      (commas (ys.map text)).toList ++ close :: rest') : xs = ys ∧ rest = rest' := by
  cases xs with
  | nil =>
    cases ys with
    | nil => exact ⟨rfl, (List.cons.inj same).2⟩
    | cons y ys =>
      rw [List.map_cons, toList_commas_cons, List.append_assoc] at same
      exact absurd same.symm (opens' y (others y List.mem_cons_self) _)
  | cons x xs =>
    cases ys with
    | nil =>
      rw [List.map_cons, toList_commas_cons, List.append_assoc] at same
      exact absurd same (opens x (all x List.mem_cons_self) _)
    | cons y ys =>
      obtain ⟨first, later⟩ := List.forall_mem_cons.mp tells
      obtain ⟨isGood, others'⟩ := List.forall_mem_cons.mp others
      rw [List.map_cons, List.map_cons, toList_commas_cons, toList_commas_cons, List.flatMap_map,
        List.flatMap_map, List.append_assoc, List.append_assoc] at same
      obtain ⟨rfl, behind⟩ := first y _ _ isGood (endsValue_behind closes xs)
        (endsValue_behind closes ys) same
      obtain ⟨rfl, ends⟩ := behind_append_inj closes later others' behind
      exact ⟨rfl, ends⟩

end Rows

/-! ### Texts of values -/

theorem texts_eq_map (items : List Json) : texts items = items.map text := by
  induction items with
  | nil => rw [texts, List.map_nil]
  | cons item items ih => rw [texts, ih, List.map_cons]

theorem memberTexts_eq_map (members : List (String × Json)) :
    memberTexts members = members.map memberText := by
  induction members with
  | nil => rw [memberTexts, List.map_nil]
  | cons member members ih => rw [memberTexts, ih, List.map_cons]

theorem toList_memberText (member : String × Json) (rest : List Char) :
    (memberText member).toList ++ rest =
      (stringText member.1).toList ++ ':' :: (member.2.text.toList ++ rest) := by
  obtain ⟨name, value⟩ := member
  simp [memberText]

/-- Texts of values that begin the same text are of values of one kind. -/
theorem kind_eq_of_append {x y : Json} {rest rest' : List Char} (finite : x.IsFinite)
    (finite' : y.IsFinite) (same : x.text.toList ++ rest = y.text.toList ++ rest') :
    x.kind = y.kind := by
  obtain ⟨c, cs, text, kind⟩ := exists_head finite
  obtain ⟨d, ds, text', kind'⟩ := exists_head finite'
  rw [text, text'] at same
  cases (List.cons.inj same).1
  exact Option.some.inj (kind.symm.trans kind')

/-- No value begins with a closing mark. -/
theorem text_append_ne {x : Json} (finite : x.IsFinite) {close : Char}
    (closes : close = ']' ∨ close = '\x7d') (rest rest' : List Char) :
    x.text.toList ++ rest ≠ close :: rest' := by
  obtain ⟨c, cs, text, kind⟩ := exists_head finite
  rw [text]
  intro same
  cases (List.cons.inj same).1
  rcases closes with rfl | rfl <;> cases kind

theorem memberText_append_ne {member : String × Json} {close : Char}
    (closes : close = ']' ∨ close = '\x7d') (rest rest' : List Char) :
    (memberText member).toList ++ rest ≠ close :: rest' := by
  rw [toList_memberText, toList_stringText]
  intro same
  cases (List.cons.inj same).1
  rcases closes with closes | closes <;> cases closes

/-- A number is told from its text. -/
theorem tells_number {x : Json} (finite : x.IsFinite) (number : x.kind = .number) :
    Tells text IsFinite x := by
  intro y rest rest' finite' behind behind' same
  have number' := (kind_eq_of_append finite finite' same).symm.trans number
  obtain ⟨_, _, _, _, plain, text, written⟩ := exists_numeral finite number
  obtain ⟨_, _, _, _, plain', text', written'⟩ := exists_numeral finite' number'
  rw [text, text'] at same
  obtain ⟨numeral, ends⟩ := numeral_append_inj plain plain' behind.isApart behind'.isApart same
  exact ⟨written.unique written' numeral, ends⟩

mutual

theorem tells_text (x : Json) (finite : x.IsFinite) : Tells text IsFinite x := by
  match x with
  | .int _ => exact tells_number finite rfl
  | .float _ => exact tells_number finite rfl
  | .null =>
    intro y rest rest' finite' _ _ same
    have kind := kind_eq_of_append finite finite' same
    cases finite' with
    | null => exact ⟨rfl, List.append_cancel_left same⟩
    | _ => cases kind
  | .str s =>
    intro y rest rest' finite' _ _ same
    have kind := kind_eq_of_append finite finite' same
    cases finite' with
    | str =>
      rw [text, text] at same
      obtain ⟨rfl, ends⟩ := stringText_append_inj same
      exact ⟨rfl, ends⟩
    | _ => cases kind
  | .arr items =>
    have all := isFinite_arr_iff.mp finite
    have tells := tells_texts items all
    intro y rest rest' finite' _ _ same
    have kind := kind_eq_of_append finite finite' same
    cases finite' with
    | @arr others all' =>
      simp only [text, texts_eq_map, String.toList_append, List.append_assoc] at same
      have inside := List.append_cancel_left same
      obtain ⟨rfl, ends⟩ := commas_append_inj (.inl rfl)
        (fun x isFinite _ => text_append_ne isFinite (.inl rfl) _ _)
        (fun x isFinite _ => text_append_ne isFinite (.inl rfl) _ _) tells all all' inside
      exact ⟨rfl, ends⟩
    | _ => cases kind
  | .obj members =>
    have all := isFinite_obj_iff.mp finite
    have tells := tells_memberTexts members all
    intro y rest rest' finite' _ _ same
    have kind := kind_eq_of_append finite finite' same
    cases finite' with
    | @obj others all' =>
      simp only [text, memberTexts_eq_map, String.toList_append, List.append_assoc] at same
      have inside := List.append_cancel_left same
      obtain ⟨rfl, ends⟩ := commas_append_inj (.inr rfl)
        (fun x _ _ => memberText_append_ne (.inr rfl) _ _)
        (fun x _ _ => memberText_append_ne (.inr rfl) _ _) tells all all' inside
      exact ⟨rfl, ends⟩
    | _ => cases kind
termination_by structural x

theorem tells_texts (items : List Json) (all : ∀ item ∈ items, item.IsFinite) :
    ∀ item ∈ items, Tells text IsFinite item := by
  match items with
  | [] => exact List.forall_mem_nil _
  | item :: items =>
    obtain ⟨first, later⟩ := List.forall_mem_cons.mp all
    exact List.forall_mem_cons.mpr ⟨tells_text item first, tells_texts items later⟩
termination_by structural items

theorem tells_memberText (member : String × Json) (finite : member.2.IsFinite) :
    Tells memberText (·.2.IsFinite) member := by
  match member with
  | (name, value) =>
    have tells := tells_text value finite
    rintro ⟨name', value'⟩ rest rest' finite' behind behind' same
    rw [toList_memberText, toList_memberText] at same
    obtain ⟨rfl, colon⟩ := stringText_append_inj same
    obtain ⟨rfl, ends⟩ := tells value' rest rest' finite' behind behind' (List.cons.inj colon).2
    exact ⟨rfl, ends⟩
termination_by structural member

theorem tells_memberTexts (members : List (String × Json))
    (all : ∀ member ∈ members, member.2.IsFinite) :
    ∀ member ∈ members, Tells memberText (·.2.IsFinite) member := by
  match members with
  | [] => exact List.forall_mem_nil _
  | member :: members =>
    obtain ⟨first, later⟩ := List.forall_mem_cons.mp all
    exact List.forall_mem_cons.mpr ⟨tells_memberText member first, tells_memberTexts members later⟩
termination_by structural members

end

/-- Values with finite numbers differ in their texts. -/
theorem text_inj {x y : Json} (finite : x.IsFinite) (finite' : y.IsFinite) :
    x.text = y.text ↔ x = y := by
  refine ⟨fun same => ?_, fun same => by rw [same]⟩
  exact (tells_text x finite y [] [] finite' nofun nofun (by rw [same])).1

end ProtoSchema.Json
