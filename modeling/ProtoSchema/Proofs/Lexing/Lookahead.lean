import Mathlib.Data.List.Basic
import ProtoSchema.Proofs.Lexing.Literal
import ProtoSchema.Proofs.Lexing.Name
import ProtoSchema.Proofs.Lexing.Numeral

/-!
# What a token depends on

A token is read from the characters that are taken for it and from at most the one behind them. So
it is read again if what follows is replaced by a text that begins with the same character, or with
one that belongs to no name or number.
-/

namespace ProtoSchema

/-- A text that may stand behind a token in the place of another one. -/
def CanReplace (rest rest' : List Char) : Prop :=
  ∀ c ∈ rest'.head?, isIdentChar c = false ∨ rest.head? = some c

namespace CanReplace

variable {rest rest' : List Char}

theorem of_isApart (h : IsApart rest') : CanReplace rest rest' :=
  fun c first => .inl (h c first)

theorem of_head? (h : rest'.head? = rest.head?) : CanReplace rest rest' :=
  fun _ first => .inr (h ▸ first)

theorem append (front : List Char) (h : CanReplace rest rest') :
    CanReplace (front ++ rest) (front ++ rest') := by
  cases front with
  | nil => exact h
  | cons c front => exact of_head? rfl

/-- What does not begin a text does not begin one that may replace it either. -/
theorem eq_false {p : Char → Bool} (h : CanReplace rest rest')
    (inside : ∀ c, p c = true → isIdentChar c = true) (ends : ∀ c ∈ rest.head?, p c = false) :
    ∀ c ∈ rest'.head?, p c = false := by
  intro c first
  rcases h c first with outside | same
  · rw [Bool.eq_false_iff]
    intro taken
    rw [inside c taken] at outside
    cases outside
  · exact ends c same

end CanReplace

theorem head?_dropWhile_eq_false {p : Char → Bool} (text : List Char) :
    ∀ c ∈ (text.dropWhile p).head?, p c = false := by
  intro c first
  have stop := List.head?_dropWhile_not p text
  rwa [Option.mem_def.mp first] at stop

/-- A run of characters of a name or number ends where it did. -/
theorem takeWhile_replace {p : Char → Bool} (inside : ∀ c, p c = true → isIdentChar c = true)
    {text rest' : List Char} (h : CanReplace (text.dropWhile p) rest') :
    (text.takeWhile p ++ rest').takeWhile p = text.takeWhile p ∧
      (text.takeWhile p ++ rest').dropWhile p = rest' :=
  takeWhile_append_of_head? (fun _ member => List.all_eq_true.mp (List.all_takeWhile ..) _ member)
    (h.eq_false inside (head?_dropWhile_eq_false text))

/-! ### Numbers -/

/-- A text that does not go on with a letter, a digit or an underscore. -/
def EndsNumeral (text : List Char) : Prop :=
  ∀ c ∈ text.head?, (c.isAlphanum || c = '_') = false

theorem EndsNumeral.replace {rest rest' : List Char} (h : EndsNumeral rest)
    (replaces : CanReplace rest rest') : EndsNumeral rest' :=
  replaces.eq_false (fun c member => by simp [isIdentChar, member]) h

theorem trailing_eq_nil_iff {rest : List Char} : Numeral.trailing rest = [] ↔ EndsNumeral rest := by
  cases rest with
  | nil => simp [Numeral.trailing, EndsNumeral]
  | cons c rest =>
    have first : EndsNumeral (c :: rest) ↔ (c.isAlphanum || c = '_') = false := by
      simp [EndsNumeral]
    rw [first, Numeral.trailing]
    split
    next inside =>
      have taken : isIdentChar c = true := by
        rw [isIdentChar, inside]
        rfl
      simp [inside, taken]
    next outside => simpa using outside

/-- A sign is read in front of digits, and where there is none no digit is taken for one. -/
private theorem Exponent.scanSign_append {text digits digits' : List Char} {sign : Option Char}
    (split : scanSign text = (sign, digits)) (begins : ∀ c ∈ digits'.head?, c.isDigit = true) :
    scanSign (sign.toList ++ digits') = (sign, digits') := by
  have none : scanSign digits' = (none, digits') := by
    unfold scanSign
    split
    next => exact absurd (begins '+' rfl) (by decide)
    next => exact absurd (begins '-' rfl) (by decide)
    next => rfl
  unfold scanSign at split
  split at split <;> cases split
  · rfl
  · rfl
  · exact none

theorem Exponent.scan_replace {cs rest' : List Char} (ends : EndsNumeral (scan cs).2)
    (replaces : CanReplace (scan cs).2 rest') :
    scan (((scan cs).1.map spelling).getD [] ++ rest') = ((scan cs).1, rest') := by
  have ends' := ends.replace replaces
  have none (rest : List Char) (ends : EndsNumeral rest) : scan rest = (none, rest) := by
    cases rest with
    | nil => rfl
    | cons c rest =>
      have other : ¬ (c = 'e' ∨ c = 'E') := by
        rintro (rfl | rfl) <;> exact absurd (ends _ rfl) (by decide)
      rw [scan, if_neg other]
  fun_cases scan cs with
  -- Where no exponent was read, none is read in what replaces the rest.
  | case1 => exact none rest' ends'
  | case2 => exact none rest' ends'
  | case4 => exact none rest' ends'
  | case3 c rest marker sign digits split nonempty =>
    have found : scan (c :: rest) =
        (some ⟨c, sign, digits.takeWhile Char.isDigit⟩, digits.dropWhile Char.isDigit) := by
      rw [scan, if_pos marker, split]
      simp [nonempty]
    rw [found] at replaces
    obtain ⟨taken, left⟩ := takeWhile_replace (fun _ => isIdentChar_of_isDigit) replaces
    have sign' : scanSign (sign.toList ++ (digits.takeWhile Char.isDigit ++ rest')) =
        (sign, digits.takeWhile Char.isDigit ++ rest') := by
      refine scanSign_append split fun c first => ?_
      obtain ⟨d, more, same⟩ := List.exists_cons_of_ne_nil nonempty
      rw [same] at first
      cases first
      exact List.all_eq_true.mp (List.all_takeWhile ..) _ (same ▸ List.mem_cons_self)
    simp only [Option.map_some, Option.getD_some, spelling, List.cons_append, List.append_assoc]
    rw [scan, if_pos marker, sign']
    simp [taken, left, nonempty]

namespace Numeral

theorem scanFraction_replace {cs rest' : List Char}
    (replaces : CanReplace (scanFraction cs).2 rest') :
    scanFraction (((scanFraction cs).1.map ('.' :: ·)).getD [] ++ rest') =
      ((scanFraction cs).1, rest') := by
  unfold scanFraction at replaces ⊢
  split at replaces
  next rest =>
    obtain ⟨taken, left⟩ := takeWhile_replace (fun _ => isIdentChar_of_isDigit) replaces
    simp [taken, left]
  next rest noPoint =>
    -- A point belongs to names, so it would stand in front of the replaced text too.
    have noPoint' : ∀ after, rest' ≠ '.' :: after := by
      rintro after rfl
      rcases replaces '.' rfl with outside | same
      · exact absurd outside (by decide)
      · obtain ⟨tail, rfl⟩ := List.head?_eq_some_iff.mp same
        exact noPoint tail rfl
    rw [Option.map_none, Option.getD_none, List.nil_append]
    split
    next after => exact absurd rfl (noPoint' after)
    next => rfl

theorem scanDecimal_replace {cs rest' : List Char} (ends : EndsNumeral (scanDecimal cs).2)
    (replaces : CanReplace (scanDecimal cs).2 rest') :
    scanDecimal ((scanDecimal cs).1.spelling ++ rest') = ((scanDecimal cs).1, rest') := by
  let fraction := scanFraction (cs.dropWhile Char.isDigit)
  let exponent := Exponent.scan fraction.2
  have atFraction : fraction.2 = (exponent.1.map Exponent.spelling).getD [] ++ exponent.2 :=
    (Exponent.scan_eq fraction.2).symm
  have atWhole : cs.dropWhile Char.isDigit =
      (fraction.1.map ('.' :: ·)).getD [] ++ fraction.2 := (scanFraction_eq _).symm
  -- What replaces the rest replaces it behind the exponent, and so behind the fraction.
  have replacesFraction : CanReplace fraction.2
      ((exponent.1.map Exponent.spelling).getD [] ++ rest') := by
    rw [atFraction]
    exact replaces.append _
  have replacesWhole : CanReplace (cs.dropWhile Char.isDigit)
      ((fraction.1.map ('.' :: ·)).getD [] ++
        ((exponent.1.map Exponent.spelling).getD [] ++ rest')) := by
    rw [atWhole]
    exact replacesFraction.append _
  obtain ⟨taken, left⟩ := takeWhile_replace (fun _ => isIdentChar_of_isDigit) replacesWhole
  have readFraction := scanFraction_replace replacesFraction
  have readExponent : Exponent.scan ((exponent.1.map Exponent.spelling).getD [] ++ rest') =
      (exponent.1, rest') := Exponent.scan_replace ends replaces
  have spelled : (scanDecimal cs).1.spelling ++ rest' = cs.takeWhile Char.isDigit ++
      ((fraction.1.map ('.' :: ·)).getD [] ++
        ((exponent.1.map Exponent.spelling).getD [] ++ rest')) := by
    simp only [scanDecimal, spelling, List.append_assoc]
    rfl
  rw [spelled, scanDecimal, taken, left, readFraction]
  simp only [readExponent]
  rfl

theorem scan_replace {cs rest' : List Char} (ends : EndsNumeral (scan cs).2)
    (replaces : CanReplace (scan cs).2 rest') :
    scan ((scan cs).1.spelling ++ rest') = ((scan cs).1, rest') := by
  have ends' := ends.replace replaces
  by_cases hex : ∃ marker rest, cs = '0' :: marker :: rest ∧ (marker = 'x' ∨ marker = 'X')
  · obtain ⟨marker, rest, rfl, isMarker⟩ := hex
    simp only [scan, if_pos isMarker] at replaces ⊢
    obtain ⟨taken, left⟩ := takeWhile_replace (fun _ => isIdentChar_of_isDigitOf) replaces
    simp [spelling, isMarker, taken, left]
  · have decimal (cs : List Char)
        (hex : ¬ ∃ marker rest, cs = '0' :: marker :: rest ∧ (marker = 'x' ∨ marker = 'X')) :
        scan cs = scanDecimal cs := by
      unfold scan
      split
      next marker rest =>
        rw [if_neg fun isMarker => hex ⟨marker, rest, rfl, isMarker⟩]
      next => rfl
    rw [decimal cs hex] at ends replaces ⊢
    rw [decimal _ ?_, scanDecimal_replace ends replaces]
    -- A marker would be one of the characters taken, or stand behind them.
    rintro ⟨marker, rest, same, isMarker⟩
    have whole := scanDecimal_eq cs
    have alphanumeric : marker.isAlphanum = true := by rcases isMarker with rfl | rfl <;> rfl
    cases spelled : (scanDecimal cs).1.spelling with
    | nil =>
      rw [spelled, List.nil_append] at same
      exact absurd ( ends' '0' (by rw [same]; rfl)) (by decide)
    | cons c more =>
      rw [spelled] at same whole
      cases more with
      | nil =>
        rw [List.singleton_append] at same
        obtain ⟨-, rfl⟩ := List.cons.inj same
        have first := ends' marker rfl
        simp [alphanumeric] at first
      | cons d more =>
        cases same
        exact hex ⟨_, _, whole.symm, isMarker⟩

theorem scanBehind_replace {sign cs rest' : List Char} {t : Token}
    (found : (scanBehind sign cs).outcome = .ok t)
    (replaces : CanReplace (scanBehind sign cs).rest rest') :
    ∃ taken, (scanBehind sign cs).taken = sign ++ taken ∧
      scanBehind sign (taken ++ rest') = .found t (sign ++ taken) rest' := by
  unfold scanBehind at found replaces
  simp only at found replaces
  by_cases ends : trailing (scan cs).2 = []
  · rw [if_pos ends] at found replaces
    rw [ends, List.append_nil, List.length_nil, List.drop_zero] at found replaces
    refine ⟨(scan cs).1.spelling, by rw [taken_scanBehind, ends, List.append_nil], ?_⟩
    cases value : (scan cs).1.token (sign ≠ []) (String.ofList (sign ++ (scan cs).1.spelling)) with
    | error cause =>
      rw [value] at found
      cases found
    | ok t' =>
      rw [value] at found replaces
      cases found
      have ends := trailing_eq_nil_iff.mp ends
      have ends' := trailing_eq_nil_iff.mpr (ends.replace replaces)
      simp only [scanBehind, scan_replace ends replaces, ends', List.append_nil, if_true, value]
      rfl
  · rw [if_neg ends] at found
    cases found

end Numeral

/-! ### Literals -/

theorem Escape.digits_replace (base count : Nat) {cs rest' : List Char}
    (same : rest'.head? = (cs.drop (digits base count cs).length).head?) :
    digits base count (digits base count cs ++ rest') = digits base count cs := by
  -- The induction is on how many digits may still be taken; if there are fewer, the character
  -- behind them is still there to stop the run.
  induction count generalizing cs with
  | zero => simp [digits]
  | succ count ih =>
    cases cs with
    | nil =>
      have none : rest' = [] := List.head?_eq_none_iff.mp same
      simp [digits, none]
    | cons c cs =>
      by_cases digit : isDigitOf base c = true
      · have taken : digits base (count + 1) (c :: cs) = c :: digits base count cs := by
          simp [digits, digit]
        rw [taken] at same ⊢
        have later := @ih cs (by simpa using same)
        rw [List.cons_append]
        simpa [digits, digit] using later
      · have taken : digits base (count + 1) (c :: cs) = [] := by simp [digits, digit]
        rw [taken] at same ⊢
        obtain ⟨tail, rfl⟩ := List.head?_eq_some_iff.mp same
        simp [digits, digit]

/-- An escape is read again if the character behind it, which may belong to it, stays. -/
theorem Escape.scan_replace {cs rest' : List Char} {byte : UInt8}
    (found : (scan cs).outcome = .ok byte) (same : rest'.head? = (scan cs).rest.head?) :
    scan ((scan cs).taken ++ rest') = .found byte (scan cs).taken rest' := by
  revert found same
  fun_cases scan cs with
  | case1 =>
    intro found
    cases found
  | case2 c cs b simple =>
    intro found _
    cases found
    simp [scan, simple, Scan.found]
  | case3 c cs simple marker =>
    intro found
    cases found
  | case4 c cs simple marker hex after some =>
    intro found same
    cases found
    have again : digits 16 2 (hex ++ rest') = hex := digits_replace 16 2 same
    simp [scan, simple, marker, again, some, Scan.found]
  | case5 =>
    intro found
    cases found
  | case6 c cs simple marker octal digits' after small =>
    intro found same
    cases found
    have again : digits 8 2 (digits 8 2 cs ++ rest') = digits 8 2 cs := digits_replace 8 2 same
    simp only [Scan.found, List.cons_append, digits']
    simp [scan, simple, marker, octal, again, small, Scan.found, digits']
  | case7 =>
    intro found
    cases found

private theorem Scan.exists_of_behind {s : Scan (Option (List UInt8))} {front : List Char}
    {f : List UInt8 → List UInt8} {bytes : List UInt8}
    (found : (s.behind front (Option.map f)).outcome = .ok (some bytes)) :
    ∃ bytes', s.outcome = .ok (some bytes') ∧ f bytes' = bytes := by
  unfold Scan.behind at found
  cases outcome : s.outcome with
  | error fault =>
    rw [outcome] at found
    cases found
  | ok value =>
    rw [outcome] at found
    cases value with
    | none => cases found
    | some bytes' =>
      cases found
      exact ⟨bytes', rfl, rfl⟩

/-- A literal goes up to its quote, and not even an escape in front of that depends on what
follows. -/
theorem Literal.scanBody_replace {quote : Char} {cs rest' : List Char} {bytes : List UInt8}
    (found : (scanBody quote cs).outcome = .ok (some bytes)) :
    (scanBody quote cs).taken ≠ [] ∧
      scanBody quote ((scanBody quote cs).taken ++ rest') =
        .found (some bytes) (scanBody quote cs).taken rest' := by
  revert found
  fun_induction scanBody quote cs generalizing bytes with
  | case1 =>
    intro found
    cases found
  | case2 rest =>
    intro found
    cases found
  | case3 rest noNewline =>
    intro found
    cases found
    refine ⟨by simp [Scan.found], ?_⟩
    simp [Scan.found, scanBody, noNewline]
  | case4 rest byte taken after escape noNewline noQuote ih =>
    intro found
    obtain ⟨bytes', inside, rfl⟩ := Scan.exists_of_behind found
    obtain ⟨nonempty, again⟩ := ih inside
    refine ⟨by simp [Scan.behind], ?_⟩
    -- The escape is followed by at least the quote, which stays where it is.
    have same : ((scanBody quote after).taken ++ rest').head? = after.head? := by
      have first := congrArg List.head? (text_scanBody quote after)
      rw [Scan.text, List.head?_append_of_ne_nil _ nonempty] at first
      rw [List.head?_append_of_ne_nil _ nonempty, first]
    have reread := @Escape.scan_replace rest ((scanBody quote after).taken ++ rest') byte
    rw [escape] at reread
    simp only [Scan.behind, List.cons_append, List.append_assoc]
    rw [scanBody_escape noQuote (reread rfl same), again]
    rfl
  | case5 =>
    intro found
    cases found
  | case6 c rest noNewline noQuote noEscape ih =>
    intro found
    obtain ⟨bytes', inside, rfl⟩ := Scan.exists_of_behind found
    refine ⟨by simp [Scan.behind], ?_⟩
    simp only [Scan.behind, List.cons_append, List.nil_append]
    rw [scanBody, if_neg noNewline, if_neg noQuote, if_neg noEscape, (ih inside).2]
    rfl

/-! ### Tokens -/

namespace Token

variable {c : Char} {text rest' : List Char} {t : Token}

/-- How a number begins: with a digit, or with a point or a sign and what may stand behind it. -/
private def StartsNumber (c : Char) (rest : List Char) : Prop :=
  c.isDigit = true ∨ (c = '.' ∧ nextIs Char.isDigit rest = true) ∨
    (c = '-' ∧ nextIs (fun d => d.isDigit || d = '.') rest = true)

private theorem nextIs_congr {p : Char → Bool} {rest rest' : List Char}
    (same : rest'.head? = rest.head?) : nextIs p rest' = nextIs p rest := by
  cases rest with
  | nil => rw [List.head?_eq_none_iff.mp same]
  | cons c rest =>
    obtain ⟨tail, rfl⟩ := List.head?_eq_some_iff.mp same
    rfl

private theorem scan_of_startsNumber {rest : List Char} (h : StartsNumber c rest) :
    scan (c :: rest) = scanNumber (c :: rest) := by
  rcases h with digit | ⟨rfl, digit⟩ | ⟨rfl, follows⟩
  · rw [scan_of_isDigit digit, scanNumber]
    intro after same
    cases same
    exact absurd digit (by decide)
  · have noName : nextIs isIdentStart rest = false := by
      cases rest with
      | nil => rfl
      | cons d rest => exact not_isIdentStart_of_isDigit digit
    have point : Mark.ofChar? '.' = none ∧ isIdentStart '.' = false := by decide
    simp [scan, point, noName, digit]
  · have sign : Mark.ofChar? '-' = none ∧ isIdentStart '-' = false ∧ Char.isDigit '-' = false := by
      decide
    simp [scan, sign, follows]

private theorem scanNumber_of_ne (other : c ≠ '-') (rest : List Char) :
    scanNumber (c :: rest) = Numeral.scanBehind [] (c :: rest) := by
  rw [scanNumber]
  rintro after same
  cases same
  exact other rfl

/-- Of a number at least its first character is taken, and the next one too if it decides that there
is a number. -/
private theorem exists_taken_scanNumber {rest : List Char} (h : StartsNumber c rest) :
    ∃ more, (scanNumber (c :: rest)).taken = c :: more ∧ (c.isDigit = true ∨ more ≠ []) := by
  have cases (c : Char) (rest : List Char) : c.isDigit = true ∨ c = '.' ∨ c = '-' →
      ∃ more, (scanNumber (c :: rest)).taken = c :: more := by
    intro begins
    obtain ⟨d, more, taken⟩ := List.exists_cons_of_ne_nil (taken_scanNumber_ne_nil rest begins)
    have tiles := text_scanNumber (c :: rest)
    rw [Scan.text, taken] at tiles
    obtain ⟨rfl, -⟩ := List.cons.inj tiles
    exact ⟨more, taken⟩
  rcases h with digit | ⟨rfl, digit⟩ | ⟨rfl, follows⟩
  · obtain ⟨more, taken⟩ := cases c rest (.inl digit)
    exact ⟨more, taken, .inl digit⟩
  · obtain ⟨more, taken⟩ := cases '.' rest (.inr (.inl rfl))
    refine ⟨more, taken, .inr ?_⟩
    rintro rfl
    rw [scanNumber_of_ne (by decide), Numeral.taken_scanBehind] at taken
    have point : Char.isDigit '.' = false := rfl
    cases rest with
    | nil => cases digit
    | cons d rest =>
      have digit : d.isDigit = true := digit
      simp [Numeral.scan, Numeral.scanDecimal, Numeral.scanFraction, Numeral.spelling, point, digit]
        at taken
  · obtain ⟨more, taken⟩ := cases '-' rest (.inr (.inr rfl))
    refine ⟨more, taken, .inr ?_⟩
    rintro rfl
    rw [scanNumber, Numeral.taken_scanBehind] at taken
    cases rest with
    | nil => cases follows
    | cons d rest =>
      have numeral : d.isDigit ∨ d = '.' := by simpa [nextIs] using follows
      have nonempty := Numeral.spelling_scan_ne_nil rest numeral
      simp [nonempty] at taken

private theorem scanNumber_replace {rest : List Char} (starts : StartsNumber c rest)
    (found : (scanNumber (c :: rest)).outcome = .ok t)
    (replaces : CanReplace (scanNumber (c :: rest)).rest rest') :
    scan ((scanNumber (c :: rest)).taken ++ rest') =
      .found t (scanNumber (c :: rest)).taken rest' := by
  obtain ⟨more, taken, enough⟩ := exists_taken_scanNumber starts
  -- What showed that there is a number has been taken, so it shows it again.
  have starts' : StartsNumber c (more ++ rest') := by
    rcases enough with digit | nonempty
    · exact .inl digit
    · have same : (more ++ rest').head? = rest.head? := by
        obtain ⟨d, more, rfl⟩ := List.exists_cons_of_ne_nil nonempty
        have tiles := text_scanNumber (c :: rest)
        rw [Scan.text, taken] at tiles
        rw [← (List.cons.inj tiles).2]
        rfl
      unfold StartsNumber
      rw [nextIs_congr same, nextIs_congr same]
      exact starts
  have again : scanNumber (c :: (more ++ rest')) = .found t (c :: more) rest' := by
    by_cases sign : c = '-'
    · subst sign
      obtain ⟨numeral, taken', again⟩ := Numeral.scanBehind_replace found replaces
      rw [scanNumber] at taken
      rw [taken'] at taken
      cases taken
      exact again
    · rw [scanNumber_of_ne sign] at found replaces taken ⊢
      obtain ⟨numeral, taken', again⟩ := Numeral.scanBehind_replace found replaces
      rw [taken'] at taken
      rw [List.nil_append] at taken again
      subst taken
      exact again
  rw [taken, List.cons_append, scan_of_startsNumber starts', again]

private theorem scanIdent_replace (starts : startsName text = true)
    (found : (scanIdent text).outcome = .ok t)
    (replaces : CanReplace (scanIdent text).rest rest') :
    scan ((scanIdent text).taken ++ rest') = .found t (scanIdent text).taken rest' := by
  cases found
  have apart : IsApart rest' :=
    replaces.eq_false (fun _ inside => inside) (head?_dropWhile_eq_false text)
  exact (isSpelling_name (isNameText_takeWhile starts)).2 rest' apart

private theorem scanNegativeName_replace {rest : List Char}
    (found : (scanNegativeName rest).outcome = .ok t)
    (replaces : CanReplace (scanNegativeName rest).rest rest') :
    scan ((scanNegativeName rest).taken ++ rest') =
      .found t (scanNegativeName rest).taken rest' := by
  obtain ⟨whole, rfl, name⟩ := of_scanNegativeName_eq_ok found
  rw [whole] at replaces ⊢
  have apart : IsApart rest' :=
    replaces.eq_false (fun _ inside => inside) (head?_dropWhile_eq_false rest)
  have again := (isSpelling_negative name).2 rest' apart
  rwa [String.toList_ofList] at again

private theorem scanLiteral_replace {rest : List Char} (noMark : Mark.ofChar? c = none)
    (quote : c = '"' ∨ c = '\'') (found : (Literal.scan c rest).outcome = .ok t) :
    scan ((Literal.scan c rest).taken ++ rest') = .found t (Literal.scan c rest).taken rest' := by
  unfold Literal.scan at found ⊢
  simp only [Scan.behind, id_eq] at found ⊢
  cases outcome : (Literal.scanBody c rest).outcome with
  | error fault =>
    rw [outcome] at found
    cases found
  | ok value =>
    rw [outcome] at found
    cases value with
    | none => cases found
    | some bytes =>
      cases found
      have again := (@Literal.scanBody_replace c rest rest' bytes outcome).2
      simp [scan, noMark, quote, Literal.scan, again, Scan.behind, Scan.found]

/-- A token is read again if what follows it is replaced. -/
theorem scan_replace (found : (scan text).outcome = .ok t) (more : t ≠ .eof)
    (replaces : CanReplace (scan text).rest rest') :
    scan ((scan text).taken ++ rest') = .found t (scan text).taken rest' := by
  revert found replaces
  fun_cases scan text with
  | case1 =>
    intro found
    cases found
    exact absurd rfl more
  | case2 c rest m isMark =>
    intro found _
    cases found
    simp [scan, isMark, Scan.found]
  | case3 c rest noMark quote => exact fun found _ => scanLiteral_replace noMark quote found
  | case4 c rest noMark noQuote start =>
    exact scanIdent_replace (by simp [startsName, start])
  | case5 c rest noMark noQuote noStart start =>
    exact scanIdent_replace (by simp [startsName, start])
  | case6 c rest noMark noQuote noStart noName number =>
    exact scanNumber_replace (.inr (.inl number))
  | case7 c rest noMark noQuote noStart noName noPoint digit =>
    exact scanNumber_replace (.inl digit)
  | case8 c rest noMark noQuote noStart noName noPoint noDigit number =>
    exact scanNumber_replace (.inr (.inr number))
  | case9 c rest noMark noQuote noStart noName noPoint noDigit noNumber letter =>
    obtain ⟨rfl, -⟩ := letter
    exact scanNegativeName_replace
  | case10 =>
    intro found
    cases found

end Token

end ProtoSchema
