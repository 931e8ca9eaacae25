import ProtoSchema.Proofs.Lexing.Filler
import ProtoSchema.Render.Declaration

/-!
# Lines and the words they spell

Lines of text are read one after the other, however far they stand in. Line comments in front of a
declaration are its documentation, and nothing else that stands on such lines is.
-/

namespace ProtoSchema

open Documentation

/-! ### Filler in front of a text -/

/-- Filler that a text begins with is read: a rest of the text is left, and another state of
gathering is reached. -/
inductive Documentation.Gathers (config : DocConfig) :
    Gathering → List Char → Gathering → List Char → Prop
  | done {g : Gathering} {text : List Char} : Gathers config g text g text
  | filler {f : Filler} {g g' : Gathering} {text behind rest : List Char} :
      Filler.first? text = some (f, behind) → Gathers config (g.step config f) behind g' rest →
      Gathers config g text g' rest

namespace Documentation

variable {config : DocConfig} {g g' g'' : Gathering} {text rest rest' : List Char}

theorem Gathers.trans (first : Gathers config g text g' rest)
    (second : Gathers config g' rest g'' rest') : Gathers config g text g'' rest' := by
  induction first with
  | done => exact second
  | filler read _ ih => exact .filler read (ih second)

/-- What is read of the words behind some filler does not depend on where reading began. -/
theorem Gathers.wordsFrom_eq (h : Gathers config g text g' rest) :
    wordsFrom config g text = wordsFrom config g' rest := by
  induction h with
  | done => rfl
  | filler read _ ih => rw [wordsFrom_filler read, ih]

theorem gathers_newline (text : List Char) :
    Gathers config g ('\n' :: text) (g.step config .newline) text :=
  .filler rfl .done

/-- Blanks within a line say nothing. -/
theorem gathers_spaces {gap : List Char} (spaces : ∀ c ∈ gap, Filler.isSpace c = true)
    (text : List Char) : Gathers config g (gap ++ text) g text := by
  induction gap with
  | nil => exact .done
  | cons c gap ih =>
    obtain ⟨space, spaces⟩ := List.forall_mem_cons.mp spaces
    exact .filler (Filler.first?_spelling (f := .blank c) space trivial) (ih spaces)

theorem gathers_indent (n : Nat) (text : List Char) :
    Gathers config g (List.replicate n ' ' ++ text) g text :=
  gathers_spaces (fun _ member => (List.eq_of_mem_replicate member) ▸ rfl) text

end Documentation

/-! ### Empty lines -/

/-- Two states of gathering that differ at most in how many line feeds there were while there was no
comment. -/
def Documentation.Gathering.IsLike (g g' : Gathering) : Prop :=
  g.onTokenLine = g'.onTokenLine ∧ g.comments = g'.comments ∧
    (g.comments = [] ∨ g.newlines = g'.newlines)

theorem Documentation.Gathering.IsLike.step {config : DocConfig} {g g' : Gathering}
    (h : g.IsLike g') (f : Filler) : (g.step config f).IsLike (g'.step config f) := by
  obtain ⟨line, comments, newlines⟩ := h
  have comment (text : List Char) : (g.comment config text).IsLike (g'.comment config text) := by
    refine ⟨line, ?_, .inr rfl⟩
    simp only [Gathering.comment, line, comments]
  cases f with
  | newline =>
    -- The number of line feeds only decides whether comments are dropped; without comments there are
    -- none to drop.
    rcases newlines with none | same
    · have none' : g'.comments = [] := comments ▸ none
      refine ⟨rfl, ?_, .inl ?_⟩ <;> simp [Gathering.step, none, none']
    · refine ⟨rfl, ?_, .inr ?_⟩ <;> simp [Gathering.step, comments, same]
  | blank => exact ⟨line, comments, newlines⟩
  | lineComment text => exact comment _
  | blockComment text => exact comment _

theorem wordsFrom_of_isLike {config : DocConfig} {g g' : Gathering} {text : List Char}
    (h : g.IsLike g') : wordsFrom config g text = wordsFrom config g' text := by
  fun_induction wordsFrom config g text generalizing g' with
  | case1 g text f rest first ih =>
    rw [wordsFrom_filler first]
    exact ih (h.step f)
  | case2 g text noFiller comment => rw [wordsFrom_comment noFiller comment]
  | case3 g text noFiller noComment fault failed => rw [wordsFrom_fault noFiller failed]
  | case4 g text noFiller noComment found =>
    rw [wordsFrom_eof noFiller (by simpa using noComment) found]
  | case5 g text noFiller noComment t found more ih =>
    have doc : g.doc = g'.doc := by
      simp only [Gathering.doc, Gathering.doc?, h.2.1]
    rw [wordsFrom_token noFiller (by simpa using noComment) more found, doc]

/-- Behind a line feed and without comments, reading begins anew. -/
theorem wordsFrom_newline (onTokenLine : Bool) (text : List Char) :
    wordsFrom {} (.start onTokenLine) ('\n' :: text) = wordsFrom {} (.start false) text := by
  have first : Filler.first? ('\n' :: text) = some (.newline, text) := rfl
  rw [wordsFrom_filler first]
  exact wordsFrom_of_isLike ⟨rfl, rfl, .inl rfl⟩

/-! ### Words and faults -/

/-- Words in front of further ones; a fault among them ends reading. -/
def wordsAfter (pieces : List (Option Word)) (words : Option (List Word)) : Option (List Word) :=
  pieces.foldr (fun piece words => piece.bind fun w => words.map (w :: ·)) words

/-- The pieces of a declaration; the documentation stands in front of the first. -/
def documented (doc : String) : List Piece → List (Option Word)
  | [] => []
  | piece :: pieces => piece.map (⟨·, doc⟩) :: pieces.map (·.map (⟨·, ""⟩))

theorem wordsAfter_append (pieces pieces' : List (Option Word)) (words : Option (List Word)) :
    wordsAfter (pieces ++ pieces') words = wordsAfter pieces (wordsAfter pieces' words) :=
  List.foldr_append

private theorem wordsBehind_eq {config : DocConfig} {g : Gathering} {rest : List Char}
    {pieces : List Piece} (nonempty : pieces ≠ []) :
    wordsBehind config g rest pieces =
      wordsAfter (documented g.doc pieces) (wordsFrom config (.start true) rest) := by
  have later (pieces : List Piece) : wordsBehind config (.start true) rest pieces =
      wordsAfter (pieces.map (·.map (⟨·, ""⟩))) (wordsFrom config (.start true) rest) := by
    induction pieces with
    | nil => rfl
    | cons piece pieces ih =>
      rw [wordsBehind, ih]
      cases piece <;> rfl
  obtain ⟨piece, pieces, rfl⟩ := List.exists_cons_of_ne_nil nonempty
  rw [wordsBehind, later]
  cases piece <;> rfl

/-! ### Lines -/

/-- Lines one after the other, each `n` blanks further in and with a line feed at its end. -/
def Lines.laidOut (n : Nat) (lines : Lines) : List Char :=
  lines.flatMap fun line => List.replicate n ' ' ++ line.toList ++ ['\n']

theorem Lines.toList_text {lines : Lines} (nonempty : lines ≠ []) :
    lines.text.toList ++ ['\n'] = lines.laidOut 0 := by
  induction lines with
  | nil => exact absurd rfl nonempty
  | cons line lines ih =>
    cases lines with
    | nil => simp [Lines.text, Lines.laidOut]
    | cons next lines =>
      have split : Lines.text (line :: next :: lines) = line ++ "\n" ++ Lines.text (next :: lines) :=
        String.intercalate_cons_cons
      have rest := ih (List.cons_ne_nil _ _)
      rw [split, String.toList_append, List.append_assoc, rest]
      simp [Lines.laidOut]

theorem Lines.laidOut_append (n : Nat) (lines lines' : Lines) :
    Lines.laidOut n (lines ++ lines') = lines.laidOut n ++ lines'.laidOut n :=
  List.flatMap_append

theorem Lines.laidOut_indent (n : Nat) (lines : Lines) :
    Lines.laidOut n (lines.map ProtoSchema.indent) = lines.laidOut (n + 2) := by
  unfold Lines.laidOut
  rw [List.flatMap_map]
  congr 1
  funext line
  have blanks : List.replicate (n + 2) ' ' = List.replicate n ' ' ++ [' ', ' '] :=
    List.replicate_append_replicate.symm
  simp [ProtoSchema.indent, blanks]

/-- Lines from which these words are read, or words up to a fault, however far they stand in. -/
def Lines.Spell (lines : Lines) (pieces : List (Option Word)) : Prop :=
  ∀ n rest, wordsFrom {} (.start false) (lines.laidOut n ++ rest) =
    wordsAfter pieces (wordsFrom {} (.start false) rest)

namespace Lines.Spell

variable {lines lines' : Lines} {pieces pieces' : List (Option Word)}

theorem nil : Lines.Spell [] [] := fun _ _ => rfl

theorem append (first : lines.Spell pieces) (second : lines'.Spell pieces') :
    Lines.Spell (lines ++ lines') (pieces ++ pieces') := by
  intro n rest
  rw [Lines.laidOut_append, List.append_assoc, wordsAfter_append, ← second n rest]
  exact first n _

theorem indent (h : lines.Spell pieces) : Lines.Spell (lines.map ProtoSchema.indent) pieces := by
  intro n rest
  rw [Lines.laidOut_indent]
  exact h (n + 2) rest

end Lines.Spell

/-! ### Documentation -/

/-- Whether no line of a documentation ends in a blank. -/
def IsTrimmed (doc : String) : Prop :=
  ∀ line ∈ splitLines doc.toList, ∀ c ∈ line.getLast?, isBlank c = false

instance (doc : String) : Decidable (IsTrimmed doc) :=
  decidable_of_iff ((splitLines doc.toList).all (·.getLast?.all (!isBlank ·))) (by
    simp [IsTrimmed, Option.all_eq_true])

theorem isTrimmed_empty : IsTrimmed "" := by
  intro line member c last
  cases List.mem_singleton.mp member
  cases last

theorem trimEnd_eq_self {line : List Char} (h : ∀ c ∈ line.getLast?, isBlank c = false) :
    trimEnd line = line := by
  unfold trimEnd
  induction line with
  | nil => rfl
  | cons c line ih =>
    cases line with
    | nil =>
      have : isBlank c = false := h c rfl
      simp [dropTailWhile, this]
    | cons d line =>
      rw [dropTailWhile, ih (by simpa using h)]

theorem not_mem_of_mem_splitLines {text line : List Char} (h : line ∈ splitLines text) :
    '\n' ∉ line := by
  induction text generalizing line with
  | nil =>
    cases List.mem_singleton.mp h
    exact List.not_mem_nil
  | cons c text ih =>
    rw [splitLines] at h
    split at h
    next =>
      rcases List.mem_cons.mp h with rfl | later
      · exact List.not_mem_nil
      · exact ih later
    next other =>
      cases lines : splitLines text with
      | nil => exact absurd lines (splitLines_ne_nil text)
      | cons first rest =>
        rw [lines] at h ih
        rcases List.mem_cons.mp h with rfl | later
        · intro member
          rcases List.mem_cons.mp member with same | inside
          · exact other same.symm
          · exact ih List.mem_cons_self inside
        · exact ih (List.mem_cons_of_mem _ later)

/-- A line comment is read as the line that it was written for. -/
private theorem first?_docLine {line : List Char} (noNewline : '\n' ∉ line)
    (trimmed : trimEnd line = line) (rest : List Char) :
    ∃ text, Filler.first? ((docLine line).toList ++ '\n' :: rest) =
      some (.lineComment text, '\n' :: rest) ∧ ofLineComment text = line := by
  have behind (text : List Char) : (Filler.lineComment text).MayPrecede ('\n' :: rest) := by
    rintro c ⟨⟩
    rfl
  cases line with
  | nil =>
    have proper : (Filler.lineComment []).IsProper := List.not_mem_nil
    exact ⟨[], Filler.first?_spelling proper (behind []), rfl⟩
  | cons c line =>
    -- The blank behind the slashes keeps those apart that the line itself may begin with.
    have proper : (Filler.lineComment (' ' :: c :: line)).IsProper := by
      simpa [Filler.IsProper] using noNewline
    have spelling : (docLine (c :: line)).toList =
        (Filler.lineComment (' ' :: c :: line)).spelling := by
      simp [docLine, Filler.spelling]
    rw [spelling]
    exact ⟨' ' :: c :: line, Filler.first?_spelling proper (behind _), trimmed⟩

/-- Line comments below each other are gathered line by line. -/
private theorem gathers_docComments {lines : List (List Char)} (n : Nat)
    (noNewline : ∀ line ∈ lines, '\n' ∉ line) (trimmed : ∀ line ∈ lines, trimEnd line = line)
    (newlines : Nat) (comments : List (List Char)) :
    ∃ newlines', ∀ rest, Gathers {} ⟨false, newlines, comments⟩
      (Lines.laidOut n (lines.map docLine) ++ rest) ⟨false, newlines', comments ++ lines⟩ rest := by
  induction lines generalizing newlines comments with
  | nil =>
    refine ⟨newlines, fun rest => ?_⟩
    rw [List.append_nil]
    exact .done
  | cons line lines ih =>
    obtain ⟨noNewline, noNewlines⟩ := List.forall_mem_cons.mp noNewline
    obtain ⟨trimmed, allTrimmed⟩ := List.forall_mem_cons.mp trimmed
    -- There is one line feed behind each comment, never two, so the next comment is put behind it.
    obtain ⟨newlines', later⟩ := ih noNewlines allTrimmed 1 (comments ++ [line])
    refine ⟨newlines', fun rest => ?_⟩
    obtain ⟨text, first, same⟩ :=
      first?_docLine noNewline trimmed (Lines.laidOut n (lines.map docLine) ++ rest)
    have whole : Lines.laidOut n ((line :: lines).map docLine) ++ rest = List.replicate n ' ' ++
        ((docLine line).toList ++ '\n' :: (Lines.laidOut n (lines.map docLine) ++ rest)) := by
      simp [Lines.laidOut]
    have step : (Gathering.step {} ⟨false, newlines, comments⟩ (.lineComment text)).step {} .newline =
        ⟨false, 1, comments ++ [line]⟩ := by
      simp [Gathering.step, Gathering.comment, same]
    have later := later rest
    rw [List.append_assoc, List.singleton_append] at later
    rw [whole]
    refine (gathers_indent n _).trans (.filler first ((gathers_newline _).trans ?_))
    rw [step]
    exact later

/-- Documentation is gathered as it was written; where there is none, nothing was written. -/
theorem gathers_docLines {doc : String} (trimmed : IsTrimmed doc) (n newlines : Nat) :
    ∃ g : Gathering, g.doc? = (if doc = "" then none else some doc) ∧
      ∀ rest, Gathers {} ⟨false, newlines, []⟩ (Lines.laidOut n (docLines doc) ++ rest) g rest := by
  unfold docLines
  split
  next => exact ⟨⟨false, newlines, []⟩, rfl, fun _ => .done⟩
  next =>
    obtain ⟨newlines', gathered⟩ := gathers_docComments n (fun _ => not_mem_of_mem_splitLines)
      (fun line member => trimEnd_eq_self (trimmed line member)) newlines []
    refine ⟨⟨false, newlines', splitLines doc.toList⟩, ?_, gathered⟩
    have whole := joinLines_splitLines doc.toList
    unfold Gathering.doc?
    split
    next none => exact absurd none (splitLines_ne_nil _)
    next => rw [whole, String.ofList_toList]

namespace Lines.Spell

/-- A line behind its documentation. -/
theorem declaration {doc line : String} {pieces : List Piece} (trimmed : IsTrimmed doc)
    (spelled : Spells line.toList pieces) (nonempty : pieces ≠ []) :
    Lines.Spell (docLines doc ++ [line]) (documented doc pieces) := by
  intro n rest
  obtain ⟨g, reported, gathered⟩ := gathers_docLines trimmed n 0
  have same : g.doc = doc := by
    rw [Gathering.doc, reported]
    split
    next none => exact none.symm
    next => rfl
  have whole : Lines.laidOut n (docLines doc ++ [line]) ++ rest =
      Lines.laidOut n (docLines doc) ++ (List.replicate n ' ' ++ (line.toList ++ '\n' :: rest)) := by
    simp [Lines.laidOut]
  have apart : IsApart ('\n' :: rest) := isApart_cons.mpr rfl
  have read : wordsFrom {} (.start false) (Lines.laidOut n (docLines doc ++ [line]) ++ rest) =
      wordsFrom {} g (line.toList ++ '\n' :: rest) := by
    rw [whole]
    exact ((gathered _).trans (gathers_indent n _)).wordsFrom_eq
  rw [read, spelled {} g _ apart, wordsBehind_eq nonempty, same, wordsFrom_newline]

theorem single {line : String} {pieces : List Piece} (spelled : Spells line.toList pieces)
    (nonempty : pieces ≠ []) : Lines.Spell [line] (documented "" pieces) :=
  declaration isTrimmed_empty spelled nonempty

/-- A block behind its documentation: a head with an opening brace, contents and a closing brace. -/
theorem block {doc head : String} {contents : Lines} {pieces : List Piece}
    {inner : List (Option Word)} (trimmed : IsTrimmed doc)
    (spelled : Spells (head.toList ++ [' ', '\x7b']) pieces) (nonempty : pieces ≠ [])
    (inside : contents.Spell inner) :
    Lines.Spell (docLines doc ++ ProtoSchema.block head contents)
      (documented doc pieces ++ (inner ++ documented "" [some (.mark .closeBrace)])) := by
  have opening : Lines.Spell (docLines doc ++ [head ++ " \x7b"]) (documented doc pieces) :=
    declaration trimmed (by simpa using spelled) nonempty
  have closing : Lines.Spell ["\x7d"] (documented "" [some (.mark .closeBrace)]) :=
    single (Spells.nil.mark .closeBrace) (by simp)
  have whole : docLines doc ++ ProtoSchema.block head contents =
      docLines doc ++ [head ++ " \x7b"] ++ (contents.map ProtoSchema.indent ++ ["\x7d"]) := by
    simp [ProtoSchema.block]
  rw [whole]
  exact opening.append (inside.indent.append closing)

end Lines.Spell

end ProtoSchema
