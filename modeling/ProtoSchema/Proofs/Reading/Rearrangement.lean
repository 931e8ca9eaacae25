import ProtoSchema.Proofs.Grammar.Rearrangement
import ProtoSchema.Proofs.Reading.Parse

/-!
# Parsing statements in another order

A text whose statements are put in another order, on whichever levels, is parsed to the same file as
long as the statements of each kind stay in order. Nothing that is read of a statement depends on
statements of another kind in front of it.
-/

namespace ProtoSchema

open Reader Reading Grammar

/-- Words in another order are read as the same file, wherever they stand. -/
theorem Reading.ofStream_file_of_rearrangesFile {budget : Nat} {name : String} {f : SchemaFile}
    {stream stream' : TokenStream} {words words' : List Word} (proper : stream.ending.IsProper)
    (more : ∀ t ∈ stream.tokens, t.token ≠ .eof) (proper' : stream'.ending.IsProper)
    (read : (file budget name).ofStream stream = .ok f) (whole : stream.words? = some words)
    (moved : RearrangesFile words words') (whole' : stream'.words? = some words') :
    (file budget name).ofStream stream' = .ok f := by
  obtain ⟨_, text, found, phrase, made, depth⟩ := (ofStream_file_iff proper more).mp read
  cases whole.symm.trans found
  obtain ⟨before, after, phraseBefore, phraseAfter, same⟩ := moved.exists_isFile
  obtain ⟨tokens, ending⟩ := stream'
  cases ending with
  | failed => cases whole'
  | finished endMark =>
    have takes : Takes tokens words' [] := ⟨tokens, by simp, Option.some.inj whole'⟩
    rw [body_eq_of_isFile phrase phraseBefore, same] at made
    exact ofStream_eq_ok_iff.mpr ⟨[], (reads_file_iff proper').mpr
      ⟨⟨_, after, takes, phraseAfter, made, depth⟩, endMark, rfl, proper'⟩⟩

/-- If a text is parsed, then its words with the statements of the file, and of the messages, enums
and services in it, in another order are read as the same file: as tokens that stand anywhere, and as
another text that has them for its words. -/
theorem parse_of_rearrangesFile {config : DocConfig} {name : String} {text : List Char}
    {f : SchemaFile} {words words' : List Word} (parsed : parse config name text = .ok f)
    (whole : (TokenStream.ofText config text).words? = some words)
    (moved : RearrangesFile words words') :
    (∀ stream : TokenStream, stream.ending.IsProper → stream.words? = some words' →
        (file nestingLimit name).ofStream stream = .ok f) ∧
      ∀ config' text', (TokenStream.ofText config' text').words? = some words' →
        parse config' name text' = .ok f := by
  have read (stream : TokenStream) (proper : stream.ending.IsProper)
      (whole' : stream.words? = some words') : (file nestingLimit name).ofStream stream = .ok f :=
    ofStream_file_of_rearrangesFile (TokenStream.ofText_isProper config text)
      (fun _ => TokenStream.ne_eof_of_mem_ofText) proper parsed whole moved whole'
  exact ⟨read, fun config' text' => read _ (TokenStream.ofText_isProper config' text')⟩

/-! ### An enum that allows its aliases behind them -/

/-- A statement of these tokens, none of them documented, that keeps its words. -/
private def keptRow {α : Type} (tokens : List Token) (statement : α) : Row α :=
  ⟨tokens.map (⟨·, ""⟩), tokens.map (⟨·, ""⟩), statement⟩

private def valueRow (name : String) : Row EnumStatement :=
  keptRow [.ident name, .mark .equals, .int 1, .mark .semicolon] (.value ⟨name, 1, "", []⟩)

private def allowRow : Row EnumStatement :=
  keptRow [.ident "option", .ident "allow_alias", .mark .equals, .ident "true", .mark .semicolon]
    (.option ⟨"allow_alias", .ident "true"⟩)

private def aliasEnum : EnumType :=
  ⟨"E", "E", "", [⟨"A", 1, "", []⟩, ⟨"B", 1, "", []⟩], [⟨"allow_alias", .ident "true"⟩]⟩

private def aliasRow : Row FileStatement where
  before := braced .enumWord "E" "" "" "" ""
    ([valueRow "A", valueRow "B", allowRow].flatMap Row.before)
  after := braced .enumWord "E" "" "" "" ""
    ([allowRow, valueRow "A", valueRow "B"].flatMap Row.after)
  statement := .type .start (.enumType aliasEnum)

private def pathRow : Row FileStatement :=
  keptRow [.ident "import", .str [97], .mark .semicolon] (.imported false "a")

private theorem aliasEnum_rearranges :
    RearrangesEnum [] aliasRow.before aliasRow.after aliasEnum := by
  have moved : ([valueRow "A", valueRow "B"] ++ [allowRow]).Perm
      ([allowRow] ++ [valueRow "A", valueRow "B"]) := List.perm_append_comm
  refine .intro rfl ?_ ⟨moved, ?_⟩ (by decide +kernel)
  · have value (name : String) (plain : Reader.isPlainName name = true)
        (other : name ≠ Keyword.optionWord.spelling)
        (made : EnumValue.make name 1 "" [] = .ok ⟨name, 1, "", []⟩) :
        IsEnumStatement (valueRow name).before (valueRow name).statement :=
      .value (.intro plain other .absent made)
    have allow : IsEnumStatement allowRow.before allowRow.statement :=
      .option (.intro (.intro (.plain .nil) .ident))
    simp only [List.forall_mem_cons, List.not_mem_nil, false_implies, implies_true, and_true]
    exact ⟨⟨rfl, value "A" (by decide) (by decide) (by decide)⟩,
      ⟨rfl, value "B" (by decide) (by decide) (by decide)⟩, ⟨rfl, allow⟩⟩
  · intro k
    cases k <;> rfl

/-- An enum whose aliases are allowed behind them, a package and an import behind it. -/
def aliasText : List Char :=
  "enum E \x7b A = 1; B = 1; option allow_alias = true; \x7d package p; import 'a';".toList

/-- The same with the import and what allows the aliases in front. -/
def allowingText : List Char :=
  "import 'a'; enum E \x7b option allow_alias = true; A = 1; B = 1; \x7d package p;".toList

/-- The file that both of them are. -/
def aliasFile : SchemaFile where
  package := "p"
  typesBeforePackage := 1
  servicesBeforePackage := 0
  version := none
  imports := ["a"]
  publicImports := []
  types := [.enumType aliasEnum]
  services := []
  extendBlocks := []
  options := []
  name := "alias.proto"

private def packageWords : List Word :=
  [⟨Keyword.packageWord.token, ""⟩, ⟨.ident "p", ""⟩, ⟨.mark .semicolon, ""⟩]

/-- The words of the one text. -/
def aliasWords : List Word :=
  aliasRow.before ++ (packageWords ++ pathRow.before)

/-- The words of the other. -/
def allowingWords : List Word :=
  pathRow.after ++ (aliasRow.after ++ packageWords)

private theorem aliasWords_rearranges : RearrangesFile aliasWords allowingWords := by
  have path : IsFileStatement ["p"] pathRow.before pathRow.statement :=
    .imported (.plain .last (by decide +kernel))
  have moved : ([aliasRow] ++ [pathRow]).Perm ([pathRow, aliasRow] ++ []) := .swap _ _ _
  have phrases : ∀ r ∈ [aliasRow], RearrangesFileStatement [] r.before r.after r.statement := by
    simpa using .enumType aliasEnum_rearranges
  have phrases' : ∀ r ∈ [pathRow],
      RearrangesFileStatement ["p"] r.before r.after r.statement := by
    simpa using .same path
  refine .withPackage .absent phrases phrases' ⟨moved, ?_⟩ ?_
  · intro k
    rcases k with ⟨_ | _⟩ | _ <;> rfl
  · intro k qualified
    cases k <;> first | rfl | cases qualified

theorem aliasText_parse :
    parse {} "alias.proto" aliasText = .ok aliasFile ∧
      (TokenStream.ofText {} aliasText).words? = some aliasWords ∧
      RearrangesFile aliasWords allowingWords ∧
      (TokenStream.ofText {} allowingText).words? = some allowingWords ∧
      parse {} "alias.proto" allowingText = .ok aliasFile := by
  have parsed : parse {} "alias.proto" aliasText = .ok aliasFile := by decide +kernel
  have whole : (TokenStream.ofText {} aliasText).words? = some aliasWords := by decide +kernel
  have whole' : (TokenStream.ofText {} allowingText).words? = some allowingWords := by
    decide +kernel
  exact ⟨parsed, whole, aliasWords_rearranges, whole',
    (parse_of_rearrangesFile parsed whole aliasWords_rearranges).2 {} allowingText whole'⟩

end ProtoSchema
