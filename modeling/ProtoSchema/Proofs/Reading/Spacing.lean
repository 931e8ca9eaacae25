import ProtoSchema.Parse
import ProtoSchema.Proofs.Reading.Mirror

/-!
# Layout and configuration are of no account

Texts that differ in the gaps between their tokens are both schema files or both none, whatever the
configurations are. The files are the same once documentation is erased, and the failures are the
same apart from where they are. If the texts do not differ, the failures are at the same place.
-/

namespace ProtoSchema

open Reader

/-- A failure moved to another place. -/
def ReadError.moved (place : Position → Position) : ReadError → ReadError
  | lexical e => lexical ⟨e.cause, place e.position⟩
  | unexpected e => unexpected ⟨place e.position, e.expected, e.found⟩
  | violation broken position => violation broken (place position)

/-- A failure without its place. -/
def ReadError.unplaced (e : ReadError) : ReadError :=
  e.moved fun _ => .start

@[simp] theorem ReadError.moved_id (e : ReadError) : e.moved id = e := by
  cases e <;> rfl

theorem Comparison.Fails.moved {c : Comparison} {e e' : ReadError} (h : c.Fails e e') :
    e'.moved c.place = e.moved c.place := by
  cases h with
  | lexical cause position => simp [ReadError.moved, cause, position]
  | unexpected same => simp [ReadError.moved, same.position]
  | violation position => simp [ReadError.moved, position]

/-- Two streams that differ in documentation, all of which is left out, and in places. -/
def TokenStream.Matches.simulation {place : Position → Position} {s s' : TokenStream}
    (start : place .start = .start) (h : s.Matches place s') : Simulation where
  doc _ := ""
  place := place
  place_start := start
  linked _ _ := True
  ending := s.ending
  ending' := s'.ending
  more := []
  isCut := False
  ends := .inl ⟨rfl, h.ending.imp fun _ _ mark => ⟨mark.token, mark.position, rfl, trivial⟩⟩

variable {place : Position → Position} {c₁ c₂ : DocConfig} {text text' : List Char}

/-- Texts whose tokens match are parsed alike. -/
theorem parse_of_matches (name : String) (start : place .start = .start)
    (h : (TokenStream.ofText c₁ text).Matches place (TokenStream.ofText c₂ text')) :
    (∃ f f', parse c₁ name text = .ok f ∧ parse c₂ name text' = .ok f' ∧
        f'.undocumented = f.undocumented) ∨
      ∃ e e', parse c₁ name text = .error e ∧ parse c₂ name text' = .error e' ∧
        e'.moved place = e.moved place := by
  have related : (h.simulation start).Related (TokenStream.ofText c₁ text).tokens
      (TokenStream.ofText c₂ text').tokens :=
    ⟨_, (List.append_nil _).symm, h.tokens.imp fun t t' same =>
      ⟨same.token, same.position, rfl, trivial⟩⟩
  have outcome := Simulation.mirrors_file Reading.nestingLimit name _ _ related
  unfold parse ofStream
  change (h.simulation start).Outcome _
    (((Reading.file _ _).run (TokenStream.ofText c₁ text).ending).run _)
    (((Reading.file _ _).run (TokenStream.ofText c₂ text').ending).run _) at outcome
  generalize ((Reading.file _ name).run (TokenStream.ofText c₁ text).ending).run _ = o,
    ((Reading.file _ name).run (TokenStream.ofText c₂ text').ending).run _ = o' at outcome ⊢
  cases outcome with
  | ok same _ => exact .inl ⟨_, _, rfl, rfl, same⟩
  | error fails => exact .inr ⟨_, _, rfl, rfl, fails.moved⟩
  | cut _ isCut => exact isCut.elim

/-- Gaps in front of tokens and the configuration change nothing but documentation and the places
of failures. -/
theorem parse_of_isSpaced (c₁ c₂ : DocConfig) (name : String) (spaced : IsSpaced text text') :
    (∃ f f', parse c₁ name text = .ok f ∧ parse c₂ name text' = .ok f' ∧
        f'.undocumented = f.undocumented) ∨
      ∃ e e', parse c₁ name text = .error e ∧ parse c₂ name text' = .error e' ∧
        e'.unplaced = e.unplaced ∧ (text' = text → e'.position = e.position) := by
  have gaps : (TokenStream.ofText c₁ text).Matches (fun _ => .start)
      (TokenStream.ofText c₂ text') :=
    Lexer.matches_run_of_isSpaced spaced rfl rfl
  rcases parse_of_matches name rfl gaps with parsed | ⟨e, e', failed, failed', same⟩
  · exact .inl parsed
  refine .inr ⟨e, e', failed, failed', same, ?_⟩
  -- In the same text the tokens are at the same places, so their places may be compared as well.
  rintro rfl
  have places : (TokenStream.ofText c₁ text').Matches id (TokenStream.ofText c₂ text') :=
    Lexer.matches_run_of_rest_eq rfl rfl fun _ => rfl
  rcases parse_of_matches name rfl places with
    ⟨f, _, parsed, _⟩ | ⟨d, d', failed₁, failed₂, same⟩
  · cases failed.symm.trans parsed
  · cases failed.symm.trans failed₁
    cases failed'.symm.trans failed₂
    rw [ReadError.moved_id, ReadError.moved_id] at same
    rw [same]

/-- An empty message. -/
def plainText : List Char := "message M \x7b\x7d".toList

/-- The same with a comment in front of its first word and one between two words. -/
def commentedText : List Char := "// About M.\nmessage /* its name */M \x7b\x7d".toList

private theorem isSpaced_commentedText : IsSpaced plainText commentedText := by
  have keyword : (firstScan plainText).outcome = .ok (.ident "message") := by decide +kernel
  have name : (firstScan (firstScan plainText).rest).outcome = .ok (.ident "M") := by
    decide +kernel
  have line : IsGap ('/' :: '/' :: (" About M.".toList ++ '\n' :: [])) :=
    .lineComment (by decide +kernel) .nil
  have block : IsGap ('/' :: '*' :: (" its name ".toList ++ '*' :: '/' :: [])) :=
    .blockComment (by decide +kernel) .nil
  have spaced := IsSpaced.token keyword (by simp) line (.token name (by simp) block (.same _))
  have written : (Filler.scan plainText).1.flatMap Filler.spelling ++
      ('/' :: '/' :: (" About M.".toList ++ '\n' :: []) ++ ((firstScan plainText).taken ++
        ((Filler.scan (firstScan plainText).rest).1.flatMap Filler.spelling ++
          ('/' :: '*' :: (" its name ".toList ++ '*' :: '/' :: []) ++
            ((firstScan (firstScan plainText).rest).taken ++
              (firstScan (firstScan plainText).rest).rest))))) = commentedText := by
    decide +kernel
  rwa [written] at spaced

/-- The file that either text is, apart from the documentation of its message. -/
def emptyMessageFile (doc : String) : SchemaFile where
  name := "m.proto"
  package := ""
  typesBeforePackage := 0
  servicesBeforePackage := 0
  version := none
  imports := []
  publicImports := []
  types := [.message ⟨"M", "M", doc, [], [], [], [], []⟩]
  services := []
  extendBlocks := []
  options := []

/-- The comment in front of the message documents it; the one inside it is left out. -/
theorem commentedText_parse : IsSpaced plainText commentedText ∧
    parse ⟨true, true⟩ "m.proto" plainText = .ok (emptyMessageFile "") ∧
    parse ⟨false, true⟩ "m.proto" commentedText = .ok (emptyMessageFile "About M.") ∧
    (emptyMessageFile "About M.").undocumented = (emptyMessageFile "").undocumented := by
  have plain : parse ⟨true, true⟩ "m.proto" plainText = .ok (emptyMessageFile "") := by
    decide +kernel
  have commented :
      parse ⟨false, true⟩ "m.proto" commentedText = .ok (emptyMessageFile "About M.") := by
    decide +kernel
  refine ⟨isSpaced_commentedText, plain, commented, ?_⟩
  rcases parse_of_isSpaced ⟨true, true⟩ ⟨false, true⟩ "m.proto" isSpaced_commentedText with
    ⟨f, f', parsed, parsed', same⟩ | ⟨e, _, failed, _⟩
  · cases plain.symm.trans parsed
    cases commented.symm.trans parsed'
    exact same
  · cases plain.symm.trans failed

end ProtoSchema
