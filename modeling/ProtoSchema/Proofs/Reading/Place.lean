import ProtoSchema.Proofs.Lexing.Place
import ProtoSchema.Proofs.Reading.Blame
import ProtoSchema.Proofs.Reading.Parse

/-!
# Where failures are

The position of a failure is that of a token or of the fault of the lexer, so it is exact in the
text. What is no text at all is reported behind the longest text that it begins with.
-/

namespace ProtoSchema

open Reader Reading

variable {config : DocConfig} {name : String}

/-! ### Failures in a text -/

namespace TokenStream

variable {s : TokenStream}

theorem Shows.position_mem {t : Located} (shown : s.Shows t) : t.position ∈ s.positions := by
  obtain ⟨left, stands, front⟩ := shown
  apply List.mem_append.mpr
  cases left with
  -- With tokens left, the first of them is shown; otherwise it is the end mark.
  | cons first left =>
    cases front
    exact .inl (List.mem_map_of_mem (stands.subset List.mem_cons_self))
  | nil =>
    cases ending : s.ending with
    | finished mark =>
      rw [ending] at front
      cases front
      exact .inr (List.mem_singleton.mpr rfl)
    | failed e =>
      rw [ending] at front
      cases front

/-- All failures that have their place in a stream are at one of its positions. -/
theorem allows_positions (s : TokenStream) : s.Allows fun e => e.position ∈ s.positions where
  lexical ending := by
    apply List.mem_append_right
    rw [ending]
    exact List.mem_singleton.mpr rfl
  unexpected shown _ := shown.position_mem
  literal shown _ := shown.position_mem
  violation shown := shown.position_mem

end TokenStream

/-- A text is refused at one of its tokens, at its end or at the fault of the lexer. -/
theorem position_mem_of_parse {text : List Char} {e : ReadError}
    (failed : parse config name text = .error e) :
    e.position ∈ (TokenStream.ofText config text).positions := by
  have run := ofStream_eq_error_iff.mp failed
  have outcome := confined_file (TokenStream.allows_positions (TokenStream.ofText config text))
    (fun _ _ shown => shown.position_mem) nestingLimit name _ (List.suffix_refl _)
  rw [run] at outcome
  cases outcome with
  | error allowed => exact allowed

theorem isExactIn_of_parse {text : List Char} {e : ReadError}
    (failed : parse config name text = .error e) : e.position.IsExactIn (Utf8.encode text) :=
  TokenStream.isExactIn_of_mem_positions (position_mem_of_parse failed)

/-! ### Failures in bytes -/

/-- The bytes of a text are parsed as the text. -/
theorem parseBytes_of_encode {bytes : List UInt8} {text : List Char}
    (same : withoutByteOrderMark bytes = Utf8.encode text) :
    parseBytes config name bytes = parse config name text := by
  unfold parseBytes
  simp only [same, Utf8.validPrefix_encode, if_true]

/-- What is no text is refused behind the longest text that it begins with. -/
theorem parseBytes_of_ne_encode (config : DocConfig) (name : String) {bytes : List UInt8}
    (other : ∀ text, withoutByteOrderMark bytes ≠ Utf8.encode text) :
    ∃ front, parseBytes config name bytes =
        .error (.lexical ⟨.invalidUtf8, Position.start.advance front⟩) ∧
      Utf8.encode front <+: withoutByteOrderMark bytes ∧
      ∀ text, Utf8.encode text <+: withoutByteOrderMark bytes → text <+: front := by
  refine ⟨Utf8.validPrefix (withoutByteOrderMark bytes).toByteArray 0, ?_,
    Utf8.encode_validPrefix _, fun text => Utf8.prefix_validPrefix⟩
  unfold parseBytes
  simp only
  rw [if_neg fun same => other _ same.symm]

theorem isExactIn_of_parseBytes {bytes : List UInt8} {e : ReadError}
    (failed : parseBytes config name bytes = .error e) :
    e.position.IsExactIn (withoutByteOrderMark bytes) := by
  -- Bytes that are a text fail like it; others fail where they stop being one.
  by_cases valid : ∃ text, withoutByteOrderMark bytes = Utf8.encode text
  · obtain ⟨text, same⟩ := valid
    rw [parseBytes_of_encode same] at failed
    rw [same]
    exact isExactIn_of_parse failed
  · obtain ⟨front, refused, leading, _⟩ := parseBytes_of_ne_encode config name
      (not_exists.mp valid)
    cases refused.symm.trans failed
    exact ⟨front, leading, Position.isBehind_advance front⟩

/-- All positions that are reported are exact: those of tokens and of the first fault of the lexer,
which follow each other, and those of failures. Positions in bytes are counted behind a byte order
mark; what is no text is refused at the end of the longest text that it begins with. -/
theorem positions_isExact (config : DocConfig) (name : String) :
    (∀ text : List Char,
      (∀ p ∈ (TokenStream.ofText config text).positions, p.IsExactIn (Utf8.encode text)) ∧
      ((TokenStream.ofText config text).positions.map Position.offset).Pairwise (· < ·) ∧
      ∀ e, parse config name text = .error e → e.position.IsExactIn (Utf8.encode text)) ∧
    ∀ bytes : List UInt8,
      (∀ e, parseBytes config name bytes = .error e →
        e.position.IsExactIn (withoutByteOrderMark bytes)) ∧
      ((∀ text, withoutByteOrderMark bytes ≠ Utf8.encode text) →
        ∃ p, parseBytes config name bytes = .error (.lexical ⟨.invalidUtf8, p⟩) ∧
          ∀ text, Utf8.encode text <+: withoutByteOrderMark bytes →
            (Utf8.encode text).length ≤ p.offset) := by
  constructor
  · intro text
    refine ⟨fun p member => TokenStream.isExactIn_of_mem_positions member,
      TokenStream.offsets_ofText config text, fun e failed => isExactIn_of_parse failed⟩
  · intro bytes
    refine ⟨fun e failed => isExactIn_of_parseBytes failed, fun other => ?_⟩
    obtain ⟨front, refused, _, longest⟩ :=
      parseBytes_of_ne_encode config name other
    refine ⟨_, refused, fun text leading => ?_⟩
    obtain ⟨more, rfl⟩ := longest text leading
    rw [(Position.isBehind_advance _).offset_eq, Utf8.encode_append, List.length_append]
    exact Nat.le_add_right _ _

/-- Behind a line with a character of two bytes, one that stands in no token. -/
theorem strayText_isExact :
    parse {} "stray.proto" "// é\nmessage Ü".toList =
        .error (.lexical ⟨.illegalCharacter 'Ü', ⟨2, 9, 14⟩⟩) ∧
      (⟨2, 9, 14⟩ : Position).IsExactIn (Utf8.encode "// é\nmessage Ü".toList) := by
  have failed : parse {} "stray.proto" "// é\nmessage Ü".toList =
      .error (.lexical ⟨.illegalCharacter 'Ü', ⟨2, 9, 14⟩⟩) := by decide +kernel
  exact ⟨failed, ((positions_isExact {} "stray.proto").1 _).2.2 _ failed⟩

end ProtoSchema
