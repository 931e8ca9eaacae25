import ProtoSchema.Proofs.Grammar.Declaration
import ProtoSchema.Reading.File

/-!
# Grammar of files

A file is a list of statements, in front of which its version may stand. The package stands among
the statements, once at most, and is the scope of those behind it.
-/

namespace ProtoSchema.Grammar

open Reading

/-- The version statement, or none. -/
inductive IsVersion : List Word → Option String → Prop
  | absent : IsVersion [] none
  | present {bytes : List UInt8} {d d' d'' : String} {ws : List Word} :
      IsLiteral ws bytes → Utf8.decode? bytes = some knownVersion →
        IsVersion (⟨Keyword.syntaxWord.token, d⟩ :: ⟨.mark .equals, d'⟩ ::
          (ws ++ [⟨.mark .semicolon, d''⟩])) (some knownVersion)

/-- An import statement, public or not. -/
inductive IsImport : List Word → Bool → String → Prop
  | plain {bytes : List UInt8} {path d d' : String} {ws : List Word} :
      IsLiteral ws bytes → Utf8.decode? bytes = some path →
        IsImport (⟨Keyword.importWord.token, d⟩ :: (ws ++ [⟨.mark .semicolon, d'⟩])) false path
  | shared {bytes : List UInt8} {path d d' d'' : String} {ws : List Word} :
      IsLiteral ws bytes → Utf8.decode? bytes = some path →
        IsImport (⟨Keyword.importWord.token, d⟩ :: ⟨Keyword.publicWord.token, d'⟩ ::
          (ws ++ [⟨.mark .semicolon, d''⟩])) true path

/-- A statement of a file. Where a declaration stands is no part of its words. -/
inductive IsFileStatement (scope : Scope) : List Word → FileStatement → Prop
  | empty {d : String} : IsFileStatement scope [⟨.mark .semicolon, d⟩] .empty
  | imported {isPublic : Bool} {path : String} {ws : List Word} :
      IsImport ws isPublic path → IsFileStatement scope ws (.imported isPublic path)
  | option {s : Setting} {ws : List Word} :
      IsOptionStatement ws s → IsFileStatement scope ws (.option s)
  | message {p : Position} {m : Message} {ws : List Word} :
      IsMessage scope ws m → IsFileStatement scope ws (.type p (.message m))
  | enumType {p : Position} {e : EnumType} {ws : List Word} :
      IsEnum scope ws e → IsFileStatement scope ws (.type p (.enumType e))
  | service {p : Position} {s : Service} {ws : List Word} :
      IsService scope ws s → IsFileStatement scope ws (.service p s)
  | extend {e : ExtendBlock} {ws : List Word} :
      IsExtend ws e → IsFileStatement scope ws (.extend e)

/-- The statements of a file with at most one package declaration among them. -/
inductive IsFile : List Word → FileText → Prop
  | withoutPackage {version : Option String} {before : List FileStatement} {vs ws : List Word} :
      IsVersion vs version → IsSequence (IsFileStatement []) ws before →
        IsFile (vs ++ ws) ⟨version, before, none⟩
  | withPackage {version : Option String} {before behind : List FileStatement}
      {package d d' d'' : String} {vs ws ws' : List Word} :
      IsVersion vs version → IsSequence (IsFileStatement []) ws before →
      IsSequence (IsFileStatement [package]) ws' behind →
        IsFile (vs ++ (ws ++ ⟨Keyword.packageWord.token, d⟩ :: ⟨.ident package, d'⟩ ::
          ⟨.mark .semicolon, d''⟩ :: ws')) ⟨version, before, some (package, behind)⟩

end ProtoSchema.Grammar
