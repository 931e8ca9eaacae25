import ProtoSchema.Proofs.Grammar.Phrase
import ProtoSchema.Reading.Option

/-!
# Grammar of option names and values

What the names and the values of options are, as words: nothing here says how they are found.
-/

namespace ProtoSchema.Grammar

/-- A literal in one part or in several adjacent ones. -/
inductive IsLiteral : List Word → List UInt8 → Prop
  | last {bytes : List UInt8} {doc : String} : IsLiteral [⟨.str bytes, doc⟩] bytes
  | more {bytes rest : List UInt8} {doc : String} {ws : List Word} :
      IsLiteral ws rest → IsLiteral (⟨.str bytes, doc⟩ :: ws) (bytes ++ rest)

/-- A path behind a name: identifiers that begin with a dot. -/
inductive IsPath : List Word → String → Prop
  | nil : IsPath [] ""
  | cons {name path : String} {doc : String} {ws : List Word} :
      Reading.isSuffix name = true → IsPath ws path →
        IsPath (⟨.ident name, doc⟩ :: ws) (name ++ path)

/-- The name of an option: an identifier or one in parentheses, and a path. -/
inductive IsOptionName : List Word → String → Prop
  | plain {name path : String} {doc : String} {ws : List Word} :
      IsPath ws path → IsOptionName (⟨.ident name, doc⟩ :: ws) (name ++ path)
  | extension {name path : String} {doc doc' doc'' : String} {ws : List Word} :
      IsPath ws path →
        IsOptionName (⟨.mark .openParen, doc⟩ :: ⟨.ident name, doc'⟩ ::
          ⟨.mark .closeParen, doc''⟩ :: ws) ("(" ++ name ++ ")" ++ path)

/-- The key of a map entry: the name of an option or an identifier in brackets. -/
inductive IsKey : List Word → String → Prop
  | option {name : String} {ws : List Word} : IsOptionName ws name → IsKey ws name
  | extension {name : String} {doc doc' doc'' : String} :
      IsKey [⟨.mark .openBracket, doc⟩, ⟨.ident name, doc'⟩, ⟨.mark .closeBracket, doc''⟩]
        ("[" ++ name ++ "]")

/-- What may stand behind a map entry: nothing, a comma or a semicolon. -/
inductive IsSeparator : List Word → Prop
  | none : IsSeparator []
  | comma {doc : String} : IsSeparator [⟨.mark .comma, doc⟩]
  | semicolon {doc : String} : IsSeparator [⟨.mark .semicolon, doc⟩]

mutual

/-- A value: a number, an identifier, a literal, a list, or a map in braces or angle brackets. -/
inductive IsValue : List Word → Value → Prop
  | int {n : Int} {doc : String} : IsValue [⟨.int n, doc⟩] (.int n)
  | float {x : Binary64} {doc : String} : IsValue [⟨.float x, doc⟩] (.float x)
  | ident {name : String} {doc : String} : IsValue [⟨.ident name, doc⟩] (.ident name)
  | literal {bytes : List UInt8} {ws : List Word} :
      IsLiteral ws bytes → IsValue ws (Reading.valueOfBytes bytes)
  | emptyList {doc doc' : String} :
      IsValue [⟨.mark .openBracket, doc⟩, ⟨.mark .closeBracket, doc'⟩] (.list [])
  | list {items : List Value} {doc doc' : String} {ws : List Word} :
      IsCommaList IsValue ws items →
        IsValue (⟨.mark .openBracket, doc⟩ :: ws ++ [⟨.mark .closeBracket, doc'⟩]) (.list items)
  | braces {entries : List Setting} {doc doc' : String} {ws : List Word} :
      IsSequence IsEntry ws entries →
        IsValue (⟨.mark .openBrace, doc⟩ :: ws ++ [⟨.mark .closeBrace, doc'⟩]) (.map entries)
  | angles {entries : List Setting} {doc doc' : String} {ws : List Word} :
      IsSequence IsEntry ws entries →
        IsValue (⟨.mark .less, doc⟩ :: ws ++ [⟨.mark .greater, doc'⟩]) (.map entries)

/-- A map entry; in front of a map the colon may be left out. -/
inductive IsEntry : List Word → Setting → Prop
  | colon {name : String} {value : Value} {doc : String} {ks vs sep : List Word} :
      IsKey ks name → IsValue vs value → IsSeparator sep →
        IsEntry (ks ++ ⟨.mark .colon, doc⟩ :: (vs ++ sep)) ⟨name, value⟩
  | map {name : String} {entries : List Setting} {ks vs sep : List Word} :
      IsKey ks name → IsValue vs (.map entries) → IsSeparator sep →
        IsEntry (ks ++ (vs ++ sep)) ⟨name, .map entries⟩

end

/-- A name, an equals sign and a value. -/
inductive IsSetting : List Word → Setting → Prop
  | intro {name : String} {value : Value} {doc : String} {ns vs : List Word} :
      IsOptionName ns name → IsValue vs value →
        IsSetting (ns ++ ⟨.mark .equals, doc⟩ :: vs) ⟨name, value⟩

/-- An option statement. -/
inductive IsOptionStatement : List Word → Setting → Prop
  | intro {s : Setting} {doc doc' : String} {ws : List Word} :
      IsSetting ws s →
        IsOptionStatement (⟨Keyword.optionWord.token, doc⟩ :: ws ++ [⟨.mark .semicolon, doc'⟩]) s

/-- Options in brackets, or none. -/
inductive IsBrackets : List Word → List Setting → Prop
  | absent : IsBrackets [] []
  | present {settings : List Setting} {doc doc' : String} {ws : List Word} :
      IsCommaList IsSetting ws settings →
        IsBrackets (⟨.mark .openBracket, doc⟩ :: ws ++ [⟨.mark .closeBracket, doc'⟩]) settings

end ProtoSchema.Grammar
