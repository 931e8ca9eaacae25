import ProtoSchema.Proofs.Grammar.Value
import ProtoSchema.Reading.Message

/-!
# Grammar of declarations

Fields, extension ranges, extend blocks, enums, services and messages as words. A phrase says what
its declaration is only if the declaration obeys the rules; the documentation of a declaration is
that of its first word.
-/

namespace ProtoSchema.Grammar

open Reading

/-! ### Fields -/

/-- What a field has behind its type. -/
inductive IsFieldRest (doc : String) (label : Label) (typeName : String) :
    List Word → Field → Prop
  | intro {name d d' d'' c : String} {tag : Int} {options : List Setting} {f : Field}
      {ws : List Word} :
      Reader.isPlainName name = true → IsBrackets ws options →
      Field.make label typeName name tag doc options = .ok f →
        IsFieldRest doc label typeName
          (⟨.ident name, d⟩ :: ⟨.mark .equals, d'⟩ :: ⟨.int tag, d''⟩ ::
            (ws ++ [⟨.mark .semicolon, c⟩])) f

/-- A field behind its label. -/
inductive IsField : List Word → Field → Prop
  | intro {k : Keyword} {label : Label} {typeName doc d : String} {f : Field} {ws : List Word} :
      labelOfKeyword? k = some label → IsFieldRest doc label typeName ws f →
        IsField (⟨k.token, doc⟩ :: ⟨.ident typeName, d⟩ :: ws) f

/-- A map field. -/
inductive IsMapField : List Word → Field → Prop
  | intro {key value doc d d' d'' c c' : String} {f : Field} {ws : List Word} :
      IsFieldRest doc .repeated ("map<" ++ key ++ ", " ++ value ++ ">") ws f →
        IsMapField (⟨.ident "map", doc⟩ :: ⟨.mark .less, d⟩ :: ⟨.ident key, d'⟩ ::
          ⟨.mark .comma, d''⟩ :: ⟨.ident value, c⟩ :: ⟨.mark .greater, c'⟩ :: ws) f

/-! ### Extensions -/

/-- The end of an extension range that begins with `first`. -/
inductive IsRangeEnd (first : Int) : List Word → Int → Prop
  | same : IsRangeEnd first [] first
  | last {n : Int} {d d' : String} : IsRangeEnd first [⟨Keyword.toWord.token, d⟩, ⟨.int n, d'⟩] n
  | max {d d' : String} :
      IsRangeEnd first [⟨Keyword.toWord.token, d⟩, ⟨Keyword.maxWord.token, d'⟩] maxTag

/-- An extension range in a statement with this documentation. -/
inductive IsRange (doc : String) : List Word → ExtensionRange → Prop
  | intro {first last : Int} {d : String} {r : ExtensionRange} {ws : List Word} :
      IsRangeEnd first ws last → ExtensionRange.make doc first last = .ok r →
        IsRange doc (⟨.int first, d⟩ :: ws) r

/-- An extensions statement. -/
inductive IsExtensions : List Word → List ExtensionRange → Prop
  | intro {ranges : List ExtensionRange} {doc d : String} {ws : List Word} :
      IsCommaList (IsRange doc) ws ranges →
        IsExtensions (⟨Keyword.extensionsWord.token, doc⟩ :: (ws ++ [⟨.mark .semicolon, d⟩])) ranges

/-- A statement of an extend block. -/
inductive IsExtendStatement : List Word → ExtendStatement → Prop
  | empty {d : String} : IsExtendStatement [⟨.mark .semicolon, d⟩] .empty
  | field {f : Field} {ws : List Word} : IsField ws f → IsExtendStatement ws (.field f)

/-- An extend block. -/
inductive IsExtend : List Word → ExtendBlock → Prop
  | intro {target doc d d' d'' : String} {statements : List ExtendStatement} {e : ExtendBlock}
      {ws : List Word} :
      IsSequence IsExtendStatement ws statements →
      ExtendBlock.make target doc (statements.filterMap ExtendStatement.field?) = .ok e →
        IsExtend (⟨Keyword.extendWord.token, doc⟩ :: ⟨.ident target, d⟩ :: ⟨.mark .openBrace, d'⟩ ::
          (ws ++ [⟨.mark .closeBrace, d''⟩])) e

/-! ### Enums -/

/-- An enum value. Its name is not the word that begins an option statement. -/
inductive IsEnumValue : List Word → EnumValue → Prop
  | intro {name doc d d' d'' : String} {tag : Int} {options : List Setting} {v : EnumValue}
      {ws : List Word} :
      Reader.isPlainName name = true → name ≠ Keyword.optionWord.spelling →
      IsBrackets ws options → EnumValue.make name tag doc options = .ok v →
        IsEnumValue (⟨.ident name, doc⟩ :: ⟨.mark .equals, d⟩ :: ⟨.int tag, d'⟩ ::
          (ws ++ [⟨.mark .semicolon, d''⟩])) v

/-- A statement of an enum. -/
inductive IsEnumStatement : List Word → EnumStatement → Prop
  | empty {d : String} : IsEnumStatement [⟨.mark .semicolon, d⟩] .empty
  | option {s : Setting} {ws : List Word} : IsOptionStatement ws s → IsEnumStatement ws (.option s)
  | value {v : EnumValue} {ws : List Word} : IsEnumValue ws v → IsEnumStatement ws (.value v)

/-- An enum in a scope. -/
inductive IsEnum (scope : Scope) : List Word → EnumType → Prop
  | intro {name doc d d' d'' : String} {statements : List EnumStatement} {e : EnumType}
      {ws : List Word} :
      Reader.isPlainName name = true → IsSequence IsEnumStatement ws statements →
      EnumType.make name (scope.qualify name) doc (statements.filterMap EnumStatement.value?)
        (statements.filterMap EnumStatement.option?) = .ok e →
        IsEnum scope (⟨Keyword.enumWord.token, doc⟩ :: ⟨.ident name, d⟩ :: ⟨.mark .openBrace, d'⟩ ::
          (ws ++ [⟨.mark .closeBrace, d''⟩])) e

/-! ### Services -/

/-- A statement in the braces behind a method. -/
inductive IsRpcStatement : List Word → RpcStatement → Prop
  | empty {d : String} : IsRpcStatement [⟨.mark .semicolon, d⟩] .empty
  | option {s : Setting} {ws : List Word} : IsOptionStatement ws s → IsRpcStatement ws (.option s)

/-- The end of a method: a semicolon, or options in braces and perhaps a semicolon. -/
inductive IsRpcEnd : List Word → List Setting → Prop
  | semicolon {d : String} : IsRpcEnd [⟨.mark .semicolon, d⟩] []
  | braces {d d' : String} {statements : List RpcStatement} {ws : List Word} :
      IsSequence IsRpcStatement ws statements →
        IsRpcEnd (⟨.mark .openBrace, d⟩ :: (ws ++ [⟨.mark .closeBrace, d'⟩]))
          (statements.filterMap RpcStatement.option?)
  | both {d d' d'' : String} {statements : List RpcStatement} {ws : List Word} :
      IsSequence IsRpcStatement ws statements →
        IsRpcEnd (⟨.mark .openBrace, d⟩ ::
            (ws ++ [⟨.mark .closeBrace, d'⟩, ⟨.mark .semicolon, d''⟩]))
          (statements.filterMap RpcStatement.option?)

/-- A method without its end: what it needs but its options. -/
inductive IsRpcHead : List Word → String → String → String → String → Prop
  | intro {name request response doc d d' d'' c e e' e'' c' : String} :
      Reader.isPlainName name = true →
        IsRpcHead [⟨Keyword.rpcWord.token, doc⟩, ⟨.ident name, d⟩, ⟨.mark .openParen, d'⟩,
          ⟨.ident request, d''⟩, ⟨.mark .closeParen, c⟩, ⟨Keyword.returnsWord.token, e⟩,
          ⟨.mark .openParen, e'⟩, ⟨.ident response, e''⟩, ⟨.mark .closeParen, c'⟩]
          name doc request response

/-- A method. -/
inductive IsRpc : List Word → Method → Prop
  | intro {name doc request response : String} {options : List Setting} {m : Method}
      {hs ws : List Word} :
      IsRpcHead hs name doc request response → IsRpcEnd ws options →
      Method.make name doc request response options = .ok m → IsRpc (hs ++ ws) m

/-- A statement of a service. -/
inductive IsServiceStatement : List Word → ServiceStatement → Prop
  | empty {d : String} : IsServiceStatement [⟨.mark .semicolon, d⟩] .empty
  | option {s : Setting} {ws : List Word} :
      IsOptionStatement ws s → IsServiceStatement ws (.option s)
  | method {m : Method} {ws : List Word} : IsRpc ws m → IsServiceStatement ws (.method m)

/-- A service in a scope. -/
inductive IsService (scope : Scope) : List Word → Service → Prop
  | intro {name doc d d' d'' : String} {statements : List ServiceStatement} {s : Service}
      {ws : List Word} :
      Reader.isPlainName name = true → IsSequence IsServiceStatement ws statements →
      Service.make name (scope.qualify name) doc (statements.filterMap ServiceStatement.option?)
        (statements.filterMap ServiceStatement.method?) = .ok s →
        IsService scope (⟨Keyword.serviceWord.token, doc⟩ :: ⟨.ident name, d⟩ ::
          ⟨.mark .openBrace, d'⟩ :: (ws ++ [⟨.mark .closeBrace, d''⟩])) s

/-! ### Messages -/

/-- A statement of a message other than a message. -/
inductive IsPlainStatement (scope : Scope) : List Word → MessageStatement → Prop
  | empty {d : String} : IsPlainStatement scope [⟨.mark .semicolon, d⟩] .empty
  | field {f : Field} {ws : List Word} : IsField ws f → IsPlainStatement scope ws (.field f)
  | mapField {f : Field} {ws : List Word} : IsMapField ws f → IsPlainStatement scope ws (.field f)
  | enumType {e : EnumType} {ws : List Word} :
      IsEnum scope ws e → IsPlainStatement scope ws (.nested (.enumType e))
  | extend {e : ExtendBlock} {ws : List Word} :
      IsExtend ws e → IsPlainStatement scope ws (.extend e)
  | extensions {ranges : List ExtensionRange} {ws : List Word} :
      IsExtensions ws ranges → IsPlainStatement scope ws (.extensions ranges)
  | option {s : Setting} {ws : List Word} :
      IsOptionStatement ws s → IsPlainStatement scope ws (.option s)

mutual

/-- A message in a scope; its name belongs to the scope of its contents. -/
inductive IsMessage : Scope → List Word → Message → Prop
  | intro {scope : Scope} {name doc d d' d'' : String} {statements : List MessageStatement}
      {m : Message} {ws : List Word} :
      Reader.isPlainName name = true → IsMessageBody (scope ++ [name]) ws statements →
      Message.make name (scope.qualify name) doc (bodyOfStatements statements) = .ok m →
        IsMessage scope (⟨Keyword.messageWord.token, doc⟩ :: ⟨.ident name, d⟩ ::
          ⟨.mark .openBrace, d'⟩ :: (ws ++ [⟨.mark .closeBrace, d''⟩])) m

/-- The statements between the braces of a message. -/
inductive IsMessageBody : Scope → List Word → List MessageStatement → Prop
  | nil {scope : Scope} : IsMessageBody scope [] []
  | plain {scope : Scope} {s : MessageStatement} {statements : List MessageStatement}
      {ws ws' : List Word} :
      IsPlainStatement scope ws s → IsMessageBody scope ws' statements →
        IsMessageBody scope (ws ++ ws') (s :: statements)
  | message {scope : Scope} {m : Message} {statements : List MessageStatement}
      {ws ws' : List Word} :
      IsMessage scope ws m → IsMessageBody scope ws' statements →
        IsMessageBody scope (ws ++ ws') (.nested (.message m) :: statements)

end

/-- A statement of a message. -/
def IsMessageStatement (scope : Scope) (ws : List Word) (s : MessageStatement) : Prop :=
  IsPlainStatement scope ws s ∨ ∃ m, s = .nested (.message m) ∧ IsMessage scope ws m

theorem isMessageBody_iff {scope : Scope} {ws : List Word} {statements : List MessageStatement} :
    IsMessageBody scope ws statements ↔
      IsSequence (IsMessageStatement scope) ws statements := by
  constructor
  · intro h
    induction statements generalizing ws with
    | nil => cases h; exact .nil
    | cons s statements ih =>
      cases h with
      | plain first rest => exact .cons (.inl first) (ih rest)
      | message first rest => exact .cons (.inr ⟨_, rfl, first⟩) (ih rest)
  · intro h
    induction h with
    | nil => exact .nil
    | cons first _ ih =>
      rcases first with first | ⟨m, rfl, first⟩
      · exact .plain first ih
      · exact .message first ih

end ProtoSchema.Grammar
