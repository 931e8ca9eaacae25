import ProtoSchema.Proofs.Grammar.Depth
import ProtoSchema.Proofs.Grammar.File
import ProtoSchema.Proofs.Reading.Reader

/-!
# Grammar with verdicts

A text may be made of the right phrases although some of its declarations break a rule. Here phrases
are relations between the tokens from where a phrase begins, what it says, and the tokens behind it;
what it says comes with a verdict on each declaration in it, in the order in which these end. A
declaration is judged by its contents, so there is no verdict on one whose contents break a rule
themselves.

Where a phrase could go on, it says what does not stand behind it, so that there is one way to
divide a text.
-/

namespace ProtoSchema.Grammar

open Reading Reader

/-! ### Verdicts -/

/-- The first and the last token of a declaration and the rule that it breaks, if there is one. -/
structure Verdict where
  first : Located
  last : Located
  broken : Option Violation
  deriving DecidableEq, Repr

/-- What a phrase says, unless a declaration in it breaks a rule, and the verdicts on all
declarations in it. -/
structure Judged (α : Type) where
  verdicts : List Verdict
  value : Option α
  deriving Repr

namespace Judged

variable {α β γ : Type}

/-- What is said without declarations. -/
def plain (v : α) : Judged α :=
  ⟨[], some v⟩

/-- What is said as a part of something else. -/
def map (g : α → β) (j : Judged α) : Judged β :=
  ⟨j.verdicts, j.value.map g⟩

/-- What is said by a phrase and the one behind it. -/
def map₂ (g : α → β → γ) (j : Judged α) (k : Judged β) : Judged γ :=
  ⟨j.verdicts ++ k.verdicts, j.value.bind fun v => k.value.map (g v)⟩

/-- A declaration that holds what was said. -/
def declare (first last : Located) (make : α → Except Violation β) (j : Judged α) : Judged β :=
  match j.value.map make with
  | none => ⟨j.verdicts, none⟩
  | some (.ok v) => ⟨j.verdicts ++ [⟨first, last, none⟩], some v⟩
  | some (.error broken) => ⟨j.verdicts ++ [⟨first, last, some broken⟩], none⟩

end Judged

/-! ### Rows and blocks -/

section Rows

variable {α β : Type}

/-- A kind of phrase: its tokens are those of the first list that do not belong to the second. -/
abbrev Phrase (α : Type) : Type :=
  List Located → Judged α → List Located → Prop

/-- Phrases of one kind in a row. -/
inductive JudgesRow (P : Phrase α) : Phrase (List α)
  | nil {rest : List Located} : JudgesRow P rest (.plain []) rest
  | cons {ts mid rest : List Located} {j : Judged α} {js : Judged (List α)} :
      P ts j mid → JudgesRow P mid js rest → JudgesRow P ts (.map₂ List.cons j js) rest

/-- A phrase behind a comma. -/
inductive JudgesBehindComma (P : Phrase α) : Phrase α
  | intro {comma : Located} {ts rest : List Located} {j : Judged α} :
      comma.token = .mark .comma → P ts j rest → JudgesBehindComma P (comma :: ts) j rest

/-- Phrases of one kind, at least one, with commas between them. -/
inductive JudgesCommaList (P : Phrase α) : Phrase (List α)
  | intro {ts mid rest : List Located} {j : Judged α} {js : Judged (List α)} :
      P ts j mid → JudgesRow (JudgesBehindComma P) mid js rest →
        JudgesCommaList P ts (.map₂ List.cons j js) rest

/-- A declaration with statements in braces: a keyword, a name, and the statements. -/
inductive JudgesBlock (k : Keyword) (isName : String → Prop) (P : String → Phrase α)
    (make : Located → String → List α → Except Violation β) : Phrase β
  | intro {start opened closed : Located} {name d : String} {ts mid rest : List Located}
      {j : Judged (List α)} :
      start.token = k.token → isName name → Takes ts [⟨.ident name, d⟩] (opened :: mid) →
      opened.token = .mark .openBrace → JudgesRow (P name) mid j (closed :: rest) →
      closed.token = .mark .closeBrace →
        JudgesBlock k isName P make (start :: ts) (j.declare start closed (make start name)) rest

/-- The end of a declaration with a number: its name, the number, and perhaps options. -/
inductive JudgesNumbered (budget : Nat) (isName : String → Prop) (start : Located)
    (make : String → Int → List Setting → Except Violation β) : Phrase β
  | intro {name d d' d'' : String} {number : Int} {options : List Setting} {ws : List Word}
      {closed : Located} {ts mid rest : List Located} :
      isName name → Takes ts [⟨.ident name, d⟩, ⟨.mark .equals, d'⟩, ⟨.int number, d''⟩] mid →
      IsBrackets ws options → (∀ s ∈ options, s.depth ≤ budget) → Takes mid ws (closed :: rest) →
      closed.token = .mark .semicolon →
        JudgesNumbered budget isName start make ts
          ((Judged.plain options).declare start closed (make name number)) rest

end Rows

/-! ### Fields -/

/-- A field behind its label, and one whose type is a map. -/
inductive JudgesField (budget : Nat) : Phrase Field
  | labelled {k : Keyword} {label : Label} {typeName d : String} {start : Located}
      {ts mid rest : List Located} {j : Judged Field} :
      start.token = k.token → labelOfKeyword? k = some label →
      Takes ts [⟨.ident typeName, d⟩] mid →
      JudgesNumbered budget (isPlainName · = true) start
        (fun name tag => Field.make label typeName name tag (docOf start)) mid j rest →
        JudgesField budget (start :: ts) j rest
  | map {key value d d' d'' e e' : String} {start : Located} {ts mid rest : List Located}
      {j : Judged Field} :
      start.token = .ident "map" →
      Takes ts [⟨.mark .less, d⟩, ⟨.ident key, d'⟩, ⟨.mark .comma, d''⟩, ⟨.ident value, e⟩,
        ⟨.mark .greater, e'⟩] mid →
      JudgesNumbered budget (isPlainName · = true) start
        (fun name tag => Field.make .repeated ("map<" ++ key ++ ", " ++ value ++ ">") name tag
          (docOf start)) mid j rest →
        JudgesField budget (start :: ts) j rest

/-! ### Extensions -/

/-- An extension range, with no word behind it that would belong to it. -/
inductive JudgesRange (doc : String) : Phrase ExtensionRange
  | intro {first last : Int} {start behind : Located} {used rest : List Located} :
      start.token = .int first → IsRangeEnd first (used.map Located.word) last →
      behind.token ≠ Keyword.toWord.token →
        JudgesRange doc (start :: (used ++ behind :: rest))
          ((Judged.plain last).declare start (used.getLastD start) (ExtensionRange.make doc first))
          (behind :: rest)

/-- An extensions statement. It is no declaration, but its ranges are. -/
inductive JudgesExtensions : Phrase (List ExtensionRange)
  | intro {start closed : Located} {ts rest : List Located} {j : Judged (List ExtensionRange)} :
      start.token = Keyword.extensionsWord.token →
      JudgesCommaList (JudgesRange (docOf start)) ts j (closed :: rest) →
      closed.token = .mark .semicolon → JudgesExtensions (start :: ts) j rest

/-- A statement of an extend block. -/
inductive JudgesExtendStatement (budget : Nat) : Phrase ExtendStatement
  | empty {t : Located} {rest : List Located} :
      t.token = .mark .semicolon → JudgesExtendStatement budget (t :: rest) (.plain .empty) rest
  | field {k : Keyword} {label : Label} {t : Located} {ts rest : List Located} {j : Judged Field} :
      t.token = k.token → labelOfKeyword? k = some label → JudgesField budget (t :: ts) j rest →
        JudgesExtendStatement budget (t :: ts) (j.map .field) rest

/-- An extend block. -/
def JudgesExtend (budget : Nat) : Phrase ExtendBlock :=
  JudgesBlock .extendWord (fun _ => True) (fun _ => JudgesExtendStatement budget)
    fun start target statements =>
      ExtendBlock.make target (docOf start) (statements.filterMap ExtendStatement.field?)

/-! ### Enums -/

/-- An enum value. Its name is not the word that begins an option statement. -/
inductive JudgesEnumValue (budget : Nat) : Phrase EnumValue
  | intro {start : Located} {ts rest : List Located} {j : Judged EnumValue} :
      JudgesNumbered budget
        (fun name => isPlainName name = true ∧ name ≠ Keyword.optionWord.spelling) start
        (fun name tag => EnumValue.make name tag (docOf start)) (start :: ts) j rest →
        JudgesEnumValue budget (start :: ts) j rest

/-- A statement of an enum. -/
inductive JudgesEnumStatement (budget : Nat) : Phrase EnumStatement
  | empty {t : Located} {rest : List Located} :
      t.token = .mark .semicolon → JudgesEnumStatement budget (t :: rest) (.plain .empty) rest
  | option {s : Setting} {ws : List Word} {ts rest : List Located} :
      Takes ts ws rest → IsOptionStatement ws s → s.depth ≤ budget →
        JudgesEnumStatement budget ts (.plain (.option s)) rest
  | value {ts rest : List Located} {j : Judged EnumValue} :
      JudgesEnumValue budget ts j rest → JudgesEnumStatement budget ts (j.map .value) rest

/-- An enum in a scope. -/
def JudgesEnum (budget : Nat) (scope : Scope) : Phrase EnumType :=
  JudgesBlock .enumWord (isPlainName · = true) (fun _ => JudgesEnumStatement budget)
    fun start name statements =>
      EnumType.make name (scope.qualify name) (docOf start)
        (statements.filterMap EnumStatement.value?) (statements.filterMap EnumStatement.option?)

/-! ### Services -/

/-- The end of a method with its last token. A semicolon behind braces belongs to the method. -/
inductive IsRpcEndWithin (budget : Nat) :
    List Located → List Setting → Located → List Located → Prop
  | semicolon {t : Located} {rest : List Located} :
      t.token = .mark .semicolon → IsRpcEndWithin budget (t :: rest) [] t rest
  | braces {opened closed behind : Located} {statements : List RpcStatement} {ws : List Word}
      {ts rest : List Located} :
      opened.token = .mark .openBrace → IsSequence IsRpcStatement ws statements →
      (∀ s ∈ statements.filterMap RpcStatement.option?, s.depth ≤ budget) →
      Takes ts ws (closed :: behind :: rest) → closed.token = .mark .closeBrace →
      behind.token ≠ .mark .semicolon →
        IsRpcEndWithin budget (opened :: ts) (statements.filterMap RpcStatement.option?) closed
          (behind :: rest)
  | both {opened closed last : Located} {statements : List RpcStatement} {ws : List Word}
      {ts rest : List Located} :
      opened.token = .mark .openBrace → IsSequence IsRpcStatement ws statements →
      (∀ s ∈ statements.filterMap RpcStatement.option?, s.depth ≤ budget) →
      Takes ts ws (closed :: last :: rest) → closed.token = .mark .closeBrace →
      last.token = .mark .semicolon →
        IsRpcEndWithin budget (opened :: ts) (statements.filterMap RpcStatement.option?) last rest

/-- A method. -/
inductive JudgesRpc (budget : Nat) : Phrase Method
  | intro {name request response : String} {start last : Located} {options : List Setting}
      {ws : List Word} {ts mid rest : List Located} :
      IsRpcHead ws name (docOf start) request response → Takes (start :: ts) ws mid →
      IsRpcEndWithin budget mid options last rest →
        JudgesRpc budget (start :: ts)
          ((Judged.plain options).declare start last
            (Method.make name (docOf start) request response)) rest

/-- A statement of a service. -/
inductive JudgesServiceStatement (budget : Nat) : Phrase ServiceStatement
  | empty {t : Located} {rest : List Located} :
      t.token = .mark .semicolon → JudgesServiceStatement budget (t :: rest) (.plain .empty) rest
  | option {s : Setting} {ws : List Word} {ts rest : List Located} :
      Takes ts ws rest → IsOptionStatement ws s → s.depth ≤ budget →
        JudgesServiceStatement budget ts (.plain (.option s)) rest
  | method {ts rest : List Located} {j : Judged Method} :
      JudgesRpc budget ts j rest → JudgesServiceStatement budget ts (j.map .method) rest

/-- A service in a scope. -/
def JudgesService (budget : Nat) (scope : Scope) : Phrase Service :=
  JudgesBlock .serviceWord (isPlainName · = true) (fun _ => JudgesServiceStatement budget)
    fun start name statements =>
      Service.make name (scope.qualify name) (docOf start)
        (statements.filterMap ServiceStatement.option?)
        (statements.filterMap ServiceStatement.method?)

/-! ### Messages -/

/-- A statement of a message in a scope; `message` judges the messages inside it. -/
inductive JudgesMessageStatement (message : Phrase Message) (budget : Nat) (scope : Scope) :
    Phrase MessageStatement
  | empty {t : Located} {rest : List Located} :
      t.token = .mark .semicolon →
        JudgesMessageStatement message budget scope (t :: rest) (.plain .empty) rest
  | field {ts rest : List Located} {j : Judged Field} :
      JudgesField budget ts j rest →
        JudgesMessageStatement message budget scope ts (j.map .field) rest
  | message {ts rest : List Located} {j : Judged Message} :
      message ts j rest →
        JudgesMessageStatement message budget scope ts (j.map fun m => .nested (.message m)) rest
  | enumType {ts rest : List Located} {j : Judged EnumType} :
      JudgesEnum budget scope ts j rest →
        JudgesMessageStatement message budget scope ts (j.map fun e => .nested (.enumType e)) rest
  | extend {ts rest : List Located} {j : Judged ExtendBlock} :
      JudgesExtend budget ts j rest →
        JudgesMessageStatement message budget scope ts (j.map .extend) rest
  | extensions {ts rest : List Located} {j : Judged (List ExtensionRange)} :
      JudgesExtensions ts j rest →
        JudgesMessageStatement message budget scope ts (j.map .extensions) rest
  | option {s : Setting} {ws : List Word} {ts rest : List Located} :
      Takes ts ws rest → IsOptionStatement ws s → s.depth ≤ budget →
        JudgesMessageStatement message budget scope ts (.plain (.option s)) rest

/-- A message in a scope with at most so many messages and brackets inside each other. -/
def JudgesMessage : Nat → Scope → Phrase Message
  | 0, _ => fun _ _ _ => False
  | budget + 1, scope =>
    JudgesBlock .messageWord (isPlainName · = true)
      (fun name => JudgesMessageStatement (JudgesMessage budget (scope ++ [name])) budget
        (scope ++ [name]))
      fun start name statements =>
        Message.make name (scope.qualify name) (docOf start) (bodyOfStatements statements)

/-! ### Files -/

/-- A statement of a file. -/
inductive JudgesFileStatement (budget : Nat) (scope : Scope) : Phrase FileStatement
  | empty {t : Located} {rest : List Located} :
      t.token = .mark .semicolon →
        JudgesFileStatement budget scope (t :: rest) (.plain .empty) rest
  | imported {isPublic : Bool} {path : String} {ws : List Word} {ts rest : List Located} :
      Takes ts ws rest → IsImport ws isPublic path →
        JudgesFileStatement budget scope ts (.plain (.imported isPublic path)) rest
  | option {s : Setting} {ws : List Word} {ts rest : List Located} :
      Takes ts ws rest → IsOptionStatement ws s → s.depth ≤ budget →
        JudgesFileStatement budget scope ts (.plain (.option s)) rest
  | message {t : Located} {ts rest : List Located} {j : Judged Message} :
      JudgesMessage budget scope (t :: ts) j rest →
        JudgesFileStatement budget scope (t :: ts) (j.map fun m => .type t.position (.message m))
          rest
  | enumType {t : Located} {ts rest : List Located} {j : Judged EnumType} :
      JudgesEnum budget scope (t :: ts) j rest →
        JudgesFileStatement budget scope (t :: ts) (j.map fun e => .type t.position (.enumType e))
          rest
  | service {t : Located} {ts rest : List Located} {j : Judged Service} :
      JudgesService budget scope (t :: ts) j rest →
        JudgesFileStatement budget scope (t :: ts) (j.map (.service t.position)) rest
  | extend {ts rest : List Located} {j : Judged ExtendBlock} :
      JudgesExtend budget ts j rest → JudgesFileStatement budget scope ts (j.map .extend) rest

/-- The version statement, which is declared by its literal, or none. -/
inductive JudgesVersion : Phrase (Option String)
  | absent {ts : List Located} :
      (∀ t ∈ ts.head?, t.token ≠ Keyword.syntaxWord.token) → JudgesVersion ts (.plain none) ts
  | present {version d d' : String} {bytes : List UInt8} {ws : List Word} {start closed : Located}
      {ts mid rest : List Located} :
      Takes ts [⟨Keyword.syntaxWord.token, d⟩, ⟨.mark .equals, d'⟩] (start :: mid) →
      IsLiteral ws bytes → Utf8.decode? bytes = some version →
      Takes (start :: mid) ws (closed :: rest) → closed.token = .mark .semicolon →
        JudgesVersion ts
          (((Judged.plain version).declare start closed fun version =>
            demand (version = knownVersion) (.unsupportedVersion version)).map
              fun _ => some version) rest

/-- The statements behind the package declaration. A further package declaration breaks a rule. -/
inductive JudgesBehind (budget : Nat) (package : String) :
    List Located → Judged (List FileStatement) → Prop
  | last {ts : List Located} {j : Judged (List FileStatement)} :
      JudgesRow (JudgesFileStatement budget [package]) ts j [] → JudgesBehind budget package ts j
  | again {name d d' : String} {start closed : Located} {ts mid rest : List Located}
      {j k : Judged (List FileStatement)} :
      JudgesRow (JudgesFileStatement budget [package]) ts j (start :: mid) →
      Takes (start :: mid) [⟨Keyword.packageWord.token, d⟩, ⟨.ident name, d'⟩] (closed :: rest) →
      closed.token = .mark .semicolon → JudgesBehind budget package rest k →
        JudgesBehind budget package ts
          (.map₂ (fun _ behind => behind) j
            (.map₂ (fun (_ : Unit) behind => behind)
              ((Judged.plain ()).declare start closed fun _ =>
                .error (.duplicatePackage package)) k))

/-- A whole file. -/
inductive JudgesFile (budget : Nat) : List Located → Judged FileText → Prop
  | withoutPackage {ts mid : List Located} {version : Judged (Option String)}
      {before : Judged (List FileStatement)} :
      JudgesVersion ts version mid → JudgesRow (JudgesFileStatement budget []) mid before [] →
        JudgesFile budget ts
          (.map₂ (fun version before => ⟨version, before, none⟩) version before)
  | withPackage {package d d' d'' : String} {ts mid mid' rest : List Located}
      {version : Judged (Option String)} {before behind : Judged (List FileStatement)} :
      JudgesVersion ts version mid → JudgesRow (JudgesFileStatement budget []) mid before mid' →
      Takes mid' [⟨Keyword.packageWord.token, d⟩, ⟨.ident package, d'⟩, ⟨.mark .semicolon, d''⟩]
        rest →
      JudgesBehind budget package rest behind →
        JudgesFile budget ts
          (.map₂ (fun version statements => ⟨version, statements.1, some (package, statements.2)⟩)
            version (.map₂ Prod.mk before behind))

end ProtoSchema.Grammar
