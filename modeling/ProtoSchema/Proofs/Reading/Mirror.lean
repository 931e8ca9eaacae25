import ProtoSchema.Proofs.Reading.Simulation
import ProtoSchema.Proofs.Schema.MapDoc
import ProtoSchema.Reading.File

/-!
# All readers mirror themselves

On two streams of a simulation each reader goes the same way. Documentation and places are only
handed on: what is read from the second stream is what is read from the first one, except for what
is not kept of these.
-/

namespace ProtoSchema

/-! ### Statements with other documentation -/

namespace Reading

/-- A statement with its documentation changed. -/
def ExtendStatement.mapDoc (g : String → String) : ExtendStatement → ExtendStatement
  | field f => field (f.mapDoc g)
  | empty => empty

/-- A statement with its documentation changed. -/
def EnumStatement.mapDoc (g : String → String) : EnumStatement → EnumStatement
  | value v => value (v.mapDoc g)
  | option s => option s
  | empty => empty

/-- A statement with its documentation changed. -/
def ServiceStatement.mapDoc (g : String → String) : ServiceStatement → ServiceStatement
  | method m => method (m.mapDoc g)
  | option s => option s
  | empty => empty

/-- A statement with its documentation changed. -/
def MessageStatement.mapDoc (g : String → String) : MessageStatement → MessageStatement
  | field f => field (f.mapDoc g)
  | nested t => nested (t.mapDoc g)
  | extend e => extend (e.mapDoc g)
  | extensions rs => extensions (rs.map (ExtensionRange.mapDoc g))
  | option s => option s
  | empty => empty

/-- A statement with its documentation and its place changed. -/
def FileStatement.mapDoc (g : String → String) (place : Position → Position) :
    FileStatement → FileStatement
  | type position t => type (place position) (t.mapDoc g)
  | service position s => service (place position) (s.mapDoc g)
  | extend e => extend (e.mapDoc g)
  | imported isPublic path => imported isPublic path
  | option s => option s
  | empty => empty

/-- A file as it is written, with documentation and places changed. -/
def FileText.mapDoc (g : String → String) (place : Position → Position) (f : FileText) :
    FileText where
  version := f.version
  before := f.before.map (FileStatement.mapDoc g place)
  package := f.package.map fun p => (p.1, p.2.map (FileStatement.mapDoc g place))

end Reading

namespace Simulation

open Reader Reading

variable {s : Simulation} {t t' : Located} {α β : Type}

/-- What is picked from changed statements is what is picked from them, changed. -/
theorem filterMap_map_of_pick {f : α → α} {k : β → β} {pick : α → Option β}
    (commutes : ∀ x, pick (f x) = (pick x).map k) (xs : List α) :
    (xs.map f).filterMap pick = (xs.filterMap pick).map k := by
  rw [List.map_filterMap, List.filterMap_map]
  exact List.filterMap_congr fun x _ => commutes x

theorem alike_filterMap {f : α → α} {k : β → β} {pick : α → Option β}
    (commutes : ∀ x, pick (f x) = (pick x).map k) {vs ws : List α}
    (h : List.Forall₂ (Alike f) vs ws) :
    (ws.filterMap pick).map k = (vs.filterMap pick).map k := by
  rw [← filterMap_map_of_pick commutes, ← filterMap_map_of_pick commutes, alike_map h]

/-! ### Options -/

theorem mirrors_optionNameSuffixes : s.Mirrors Eq optionNameSuffixes optionNameSuffixes := by
  refine Mirrors.many_eq (mirrors_peek.bind fun t t' same => ?_)
  rw [same.token]
  split
  · split
    · exact mirrors_next.discard.bind fun _ _ _ => mirrors_pure rfl
    · exact mirrors_pure rfl
  · exact mirrors_pure rfl

theorem mirrors_parenthesizedName : s.Mirrors Eq parenthesizedName parenthesizedName := by
  refine (mirrors_ident _).bind fun inner _ same => (mirrors_expect _).bind fun _ _ _ => ?_
  exact mirrors_pure (by rw [same])

theorem mirrors_optionName : s.Mirrors Eq optionName optionName := by
  have path (base base' : String) (same : base = base') :
      s.Mirrors Eq (optionNameSuffixes >>= fun names => pure (base ++ String.join names))
        (optionNameSuffixes >>= fun names => pure (base' ++ String.join names)) :=
    mirrors_optionNameSuffixes.bind fun names _ sameNames =>
      mirrors_pure (by rw [same, sameNames])
  refine mirrors_next.bind fun t t' same => ?_
  rw [same.token]
  split
  · exact (mirrors_pure rfl).bind path
  · exact mirrors_parenthesizedName.bind path
  · exact Mirrors.bind (mirrors_unexpected same _) path

section Values

variable {item : Reader Value}

theorem mirrors_listItems (h : s.Mirrors Eq item item) :
    s.Mirrors Eq (listItems item) (listItems item) := by
  refine (mirrors_eat _).branch (mirrors_pure rfl) ?_
  exact h.commaSeparated_eq.bind fun items _ same => (mirrors_expect _).bind fun _ _ _ =>
    mirrors_pure same

theorem mirrors_mapKey : s.Mirrors Eq mapKey mapKey := by
  refine (mirrors_eat _).branch ?_ mirrors_optionName
  exact (mirrors_ident _).bind fun inner _ same => (mirrors_expect _).bind fun _ _ _ =>
    mirrors_pure (by rw [same])

theorem mirrors_mapValue (h : s.Mirrors Eq item item) :
    s.Mirrors Eq (mapValue item) (mapValue item) := by
  refine (mirrors_eat _).branch h (mirrors_peek.bind fun t t' same => ?_)
  rw [same.token]
  split
  · exact h
  · exact mirrors_unexpected same _

theorem mirrors_mapEntries (h : s.Mirrors Eq item item) (close : Mark) :
    s.Mirrors Eq (mapEntries item close) (mapEntries item close) := by
  refine Mirrors.many_eq ((mirrors_eat _).branch (mirrors_pure rfl) ?_)
  refine mirrors_mapKey.bind fun name _ sameName => (mirrors_mapValue h).bind fun v _ sameValue => ?_
  subst sameName sameValue
  refine (mirrors_eat _).branch (mirrors_pure rfl) ?_
  exact (mirrors_eat _).discard.bind fun _ _ _ => mirrors_pure rfl

theorem mirrors_bracketed (h : s.Mirrors Eq item item) (bracket : Bracket) :
    s.Mirrors Eq (bracketed item bracket) (bracketed item bracket) := by
  cases bracket with
  | list => exact (mirrors_listItems h).map fun _ _ same => congrArg Value.list same
  | braces => exact (mirrors_mapEntries h _).map fun _ _ same => congrArg Value.map same
  | angles => exact (mirrors_mapEntries h _).map fun _ _ same => congrArg Value.map same

theorem mirrors_valueWith {composite : Located → Bracket → Reader Value}
    (h : ∀ t t' bracket, s.Same t t' → s.Mirrors Eq (composite t bracket) (composite t' bracket)) :
    s.Mirrors Eq (valueWith composite) (valueWith composite) := by
  refine mirrors_peek.bind fun t t' same => ?_
  rw [same.token]
  split
  · exact (mirrors_literal _).bind fun bytes _ same => mirrors_pure (by rw [same])
  · refine mirrors_next.bind fun t t' same => ?_
    rw [same.token]
    split
    · exact mirrors_pure rfl
    · exact mirrors_pure rfl
    · exact mirrors_pure rfl
    · split
      · exact h t t' _ same
      · exact mirrors_unexpected same _
    · exact mirrors_unexpected same _

theorem mirrors_value (budget : Nat) : s.Mirrors Eq (value budget) (value budget) := by
  induction budget with
  | zero => exact mirrors_valueWith fun t t' _ same => mirrors_unexpected same _
  | succ budget ih => exact mirrors_valueWith fun _ _ bracket _ => mirrors_bracketed ih bracket

end Values

theorem mirrors_setting (budget : Nat) : s.Mirrors Eq (setting budget) (setting budget) := by
  refine mirrors_optionName.bind fun name _ sameName => (mirrors_expect _).bind fun _ _ _ => ?_
  exact (mirrors_value budget).bind fun v _ sameValue => mirrors_pure (by rw [sameName, sameValue])

theorem mirrors_optionStatement (budget : Nat) :
    s.Mirrors Eq (optionStatement budget) (optionStatement budget) :=
  (mirrors_setting budget).bind fun _ _ same => (mirrors_expect _).bind fun _ _ _ =>
    mirrors_pure same

theorem mirrors_bracketOptions (budget : Nat) :
    s.Mirrors Eq (bracketOptions budget) (bracketOptions budget) := by
  refine (mirrors_eat _).branch ?_ (mirrors_pure rfl)
  exact (mirrors_setting budget).commaSeparated_eq.bind fun _ _ same =>
    (mirrors_expect _).bind fun _ _ _ => mirrors_pure same

/-! ### Fields and extensions -/

theorem mirrors_fieldRest (budget : Nat) (same : s.Same t t') (label : Label)
    (typeName : String) : s.Mirrors (Alike (Field.mapDoc s.doc))
      (fieldRest budget t label typeName) (fieldRest budget t' label typeName) := by
  refine (mirrors_plainName _).bind fun name _ sameName => (mirrors_expect _).bind fun _ _ _ =>
    (mirrors_int _).bind fun tag _ sameTag => (mirrors_bracketOptions budget).bind
      fun options _ sameOptions => (mirrors_expect _).bind fun _ _ _ => ?_
  subst sameName sameTag sameOptions
  exact mirrors_accept (by rw [Field.map_make, Field.map_make, same.doc]) same.position

theorem mirrors_labelledField (budget : Nat) (label : Label) :
    s.Mirrors (Alike (Field.mapDoc s.doc)) (labelledField budget label)
      (labelledField budget label) := by
  refine mirrors_next.bind fun t t' same => (mirrors_ident _).bind fun typeName _ sameType => ?_
  subst sameType
  exact mirrors_fieldRest budget same _ _

theorem mirrors_mapField (budget : Nat) :
    s.Mirrors (Alike (Field.mapDoc s.doc)) (mapField budget) (mapField budget) := by
  refine mirrors_next.bind fun t t' same => (mirrors_expect _).bind fun _ _ _ =>
    (mirrors_ident _).bind fun key _ sameKey => (mirrors_expect _).bind fun _ _ _ =>
      (mirrors_ident _).bind fun value _ sameValue => (mirrors_expect _).bind fun _ _ _ => ?_
  subst sameKey sameValue
  exact mirrors_fieldRest budget same _ _

theorem mirrors_rangeEnd (first : Int) : s.Mirrors Eq (rangeEnd first) (rangeEnd first) := by
  refine (mirrors_eatKeyword _).branch ?_ (mirrors_pure rfl)
  exact (mirrors_eatKeyword _).branch (mirrors_pure rfl) (mirrors_int _)

theorem mirrors_extensionRange {doc doc' : String} (sameDoc : s.doc doc' = s.doc doc) :
    s.Mirrors (Alike (ExtensionRange.mapDoc s.doc)) (extensionRange doc) (extensionRange doc') := by
  refine mirrors_peek.bind fun t t' same => (mirrors_int _).bind fun first _ sameFirst => ?_
  subst sameFirst
  refine (mirrors_rangeEnd first).bind fun last _ sameLast => ?_
  subst sameLast
  exact mirrors_accept (by rw [ExtensionRange.map_make, ExtensionRange.map_make, sameDoc])
    same.position

theorem mirrors_extensions :
    s.Mirrors (Alike (List.map (ExtensionRange.mapDoc s.doc))) extensions extensions := by
  refine (mirrors_expectKeyword _).bind fun t t' same => ?_
  refine (mirrors_extensionRange same.doc).commaSeparated.bind fun ranges ranges' sameRanges => ?_
  exact (mirrors_expect _).bind fun _ _ _ => mirrors_pure (alike_map sameRanges)

theorem mirrors_extendStatement (budget : Nat) :
    s.Mirrors (Option.Rel (Alike (ExtendStatement.mapDoc s.doc))) (extendStatement budget)
      (extendStatement budget) := by
  refine mirrors_peek.bind fun t t' same => ?_
  rw [same.token]
  split
  · exact mirrors_pure .none
  · exact mirrors_next.discard.bind fun _ _ _ => mirrors_pure (.some rfl)
  · split
    · exact (mirrors_labelledField budget _).bind fun f f' sameField =>
        mirrors_pure (.some (congrArg ExtendStatement.field sameField))
    · exact mirrors_unexpected same _

theorem mirrors_extendBlock (budget : Nat) :
    s.Mirrors (Alike (ExtendBlock.mapDoc s.doc)) (extendBlock budget) (extendBlock budget) := by
  refine (mirrors_expectKeyword _).bind fun t t' same => (mirrors_ident _).bind
    fun target _ sameTarget => (mirrors_expect _).bind fun _ _ _ =>
      (mirrors_extendStatement budget).many.bind fun statements statements' sameStatements =>
        (mirrors_expect _).bind fun _ _ _ => ?_
  subst sameTarget
  have fields : (statements'.filterMap ExtendStatement.field?).map (Field.mapDoc s.doc) =
      (statements.filterMap ExtendStatement.field?).map (Field.mapDoc s.doc) :=
    alike_filterMap (fun x => by cases x <;> rfl) sameStatements
  exact mirrors_accept (by rw [ExtendBlock.map_make, ExtendBlock.map_make, same.doc, fields])
    same.position

/-! ### Enums and services -/

theorem mirrors_enumValue (budget : Nat) :
    s.Mirrors (Alike (EnumValue.mapDoc s.doc)) (enumValue budget) (enumValue budget) := by
  refine mirrors_peek.bind fun t t' same => (mirrors_plainName _).bind fun name _ sameName =>
    (mirrors_expect _).bind fun _ _ _ => (mirrors_int _).bind fun tag _ sameTag =>
      (mirrors_bracketOptions budget).bind fun options _ sameOptions =>
        (mirrors_expect _).bind fun _ _ _ => ?_
  subst sameName sameTag sameOptions
  exact mirrors_accept (by rw [EnumValue.map_make, EnumValue.map_make, same.doc]) same.position

theorem mirrors_enumStatement (budget : Nat) :
    s.Mirrors (Option.Rel (Alike (EnumStatement.mapDoc s.doc))) (enumStatement budget)
      (enumStatement budget) := by
  refine mirrors_peek.bind fun t t' same => ?_
  rw [same.token]
  split
  · exact mirrors_pure .none
  · exact mirrors_next.discard.bind fun _ _ _ => mirrors_pure (.some rfl)
  · split
    · exact mirrors_next.discard.bind fun _ _ _ => (mirrors_optionStatement budget).bind
        fun option _ same => mirrors_pure (.some (same ▸ rfl))
    · exact (mirrors_enumValue budget).bind fun v v' sameValue =>
        mirrors_pure (.some (congrArg EnumStatement.value sameValue))
  · exact mirrors_unexpected same _

theorem mirrors_enumType (budget : Nat) (scope : Scope) :
    s.Mirrors (Alike (EnumType.mapDoc s.doc)) (enumType budget scope) (enumType budget scope) := by
  refine (mirrors_expectKeyword _).bind fun t t' same => (mirrors_plainName _).bind
    fun name _ sameName => (mirrors_expect _).bind fun _ _ _ =>
      (mirrors_enumStatement budget).many.bind fun statements statements' sameStatements =>
        (mirrors_expect _).bind fun _ _ _ => ?_
  subst sameName
  have values : (statements'.filterMap EnumStatement.value?).map (EnumValue.mapDoc s.doc) =
      (statements.filterMap EnumStatement.value?).map (EnumValue.mapDoc s.doc) :=
    alike_filterMap (fun x => by cases x <;> rfl) sameStatements
  have options : (statements'.filterMap EnumStatement.option?).map id =
      (statements.filterMap EnumStatement.option?).map id :=
    alike_filterMap (fun x => by cases x <;> rfl) sameStatements
  -- Options hold no documentation, so they are equal and not just alike.
  rw [List.map_id, List.map_id] at options
  exact mirrors_accept
    (by rw [EnumType.map_make, EnumType.map_make, same.doc, values, options]) same.position

theorem mirrors_rpcStatement (budget : Nat) :
    s.Mirrors Eq (rpcStatement budget) (rpcStatement budget) := by
  refine mirrors_peek.bind fun t t' same => ?_
  rw [same.token]
  split
  · exact mirrors_pure rfl
  · exact mirrors_next.discard.bind fun _ _ _ => mirrors_pure rfl
  · split
    · exact mirrors_next.discard.bind fun _ _ _ => (mirrors_optionStatement budget).bind
        fun option _ same => mirrors_pure (same ▸ rfl)
    · exact mirrors_unexpected same _

theorem mirrors_rpcOptions (budget : Nat) :
    s.Mirrors Eq (rpcOptions budget) (rpcOptions budget) := by
  refine (mirrors_eat _).branch ?_ ((mirrors_expect _).bind fun _ _ _ => mirrors_pure rfl)
  exact (mirrors_rpcStatement budget).many_eq.bind fun statements _ same =>
    (mirrors_expect _).bind fun _ _ _ => (mirrors_eat _).discard.bind fun _ _ _ =>
      mirrors_pure (by rw [same])

theorem mirrors_rpc (budget : Nat) :
    s.Mirrors (Alike (Method.mapDoc s.doc)) (rpc budget) (rpc budget) := by
  refine (mirrors_expectKeyword _).bind fun t t' same => (mirrors_plainName _).bind
    fun name _ sameName => (mirrors_expect _).bind fun _ _ _ => (mirrors_ident _).bind
      fun request _ sameRequest => (mirrors_expect _).bind fun _ _ _ =>
        (mirrors_expectKeyword _).discard.bind fun _ _ _ => (mirrors_expect _).bind
          fun _ _ _ => (mirrors_ident _).bind fun response _ sameResponse =>
            (mirrors_expect _).bind fun _ _ _ => (mirrors_rpcOptions budget).bind
              fun options _ sameOptions => ?_
  subst sameName sameRequest sameResponse sameOptions
  exact mirrors_accept (by rw [Method.map_make, Method.map_make, same.doc]) same.position

theorem mirrors_serviceStatement (budget : Nat) :
    s.Mirrors (Option.Rel (Alike (ServiceStatement.mapDoc s.doc))) (serviceStatement budget)
      (serviceStatement budget) := by
  refine mirrors_peek.bind fun t t' same => ?_
  rw [same.token]
  split
  · exact mirrors_pure .none
  · exact mirrors_next.discard.bind fun _ _ _ => mirrors_pure (.some rfl)
  · split
    · exact mirrors_next.discard.bind fun _ _ _ => (mirrors_optionStatement budget).bind
        fun option _ same => mirrors_pure (.some (same ▸ rfl))
    · exact (mirrors_rpc budget).bind fun m m' sameMethod =>
        mirrors_pure (.some (congrArg ServiceStatement.method sameMethod))
    · exact mirrors_unexpected same _

theorem mirrors_service (budget : Nat) (scope : Scope) :
    s.Mirrors (Alike (Service.mapDoc s.doc)) (service budget scope) (service budget scope) := by
  refine (mirrors_expectKeyword _).bind fun t t' same => (mirrors_plainName _).bind
    fun name _ sameName => (mirrors_expect _).bind fun _ _ _ =>
      (mirrors_serviceStatement budget).many.bind fun statements statements' sameStatements =>
        (mirrors_expect _).bind fun _ _ _ => ?_
  subst sameName
  have methods : (statements'.filterMap ServiceStatement.method?).map (Method.mapDoc s.doc) =
      (statements.filterMap ServiceStatement.method?).map (Method.mapDoc s.doc) :=
    alike_filterMap (fun x => by cases x <;> rfl) sameStatements
  have options : (statements'.filterMap ServiceStatement.option?).map id =
      (statements.filterMap ServiceStatement.option?).map id :=
    alike_filterMap (fun x => by cases x <;> rfl) sameStatements
  rw [List.map_id, List.map_id] at options
  exact mirrors_accept
    (by rw [Service.map_make, Service.map_make, same.doc, methods, options]) same.position

/-! ### Messages -/

theorem bodyOfStatements_map (g : String → String) (statements : List MessageStatement) :
    bodyOfStatements (statements.map (MessageStatement.mapDoc g)) =
      (bodyOfStatements statements).mapDoc g := by
  have ranges : (statements.map (MessageStatement.mapDoc g)).flatMap MessageStatement.ranges =
      (statements.flatMap MessageStatement.ranges).map (ExtensionRange.mapDoc g) := by
    rw [List.flatMap_map, List.map_flatMap]
    congr 1
    funext x
    cases x <;> rfl
  have options : (statements.map (MessageStatement.mapDoc g)).filterMap MessageStatement.option? =
      (statements.filterMap MessageStatement.option?).map id :=
    filterMap_map_of_pick (fun x => by cases x <;> rfl) statements
  unfold bodyOfStatements MessageBody.mapDoc
  rw [ranges, options, List.map_id,
    filterMap_map_of_pick (k := Field.mapDoc g) (fun x => by cases x <;> rfl),
    filterMap_map_of_pick (k := TypeDecl.mapDoc g) (fun x => by cases x <;> rfl),
    filterMap_map_of_pick (k := ExtendBlock.mapDoc g) (fun x => by cases x <;> rfl)]

theorem mirrors_messageStatement {reader : Reader Message}
    (h : s.Mirrors (Alike (Message.mapDoc s.doc)) reader reader) (budget : Nat) (scope : Scope) :
    s.Mirrors (Option.Rel (Alike (MessageStatement.mapDoc s.doc)))
      (messageStatement reader budget scope) (messageStatement reader budget scope) := by
  refine mirrors_peek.bind fun t t' same => ?_
  rw [same.token]
  split
  · exact mirrors_pure .none
  · exact mirrors_next.discard.bind fun _ _ _ => mirrors_pure (.some rfl)
  · split
    · exact (mirrors_mapField budget).bind fun f f' sameField =>
        mirrors_pure (.some (congrArg MessageStatement.field sameField))
    split
    · exact h.bind fun m m' sameMessage => mirrors_pure
        (.some (congrArg (MessageStatement.nested ∘ TypeDecl.message) sameMessage))
    · exact (mirrors_enumType budget scope).bind fun e e' sameEnum => mirrors_pure
        (.some (congrArg (MessageStatement.nested ∘ TypeDecl.enumType) sameEnum))
    · exact (mirrors_extendBlock budget).bind fun e e' sameBlock =>
        mirrors_pure (.some (congrArg MessageStatement.extend sameBlock))
    · exact mirrors_extensions.bind fun rs rs' sameRanges =>
        mirrors_pure (.some (congrArg MessageStatement.extensions sameRanges))
    · exact mirrors_next.discard.bind fun _ _ _ => (mirrors_optionStatement budget).bind
        fun option _ same => mirrors_pure (.some (same ▸ rfl))
    · split
      · exact (mirrors_labelledField budget _).bind fun f f' sameField =>
          mirrors_pure (.some (congrArg MessageStatement.field sameField))
      · exact mirrors_unexpected same _
    · exact mirrors_unexpected same _
  · exact mirrors_unexpected same _

theorem mirrors_message (budget : Nat) (scope : Scope) :
    s.Mirrors (Alike (Message.mapDoc s.doc)) (message budget scope) (message budget scope) := by
  induction budget generalizing scope with
  | zero => exact (mirrors_expectKeyword _).bind fun t t' same => mirrors_unexpected same _
  | succ budget ih =>
    refine (mirrors_expectKeyword _).bind fun t t' same => (mirrors_plainName _).bind
      fun name _ sameName => ?_
    subst sameName
    refine (mirrors_expect _).bind fun _ _ _ =>
      (mirrors_messageStatement (ih _) budget _).many.bind fun statements statements' same' =>
        (mirrors_expect _).bind fun _ _ _ => ?_
    have body := alike_map same'
    rw [Alike] at body
    exact mirrors_accept (by rw [Message.map_make, Message.map_make, same.doc,
      ← bodyOfStatements_map, ← bodyOfStatements_map, body]) same.position

/-! ### Files -/

theorem mirrors_importStatement : s.Mirrors Eq importStatement importStatement :=
  mirrors_next.discard.bind fun _ _ _ => (mirrors_eatKeyword _).bind fun isPublic _ samePublic =>
    (mirrors_textLiteral _).bind fun path _ samePath => (mirrors_expect _).bind fun _ _ _ =>
      mirrors_pure (by rw [samePublic, samePath])

theorem mirrors_fileStatement (budget : Nat) (scope : Scope) :
    s.Mirrors (Option.Rel (Alike (FileStatement.mapDoc s.doc s.place)))
      (fileStatement budget scope) (fileStatement budget scope) := by
  refine mirrors_peek.bind fun t t' same => ?_
  rw [same.token]
  split
  · exact mirrors_pure .none
  split
  · exact mirrors_next.discard.bind fun _ _ _ => mirrors_pure (.some rfl)
  split
  · exact mirrors_pure .none
  · exact mirrors_importStatement.bind fun _ _ same => mirrors_pure (.some (same ▸ rfl))
  · exact mirrors_next.discard.bind fun _ _ _ => (mirrors_optionStatement budget).bind
      fun option _ same => mirrors_pure (.some (same ▸ rfl))
  · exact (mirrors_message budget scope).bind fun m m' sameMessage => mirrors_pure
      (.some (congrArg₂ FileStatement.type same.position (congrArg TypeDecl.message sameMessage)))
  · exact (mirrors_enumType budget scope).bind fun e e' sameEnum => mirrors_pure
      (.some (congrArg₂ FileStatement.type same.position (congrArg TypeDecl.enumType sameEnum)))
  · exact (mirrors_extendBlock budget).bind fun e e' sameBlock =>
      mirrors_pure (.some (congrArg FileStatement.extend sameBlock))
  · exact (mirrors_service budget scope).bind fun v v' sameService =>
      mirrors_pure (.some (congrArg₂ FileStatement.service same.position sameService))
  · exact mirrors_unexpected same _

theorem mirrors_versionStatement? : s.Mirrors Eq versionStatement? versionStatement? := by
  refine (mirrors_eatKeyword _).branch ?_ (mirrors_pure rfl)
  refine (mirrors_expect _).bind fun _ _ _ => mirrors_peek.bind fun t t' same =>
    (mirrors_textLiteral _).bind fun version _ sameVersion => (mirrors_expect _).bind
      fun _ _ _ => ?_
  subst sameVersion
  exact (mirrors_accept (f := id) rfl same.position).bind fun _ _ _ => mirrors_pure rfl

theorem mirrors_packageStatement? :
    s.Mirrors (Option.Rel (Alike (Prod.map s.place id))) packageStatement? packageStatement? := by
  refine mirrors_peek.bind fun t t' same => (mirrors_eatKeyword _).branch ?_ (mirrors_pure .none)
  exact (mirrors_ident _).bind fun package _ samePackage => (mirrors_expect _).bind fun _ _ _ =>
    mirrors_pure (.some (congrArg₂ Prod.mk same.position samePackage.symm))

theorem mirrors_statementsOf (budget : Nat) (package : String) :
    s.Mirrors (List.Forall₂ (Alike (FileStatement.mapDoc s.doc s.place)))
      (statementsOf budget package) (statementsOf budget package) := by
  refine (mirrors_fileStatement budget _).many.bind fun statements statements' same =>
    mirrors_packageStatement?.bind fun again again' sameAgain => ?_
  cases sameAgain with
  | none => exact mirrors_pure same
  | some samePlace => exact mirrors_throw (.violation (congrArg Prod.fst samePlace))

theorem mirrors_fileText (budget : Nat) :
    s.Mirrors (Alike (FileText.mapDoc s.doc s.place)) (fileText budget) (fileText budget) := by
  refine mirrors_versionStatement?.bind fun version _ sameVersion =>
    (mirrors_fileStatement budget _).many.bind fun before before' sameBefore =>
      mirrors_packageStatement?.bind fun package package' samePackage => ?_
  subst sameVersion
  have before := alike_map sameBefore
  rw [Alike] at before
  cases samePackage with
  | none => exact mirrors_pure (by simp [Alike, FileText.mapDoc, before])
  | @some p p' same =>
    obtain ⟨position, name⟩ := p
    obtain ⟨position', name'⟩ := p'
    obtain rfl : name' = name := congrArg Prod.snd same
    refine (mirrors_statementsOf budget _).bind fun behind behind' sameBehind => ?_
    have behind := alike_map sameBehind
    rw [Alike] at behind
    exact mirrors_pure (by simp [Alike, FileText.mapDoc, before, behind])

section Files

variable (g : String → String) (place : Position → Position) (f : FileText)

theorem statements_mapDoc :
    (f.mapDoc g place).statements = f.statements.map (FileStatement.mapDoc g place) := by
  obtain ⟨version, before, package⟩ := f
  cases package <;> simp [FileText.statements, FileText.mapDoc]

private theorem declared?_mapDoc (statement : FileStatement) :
    (statement.mapDoc g place).declared? = statement.declared?.map (Prod.map id place) := by
  cases statement <;> simp [FileStatement.mapDoc, FileStatement.declared?]

private theorem countBefore_mapDoc {k : α → α} {pick : FileStatement → Option α}
    (commutes : ∀ x, pick (x.mapDoc g place) = (pick x).map k) :
    (f.mapDoc g place).countBefore pick = f.countBefore pick := by
  simp [FileText.countBefore, FileText.mapDoc, filterMap_map_of_pick commutes]

private theorem picked_mapDoc {k : α → α} {pick : FileStatement → Option α}
    (commutes : ∀ x, pick (x.mapDoc g place) = (pick x).map k) :
    (f.mapDoc g place).statements.filterMap pick = (f.statements.filterMap pick).map k := by
  rw [statements_mapDoc, filterMap_map_of_pick commutes]

theorem body_mapDoc : (f.mapDoc g place).body = f.body.mapDoc g := by
  have types (x : FileStatement) :
      (x.mapDoc g place).type? = x.type?.map (TypeDecl.mapDoc g) := by
    cases x <;> rfl
  have services (x : FileStatement) :
      (x.mapDoc g place).service? = x.service?.map (Service.mapDoc g) := by
    cases x <;> rfl
  have blocks (x : FileStatement) :
      (x.mapDoc g place).extend? = x.extend?.map (ExtendBlock.mapDoc g) := by
    cases x <;> rfl
  have options (x : FileStatement) : (x.mapDoc g place).option? = x.option?.map id := by
    cases x <;> rfl
  have imports (isPublic : Bool) (x : FileStatement) :
      (x.mapDoc g place).import? isPublic = (x.import? isPublic).map id := by
    rw [Option.map_id, id]
    cases x <;> rfl
  unfold FileText.body FileBody.mapDoc
  rw [countBefore_mapDoc g place f types, countBefore_mapDoc g place f services,
    picked_mapDoc g place f types, picked_mapDoc g place f services,
    picked_mapDoc g place f blocks, picked_mapDoc g place f options,
    picked_mapDoc g place f (imports false), picked_mapDoc g place f (imports true)]
  simp [FileText.mapDoc, Function.comp_def]

theorem positionOf_mapDoc (start : place .start = .start) (broken : Violation) :
    (f.mapDoc g place).positionOf broken = place (f.positionOf broken) := by
  cases broken with
  | duplicateName scope name =>
    have declared : ((f.mapDoc g place).statements.filterMap FileStatement.declared?).reverse =
        ((f.statements.filterMap FileStatement.declared?).reverse).map (Prod.map id place) := by
      rw [statements_mapDoc, filterMap_map_of_pick (declared?_mapDoc g place), List.map_reverse]
    simp only [FileText.positionOf, declared, List.find?_map]
    have names : (fun d : String × Position => decide (d.1 = name)) ∘ Prod.map id place =
        fun d => decide (d.1 = name) := rfl
    rw [names]
    cases (f.statements.filterMap FileStatement.declared?).reverse.find? (·.1 = name) with
    | none => exact start.symm
    | some d => rfl
  | _ => exact start.symm

end Files

theorem mirrors_file (budget : Nat) (name : String) :
    s.Mirrors (Alike (SchemaFile.mapDoc s.doc)) (file budget name) (file budget name) := by
  refine (mirrors_fileText budget).bind fun f f' same => ?_
  have body : f'.body.mapDoc s.doc = f.body.mapDoc s.doc := by
    rw [← body_mapDoc s.doc s.place, ← body_mapDoc s.doc s.place, same]
  have outcome : (SchemaFile.make name f'.body).map (SchemaFile.mapDoc s.doc) =
      (SchemaFile.make name f.body).map (SchemaFile.mapDoc s.doc) := by
    rw [SchemaFile.map_make, SchemaFile.map_make, body]
  have position (broken : Violation) :
      s.place (f'.positionOf broken) = s.place (f.positionOf broken) := by
    rw [← positionOf_mapDoc s.doc s.place f' s.place_start,
      ← positionOf_mapDoc s.doc s.place f s.place_start, same]
  cases made : SchemaFile.make name f.body with
  | ok v =>
    cases made' : SchemaFile.make name f'.body with
    | ok w =>
      rw [made, made'] at outcome
      exact mirrors_pure (Except.ok.inj outcome)
    | error broken =>
      rw [made, made'] at outcome
      cases outcome
  | error broken =>
    cases made' : SchemaFile.make name f'.body with
    | ok w =>
      rw [made, made'] at outcome
      cases outcome
    | error broken' =>
      rw [made, made'] at outcome
      cases outcome
      exact mirrors_throw (.violation (position broken))

end Simulation

end ProtoSchema
