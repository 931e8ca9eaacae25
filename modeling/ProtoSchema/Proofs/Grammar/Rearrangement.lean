import Mathlib.Data.List.Basic
import ProtoSchema.Proofs.Grammar.File

/-!
# Statements in another order

What a body says depends on the order of its statements only within each kind, because they are sorted
by kind before anything is made of them. `RearrangesFile` relates the words of a file to those words
with the statements of the file, and of the messages, enums and services in it, in another order, on
all levels at once: statements of one kind follow each other as before, and no type or service moves
to the other side of the package declaration. Both are files that say the same.
-/

namespace ProtoSchema

open Reading

/-! ### Kinds of statements -/

/-- The kinds within which statements keep their order. -/
inductive StatementKind where
  | imported (isPublic : Bool)
  | option
  | type
  | service
  | extend
  | field
  | extensions
  | value
  | method
  deriving DecidableEq

/-- The kinds whose names the package qualifies, and that are counted up to its declaration. -/
def StatementKind.isQualified : StatementKind → Bool
  | .type | .service => true
  | _ => false

/-- Of what kind a statement is; a stray semicolon is of none. -/
def Reading.FileStatement.kind? : FileStatement → Option StatementKind
  | .empty => none
  | .imported isPublic _ => some (.imported isPublic)
  | .option _ => some .option
  | .type _ _ => some .type
  | .service _ _ => some .service
  | .extend _ => some .extend

def Reading.MessageStatement.kind? : MessageStatement → Option StatementKind
  | .empty => none
  | .field _ => some .field
  | .nested _ => some .type
  | .extend _ => some .extend
  | .extensions _ => some .extensions
  | .option _ => some .option

def Reading.EnumStatement.kind? : EnumStatement → Option StatementKind
  | .empty => none
  | .option _ => some .option
  | .value _ => some .value

def Reading.ServiceStatement.kind? : ServiceStatement → Option StatementKind
  | .empty => none
  | .option _ => some .option
  | .method _ => some .method

namespace Grammar

/-! ### Regrouping -/

section Regrouping

variable {α β : Type} {kind? : α → Option StatementKind} {xs ys : List α} {k : StatementKind}

/-- The members of a kind, in order. -/
def ofKind (kind? : α → Option StatementKind) (k : StatementKind) (xs : List α) : List α :=
  xs.filter (kind? · = some k)

theorem mem_ofKind_iff {x : α} : x ∈ ofKind kind? k xs ↔ x ∈ xs ∧ kind? x = some k := by
  simp [ofKind]

theorem ofKind_append : ofKind kind? k (xs ++ ys) = ofKind kind? k xs ++ ofKind kind? k ys :=
  List.filter_append ..

theorem ofKind_map (f : β → α) (xs : List β) :
    ofKind kind? k (xs.map f) = (ofKind (kind? ∘ f) k xs).map f :=
  List.filter_map ..

/-- Another order in which those of one kind follow each other as before. -/
structure IsRegrouping (kind? : α → Option StatementKind) (xs ys : List α) : Prop where
  perm : xs.Perm ys
  order : ∀ k, ofKind kind? k xs = ofKind kind? k ys

/-- What is picked from the members of one kind alone depends on these only. -/
theorem flatMap_eq_of_ofKind {pick : α → List β} (only : ∀ x, pick x ≠ [] → kind? x = some k)
    (same : ofKind kind? k xs = ofKind kind? k ys) : xs.flatMap pick = ys.flatMap pick := by
  -- From the others nothing is picked.
  have members (zs : List α) : (ofKind kind? k zs).flatMap pick = zs.flatMap pick := by
    induction zs with
    | nil => rfl
    | cons z zs ih =>
      by_cases nothing : pick z = []
      · by_cases member : kind? z = some k <;> simpa [ofKind, member, nothing] using ih
      · simpa [ofKind, only z nothing] using ih
  rw [← members xs, same, members ys]

theorem filterMap_eq_of_ofKind {pick : α → Option β} (only : ∀ x v, pick x = some v → kind? x = some k)
    (same : ofKind kind? k xs = ofKind kind? k ys) : xs.filterMap pick = ys.filterMap pick := by
  rw [List.filterMap_eq_flatMap_toList, List.filterMap_eq_flatMap_toList]
  refine flatMap_eq_of_ofKind (fun x some => ?_) same
  obtain ⟨v, picked⟩ := Option.ne_none_iff_exists'.mp (mt Option.toList_eq_nil_iff.mpr some)
  exact only x v picked

theorem IsRegrouping.filterMap_eq (h : IsRegrouping kind? xs ys) (pick : α → Option β)
    (k : StatementKind) (only : ∀ x v, pick x = some v → kind? x = some k) :
    xs.filterMap pick = ys.filterMap pick :=
  filterMap_eq_of_ofKind only (h.order k)

theorem IsRegrouping.refl (xs : List α) : IsRegrouping kind? xs xs :=
  ⟨.refl xs, fun _ => rfl⟩

theorem IsRegrouping.map {f : β → α} {xs ys : List β} (h : IsRegrouping (kind? ∘ f) xs ys) :
    IsRegrouping kind? (xs.map f) (ys.map f) where
  perm := h.perm.map f
  order k := by rw [ofKind_map, ofKind_map, h.order k]

end Regrouping

/-! ### Rows of statements -/

/-- A statement: its words, and those that come in their place. -/
structure Row (α : Type) where
  before : List Word
  after : List Word
  statement : α

section Rows

variable {α : Type} {P : List Word → α → Prop} {rows rows' : List (Row α)}

/-- The statements of some rows. -/
def statementsIn (rows : List (Row α)) : List α :=
  rows.map Row.statement

/-- Rows are phrases in a row, on either side. -/
theorem isSequence_of_rows (side : Row α → List Word)
    (phrases : ∀ r ∈ rows, P (side r) r.statement) :
    IsSequence P (rows.flatMap side) (statementsIn rows) := by
  induction rows with
  | nil => exact .nil
  | cons r rows ih =>
    obtain ⟨first, rest⟩ := List.forall_mem_cons.mp phrases
    exact .cons first (ih rest)

theorem isSequence_of_isRegrouping {kind? : α → Option StatementKind}
    (phrases : ∀ r ∈ rows, P r.before r.statement ∧ P r.after r.statement)
    (regrouped : IsRegrouping (kind? ∘ Row.statement) rows rows') :
    IsSequence P (rows.flatMap Row.before) (statementsIn rows) ∧
      IsSequence P (rows'.flatMap Row.after) (statementsIn rows') :=
  ⟨isSequence_of_rows Row.before fun r member => (phrases r member).1,
    isSequence_of_rows Row.after fun r member =>
      (phrases r (regrouped.perm.mem_iff.mpr member)).2⟩

theorem isSequence_of_unchanged {kind? : α → Option StatementKind}
    (phrases : ∀ r ∈ rows, r.after = r.before ∧ P r.before r.statement)
    (regrouped : IsRegrouping (kind? ∘ Row.statement) rows rows') :
    IsSequence P (rows.flatMap Row.before) (statementsIn rows) ∧
      IsSequence P (rows'.flatMap Row.after) (statementsIn rows') := by
  refine isSequence_of_isRegrouping (fun r member => ?_) regrouped
  obtain ⟨same, phrase⟩ := phrases r member
  exact ⟨phrase, by rwa [same]⟩

/-- Phrases in a row are rows that keep their words. -/
theorem exists_rows {ws : List Word} {xs : List α} (h : IsSequence P ws xs) :
    ∃ rows : List (Row α), rows.flatMap Row.before = ws ∧ rows.flatMap Row.after = ws ∧
      ∀ r ∈ rows, r.after = r.before ∧ P r.before r.statement := by
  induction h with
  | nil => exact ⟨[], rfl, rfl, by simp⟩
  | @cons first _ x _ phrase _ ih =>
    obtain ⟨rows, rfl, same, phrases⟩ := ih
    exact ⟨⟨first, first, x⟩ :: rows, rfl, by rw [List.flatMap_cons, same],
      List.forall_mem_cons.mpr ⟨⟨rfl, phrase⟩, phrases⟩⟩

end Rows

/-! ### Bodies in another order -/

/-- A declaration with a body in braces. -/
def braced (k : Keyword) (name doc d d' d'' : String) (body : List Word) : List Word :=
  ⟨k.token, doc⟩ :: ⟨.ident name, d⟩ :: ⟨.mark .openBrace, d'⟩ :: (body ++ [⟨.mark .closeBrace, d''⟩])

/-- An enum, and its words with its statements in another order. -/
inductive RearrangesEnum (scope : Scope) : List Word → List Word → EnumType → Prop
  | intro {name doc d d' d'' : String} {rows rows' : List (Row EnumStatement)} {e : EnumType} :
      Reader.isPlainName name = true →
      (∀ r ∈ rows, r.after = r.before ∧ IsEnumStatement r.before r.statement) →
      IsRegrouping (EnumStatement.kind? ∘ Row.statement) rows rows' →
      EnumType.make name (scope.qualify name) doc
        ((statementsIn rows).filterMap EnumStatement.value?)
        ((statementsIn rows).filterMap EnumStatement.option?) = .ok e →
        RearrangesEnum scope (braced .enumWord name doc d d' d'' (rows.flatMap Row.before))
          (braced .enumWord name doc d d' d'' (rows'.flatMap Row.after)) e

/-- A service, and its words with its statements in another order. -/
inductive RearrangesService (scope : Scope) : List Word → List Word → Service → Prop
  | intro {name doc d d' d'' : String} {rows rows' : List (Row ServiceStatement)} {s : Service} :
      Reader.isPlainName name = true →
      (∀ r ∈ rows, r.after = r.before ∧ IsServiceStatement r.before r.statement) →
      IsRegrouping (ServiceStatement.kind? ∘ Row.statement) rows rows' →
      Service.make name (scope.qualify name) doc
        ((statementsIn rows).filterMap ServiceStatement.option?)
        ((statementsIn rows).filterMap ServiceStatement.method?) = .ok s →
        RearrangesService scope (braced .serviceWord name doc d d' d'' (rows.flatMap Row.before))
          (braced .serviceWord name doc d d' d'' (rows'.flatMap Row.after)) s

mutual

/-- A message, and its words with its statements in another order, and those of the declarations in
it. -/
inductive RearrangesMessage : Scope → List Word → List Word → Message → Prop
  | intro {scope : Scope} {name doc d d' d'' : String} {rows rows' : List (Row MessageStatement)}
      {m : Message} :
      Reader.isPlainName name = true →
      (∀ r ∈ rows, RearrangesMessageStatement (scope ++ [name]) r.before r.after r.statement) →
      IsRegrouping (MessageStatement.kind? ∘ Row.statement) rows rows' →
      Message.make name (scope.qualify name) doc (bodyOfStatements (statementsIn rows)) = .ok m →
        RearrangesMessage scope (braced .messageWord name doc d d' d'' (rows.flatMap Row.before))
          (braced .messageWord name doc d d' d'' (rows'.flatMap Row.after)) m

/-- A statement of a message as it is, or with its own body in another order. -/
inductive RearrangesMessageStatement : Scope → List Word → List Word → MessageStatement → Prop
  | same {scope : Scope} {ws : List Word} {s : MessageStatement} :
      IsMessageStatement scope ws s → RearrangesMessageStatement scope ws ws s
  | enumType {scope : Scope} {ws ws' : List Word} {e : EnumType} :
      RearrangesEnum scope ws ws' e →
        RearrangesMessageStatement scope ws ws' (.nested (.enumType e))
  | message {scope : Scope} {ws ws' : List Word} {m : Message} :
      RearrangesMessage scope ws ws' m →
        RearrangesMessageStatement scope ws ws' (.nested (.message m))

end

/-- A statement of a file as it is, or with its own body in another order. -/
inductive RearrangesFileStatement (scope : Scope) : List Word → List Word → FileStatement → Prop
  | same {ws : List Word} {s : FileStatement} :
      IsFileStatement scope ws s → RearrangesFileStatement scope ws ws s
  | message {p : Position} {ws ws' : List Word} {m : Message} :
      RearrangesMessage scope ws ws' m →
        RearrangesFileStatement scope ws ws' (.type p (.message m))
  | enumType {p : Position} {ws ws' : List Word} {e : EnumType} :
      RearrangesEnum scope ws ws' e →
        RearrangesFileStatement scope ws ws' (.type p (.enumType e))
  | service {p : Position} {ws ws' : List Word} {s : Service} :
      RearrangesService scope ws ws' s → RearrangesFileStatement scope ws ws' (.service p s)

/-- The words of a file, and those words with its statements in another order, and those of the
declarations in it. The version stays in front, and no type or service passes the package
declaration. -/
inductive RearrangesFile : List Word → List Word → Prop
  | withoutPackage {version : Option String} {vs : List Word} {rows rows' : List (Row FileStatement)} :
      IsVersion vs version →
      (∀ r ∈ rows, RearrangesFileStatement [] r.before r.after r.statement) →
      IsRegrouping (FileStatement.kind? ∘ Row.statement) rows rows' →
        RearrangesFile (vs ++ rows.flatMap Row.before) (vs ++ rows'.flatMap Row.after)
  | withPackage {version : Option String} {package d d' d'' : String} {vs : List Word}
      {rows behind rows' behind' : List (Row FileStatement)} :
      IsVersion vs version →
      (∀ r ∈ rows, RearrangesFileStatement [] r.before r.after r.statement) →
      (∀ r ∈ behind, RearrangesFileStatement [package] r.before r.after r.statement) →
      IsRegrouping (FileStatement.kind? ∘ Row.statement) (rows ++ behind) (rows' ++ behind') →
      (∀ k, k.isQualified = true →
        ofKind (FileStatement.kind? ∘ Row.statement) k rows =
          ofKind (FileStatement.kind? ∘ Row.statement) k rows') →
        RearrangesFile
          (vs ++ (rows.flatMap Row.before ++ ⟨Keyword.packageWord.token, d⟩ ::
            ⟨.ident package, d'⟩ :: ⟨.mark .semicolon, d''⟩ :: behind.flatMap Row.before))
          (vs ++ (rows'.flatMap Row.after ++ ⟨Keyword.packageWord.token, d⟩ ::
            ⟨.ident package, d'⟩ :: ⟨.mark .semicolon, d''⟩ :: behind'.flatMap Row.after))

/-! ### They say the same -/

variable {scope : Scope} {ws ws' : List Word}

theorem RearrangesEnum.isEnum {e : EnumType} (h : RearrangesEnum scope ws ws' e) :
    IsEnum scope ws e ∧ IsEnum scope ws' e := by
  cases h with
  | intro plain phrases regrouped made =>
    obtain ⟨before, after⟩ := isSequence_of_unchanged phrases regrouped
    have values := regrouped.map.filterMap_eq EnumStatement.value? .value fun s _ picked => by
      cases s <;> cases picked; rfl
    have options := regrouped.map.filterMap_eq EnumStatement.option? .option fun s _ picked => by
      cases s <;> cases picked; rfl
    exact ⟨.intro plain before made, .intro plain after (values ▸ options ▸ made)⟩

theorem RearrangesService.isService {d : Service} (h : RearrangesService scope ws ws' d) :
    IsService scope ws d ∧ IsService scope ws' d := by
  cases h with
  | intro plain phrases regrouped made =>
    obtain ⟨before, after⟩ := isSequence_of_unchanged phrases regrouped
    have options := regrouped.map.filterMap_eq ServiceStatement.option? .option fun s _ picked => by
      cases s <;> cases picked; rfl
    have methods := regrouped.map.filterMap_eq ServiceStatement.method? .method fun s _ picked => by
      cases s <;> cases picked; rfl
    exact ⟨.intro plain before made, .intro plain after (options ▸ methods ▸ made)⟩

/-- What is made of the statements of a message depends on each kind by itself. -/
theorem bodyOfStatements_eq {statements statements' : List MessageStatement}
    (h : IsRegrouping MessageStatement.kind? statements statements') :
    bodyOfStatements statements = bodyOfStatements statements' := by
  unfold bodyOfStatements
  congr 1
  · exact h.filterMap_eq _ .field fun s _ picked => by cases s <;> cases picked; rfl
  · exact h.filterMap_eq _ .type fun s _ picked => by cases s <;> cases picked; rfl
  · exact h.filterMap_eq _ .extend fun s _ picked => by cases s <;> cases picked; rfl
  · exact flatMap_eq_of_ofKind (fun s some => by cases s <;> first | rfl | exact absurd rfl some)
      (h.order .extensions)
  · exact h.filterMap_eq _ .option fun s _ picked => by cases s <;> cases picked; rfl

mutual

theorem RearrangesMessage.isMessage {scope : Scope} {ws ws' : List Word} {m : Message}
    (h : RearrangesMessage scope ws ws' m) : IsMessage scope ws m ∧ IsMessage scope ws' m := by
  match h with
  | .intro plain phrases regrouped made =>
    obtain ⟨before, after⟩ := isSequence_of_isRegrouping
      (fun r member => (phrases r member).isMessageStatement) regrouped
    exact ⟨.intro plain (isMessageBody_iff.mpr before) made,
      .intro plain (isMessageBody_iff.mpr after) (bodyOfStatements_eq regrouped.map ▸ made)⟩

theorem RearrangesMessageStatement.isMessageStatement {scope : Scope} {ws ws' : List Word}
    {s : MessageStatement} (h : RearrangesMessageStatement scope ws ws' s) :
    IsMessageStatement scope ws s ∧ IsMessageStatement scope ws' s := by
  match h with
  | .same phrase => exact ⟨phrase, phrase⟩
  | .enumType inner =>
    obtain ⟨before, after⟩ := inner.isEnum
    exact ⟨.inl (.enumType before), .inl (.enumType after)⟩
  | .message inner =>
    obtain ⟨before, after⟩ := RearrangesMessage.isMessage inner
    exact ⟨.inr ⟨_, rfl, before⟩, .inr ⟨_, rfl, after⟩⟩

end

theorem RearrangesFileStatement.isFileStatement {s : FileStatement}
    (h : RearrangesFileStatement scope ws ws' s) :
    IsFileStatement scope ws s ∧ IsFileStatement scope ws' s := by
  cases h with
  | same phrase => exact ⟨phrase, phrase⟩
  | message inner => exact inner.isMessage.imp .message .message
  | enumType inner => exact inner.isEnum.imp .enumType .enumType
  | service inner => exact inner.isService.imp .service .service

/-- The scope is in no words but those of types and services. -/
theorem RearrangesFileStatement.of_scope {scope' : Scope} {s : FileStatement}
    (h : RearrangesFileStatement scope ws ws' s)
    (free : ∀ k, s.kind? = some k → k.isQualified = false) :
    RearrangesFileStatement scope' ws ws' s := by
  cases h with
  | same phrase =>
    cases phrase with
    | empty => exact .same .empty
    | imported phrase => exact .same (.imported phrase)
    | option phrase => exact .same (.option phrase)
    | extend phrase => exact .same (.extend phrase)
    | message | enumType | service => cases free _ rfl
  | message | enumType | service => cases free _ rfl

/-- On one side of the package declaration the types and services are the same as before, and the
other statements are what they were, whichever side they come from. -/
theorem RearrangesFileStatement.of_ofKind {rows rows' : List (Row FileStatement)}
    {r : Row FileStatement}
    (phrases : ∀ r ∈ rows, RearrangesFileStatement scope r.before r.after r.statement)
    (same : ∀ k, k.isQualified = true → ofKind (FileStatement.kind? ∘ Row.statement) k rows =
      ofKind (FileStatement.kind? ∘ Row.statement) k rows')
    (anywhere : ∃ scope', RearrangesFileStatement scope' r.before r.after r.statement)
    (member : r ∈ rows') : RearrangesFileStatement scope r.before r.after r.statement := by
  by_cases free : ∀ k, r.statement.kind? = some k → k.isQualified = false
  · obtain ⟨_, phrase⟩ := anywhere
    exact phrase.of_scope free
  · simp only [not_forall, Bool.not_eq_false] at free
    obtain ⟨k, kind, qualified⟩ := free
    have stayed : r ∈ ofKind (FileStatement.kind? ∘ Row.statement) k rows := by
      rw [same k qualified]
      exact mem_ofKind_iff.mpr ⟨member, kind⟩
    exact phrases r (mem_ofKind_iff.mp stayed).1

/-- Statements that change sides are statements on the side where they come to stand. -/
theorem rearranges_on_both_sides {package : String}
    {rows behind rows' behind' : List (Row FileStatement)}
    (phrases : ∀ r ∈ rows, RearrangesFileStatement [] r.before r.after r.statement)
    (phrases' : ∀ r ∈ behind, RearrangesFileStatement [package] r.before r.after r.statement)
    (regrouped : IsRegrouping (FileStatement.kind? ∘ Row.statement) (rows ++ behind)
      (rows' ++ behind'))
    (front : ∀ k, k.isQualified = true →
      ofKind (FileStatement.kind? ∘ Row.statement) k rows =
        ofKind (FileStatement.kind? ∘ Row.statement) k rows') :
    (∀ r ∈ rows', RearrangesFileStatement [] r.before r.after r.statement) ∧
      ∀ r ∈ behind', RearrangesFileStatement [package] r.before r.after r.statement := by
  have anywhere : ∀ r ∈ rows' ++ behind',
      ∃ scope', RearrangesFileStatement scope' r.before r.after r.statement := by
    intro r member
    rcases List.mem_append.mp (regrouped.perm.mem_iff.mpr member) with first | second
    · exact ⟨_, phrases r first⟩
    · exact ⟨_, phrases' r second⟩
  -- With those in front those behind the package keep their types and services too.
  have back (k : StatementKind) (qualified : k.isQualified = true) :
      ofKind (FileStatement.kind? ∘ Row.statement) k behind =
        ofKind (FileStatement.kind? ∘ Row.statement) k behind' := by
    have all := regrouped.order k
    rw [ofKind_append, ofKind_append, front k qualified] at all
    exact List.append_cancel_left all
  constructor
  · exact fun r member =>
      .of_ofKind phrases front (anywhere r (List.mem_append_left _ member)) member
  · exact fun r member =>
      .of_ofKind phrases' back (anywhere r (List.mem_append_right _ member)) member

/-- What is made of the statements of a file depends on each kind by itself, and on the number of
types and services in front of the package declaration. -/
theorem body_eq_of_isRegrouping {text text' : FileText} (version : text.version = text'.version)
    (package : text.package.map (·.1) = text'.package.map (·.1))
    (regrouped : IsRegrouping FileStatement.kind? text.statements text'.statements)
    (front : ∀ k, k.isQualified = true → ofKind FileStatement.kind? k text.before =
      ofKind FileStatement.kind? k text'.before) : text.body = text'.body := by
  have found : text.package.isSome = text'.package.isSome := by
    simpa using congrArg Option.isSome package
  have counts {α : Type} {pick : FileStatement → Option α} {k : StatementKind}
      (only : ∀ s v, pick s = some v → s.kind? = some k) (qualified : k.isQualified = true) :
      text.countBefore pick = text'.countBefore pick := by
    simp only [FileText.countBefore, found, filterMap_eq_of_ofKind only (front k qualified)]
  have imports (isPublic : Bool) (s : FileStatement) (path : String)
      (picked : s.import? isPublic = some path) : s.kind? = some (.imported isPublic) := by
    cases s <;> simp_all [FileStatement.import?, FileStatement.kind?]
  have types (s : FileStatement) (t : TypeDecl) (picked : s.type? = some t) :
      s.kind? = some .type := by
    cases s <;> cases picked; rfl
  have services (s : FileStatement) (d : Service) (picked : s.service? = some d) :
      s.kind? = some .service := by
    cases s <;> cases picked; rfl
  unfold FileText.body
  congr 1
  · rw [package]
  · exact counts types rfl
  · exact counts services rfl
  · exact regrouped.filterMap_eq _ _ (imports false)
  · exact regrouped.filterMap_eq _ _ (imports true)
  · exact regrouped.filterMap_eq _ _ types
  · exact regrouped.filterMap_eq _ _ services
  · exact regrouped.filterMap_eq _ .extend fun s _ picked => by cases s <;> cases picked; rfl
  · exact regrouped.filterMap_eq _ .option fun s _ picked => by cases s <;> cases picked; rfl

/-- Both orders are files, and the same is made of them. -/
theorem RearrangesFile.exists_isFile (h : RearrangesFile ws ws') :
    ∃ text text', IsFile ws text ∧ IsFile ws' text' ∧ text.body = text'.body := by
  cases h with
  | @withoutPackage version vs rows rows' isVersion phrases regrouped =>
    obtain ⟨before, after⟩ := isSequence_of_isRegrouping
      (fun r member => (phrases r member).isFileStatement) regrouped
    refine ⟨_, _, .withoutPackage isVersion before, .withoutPackage isVersion after,
      body_eq_of_isRegrouping rfl rfl ?_ fun k _ => regrouped.map.order k⟩
    simpa [FileText.statements, statementsIn] using regrouped.map
  | @withPackage version package d d' d'' vs rows behind rows' behind' isVersion phrases phrases'
      regrouped front =>
    obtain ⟨moved, moved'⟩ := rearranges_on_both_sides phrases phrases' regrouped front
    have before := isSequence_of_rows Row.before fun r member =>
      (phrases r member).isFileStatement.1
    have before' := isSequence_of_rows Row.before fun r member =>
      (phrases' r member).isFileStatement.1
    have after := isSequence_of_rows Row.after fun r member => (moved r member).isFileStatement.2
    have after' := isSequence_of_rows Row.after fun r member => (moved' r member).isFileStatement.2
    refine ⟨_, _, .withPackage isVersion before before', .withPackage isVersion after after',
      body_eq_of_isRegrouping rfl rfl ?_ ?_⟩
    · simpa [FileText.statements, statementsIn] using regrouped.map
    · intro k qualified
      change ofKind _ k (rows.map Row.statement) = ofKind _ k (rows'.map Row.statement)
      rw [ofKind_map, ofKind_map, front k qualified]

/-- The words of each file may stay in their order. -/
theorem RearrangesFile.refl {text : FileText} (h : IsFile ws text) : RearrangesFile ws ws := by
  have kept {scope : Scope} {rows : List (Row FileStatement)}
      (phrases : ∀ r ∈ rows, r.after = r.before ∧ IsFileStatement scope r.before r.statement) :
      ∀ r ∈ rows, RearrangesFileStatement scope r.before r.after r.statement := by
    intro r member
    obtain ⟨same, phrase⟩ := phrases r member
    rw [same]
    exact .same phrase
  cases h with
  | withoutPackage isVersion statements =>
    obtain ⟨rows, rfl, same, phrases⟩ := exists_rows statements
    nth_rewrite 2 [← same]
    exact .withoutPackage isVersion (kept phrases) (.refl rows)
  | withPackage isVersion before behind =>
    obtain ⟨rows, rfl, same, phrases⟩ := exists_rows before
    obtain ⟨rows', rfl, same', phrases'⟩ := exists_rows behind
    nth_rewrite 2 [← same, ← same']
    exact .withPackage isVersion (kept phrases) (kept phrases') (.refl _) fun _ _ => rfl

end Grammar

end ProtoSchema
