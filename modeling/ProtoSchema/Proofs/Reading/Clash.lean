import ProtoSchema.Proofs.Reading.Acceptance
import ProtoSchema.Proofs.Schema.Fault

/-!
# Where a clash of names is reported

No two types or services of a file share a name. Types are compared in front of services, so which
name is reported does not follow from the order of the declarations alone. It is reported where a
declaration stands that repeats it.
-/

namespace ProtoSchema

open Grammar Reader

/-! ### Repeated names -/

/-- The name with which names cease to differ is one of those in front of it. -/
theorem BreaksAt.mem {names before : List String} {name : String}
    (h : BreaksAt List.Nodup names before name) : name ∈ before := by
  by_contra new
  exact h.breaks (List.nodup_append.mpr ⟨h.good, List.nodup_singleton name, by grind⟩)

/-- The last of the elements that have a property. -/
theorem reverse_find?_eq_some_iff {α : Type} {p : α → Bool} {xs : List α} {x : α} :
    xs.reverse.find? p = some x ↔
      p x = true ∧ ∃ earlier later, xs = earlier ++ x :: later ∧ ∀ y ∈ later, p y = false := by
  rw [List.find?_eq_some_iff_append]
  refine and_congr_right fun _ => ⟨?_, ?_⟩
  · rintro ⟨front, back, whole, none⟩
    refine ⟨back.reverse, front.reverse, ?_, by simpa using none⟩
    simpa using congrArg List.reverse whole
  · rintro ⟨earlier, later, rfl, none⟩
    exact ⟨later.reverse, earlier.reverse, by simp, by simpa using none⟩

namespace Reading.FileText

/-- The names that the statements of a file declare, in order, and where they stand. -/
def declared (t : FileText) : List (String × Position) :=
  t.statements.filterMap FileStatement.declared?

/-- The names that a file keeps apart, those of types in front of those of services. -/
def topNames (t : FileText) : List String :=
  t.body.types.map TypeDecl.name ++ t.body.services.map Service.name

theorem perm_declared (t : FileText) : t.topNames.Perm (t.declared.map Prod.fst) := by
  have sorted (statements : List FileStatement) :
      ((statements.filterMap FileStatement.type?).map TypeDecl.name ++
        (statements.filterMap FileStatement.service?).map Service.name).Perm
      ((statements.filterMap FileStatement.declared?).map Prod.fst) := by
    induction statements with
    | nil => exact .nil
    | cons statement _ ih =>
      cases statement with
      | type p t => exact ih.cons t.name
      -- The name of a service moves behind those of all types.
      | service p s => exact List.perm_middle.trans (ih.cons s.name)
      | empty | imported _ _ | option _ | extend _ => exact ih
  exact sorted t.statements

/-- A declaration of a name that one in front of it has. -/
def Repeats (t : FileText) (d : String × Position) : Prop :=
  ∃ earlier later, t.declared = earlier ++ d :: later ∧ d.1 ∈ earlier.map Prod.fst

/-- The first name that is repeated among types and services is reported at a declaration that
repeats it. -/
theorem repeats_of_breaksAt {t : FileText} {before : List String} {name : String}
    (scopeName : String) (h : BreaksAt List.Nodup t.topNames before name) :
    t.Repeats (name, t.positionOf (.duplicateName scopeName name)) := by
  -- The name stands twice among those of types and services, so it is declared twice.
  have twice : 2 ≤ (t.declared.map Prod.fst).count name := by
    obtain ⟨behind, whole⟩ := h.begins
    have inFront := List.one_le_count_iff.mpr h.mem
    rw [← t.perm_declared.count_eq, ← whole]
    simp only [List.count_append, List.count_singleton_self]
    omega
  cases found : t.declared.reverse.find? (·.1 = name) with
  | none =>
    have absent : name ∉ t.declared.reverse.map Prod.fst := find?_key_eq_none_iff.mp found
    rw [List.map_reverse, List.mem_reverse, ← List.count_eq_zero] at absent
    omega
  | some d =>
    obtain ⟨same, earlier, later, whole, others⟩ := reverse_find?_eq_some_iff.mp found
    obtain rfl : d.1 = name := of_decide_eq_true same
    have position : t.positionOf (.duplicateName scopeName d.1) = d.2 := by
      rw [positionOf, ← declared, found]
    rw [position]
    refine ⟨earlier, later, whole, ?_⟩
    have last : (later.map Prod.fst).count d.1 = 0 := by
      rw [List.count_eq_zero, List.mem_map]
      rintro ⟨e, behind, same⟩
      exact of_decide_eq_false (others e behind) same
    rw [whole] at twice
    simp only [List.map_append, List.map_cons, List.count_append, List.count_cons_self, last]
      at twice
    have inFront : 1 ≤ (earlier.map Prod.fst).count d.1 := by omega
    exact List.one_le_count_iff.mp inFront

/-- If the names of all other declarations differ, no other one repeats a name. -/
theorem Repeats.eq {t : FileText} {before after : List (String × Position)}
    {d e : String × Position} (h : t.Repeats d) (whole : t.declared = before ++ e :: after)
    (repeated : e.1 ∈ before.map Prod.fst) (others : ((before ++ after).map Prod.fst).Nodup) :
    e = d := by
  obtain ⟨earlier, later, whole', repeated'⟩ := h
  rcases List.append_eq_append_iff.mp (whole.symm.trans whole') with
    ⟨between, rfl, same⟩ | ⟨between, rfl, same⟩
  · cases between with
    | nil => exact (List.cons.inj same).1
    | cons _ between =>
      -- Behind `e` no name is repeated: the name of `e` is one of those in front of it.
      obtain ⟨rfl, rfl⟩ := List.cons.inj same
      simp only [List.map_append, List.nodup_append] at others
      grind
  · cases between with
    | nil => exact (List.cons.inj same).1.symm
    | cons _ between =>
      -- In front of `e` all names differ.
      obtain ⟨rfl, rfl⟩ := List.cons.inj same
      simp only [List.map_append, List.map_cons, List.nodup_append, List.nodup_cons] at others
      grind

end Reading.FileText

/-! ### Where parsing fails -/

/-- A text whose declarations all keep the rules but do not differ in name is refused for the first
name that is repeated when those of types stand in front of those of services, and at a declaration
that repeats it. If but for one declaration all differ in name, it is that one. -/
theorem parse_of_clash {config : DocConfig} {name : String} {text : List Char}
    {endMark : Located} {j : Judged Reading.FileText} {t : Reading.FileText}
    (finished : (TokenStream.ofText config text).ending = .finished endMark)
    (judged : JudgesFile Reading.nestingLimit (TokenStream.ofText config text).tokens j)
    (accepts : j.Accepts t) (clash : ¬ (t.declared.map Prod.fst).Nodup) :
    ∃ names d, BreaksAt List.Nodup t.topNames names d.1 ∧ t.Repeats d ∧
      parse config name text =
        .error (.violation (.duplicateName (SchemaFile.scopeName t.body.package) d.1) d.2) ∧
      ∀ before e after, t.declared = before ++ e :: after → e.1 ∈ before.map Prod.fst →
        ((before ++ after).map Prod.fst).Nodup → e = d := by
  rw [parse_of_accepts finished judged accepts]
  cases made : SchemaFile.make name t.body with
  | ok f =>
    have distinct := (SchemaFile.make_eq_ok_iff.mp made).1
    exact absurd (t.perm_declared.nodup_iff.mp distinct) clash
  | error broken =>
    obtain ⟨names, repeated, (breaks : BreaksAt _ t.topNames names repeated), rfl⟩ :=
      SchemaFile.make_eq_error_iff.mp made
    have repeats :=
      Reading.FileText.repeats_of_breaksAt (SchemaFile.scopeName t.body.package) breaks
    exact ⟨names, (repeated, _), breaks, repeats, rfl, fun _ _ _ whole member others =>
      repeats.eq whole member others⟩

/-! ### Services and messages of one name -/

/-- An empty message in the first line. -/
private def emptyMessage (name : String) (column : Nat) : Reading.FileStatement :=
  .type ⟨1, column, column - 1⟩ (.message ⟨name, name, "", [], [], [], [], []⟩)

/-- An empty service in the first line. -/
private def emptyService (name : String) (column : Nat) : Reading.FileStatement :=
  .service ⟨1, column, column - 1⟩ ⟨name, name, "", [], []⟩

/-- A service and messages, of which the last one has the name of the service. -/
def interleavedText : List Char :=
  "service B \x7b\x7d message A \x7b\x7d message B \x7b\x7d".toList

private def interleavedStatements : Reading.FileText :=
  ⟨none, [emptyService "B" 1, emptyMessage "A" 14, emptyMessage "B" 27], none⟩

theorem interleavedText_parse :
    parse {} "mixed.proto" interleavedText =
      .error (.violation (.duplicateName "<file>" "B") ⟨1, 27, 26⟩) := by
  have finished : (TokenStream.ofText {} interleavedText).ending =
      .finished ⟨.eof, ⟨1, 39, 38⟩, none⟩ := by
    decide +kernel
  have reads : Reads (Reading.fileText Reading.nestingLimit)
      (TokenStream.ofText {} interleavedText).ending
      (TokenStream.ofText {} interleavedText).tokens interleavedStatements [] := by
    unfold Reads
    decide +kernel
  obtain ⟨j, judged, accepts⟩ :=
    Reading.exists_judgesFile_of_reads (TokenStream.ofText_isProper {} interleavedText) reads
  obtain ⟨_, d, _, _, failed, only⟩ := @parse_of_clash {} "mixed.proto" interleavedText _ j
    interleavedStatements finished judged accepts (by decide)
  have last := only [("B", ⟨1, 1, 0⟩), ("A", ⟨1, 14, 13⟩)] ("B", ⟨1, 27, 26⟩) [] rfl
    (by decide) (by decide)
  rw [failed, ← last]
  rfl

/-- Two services of one name in front of two messages of another. -/
def clashingText : List Char :=
  "service A \x7b\x7d service A \x7b\x7d message B \x7b\x7d message B \x7b\x7d".toList

private def clashingStatements : Reading.FileText :=
  ⟨none, [emptyService "A" 1, emptyService "A" 14, emptyMessage "B" 27, emptyMessage "B" 40], none⟩

/-- A clash is not always reported at the first declaration in the text that repeats a name: here
the second message is reported, although the second service stands in front of it. -/
theorem not_parse_at_first_clash :
    ¬ ∀ (config : DocConfig) (name : String) (text : List Char) (endMark : Located)
        (j : Judged Reading.FileText) (t : Reading.FileText),
      (TokenStream.ofText config text).ending = .finished endMark →
      JudgesFile Reading.nestingLimit (TokenStream.ofText config text).tokens j →
      j.Accepts t → ¬ (t.declared.map Prod.fst).Nodup →
        ∃ scopeName before d,
          BreaksAt (fun ds => (ds.map Prod.fst).Nodup) t.declared before d ∧
          parse config name text = .error (.violation (.duplicateName scopeName d.1) d.2) := by
  intro claim
  have finished : (TokenStream.ofText {} clashingText).ending =
      .finished ⟨.eof, ⟨1, 52, 51⟩, none⟩ := by
    decide +kernel
  have reads : Reads (Reading.fileText Reading.nestingLimit)
      (TokenStream.ofText {} clashingText).ending (TokenStream.ofText {} clashingText).tokens
      clashingStatements [] := by
    unfold Reads
    decide +kernel
  obtain ⟨j, judged, accepts⟩ :=
    Reading.exists_judgesFile_of_reads (TokenStream.ofText_isProper {} clashingText) reads
  obtain ⟨scopeName, before, ⟨name, position⟩, ⟨⟨after, whole⟩, good, _⟩, failed⟩ :=
    claim {} "clash.proto" clashingText _ j clashingStatements finished judged accepts (by decide)
  have last : parse {} "clash.proto" clashingText =
      .error (.violation (.duplicateName "<file>" "B") ⟨1, 40, 39⟩) := by
    decide +kernel
  cases failed.symm.trans last
  -- The services stand in front of the second message, and their names do not differ.
  have declared : clashingStatements.declared =
      [("A", ⟨1, 1, 0⟩), ("A", ⟨1, 14, 13⟩), ("B", ⟨1, 27, 26⟩), ("B", ⟨1, 40, 39⟩)] := rfl
  rw [declared] at whole
  cases before with
  | nil => simp at whole
  | cons first before =>
    cases before with
    | nil => simp at whole
    | cons second before =>
      obtain ⟨rfl, rfl, _⟩ : first = ("A", ⟨1, 1, 0⟩) ∧ second = ("A", ⟨1, 14, 13⟩) ∧ _ := by
        simpa using whole
      simp at good

end ProtoSchema
