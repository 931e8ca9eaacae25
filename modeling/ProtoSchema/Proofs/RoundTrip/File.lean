import ProtoSchema.Proofs.Reading.Parse
import ProtoSchema.Proofs.RoundTrip.Declaration
import ProtoSchema.Render.File

/-!
# Files are read back

The sections of a file that can be written are the words of a file of the grammar, out of which the
same file is made. Reading the text of the file gives it back unless it is nested too deeply or has a
path behind a signed name.
-/

namespace ProtoSchema

open Grammar Reading

/-! ### Sections -/

private theorem wordsFrom_filledSections {sections : List Lines} (some : sections ≠ [])
    (filled : ∀ lines ∈ sections, lines ≠ [])
    (each : ∀ lines ∈ sections, ∃ pieces, lines.Spell pieces) :
    wordsFrom {} (.start false) ("\n\n".intercalate (sections.map Lines.text) ++ "\n").toList =
      wordsFrom {} (.start false) (Lines.laidOut 0 sections.flatten) := by
  induction sections with
  | nil => exact absurd rfl some
  | cons lines sections ih =>
    obtain ⟨nonempty, filled⟩ := List.forall_mem_cons.mp filled
    obtain ⟨⟨pieces, spelled⟩, each⟩ := List.forall_mem_cons.mp each
    cases sections with
    | nil =>
      have only : "\n\n".intercalate [lines.text] = lines.text := String.intercalate_singleton
      have whole := Lines.toList_text nonempty
      rw [List.map_singleton, only, String.toList_append]
      simpa using congrArg (wordsFrom {} (.start false)) whole
    | cons next sections =>
      have split : "\n\n".intercalate ((lines :: next :: sections).map Lines.text) =
          lines.text ++ "\n\n" ++ "\n\n".intercalate ((next :: sections).map Lines.text) :=
        String.intercalate_cons_cons
      have whole : (lines.text ++ "\n\n" ++ "\n\n".intercalate ((next :: sections).map Lines.text) ++
          "\n").toList = lines.laidOut 0 ++
            '\n' :: ("\n\n".intercalate ((next :: sections).map Lines.text) ++ "\n").toList := by
        rw [← Lines.toList_text nonempty]
        simp
      have merged : Lines.laidOut 0 (lines :: next :: sections).flatten =
          lines.laidOut 0 ++ Lines.laidOut 0 (next :: sections).flatten :=
        Lines.laidOut_append 0 _ _
      -- Of the empty line a line feed is left, which makes no difference where a line begins.
      rw [split, whole, spelled, wordsFrom_newline, ih nofun filled each, merged, spelled]

/-- Empty lines between sections make no difference. -/
theorem wordsFrom_sections {sections : List Lines}
    (each : ∀ lines ∈ sections, ∃ pieces, lines.Spell pieces) :
    wordsFrom {} (.start false)
        ("\n\n".intercalate ((sections.filter (· ≠ [])).map Lines.text) ++ "\n").toList =
      wordsFrom {} (.start false) (Lines.laidOut 0 sections.flatten) := by
  have same : sections.flatten = (sections.filter (· ≠ [])).flatten := List.flatten_filter_ne_nil.symm
  rw [same]
  by_cases none : sections.filter (· ≠ []) = []
  · rw [none]
    exact wordsFrom_newline false []
  · apply wordsFrom_filledSections none
    · intro lines member
      simpa using (List.mem_filter.mp member).2
    · exact fun lines member => each lines (List.mem_filter.mp member).1

theorem wordsAfter_eq_some_iff {pieces : List (Option Word)} {ws : List Word} :
    wordsAfter pieces (some []) = some ws ↔ ws.map some = pieces := by
  induction pieces generalizing ws with
  | nil => simp [wordsAfter]
  | cons piece pieces ih =>
    have step : wordsAfter (piece :: pieces) (some []) =
        piece.bind fun w => (wordsAfter pieces (some [])).map (w :: ·) := rfl
    rw [step]
    cases piece with
    | none => cases ws <;> simp
    | some first =>
      rw [Option.bind_some, Option.map_eq_some_iff]
      constructor
      · rintro ⟨rest, read, rfl⟩
        exact congrArg (some first :: ·) (ih.mp read)
      · intro same
        cases ws with
        | nil => cases same
        | cons w ws =>
          obtain ⟨⟨⟩, rest⟩ := List.cons.inj same
          exact ⟨ws, ih.mpr rest, rfl⟩

/-! ### Statements -/

variable {scope : Scope}

/-- A literal and a semicolon. -/
private theorem written_literal_semicolon (text : String) :
    Written [] (fun ws => ∃ d d', ws = [⟨.str (Utf8.encode text.toList), d⟩, ⟨.mark .semicolon, d'⟩])
      (Quoted.text text.toList ++ [';']) := by
  refine ((Written.nil.mark .semicolon).firm (isFirmSpelling_text _)).mono ?_
  rintro _ ⟨d, _, rfl, d', _, rfl, rfl⟩
  exact ⟨d, d', rfl⟩

private theorem writtenLines_import (scope : Scope) (path : String) :
    WrittenLines [] (IsFileStatement scope · (.imported false path))
      [SchemaFile.importLine "import " path] := by
  have line := (written_literal_semicolon path).space.word Keyword.importWord.isSpelling
    (isApart_cons.mpr rfl)
  have whole : (SchemaFile.importLine "import " path).toList =
      Keyword.importWord.spelling.toList ++ ' ' :: (Quoted.text path.toList ++ [';']) := by
    simp [SchemaFile.importLine, Keyword.spelling]
  rw [← whole] at line
  refine (WrittenLines.single line (by simp)).mono ?_
  rintro _ ⟨d, _, rfl, d', d'', rfl⟩
  exact .imported (.plain .last (Utf8.decode?_encode path))

private theorem writtenLines_publicImport (scope : Scope) (path : String) :
    WrittenLines [] (IsFileStatement scope · (.imported true path))
      [SchemaFile.importLine "import public " path] := by
  have shared := (written_literal_semicolon path).space.word Keyword.publicWord.isSpelling
    (isApart_cons.mpr rfl)
  have line := shared.space.word Keyword.importWord.isSpelling (isApart_cons.mpr rfl)
  have whole : (SchemaFile.importLine "import public " path).toList =
      Keyword.importWord.spelling.toList ++ ' ' :: (Keyword.publicWord.spelling.toList ++
        ' ' :: (Quoted.text path.toList ++ [';'])) := by
    simp [SchemaFile.importLine, Keyword.spelling]
  rw [← whole] at line
  refine (WrittenLines.single line (by simp)).mono ?_
  rintro _ ⟨d, _, rfl, c, _, rfl, d', d'', rfl⟩
  exact .imported (.shared .last (Utf8.decode?_encode path))

/-- The version statement is read back. -/
private theorem writtenLines_version {f : SchemaFile}
    (known : f.version = none ∨ f.version = some knownVersion) :
    WrittenLines [] (IsVersion · f.version) f.versionLines := by
  unfold SchemaFile.versionLines
  rcases known with none | some
  · rw [none]
    exact WrittenLines.nil.mono fun _ same => same ▸ .absent
  · rw [some]
    have assigned := (written_literal_semicolon knownVersion).space.mark .equals
    have line := assigned.space.word Keyword.syntaxWord.isSpelling (isApart_cons.mpr rfl)
    have whole : ("syntax = " ++ String.ofList (Quoted.text knownVersion.toList) ++ ";").toList =
        Keyword.syntaxWord.spelling.toList ++ ' ' :: '=' :: ' ' ::
          (Quoted.text knownVersion.toList ++ [';']) := by
      simp [Keyword.spelling]
    rw [Mark.char, ← whole] at line
    refine (WrittenLines.single line (by simp)).mono ?_
    rintro _ ⟨d, _, rfl, c, _, rfl, d', d'', rfl⟩
    exact .present .last (Utf8.decode?_encode knownVersion)

/-- The package declaration is read back. -/
private theorem writtenLines_package {package : String} (h : IsIdent package) :
    WrittenLines [] (fun ws => ∃ d d' d'', ws = [⟨Keyword.packageWord.token, d⟩,
      ⟨.ident package, d'⟩, ⟨.mark .semicolon, d''⟩]) ["package " ++ package ++ ";"] := by
  have name := (Written.nil.mark .semicolon).word h.isSpelling (isApart_cons.mpr rfl)
  have line := name.space.word Keyword.packageWord.isSpelling (isApart_cons.mpr rfl)
  have whole : ("package " ++ package ++ ";").toList =
      Keyword.packageWord.spelling.toList ++ ' ' :: (package.toList ++ [';']) := by
    simp [Keyword.spelling]
  rw [Mark.char, ← whole] at line
  refine (WrittenLines.single line (by simp)).mono ?_
  rintro _ ⟨d, _, rfl, d', _, rfl, d'', _, rfl, rfl⟩
  exact ⟨d, d', d'', rfl⟩

namespace SchemaFile

variable {f : SchemaFile}

/-- The statements that stand in front of a late package. -/
private def early (f : SchemaFile) : List FileStatement :=
  f.imports.map (.imported false) ++ (f.publicImports.map (.imported true) ++
    (f.options.map .option ++ ((f.types.take f.typesBeforePackage).map (.type .start) ++
      (f.services.take f.servicesBeforePackage).map (.service .start))))

/-- The statements that stand behind every package. -/
private def late (f : SchemaFile) : List FileStatement :=
  (f.types.drop f.typesBeforePackage).map (.type .start) ++ (f.extendBlocks.map .extend ++
    (f.services.drop f.servicesBeforePackage).map (.service .start))

private theorem isFileStatement_type {ws : List Word} {t : TypeDecl} (h : IsTypePhrase scope ws t) :
    IsFileStatement scope ws (.type .start t) := by
  cases t with
  | message m => exact .message h
  | enumType e => exact .enumType h

private theorem writtenLines_types {ts : List TypeDecl} (built : ∀ t ∈ ts, t.Built)
    (h : ∀ t ∈ ts, t.Writable scope) :
    WrittenLines (ts.flatMap TypeDecl.settingNames)
      (IsSequence (IsFileStatement scope) · (ts.map (.type .start))) (ts.flatMap TypeDecl.lines) :=
  (WrittenLines.flatMap (TypeDecl.writtenLines_of_mem scope ts built h)).mono fun _ row =>
    row.map fun _ _ => isFileStatement_type

private theorem writtenLines_services {ss : List Service} (built : ∀ s ∈ ss, s.Built)
    (h : ∀ s ∈ ss, s.Writable scope) :
    WrittenLines (ss.flatMap Service.settingNames)
      (IsSequence (IsFileStatement scope) · (ss.map (.service .start)))
      (ss.flatMap Service.lines) :=
  (WrittenLines.flatMap fun s member => Service.writtenLines (built s member) (h s member)).mono
    fun _ row => row.map fun _ _ => .service

private theorem writtenLines_imports (scope : Scope) (f : SchemaFile) :
    WrittenLines [] (IsSequence (IsFileStatement scope) ·
      (f.imports.map (.imported false) ++ f.publicImports.map (.imported true))) f.importLines := by
  have plain := WrittenLines.flatMap fun path (_ : path ∈ f.imports) =>
    writtenLines_import scope path
  have shared := WrittenLines.flatMap fun path (_ : path ∈ f.publicImports) =>
    writtenLines_publicImport scope path
  rw [← List.map_eq_flatMap] at plain shared
  refine ((plain.append shared).congr (by simp [flatMap_nil])).mono ?_
  rintro _ ⟨us, vs, rfl, first, second⟩
  exact (first.map fun _ _ => id).append (second.map fun _ _ => id)

/-- What stands in front of a late package is read back. -/
private theorem writtenLines_early (parts : f.IsMadeOfParts) (options : ∀ s ∈ f.options, s.Writable)
    (types : ∀ t ∈ f.types.take f.typesBeforePackage, t.Writable scope)
    (services : ∀ s ∈ f.services.take f.servicesBeforePackage, s.Writable scope) :
    WrittenLines (f.options.flatMap Setting.settingNames ++
        ((f.types.take f.typesBeforePackage).flatMap TypeDecl.settingNames ++
          (f.services.take f.servicesBeforePackage).flatMap Service.settingNames))
      (IsSequence (IsFileStatement scope) · f.early)
      (f.importLines ++ (f.options.map Setting.line ++
        ((f.types.take f.typesBeforePackage).flatMap TypeDecl.lines ++
          (f.services.take f.servicesBeforePackage).flatMap Service.lines))) := by
  have typeRow := writtenLines_types (fun t member => parts.types t (List.mem_of_mem_take member)) types
  have serviceRow := writtenLines_services
    (fun s member => parts.services s (List.mem_of_mem_take member)) services
  have rows := (writtenLines_imports scope f).append ((Setting.writtenLines options).append
    (typeRow.append serviceRow))
  refine (rows.congr (by simp)).mono ?_
  rintro _ ⟨is, _, rfl, imports, os, _, rfl, options, ts, ss, rfl, types, services⟩
  have whole := imports.append ((options.map fun _ _ => IsFileStatement.option).append
    (types.append services))
  simpa [early] using whole

/-- What stands behind every package is read back. -/
private theorem writtenLines_late (parts : f.IsMadeOfParts)
    (types : ∀ t ∈ f.types.drop f.typesBeforePackage, t.Writable scope)
    (extendBlocks : ∀ e ∈ f.extendBlocks, e.Writable)
    (services : ∀ s ∈ f.services.drop f.servicesBeforePackage, s.Writable scope) :
    WrittenLines ((f.types.drop f.typesBeforePackage).flatMap TypeDecl.settingNames ++
        (f.extendBlocks.flatMap ExtendBlock.settingNames ++
          (f.services.drop f.servicesBeforePackage).flatMap Service.settingNames))
      (IsSequence (IsFileStatement scope) · f.late)
      ((f.types.drop f.typesBeforePackage).flatMap TypeDecl.lines ++
        (f.extendBlocks.flatMap ExtendBlock.lines ++
          (f.services.drop f.servicesBeforePackage).flatMap Service.lines)) := by
  have typeRow := writtenLines_types (fun t member => parts.types t (List.mem_of_mem_drop member)) types
  have extendRow := WrittenLines.flatMap fun e member =>
    ExtendBlock.writtenLines (parts.extendBlocks e member) (extendBlocks e member)
  have serviceRow := writtenLines_services
    (fun s member => parts.services s (List.mem_of_mem_drop member)) services
  refine (typeRow.append (extendRow.append serviceRow)).mono ?_
  rintro _ ⟨ts, _, rfl, types, es, ss, rfl, extendBlocks, services⟩
  exact types.append ((extendBlocks.map fun _ _ => IsFileStatement.extend).append services)

private theorem sections_flatten (f : SchemaFile) :
    f.sections.flatten = f.versionLines ++ ((if f.packageFirst then f.packageLines else []) ++
      ((f.importLines ++ (f.options.map Setting.line ++
        ((f.types.take f.typesBeforePackage).flatMap TypeDecl.lines ++
          (f.services.take f.servicesBeforePackage).flatMap Service.lines))) ++
      ((if f.packageFirst then [] else f.packageLines) ++
        ((f.types.drop f.typesBeforePackage).flatMap TypeDecl.lines ++
          (f.extendBlocks.flatMap ExtendBlock.lines ++
            (f.services.drop f.servicesBeforePackage).flatMap Service.lines))))) := by
  simp [sections, List.flatMap_def]

/-- The names in a file, as the settings with them are written. -/
private theorem hasSignedPath_settingNames (f : SchemaFile) :
    HasSignedPath f.settingNames ↔ HasSignedPath
      ((f.options.flatMap Setting.settingNames ++
        ((f.types.take f.typesBeforePackage).flatMap TypeDecl.settingNames ++
          (f.services.take f.servicesBeforePackage).flatMap Service.settingNames)) ++
      ((f.types.drop f.typesBeforePackage).flatMap TypeDecl.settingNames ++
        (f.extendBlocks.flatMap ExtendBlock.settingNames ++
          (f.services.drop f.servicesBeforePackage).flatMap Service.settingNames))) := by
  have types : f.types.flatMap TypeDecl.settingNames =
      (f.types.take f.typesBeforePackage).flatMap TypeDecl.settingNames ++
        (f.types.drop f.typesBeforePackage).flatMap TypeDecl.settingNames := by
    rw [← List.flatMap_append, List.take_append_drop]
  have services : f.services.flatMap Service.settingNames =
      (f.services.take f.servicesBeforePackage).flatMap Service.settingNames ++
        (f.services.drop f.servicesBeforePackage).flatMap Service.settingNames := by
    rw [← List.flatMap_append, List.take_append_drop]
  simp only [settingNames, types, services, hasSignedPath_append]
  grind

/-! ### Files -/

/-- The words of a file of the grammar that holds what this one does. -/
def IsFileOf (f : SchemaFile) (ws : List Word) : Prop :=
  ∃ t, IsFile ws t ∧ t.body = f.toFileBody

private theorem filterMap_early (f : SchemaFile) :
    f.early.filterMap FileStatement.type? = f.types.take f.typesBeforePackage ∧
    f.early.filterMap FileStatement.service? = f.services.take f.servicesBeforePackage := by
  simp [-List.map_take, early, List.filterMap_map, Function.comp_def,
    FileStatement.type?, FileStatement.service?]

/-- The statements of a file hold what the file does. -/
private theorem filterMap_statements (f : SchemaFile) :
    (f.early ++ f.late).filterMap (FileStatement.import? false) = f.imports ∧
    (f.early ++ f.late).filterMap (FileStatement.import? true) = f.publicImports ∧
    (f.early ++ f.late).filterMap FileStatement.type? = f.types ∧
    (f.early ++ f.late).filterMap FileStatement.service? = f.services ∧
    (f.early ++ f.late).filterMap FileStatement.extend? = f.extendBlocks ∧
    (f.early ++ f.late).filterMap FileStatement.option? = f.options := by
  simp [-List.map_take, -List.map_drop, early, late, List.filterMap_map, Function.comp_def,
    FileStatement.type?, FileStatement.service?, FileStatement.import?, FileStatement.extend?,
    FileStatement.option?]

private theorem body_eq {t : FileText} (version : t.version = f.version)
    (package : (t.package.map (·.1)).getD "" = f.package)
    (statements : t.statements = f.early ++ f.late)
    (types : t.countBefore FileStatement.type? = f.typesBeforePackage)
    (services : t.countBefore FileStatement.service? = f.servicesBeforePackage) :
    t.body = f.toFileBody := by
  obtain ⟨imports, publicImports, allTypes, allServices, extendBlocks, options⟩ :=
    filterMap_statements f
  simp only [FileText.body, version, package, statements, types, services, imports, publicImports,
    allTypes, allServices, extendBlocks, options]

private theorem packageLines_eq (some : f.package ≠ "") :
    f.packageLines = ["package " ++ f.package ++ ";"] :=
  if_neg some

/-- A file that is made of its parts counts no more in front of its package than it has. -/
private theorem beforePackage_le (parts : f.IsMadeOfParts) :
    f.typesBeforePackage ≤ f.types.length ∧ f.servicesBeforePackage ≤ f.services.length := by
  obtain ⟨_, made⟩ := make_eq_ok_iff.mp parts.made
  rw [← made]
  exact ⟨Nat.min_le_right _ _, Nat.min_le_right _ _⟩

/-- A file without a late package is read back. -/
private theorem writtenLines_of_packageFirst (parts : f.IsMadeOfParts) (h : f.Writable)
    (first : f.packageFirst = true) :
    WrittenLines f.settingNames (IsFileOf f) f.sections.flatten := by
  -- Nothing counts as standing in front of the package, so no scope but that of the package is
  -- used.
  have none : f.typesBeforePackage = 0 ∧ f.servicesBeforePackage = 0 := by
    simpa [packageFirst] using first
  have noTypes : ∀ t ∈ f.types.take f.typesBeforePackage, t.Writable (packageScope f.package) := by
    simp [none.1]
  have noServices : ∀ s ∈ f.services.take f.servicesBeforePackage,
      s.Writable (packageScope f.package) := by
    simp [none.2]
  have early := writtenLines_early parts h.options noTypes noServices
  have rows := early.append (writtenLines_late parts h.types h.extendBlocks h.services)
  have version := writtenLines_version h.version
  rw [sections_flatten, if_pos first, if_pos first, List.nil_append]
  by_cases package : f.package = ""
  · have scope : packageScope f.package = [] := if_pos package
    have lines : f.packageLines = [] := if_pos package
    rw [scope] at rows
    rw [lines]
    refine ((version.append rows).congr (hasSignedPath_settingNames f).symm).mono ?_
    rintro _ ⟨vs, _, rfl, version, us, ws, rfl, early, late⟩
    refine ⟨_, .withoutPackage version (early.append late), body_eq rfl package.symm ?_ ?_ ?_⟩
    · simp [FileText.statements]
    · simp [FileText.countBefore, none.1]
    · simp [FileText.countBefore, none.2]
  · have scope : packageScope f.package = [f.package] := if_neg package
    have name : IsIdent f.package := h.package.resolve_right fun absent => package absent.1
    rw [scope] at rows
    rw [packageLines_eq package]
    refine ((version.append ((writtenLines_package name).append rows)).congr
      (hasSignedPath_settingNames f).symm).mono ?_
    rintro _ ⟨vs, _, rfl, version, _, _, rfl, ⟨d, d', d'', rfl⟩, us, ws, rfl, early, late⟩
    refine ⟨_, .withPackage version .nil (early.append late), body_eq rfl rfl ?_ ?_ ?_⟩
    · simp [FileText.statements]
    · simp [FileText.countBefore, none.1]
    · simp [FileText.countBefore, none.2]

/-- A file with a late package is read back. -/
private theorem writtenLines_of_late (parts : f.IsMadeOfParts) (h : f.Writable)
    (late : f.packageFirst = false) :
    WrittenLines f.settingNames (IsFileOf f) f.sections.flatten := by
  -- Only behind a package can something stand in front of it.
  have name : IsIdent f.package := by
    refine h.package.resolve_right fun absent => ?_
    simp [packageFirst, absent.2] at late
  have package : f.package ≠ "" := name.ne_empty
  have scope : packageScope f.package = [f.package] := if_neg package
  have behind := writtenLines_late parts h.types h.extendBlocks h.services
  have before := writtenLines_early parts h.options h.typesBefore h.servicesBefore
  have version := writtenLines_version h.version
  rw [scope] at behind
  rw [sections_flatten, late, packageLines_eq package]
  refine ((version.append (before.append ((writtenLines_package name).append behind))).congr
    (by simpa using (hasSignedPath_settingNames f).symm)).mono ?_
  rintro _ ⟨vs, _, rfl, version, us, _, rfl, early, _, ws, rfl, ⟨d, d', d'', rfl⟩, late⟩
  obtain ⟨types, services⟩ := filterMap_early f
  obtain ⟨typesLe, servicesLe⟩ := beforePackage_le parts
  refine ⟨_, .withPackage version early late, body_eq rfl rfl rfl ?_ ?_⟩
  · simp [FileText.countBefore, types, typesLe]
  · simp [FileText.countBefore, services, servicesLe]

/-- A file is read back from its sections. -/
theorem writtenLines (built : f.Built) (h : f.Writable) :
    WrittenLines f.settingNames (IsFileOf f) f.sections.flatten := by
  have parts := isMadeOfParts_of_built built
  cases first : f.packageFirst with
  | true => exact writtenLines_of_packageFirst parts h first
  | false => exact writtenLines_of_late parts h first

/-- Each section has words of its own, or a fault among them. -/
private theorem spell_sections (parts : f.IsMadeOfParts) (h : f.Writable) :
    ∀ lines ∈ f.sections, ∃ pieces, lines.Spell pieces := by
  have spelled {names : List String} {P : List Word → Prop} {lines : Lines}
      (written : WrittenLines names P lines) : ∃ pieces, lines.Spell pieces :=
    let ⟨pieces, spell, _⟩ := written
    ⟨pieces, spell⟩
  have version := writtenLines_version h.version
  have package : ∃ pieces, f.packageLines.Spell pieces := by
    rcases h.package with name | ⟨none, _⟩
    · rw [packageLines_eq name.ne_empty]
      exact spelled (writtenLines_package name)
    · rw [packageLines, if_pos none]
      exact ⟨[], .nil⟩
  have types {scope : Scope} {t : TypeDecl} (member : t ∈ f.types) (h : t.Writable scope) :
      ∃ pieces, t.lines.Spell pieces :=
    spelled (TypeDecl.writtenLines scope t (parts.types t member) h)
  have services {scope : Scope} {s : Service} (member : s ∈ f.services) (h : s.Writable scope) :
      ∃ pieces, s.lines.Spell pieces :=
    spelled (Service.writtenLines (parts.services s member) h)
  simp only [sections, List.forall_mem_append, List.forall_mem_cons, List.forall_mem_map]
  obtain ⟨packagePieces, packageSpell⟩ := package
  obtain ⟨versionPieces, versionSpell, _⟩ := version
  refine ⟨⟨⟨⟨⟨⟨⟨?_, ?_, ?_, nofun⟩, ?_⟩, ?_⟩, ?_, nofun⟩, ?_⟩, ?_⟩, ?_⟩
  · cases f.packageFirst
    · exact ⟨_, versionSpell.append .nil⟩
    · exact ⟨_, versionSpell.append packageSpell⟩
  · exact spelled (writtenLines_imports [] f)
  · exact spelled (Setting.writtenLines h.options)
  · exact fun t member => types (List.mem_of_mem_take member) (h.typesBefore t member)
  · exact fun s member => services (List.mem_of_mem_take member) (h.servicesBefore s member)
  · cases f.packageFirst
    · exact ⟨_, packageSpell⟩
    · exact ⟨[], .nil⟩
  · exact fun t member => types (List.mem_of_mem_drop member) (h.types t member)
  · exact fun e member =>
      spelled (ExtendBlock.writtenLines (parts.extendBlocks e member) (h.extendBlocks e member))
  · exact fun s member => services (List.mem_of_mem_drop member) (h.services s member)

/-- A built file that can be written is read back unless it is nested too deeply or there is a path
behind a signed name in it. -/
theorem parse_text_iff (built : f.Built) (h : f.Writable) :
    parse {} f.name f.text.toList = .ok f ↔
      f.depth ≤ Reading.nestingLimit ∧ ¬ HasSignedPath f.settingNames := by
  have parts := isMadeOfParts_of_built built
  obtain ⟨pieces, spelled, faults, phrase⟩ := writtenLines built h
  have words : (TokenStream.ofText {} f.text.toList).words? = wordsAfter pieces (some []) := by
    have read := spelled 0 []
    rw [List.append_nil, wordsFrom_nil] at read
    rw [← read, ← wordsFrom_sections (spell_sections parts h)]
    exact Lexer.words?_run _
  rw [← faults]
  unfold parse
  rw [Reading.ofStream_file_iff (TokenStream.ofText_isProper _ _) fun _ =>
    TokenStream.ne_eof_of_mem_ofText, words]
  constructor
  · rintro ⟨ws, _, same, _, _, depth⟩
    rw [wordsAfter_eq_some_iff] at same
    exact ⟨depth, by simp [← same]⟩
  · rintro ⟨depth, noFault⟩
    obtain ⟨ws, same⟩ := exists_map_some noFault
    obtain ⟨t, isFile, body⟩ := phrase ws same
    exact ⟨ws, t, wordsAfter_eq_some_iff.mpr same, isFile, body ▸ parts.made, depth⟩

/-- A built file that can be written, without paths behind signed names, is read back from its text
exactly if it is not nested too deeply. -/
theorem parse_text_eq_ok_iff_depth (built : f.Built) (h : f.Writable)
    (unsigned : ∀ n ∈ f.settingNames, ¬ IsSignedPath n) :
    parse {} f.name f.text.toList = .ok f ↔ f.depth ≤ Reading.nestingLimit := by
  have noFault : ¬ HasSignedPath f.settingNames := fun ⟨n, member, path⟩ => unsigned n member path
  exact (parse_text_iff built h).trans (and_iff_left noFault)

end SchemaFile

/-- A message with documentation, a map, extensions and an option of all kinds of values. -/
def entryMessage : Message where
  name := "Entry"
  fullName := "Entry"
  doc := "An entry.\n\n  It has a body."
  fields := [⟨.required, "bytes", "body", 1, "As it is sent.", [⟨"default", .bytes [0xff]⟩]⟩,
    ⟨.repeated, "map<string, .Entry>", "parts", 2, "", []⟩]
  nested := []
  extendBlocks := []
  extensions := [⟨"", 100, maxTag⟩]
  options := [⟨"(tags).all", .list [.int (-1), .str "a\t\"b", .map [⟨"[kind]", .ident "-inf"⟩]]⟩]

/-- A file whose package stands behind that message. -/
def journalFile : SchemaFile where
  package := "journal.v1"
  typesBeforePackage := 1
  servicesBeforePackage := 0
  version := some knownVersion
  imports := ["base.proto"]
  publicImports := []
  types := [.message entryMessage]
  services := [⟨"Journal", "journal.v1.Journal", "", [], [⟨"Append", "", "Entry", ".Entry", []⟩]⟩]
  extendBlocks := []
  options := [⟨"scale", .float ⟨false, 0x4004000000000000, by decide⟩⟩]
  name := "journal.proto"

private theorem entryMessage_built : entryMessage.Built := by
  have fields : ∀ f ∈ entryMessage.fields, f.Built := by
    refine List.forall_mem_cons.mpr ⟨⟨.required, "bytes", "body", 1, _, _, rfl⟩,
      List.forall_mem_singleton.mpr ⟨.repeated, "map<string, .Entry>", "parts", 2, _, _, rfl⟩⟩
  have made : Message.make "Entry" "Entry" entryMessage.doc ⟨entryMessage.fields, [], [],
      entryMessage.extensions, entryMessage.options⟩ = .ok entryMessage := rfl
  exact .make fields (List.forall_mem_nil _) (List.forall_mem_nil _)
    (List.forall_mem_singleton.mpr ⟨"", 100, maxTag, rfl⟩) made

private theorem journalFile_built : journalFile.Built := by
  have types : ∀ t ∈ journalFile.types, t.Built :=
    List.forall_mem_singleton.mpr (.message entryMessage_built)
  have methods : ∀ m ∈ ([⟨"Append", "", "Entry", ".Entry", []⟩] : List Method), m.Built :=
    List.forall_mem_singleton.mpr ⟨"Append", "", "Entry", ".Entry", [], rfl⟩
  have services : ∀ s ∈ journalFile.services, s.Built :=
    List.forall_mem_singleton.mpr ⟨"Journal", "journal.v1.Journal", "", [], _, methods, rfl⟩
  exact ⟨"journal.proto", journalFile.toFileBody, types, services, List.forall_mem_nil _, rfl⟩

private theorem entryMessage_writable : entryMessage.Writable [] := by
  have default : (⟨"default", .bytes [0xff]⟩ : Setting).Writable := by
    refine ⟨@IsOptionText.plain "default" "" (by decide) (.inl rfl), ?_⟩
    simp only [Value.Writable]
    decide
  have fields : ∀ f ∈ entryMessage.fields, f.Writable ∨ f.IsWritableMap := by
    refine List.forall_mem_cons.mpr ⟨.inl ?_, List.forall_mem_singleton.mpr (.inr ?_)⟩
    · exact ⟨by decide, by decide, by decide, List.forall_mem_singleton.mpr default⟩
    · exact ⟨rfl, ⟨"string", ".Entry", by decide, by decide, rfl⟩, by decide, by decide,
        List.forall_mem_nil _⟩
  have tags : ∀ s ∈ entryMessage.options, s.Writable := by
    have name := @IsOptionText.extension "tags" ".all" (by decide) (.inr (by decide))
    have kind := @IsKeyText.extension "kind" (by decide)
    refine List.forall_mem_singleton.mpr ⟨name, ?_⟩
    simp only [Value.Writable, Value.AllWritable, Setting.AllWritable, Setting.IsWritableEntry]
    exact ⟨by decide, trivial, ⟨⟨kind, by decide⟩, trivial⟩, trivial⟩
  exact .intro (by decide) rfl (by decide) fields (List.forall_mem_nil _) (List.forall_mem_nil _)
    (List.forall_mem_singleton.mpr (by decide)) tags

private theorem journalFile_writable : journalFile.Writable where
  version := .inr rfl
  package := .inl (by decide)
  typesBefore := List.forall_mem_singleton.mpr (.message entryMessage_writable)
  types := List.forall_mem_nil _
  servicesBefore := List.forall_mem_nil _
  services := by
    have methods : ∀ m ∈ ([⟨"Append", "", "Entry", ".Entry", []⟩] : List Method), m.Writable :=
      List.forall_mem_singleton.mpr
        ⟨by decide, by decide, by decide, by decide, List.forall_mem_nil _⟩
    exact List.forall_mem_singleton.mpr ⟨by decide, rfl, by decide, methods, List.forall_mem_nil _⟩
  extendBlocks := List.forall_mem_nil _
  options := by
    refine List.forall_mem_singleton.mpr
      ⟨@IsOptionText.plain "scale" "" (by decide) (.inl rfl), ?_⟩
    simp only [Value.Writable]
    decide

theorem journalFile_parse_text : journalFile.Built ∧ journalFile.Writable ∧
    parse {} "journal.proto" journalFile.text.toList = .ok journalFile := by
  refine ⟨journalFile_built, journalFile_writable, ?_⟩
  exact (SchemaFile.parse_text_eq_ok_iff_depth journalFile_built journalFile_writable
    (by decide)).mpr (by decide)

end ProtoSchema
