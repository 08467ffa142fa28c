import Mathlib.Tactic.ByContra
import RoleAudit.Command.Run

/-!
# What a check tells about what fails

A check can fail at its settings, at the name of its format, at a folder that cannot be listed, and
at any of its files.  The first three end it with one line; a file that fails costs its own report
and nothing else.  This module says, apart from the run, what becomes of one file (`Reports`,
`FailsWith`) and of a list of files (`Gathers`), which checks fail (`CheckRequest.Fails`) and which
find something (`CheckRequest.Finds`).

Main statement: `check_is_faithful`.  Every check that a command line asks for ends as these
relations say: with the number for its worst outcome, with the reports of all files that have one in
the format asked for, and with a line for each thing that failed, in order.
-/

namespace RoleAudit.Command

open RoleAudit.Audit
open RoleAudit.Files (Disk SourceFile)
open RoleAudit.Markup (Document SyntaxError)
open RoleAudit.Report (Format FormatTable FormatError simpleLine simpleText)
open RoleAudit.Role (Registry)
open RoleAudit.Settings (Wording)
open RoleAudit.Text (Dictionary)

/-! ### One file -/

/-- A file has a report: it can be read, holds text, and the text is markup. -/
inductive Reports (rules : List Rule) (file : SourceFile) : FileReport → Prop
  | markup {bytes : ByteArray} {source : String} {document : Document}
      (hread : file.contents = .ok bytes) (htext : String.fromUTF8? bytes = some source)
      (hparse : Document.parse source = .ok document) :
      Reports rules file ⟨file.path, auditDocument rules document source⟩

/-- A file has no report: it cannot be read, holds no text, or the text is no markup. -/
inductive FailsWith (file : SourceFile) : FileError → Prop
  | unreadable {fault : Files.ReadFault} (hread : file.contents = .error fault) :
      FailsWith file (.unreadable file.path fault)
  | notText {bytes : ByteArray} (hread : file.contents = .ok bytes)
      (htext : String.fromUTF8? bytes = none) : FailsWith file (.unreadable file.path .notText)
  | notMarkup {bytes : ByteArray} {source : String} {e : SyntaxError}
      (hread : file.contents = .ok bytes) (htext : String.fromUTF8? bytes = some source)
      (hparse : Document.parse source = .error e) : FailsWith file (.notMarkup file.path e)

theorem Reports.auditFile_eq {rules : List Rule} {file : SourceFile} {report : FileReport}
    (h : Reports rules file report) : auditFile rules file = .ok report := by
  obtain ⟨hread, htext, hparse⟩ := h
  simp [auditFile, hread, Except.bind, Disk.decode, htext, auditSource, hparse, Except.map]

theorem FailsWith.auditFile_eq {rules : List Rule} {file : SourceFile} {e : FileError}
    (h : FailsWith file e) : auditFile rules file = .error e := by
  cases h with
  | unreadable hread => simp [auditFile, hread, Except.bind]
  | notText hread htext => simp [auditFile, hread, Except.bind, Disk.decode, htext]
  | notMarkup hread htext hparse =>
      simp [auditFile, hread, Except.bind, Disk.decode, htext, auditSource, hparse, Except.map]

/-- Every file has a report or fails. -/
theorem exists_reports_or_failsWith (rules : List Rule) (file : SourceFile) :
    (∃ report, Reports rules file report) ∨ ∃ e, FailsWith file e := by
  cases hread : file.contents with
  | error fault => exact .inr ⟨_, .unreadable hread⟩
  | ok bytes =>
      cases htext : String.fromUTF8? bytes with
      | none => exact .inr ⟨_, .notText hread htext⟩
      | some source =>
          cases hparse : Document.parse source with
          | error e => exact .inr ⟨_, .notMarkup hread htext hparse⟩
          | ok document => exact .inl ⟨_, .markup hread htext hparse⟩

/-! ### All files -/

/-- The reports of some files and the errors of the others, each in the order of the files. -/
inductive Gathers (rules : List Rule) :
    List SourceFile → List FileReport → List FileError → Prop
  | nil : Gathers rules [] [] []
  | report {file : SourceFile} {files : List SourceFile} {report : FileReport}
      {reports : List FileReport} {errors : List FileError} (h : Reports rules file report)
      (hothers : Gathers rules files reports errors) :
      Gathers rules (file :: files) (report :: reports) errors
  | failure {file : SourceFile} {files : List SourceFile} {e : FileError}
      {reports : List FileReport} {errors : List FileError} (h : FailsWith file e)
      (hothers : Gathers rules files reports errors) :
      Gathers rules (file :: files) reports (e :: errors)

namespace Gathers

variable {rules : List Rule} {files : List SourceFile} {reports : List FileReport}
  {errors : List FileError}

theorem exists_of_files (rules : List Rule) (files : List SourceFile) :
    ∃ reports errors, Gathers rules files reports errors := by
  induction files with
  | nil => exact ⟨[], [], .nil⟩
  | cons file files ih =>
      obtain ⟨reports, errors, hothers⟩ := ih
      rcases exists_reports_or_failsWith rules file with ⟨report, h⟩ | ⟨e, h⟩
      · exact ⟨report :: reports, errors, .report h hothers⟩
      · exact ⟨reports, e :: errors, .failure h hothers⟩

theorem reports_eq (h : Gathers rules files reports errors) :
    (files.map (auditFile rules)).filterMap Except.toOption = reports := by
  induction h with
  | nil => rfl
  | report h _ ih => rw [List.map_cons, h.auditFile_eq, List.filterMap_cons, ih]; rfl
  | failure h _ ih => rw [List.map_cons, h.auditFile_eq, List.filterMap_cons, ih]; rfl

theorem errorLines_eq (h : Gathers rules files reports errors) :
    (files.map (auditFile rules)).filterMap CheckRequest.errorLine? =
      errors.map CheckRequest.errorLine := by
  induction h with
  | nil => rfl
  | report h _ ih => rw [List.map_cons, h.auditFile_eq, List.filterMap_cons, ih]; rfl
  | failure h _ ih => rw [List.map_cons, h.auditFile_eq, List.filterMap_cons, ih]; rfl

/-- A file fails exactly if there are errors. -/
theorem exists_failsWith_iff (h : Gathers rules files reports errors) :
    (∃ file ∈ files, ∃ e, FailsWith file e) ↔ errors ≠ [] := by
  induction h with
  | nil => simp
  | @report file files report reports errors h _ ih =>
      have hno : ¬ ∃ e, FailsWith file e := by
        rintro ⟨e, he⟩
        have heq := h.auditFile_eq.symm.trans he.auditFile_eq
        cases heq
      simp [hno, ih]
  | failure h _ ih => simpa using Or.inl ⟨_, h⟩

/-- A file has a report with diagnostics exactly if one of the reports has. -/
theorem exists_reports_iff (h : Gathers rules files reports errors) :
    (∃ file ∈ files, ∃ report, Reports rules file report ∧ report.diagnostics ≠ []) ↔
      reports.all FileReport.isClean = false := by
  induction h with
  | nil => simp
  | @report file files report reports errors h _ ih =>
      have hreport : (∃ other, Reports rules file other ∧ other.diagnostics ≠ []) ↔
          report.diagnostics ≠ [] := by
        constructor
        · rintro ⟨other, hother, hne⟩
          obtain rfl := Except.ok.inj (h.auditFile_eq.symm.trans hother.auditFile_eq)
          exact hne
        · exact fun hne => ⟨report, h, hne⟩
      simp only [List.mem_cons, exists_eq_or_imp, hreport, ih, List.all_cons, Bool.and_eq_false_iff,
        FileReport.isClean, List.isEmpty_eq_false_iff]
  | @failure file files e reports errors h _ ih =>
      have hno : ¬ ∃ report, Reports rules file report ∧ report.diagnostics ≠ [] := by
        rintro ⟨report, hreport, -⟩
        have heq := hreport.auditFile_eq.symm.trans h.auditFile_eq
        cases heq
      simp only [List.mem_cons, exists_eq_or_imp, hno, false_or, ih]

end Gathers

/-! ### Formats -/

theorem names_standard : FormatTable.standard.names = ["json", "simple", "yaml"] := by
  decide

/-- A table has a format under each of its names, and under no other. -/
theorem get?_isNone_iff {table : FormatTable} {name : String} :
    (table.get? name).isNone = true ↔ name ∉ table.names := by
  rw [FormatTable.names, Dictionary.mem_keys_iff, FormatTable.get?]
  cases table.formats.get? name <;> simp

/-- None of the known formats fails. -/
theorem exists_render_standard {name : String} (h : name ∈ FormatTable.standard.names)
    (reports : List FileReport) :
    ∃ output, FormatTable.standard.render name reports = .ok output := by
  rw [names_standard] at h
  simp only [List.mem_cons, List.not_mem_nil, or_false] at h
  rcases h with rfl | rfl | rfl <;> exact ⟨_, rfl⟩

theorem render_simple (reports : List FileReport) :
    FormatTable.standard.render "simple" reports = .ok (simpleText reports) :=
  rfl

/-- The lines for people are empty exactly if no report holds a diagnostic. -/
theorem simpleText_eq_empty_iff (reports : List FileReport) :
    simpleText reports = "" ↔ reports.all FileReport.isClean = true := by
  have hlines : (reports.flatMap fun r => r.diagnostics.map (simpleLine r.path)) = [] ↔
      reports.all FileReport.isClean = true := by
    simp [FileReport.isClean]
  rw [← hlines]
  unfold simpleText
  cases reports.flatMap fun r => r.diagnostics.map (simpleLine r.path) with
  | nil => simp
  | cons line lines =>
      -- the number of the lines is written below them
      simp only [List.length_cons, Nat.add_one_ne_zero, if_false, reduceCtorEq, iff_false]
      intro hempty
      have hlength := congrArg String.length hempty
      simp [String.length_append] at hlength

/-! ### Runs -/

namespace CheckRequest

/-- A check fails: at its settings, its format, a folder or a file. -/
inductive Fails (disk : Disk) (r : CheckRequest) : Prop
  | settings {fault : Settings.Fault} (h : r.options disk = .error fault)
  | format (h : r.format ∉ FormatTable.standard.names)
  | folder {folder : Files.ClosedFolder} (h : Files.expand disk r.paths = .error folder)
  | file {files : List SourceFile} {file : SourceFile} {e : FileError}
      (hfiles : Files.expand disk r.paths = .ok files) (hfile : file ∈ files)
      (h : FailsWith file e)

/-- The rules of a check with some options. -/
def rules (options : RoleOptions) : List Rule :=
  [(⟨Registry.standard, options⟩ : RoleRule).rule]

/-- A check finds something: one of its files has a report with diagnostics. -/
inductive Finds (disk : Disk) (r : CheckRequest) : Prop
  | report {options : RoleOptions} {files : List SourceFile} {file : SourceFile}
      {report : FileReport} (hoptions : r.options disk = .ok options)
      (hfiles : Files.expand disk r.paths = .ok files) (hfile : file ∈ files)
      (h : Reports (rules options) file report) (hne : report.diagnostics ≠ [])

/-- What a check may end with.  A failure before the first file leaves nothing but its line. -/
structure IsFaithful (wording : Wording) (disk : Disk) (r : CheckRequest) (outcome : Outcome) :
    Prop where
  settings_fail : ∀ fault, r.options disk = .error fault →
    outcome = ⟨2, "", "Configuration error: " ++ fault.message wording ++ "\n"⟩
  format_unknown : ∀ options, r.options disk = .ok options →
    r.format ∉ FormatTable.standard.names →
      outcome = ⟨2, "", "Unknown format '" ++ r.format ++ "'. Available formats: " ++
        ", ".intercalate FormatTable.standard.names ++ "\n"⟩
  folder_closed : ∀ options folder, r.options disk = .ok options →
    r.format ∈ FormatTable.standard.names → Files.expand disk r.paths = .error folder →
      outcome = ⟨2, "", "Error: " ++ folder.path ++ ": " ++ folder.fault.message ++ "\n"⟩
  /-- Whatever files fail, the others are reported and those are named. -/
  files_gathered : ∀ options files, r.options disk = .ok options →
    r.format ∈ FormatTable.standard.names → Files.expand disk r.paths = .ok files →
      ∃ reports errors, Gathers (rules options) files reports errors ∧
        FormatTable.standard.render r.format reports = .ok outcome.stdout ∧
        outcome.stderr = String.join (errors.map fun e => "Error: " ++ e.message ++ "\n")
  exit_failed : r.Fails disk → outcome.exit = 2
  exit_found : ¬ r.Fails disk → r.Finds disk → outcome.exit = 1
  exit_clean : ¬ r.Fails disk → ¬ r.Finds disk → outcome.exit = 0
  simple_empty_iff : r.format = "simple" → ¬ r.Fails disk →
    (outcome.stdout = "" ↔ outcome.exit = 0)

variable {wording : Wording} {disk : Disk} {r : CheckRequest}

theorem run_of_settings {fault : Settings.Fault} (h : r.options disk = .error fault) :
    r.run wording disk = ⟨2, "", "Configuration error: " ++ fault.message wording ++ "\n"⟩ := by
  rw [run, h]
  rfl

section Settings

variable {options : RoleOptions} (hoptions : r.options disk = .ok options)
include hoptions

theorem run_of_format (h : r.format ∉ FormatTable.standard.names) :
    r.run wording disk = ⟨2, "", "Unknown format '" ++ r.format ++ "'. Available formats: " ++
      ", ".intercalate FormatTable.standard.names ++ "\n"⟩ := by
  simp only [run, hoptions, get?_isNone_iff.2 h, if_true]
  rfl

variable (hformat : r.format ∈ FormatTable.standard.names)
include hformat

theorem run_of_folder {folder : Files.ClosedFolder}
    (h : Files.expand disk r.paths = .error folder) :
    r.run wording disk = ⟨2, "", "Error: " ++ folder.path ++ ": " ++ folder.fault.message ++ "\n"⟩ := by
  have hknown : ¬ (FormatTable.standard.get? r.format).isNone = true := fun hnone =>
    get?_isNone_iff.1 hnone hformat
  simp only [run, hoptions, if_neg hknown, h]
  simp [errorLine, FileError.message, String.append_assoc, exitFailed]

/-- A check that gets as far as its files is told by the reports and the errors of these. -/
theorem run_of_files {files : List SourceFile} {reports : List FileReport}
    {errors : List FileError} (h : Files.expand disk r.paths = .ok files)
    (hgathers : Gathers (rules options) files reports errors) :
    ∃ output, FormatTable.standard.render r.format reports = .ok output ∧
      r.run wording disk =
        ⟨if errors ≠ [] then 2 else if reports.all FileReport.isClean then 0 else 1, output,
          String.join (errors.map fun e => "Error: " ++ e.message ++ "\n")⟩ := by
  have hknown : ¬ (FormatTable.standard.get? r.format).isNone = true := fun hnone =>
    get?_isNone_iff.1 hnone hformat
  obtain ⟨output, houtput⟩ := exists_render_standard hformat reports
  refine ⟨output, houtput, ?_⟩
  have hreports := hgathers.reports_eq
  have herrors := hgathers.errorLines_eq
  rw [rules] at hreports herrors
  simp only [run, hoptions, if_neg hknown, h, audit, hreports, herrors, houtput]
  cases errors <;> rfl

end Settings

/-- A check that does not fail is told by the reports of its files alone. -/
theorem run_of_not_fails (h : ¬ r.Fails disk) : ∃ options files reports output,
    r.options disk = .ok options ∧ Files.expand disk r.paths = .ok files ∧
      Gathers (rules options) files reports [] ∧
      FormatTable.standard.render r.format reports = .ok output ∧
      r.run wording disk = ⟨if reports.all FileReport.isClean then 0 else 1, output, ""⟩ := by
  have hformat : r.format ∈ FormatTable.standard.names := by
    by_contra hunknown
    exact h (.format hunknown)
  cases hoptions : r.options disk with
  | error fault => exact absurd (.settings hoptions) h
  | ok options =>
      cases hexpand : Files.expand disk r.paths with
      | error folder => exact absurd (.folder hexpand) h
      | ok files =>
          obtain ⟨reports, errors, hgathers⟩ := Gathers.exists_of_files (rules options) files
          obtain rfl : errors = [] := by
            by_contra hne
            obtain ⟨file, hfile, e, he⟩ := hgathers.exists_failsWith_iff.2 hne
            exact h (.file hexpand hfile he)
          obtain ⟨output, houtput, hrun⟩ := run_of_files hoptions hformat hexpand hgathers
          exact ⟨options, files, reports, output, rfl, rfl, hgathers, houtput, hrun⟩

/-- Whatever fails is told by the number of the run. -/
theorem Fails.exit_eq (h : r.Fails disk) : (r.run wording disk).exit = 2 := by
  cases hoptions : r.options disk with
  | error fault => rw [run_of_settings hoptions]
  | ok options =>
      by_cases hformat : r.format ∈ FormatTable.standard.names
      · cases hexpand : Files.expand disk r.paths with
        | error folder => rw [run_of_folder hoptions hformat hexpand]
        | ok files =>
            obtain ⟨reports, errors, hgathers⟩ := Gathers.exists_of_files (rules options) files
            obtain ⟨output, -, hrun⟩ := run_of_files hoptions hformat hexpand hgathers
            -- of the ways to fail only that of a file is left
            have hfile : ∃ file ∈ files, ∃ e, FailsWith file e := by
              cases h with
              | settings h => simp [hoptions] at h
              | format h => exact absurd hformat h
              | folder h => simp [hexpand] at h
              | file hfiles hfile h =>
                  obtain rfl := Except.ok.inj (hexpand.symm.trans hfiles)
                  exact ⟨_, hfile, _, h⟩
            rw [hrun, if_pos (hgathers.exists_failsWith_iff.1 hfile)]
      · rw [run_of_format hoptions hformat]

theorem finds_iff {options : RoleOptions} {files : List SourceFile} {reports : List FileReport}
    {errors : List FileError} (hoptions : r.options disk = .ok options)
    (hfiles : Files.expand disk r.paths = .ok files)
    (hgathers : Gathers (rules options) files reports errors) :
    r.Finds disk ↔ reports.all FileReport.isClean = false := by
  rw [← hgathers.exists_reports_iff]
  constructor
  · rintro ⟨hoptions', hfiles', hfile, h, hne⟩
    obtain rfl := Except.ok.inj (hoptions.symm.trans hoptions')
    obtain rfl := Except.ok.inj (hfiles.symm.trans hfiles')
    exact ⟨_, hfile, _, h, hne⟩
  · rintro ⟨file, hfile, report, h, hne⟩
    exact ⟨hoptions, hfiles, hfile, h, hne⟩

theorem run_isFaithful (wording : Wording) (disk : Disk) (r : CheckRequest) :
    r.IsFaithful wording disk (r.run wording disk) where
  settings_fail _ h := run_of_settings h
  format_unknown _ hoptions h := run_of_format hoptions h
  folder_closed _ _ hoptions hformat h := run_of_folder hoptions hformat h
  files_gathered options files hoptions hformat h := by
    obtain ⟨reports, errors, hgathers⟩ := Gathers.exists_of_files (rules options) files
    obtain ⟨output, houtput, hrun⟩ := run_of_files hoptions hformat h hgathers
    rw [hrun]
    exact ⟨reports, errors, hgathers, houtput, rfl⟩
  exit_failed h := h.exit_eq
  exit_found h hfinds := by
    obtain ⟨options, files, reports, output, hoptions, hfiles, hgathers, -, hrun⟩ :=
      run_of_not_fails h
    rw [hrun, (finds_iff hoptions hfiles hgathers).1 hfinds]
    rfl
  exit_clean h hfinds := by
    obtain ⟨options, files, reports, output, hoptions, hfiles, hgathers, -, hrun⟩ :=
      run_of_not_fails h
    rw [finds_iff hoptions hfiles hgathers, Bool.not_eq_false] at hfinds
    rw [hrun, if_pos hfinds]
  simple_empty_iff hsimple h := by
    obtain ⟨options, files, reports, output, -, -, -, houtput, hrun⟩ := run_of_not_fails h
    rw [hsimple, render_simple] at houtput
    rw [hrun, ← Except.ok.inj houtput]
    simp only [simpleText_eq_empty_iff]
    split <;> simp_all

end CheckRequest

/-- Every check that a command line asks for tells faithfully what failed and what was found,
whatever is said of settings that are no TOML. -/
theorem check_is_faithful (wording : Wording) (disk : Disk) (arguments : List String)
    (r : CheckRequest) (h : Request.parse? arguments = some (.check r)) :
    r.IsFaithful wording disk (run disk arguments wording) := by
  have hrun : run disk arguments wording = r.run wording disk := by
    rw [run, h]
    rfl
  rw [hrun]
  exact r.run_isFaithful wording disk

/-- A folder with a file that is there and nothing else. -/
def sampleDisk : Disk :=
  (Files.Node.folder [("a.jsx", .file (.ok "<p />".toUTF8))]).find

/-- A request for the file that is there and one that is not. -/
def sampleRequest : CheckRequest := { paths := ["b.jsx", "a.jsx"], format? := some "json" }

theorem check_is_faithful_sample :
    Request.parse? ["check", "b.jsx", "-f=json", "a.jsx"] = some (.check sampleRequest) ∧
      sampleRequest.IsFaithful .plain sampleDisk
        (run sampleDisk ["check", "b.jsx", "-f=json", "a.jsx"] .plain) :=
  ⟨by decide +kernel, check_is_faithful _ _ _ _ (by decide +kernel)⟩

end RoleAudit.Command
