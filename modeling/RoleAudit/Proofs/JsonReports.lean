import RoleAudit.Proofs.JsonOutlines
import RoleAudit.Report.Format

/-!
# Reading reports back

Nothing of a report is lost in its JSON text: a reader that knows the names of the fields gets the
same reports back, in their order and with all that they hold.  So different reports are never
rendered as the same text.  The numbers in reports are places in a source, which 64 bits hold.

Main statements: `readReports?_ofReports` and `render_json_reads_back`.
-/

namespace RoleAudit.Report

open RoleAudit.Audit (Diagnostic FileReport)
open RoleAudit.Json (Value member?)
open RoleAudit.Text (Span Position Location)

/-! ### Reading by names -/

/-- The text that a value is. -/
def readText? : Value → Option String
  | .string text => some text
  | _ => none

/-- The number that a value is. -/
def readNumber? : Value → Option Nat
  | .number (.natural n) => some n
  | _ => none

/-- The items of a list, each read in the same way. -/
def readItems? {α : Type} (item : Value → Option α) : Value → Option (List α)
  | .array items => items.mapM item
  | _ => none

/-- The field of a name, read in some way. -/
def readField? {α : Type} (name : String) (field : Value → Option α) : Value → Option α
  | .object members => (member? name members).bind field
  | _ => none

def readSpan? (v : Value) : Option Span := do
  return ⟨← readField? "start" readNumber? v, ← readField? "end" readNumber? v⟩

def readPosition? (v : Value) : Option Position := do
  return ⟨← readField? "line" readNumber? v, ← readField? "column" readNumber? v⟩

def readLocation? (v : Value) : Option Location := do
  return ⟨← readField? "start" readPosition? v, ← readField? "end" readPosition? v⟩

def readDiagnostic? (v : Value) : Option Diagnostic := do
  return ⟨← readField? "rule" readText? v, ← readField? "message" readText? v,
    ← readField? "span" readSpan? v, ← readField? "location" readLocation? v⟩

def readReport? (v : Value) : Option FileReport := do
  return ⟨← readField? "path" readText? v,
    ← readField? "diagnostics" (readItems? readDiagnostic?) v⟩

/-- The reports that a value lists. -/
def readReports? : Value → Option (List FileReport) :=
  readItems? readReport?

/-! ### Reading what was laid out -/

/-- A list is read if each of its items is. -/
theorem readItems?_list {α : Type} {item : Value → Option α} {outline : α → Outline}
    (h : ∀ a, item (outline a).value = some a) (items : List α) :
    readItems? item (Outline.list (items.map outline)).value = some items := by
  simp only [Outline.value, itemValues_eq_map, readItems?, List.map_map]
  induction items with
  | nil => rfl
  | cons a items ih =>
      rw [List.map_cons, List.mapM_cons, Function.comp_apply, h, ih]
      rfl

@[simp] theorem readSpan?_ofSpan (s : Span) : readSpan? (Outline.ofSpan s).value = some s := by
  simp [Outline.ofSpan, Outline.value, readSpan?, readField?, member?, readNumber?]

@[simp] theorem readPosition?_ofPosition (p : Position) :
    readPosition? (Outline.ofPosition p).value = some p := by
  simp [Outline.ofPosition, Outline.value, readPosition?, readField?, member?, readNumber?]

@[simp] theorem readLocation?_ofLocation (l : Location) :
    readLocation? (Outline.ofLocation l).value = some l := by
  simp [Outline.ofLocation, Outline.value, readLocation?, readField?, member?]

theorem readDiagnostic?_ofDiagnostic (d : Diagnostic) :
    readDiagnostic? (Outline.ofDiagnostic d).value = some d := by
  simp [Outline.ofDiagnostic, Outline.value, readDiagnostic?, readField?, member?, readText?]

theorem readReport?_ofReport (r : FileReport) :
    readReport? (Outline.ofReport r).value = some r := by
  have hpath : readField? "path" readText? (Outline.ofReport r).value = some r.path := by
    simp [Outline.ofReport, Outline.value, readField?, member?, readText?]
  have hdiagnostics : readField? "diagnostics" (readItems? readDiagnostic?)
      (Outline.ofReport r).value = some r.diagnostics :=
    readItems?_list readDiagnostic?_ofDiagnostic r.diagnostics
  simp [readReport?, hpath, hdiagnostics]

/-- The reports are read back from what is laid out of them. -/
theorem readReports?_ofReports (reports : List FileReport) :
    readReports? (Outline.ofReports reports).value = some reports :=
  readItems?_list readReport?_ofReport reports

/-! ### What the reader bounds -/

/-- The numbers that a diagnostic holds. -/
def numbersOf (d : Diagnostic) : List Nat :=
  [d.span.start, d.span.stop, d.location.start.line, d.location.start.column,
    d.location.stop.line, d.location.stop.column]

/-- Words of 64 bits hold all places in a report. -/
def FitsWords (r : FileReport) : Prop :=
  ∀ d ∈ r.diagnostics, ∀ n ∈ numbersOf d, n < Nat.pow 2 64

instance (r : FileReport) : Decidable (FitsWords r) :=
  inferInstanceAs (Decidable (∀ d ∈ r.diagnostics, ∀ n ∈ numbersOf d, n < Nat.pow 2 64))

/-- Spans, positions and locations are records of two fields. -/
theorem fits_pair {depth : Nat} {name name' : String} {o o' : Outline} (h : o.Fits depth)
    (h' : o'.Fits depth) : (Outline.record [(name, o), (name', o')]).Fits (depth + 1) := by
  refine .record ?_
  simp only [List.forall_mem_cons]
  exact ⟨h, h', List.forall_mem_nil _⟩

theorem fits_ofDiagnostic {d : Diagnostic} {depth : Nat}
    (h : ∀ n ∈ numbersOf d, n < Nat.pow 2 64) : (Outline.ofDiagnostic d).Fits (depth + 3) := by
  simp only [numbersOf, List.forall_mem_cons] at h
  obtain ⟨hstart, hstop, hline, hcolumn, hline', hcolumn', -⟩ := h
  have hspan : (Outline.ofSpan d.span).Fits (depth + 2) :=
    fits_pair (.number hstart) (.number hstop)
  have hfrom : (Outline.ofPosition d.location.start).Fits (depth + 1) :=
    fits_pair (.number hline) (.number hcolumn)
  have hto : (Outline.ofPosition d.location.stop).Fits (depth + 1) :=
    fits_pair (.number hline') (.number hcolumn')
  have hlocation : (Outline.ofLocation d.location).Fits (depth + 2) := fits_pair hfrom hto
  refine .record ?_
  simp only [List.forall_mem_cons]
  exact ⟨.text _, .text _, hspan, hlocation, List.forall_mem_nil _⟩

theorem fits_ofReport {r : FileReport} {depth : Nat} (h : FitsWords r) :
    (Outline.ofReport r).Fits (depth + 5) := by
  refine .record ?_
  simp only [List.forall_mem_cons]
  refine ⟨.text _, .list ?_, List.forall_mem_nil _⟩
  simp only [List.forall_mem_map]
  exact fun d hd => fits_ofDiagnostic (h d hd)

/-- Reports nest no deeper than a reader goes. -/
theorem fits_ofReports {reports : List FileReport} (h : ∀ r ∈ reports, FitsWords r) :
    (Outline.ofReports reports).Fits Json.maxDepth := by
  change (Outline.ofReports reports).Fits (126 + 1)
  refine .list ?_
  simp only [List.forall_mem_map]
  exact fun r hr => fits_ofReport (h r hr)

/-! ### The format -/

theorem render_json (reports : List FileReport) :
    FormatTable.standard.render "json" reports = .ok (Outline.ofReports reports).json :=
  rfl

theorem parse_ofReports {reports : List FileReport} (h : ∀ r ∈ reports, FitsWords r) :
    Json.parse (Outline.ofReports reports).json = .ok (Outline.ofReports reports).value :=
  Json.parse_json (fits_ofReports h)

/-- The JSON text of reports is read back as these reports, so that other reports never have the
same text. -/
theorem render_json_reads_back (reports : List FileReport) (h : ∀ r ∈ reports, FitsWords r) :
    ∃ text, FormatTable.standard.render "json" reports = .ok text ∧
      (∃ value, Json.parse text = .ok value ∧ readReports? value = some reports) ∧
      ∀ others, (∀ r ∈ others, FitsWords r) → others ≠ reports →
        FormatTable.standard.render "json" others ≠ .ok text := by
  refine ⟨_, render_json reports, ⟨_, parse_ofReports h, readReports?_ofReports reports⟩, ?_⟩
  intro others hothers hne hsame
  rw [render_json, Except.ok.injEq] at hsame
  -- one text is read as one value, and this as one list of reports
  have hvalue := parse_ofReports hothers
  rw [hsame, parse_ofReports h, Except.ok.injEq] at hvalue
  have hreports := readReports?_ofReports others
  rw [← hvalue, readReports?_ofReports, Option.some.injEq] at hreports
  exact hne hreports.symm

/-- A clean report, and one on a span that ends before it starts, with texts that JSON has to
spell. -/
def awkwardReports : List FileReport :=
  [⟨"empty.jsx", []⟩,
    ⟨"a \"quoted\" \\ path", [⟨"é\n\t", "bell \x07, 𝄞 and a line\r\n", ⟨16, 5⟩,
      ⟨⟨0, 18446744073709551615⟩, ⟨0, 0⟩⟩⟩]⟩]

theorem render_json_reads_back_sample :
    (∀ r ∈ awkwardReports, FitsWords r) ∧ (∀ r ∈ awkwardReports.reverse, FitsWords r) ∧
      awkwardReports.reverse ≠ awkwardReports ∧
      ∃ text, FormatTable.standard.render "json" awkwardReports = .ok text ∧
        (∃ value, Json.parse text = .ok value ∧ readReports? value = some awkwardReports) ∧
        FormatTable.standard.render "json" awkwardReports.reverse ≠ .ok text := by
  have hwords : ∀ r ∈ awkwardReports, FitsWords r := by decide
  have hwords' : ∀ r ∈ awkwardReports.reverse, FitsWords r := by decide
  have hne : awkwardReports.reverse ≠ awkwardReports := by decide
  obtain ⟨text, hrender, hread, hothers⟩ := render_json_reads_back awkwardReports hwords
  exact ⟨hwords, hwords', hne, text, hrender, hread, hothers _ hwords' hne⟩

end RoleAudit.Report
