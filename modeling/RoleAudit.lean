import RoleAudit.Audit.FileAudit
import RoleAudit.Audit.RoleRule
import RoleAudit.Audit.RoleValue
import RoleAudit.Audit.Rule
import RoleAudit.Command.Request
import RoleAudit.Command.Run
import RoleAudit.Decimal.FloatText
import RoleAudit.Decimal.Shortest
import RoleAudit.Files.Node
import RoleAudit.Files.Path
import RoleAudit.Files.Sources
import RoleAudit.Json.Fault
import RoleAudit.Json.Reading
import RoleAudit.Json.Value
import RoleAudit.Main
import RoleAudit.Markup.Grammar
import RoleAudit.Markup.Mode
import RoleAudit.Markup.Quoted
import RoleAudit.Markup.Reader
import RoleAudit.Markup.Scanner
import RoleAudit.Markup.SyntaxError
import RoleAudit.Markup.Token
import RoleAudit.Markup.Tree
import RoleAudit.Markup.Walk
import RoleAudit.Proofs.Assignments
import RoleAudit.Proofs.Blame
import RoleAudit.Proofs.BracedProse
import RoleAudit.Proofs.BracedRoles
import RoleAudit.Proofs.Braces
import RoleAudit.Proofs.ByteOrder
import RoleAudit.Proofs.CheckRuns
import RoleAudit.Proofs.ClosingBraces
import RoleAudit.Proofs.Complaints
import RoleAudit.Proofs.Completeness
import RoleAudit.Proofs.Concatenation
import RoleAudit.Proofs.Coupling
import RoleAudit.Proofs.Coverage
import RoleAudit.Proofs.Derivation
import RoleAudit.Proofs.Escapes
import RoleAudit.Proofs.Excerpts
import RoleAudit.Proofs.Exchange
import RoleAudit.Proofs.Extents
import RoleAudit.Proofs.Failures
import RoleAudit.Proofs.FirstOffence
import RoleAudit.Proofs.Following
import RoleAudit.Proofs.Forward
import RoleAudit.Proofs.JsonOutlines
import RoleAudit.Proofs.JsonReports
import RoleAudit.Proofs.JsonScalars
import RoleAudit.Proofs.Language
import RoleAudit.Proofs.LastEntries
import RoleAudit.Proofs.LayerOrder
import RoleAudit.Proofs.Lockstep
import RoleAudit.Proofs.Lookahead
import RoleAudit.Proofs.LooseLanguage
import RoleAudit.Proofs.Mismatch
import RoleAudit.Proofs.Modes
import RoleAudit.Proofs.Numerals
import RoleAudit.Proofs.Offences
import RoleAudit.Proofs.Offsets
import RoleAudit.Proofs.Operators
import RoleAudit.Proofs.OptionReadings
import RoleAudit.Proofs.OverrideKeys
import RoleAudit.Proofs.Parts
import RoleAudit.Proofs.Pieces
import RoleAudit.Proofs.Placement
import RoleAudit.Proofs.Positions
import RoleAudit.Proofs.Precedence
import RoleAudit.Proofs.Printing
import RoleAudit.Proofs.ProseText
import RoleAudit.Proofs.QuotedRoles
import RoleAudit.Proofs.Reads
import RoleAudit.Proofs.RegistryTexts
import RoleAudit.Proofs.RegistryViews
import RoleAudit.Proofs.Relaxation
import RoleAudit.Proofs.Relexing
import RoleAudit.Proofs.Relocation
import RoleAudit.Proofs.Replacement
import RoleAudit.Proofs.Rules
import RoleAudit.Proofs.SettingPlaces
import RoleAudit.Proofs.Soundness
import RoleAudit.Proofs.SourceFiles
import RoleAudit.Proofs.Spelling
import RoleAudit.Proofs.StaticValues
import RoleAudit.Proofs.Sums
import RoleAudit.Proofs.Templates
import RoleAudit.Proofs.Traversal
import RoleAudit.Proofs.Viability
import RoleAudit.Proofs.WordSets
import RoleAudit.Report.Format
import RoleAudit.Report.JsonText
import RoleAudit.Report.Outline
import RoleAudit.Report.YamlScalar
import RoleAudit.Report.YamlText
import RoleAudit.Role.FromJson
import RoleAudit.Role.Registry
import RoleAudit.Role.Standard
import RoleAudit.Settings.Fault
import RoleAudit.Settings.Layers
import RoleAudit.Settings.Options
import RoleAudit.Settings.Order
import RoleAudit.Settings.Path
import RoleAudit.Settings.Value
import RoleAudit.Text.Blank
import RoleAudit.Text.Dictionary
import RoleAudit.Text.Lowercase
import RoleAudit.Text.Position
import RoleAudit.Text.Shown
import RoleAudit.Text.Visible
import RoleAudit.Toml.DateTime
import RoleAudit.Toml.Document
import RoleAudit.Toml.Draft
import RoleAudit.Toml.Number
import RoleAudit.Toml.Quoted
import RoleAudit.Toml.Value
