import ExportDesk.Alert
import ExportDesk.Command.Announce
import ExportDesk.Command.Build
import ExportDesk.Command.Display
import ExportDesk.Command.OutputPath
import ExportDesk.CommandLine.Reading
import ExportDesk.CommandLine.Request
import ExportDesk.CommandLine.Usage
import ExportDesk.Files.Disk
import ExportDesk.Files.Error
import ExportDesk.Files.Links
import ExportDesk.Files.Path
import ExportDesk.Files.Tree
import ExportDesk.Format
import ExportDesk.Host
import ExportDesk.Json.Forms
import ExportDesk.Json.Number
import ExportDesk.Json.Reader
import ExportDesk.Json.Shape
import ExportDesk.Json.Writer
import ExportDesk.Locations
import ExportDesk.Log.Config
import ExportDesk.Log.ExportLog
import ExportDesk.Log.FileName
import ExportDesk.Log.Level
import ExportDesk.Log.Mark
import ExportDesk.Log.ProgramLog
import ExportDesk.Main
import ExportDesk.Number.Binary64
import ExportDesk.Number.Field
import ExportDesk.Number.Layout
import ExportDesk.Number.Literal
import ExportDesk.Number.Power
import ExportDesk.Number.Shortest
import ExportDesk.Options
import ExportDesk.OutputFolder
import ExportDesk.Program.Choices
import ExportDesk.Program.Export
import ExportDesk.Program.Listing
import ExportDesk.Program.Preview
import ExportDesk.Program.Run
import ExportDesk.Proofs.Command.Arguments
import ExportDesk.Proofs.Command.Groups
import ExportDesk.Proofs.Command.Lines
import ExportDesk.Proofs.Command.Numbers
import ExportDesk.Proofs.Command.OutputName
import ExportDesk.Proofs.Command.Unambiguous
import ExportDesk.Proofs.Files.Beside
import ExportDesk.Proofs.Files.Changes
import ExportDesk.Proofs.Files.Components
import ExportDesk.Proofs.Files.Grown
import ExportDesk.Proofs.Files.Interrupted
import ExportDesk.Proofs.Files.Links
import ExportDesk.Proofs.Files.Moved
import ExportDesk.Proofs.Files.Replace
import ExportDesk.Proofs.Files.Tree
import ExportDesk.Proofs.Host
import ExportDesk.Proofs.Log.FileName
import ExportDesk.Proofs.Log.History
import ExportDesk.Proofs.Log.Silenced
import ExportDesk.Proofs.Log.Transcript
import ExportDesk.Proofs.Number.Decimals
import ExportDesk.Proofs.Number.Fields
import ExportDesk.Proofs.Number.Literals
import ExportDesk.Proofs.Number.Plain
import ExportDesk.Proofs.Number.Rounding
import ExportDesk.Proofs.OutputFolder
import ExportDesk.Proofs.Program.KeptSettings
import ExportDesk.Proofs.Program.LastInput
import ExportDesk.Proofs.Program.Phases
import ExportDesk.Proofs.Program.Quiet
import ExportDesk.Proofs.Program.Shown
import ExportDesk.Proofs.Program.Sparing
import ExportDesk.Proofs.Record
import ExportDesk.Proofs.Session
import ExportDesk.Proofs.Settings.Failures
import ExportDesk.Proofs.Settings.Fields
import ExportDesk.Proofs.Settings.Layout
import ExportDesk.Proofs.Settings.Printing
import ExportDesk.Proofs.Settings.Revised
import ExportDesk.Proofs.Settings.Sections
import ExportDesk.Proofs.Settings.Settled
import ExportDesk.Proofs.Settings.Store
import ExportDesk.Proofs.Settings.Written
import ExportDesk.Proofs.Text.Blank
import ExportDesk.Proofs.Text.Lines
import ExportDesk.Proofs.Text.Pieces
import ExportDesk.Proofs.Text.Utf8
import ExportDesk.Proofs.Toml.Agreement
import ExportDesk.Proofs.Toml.Around
import ExportDesk.Proofs.Toml.Bare
import ExportDesk.Proofs.Toml.Blanks
import ExportDesk.Proofs.Toml.Comments
import ExportDesk.Proofs.Toml.Keys
import ExportDesk.Proofs.Toml.Laid
import ExportDesk.Proofs.Toml.Lines
import ExportDesk.Proofs.Toml.Lossless
import ExportDesk.Proofs.Toml.Remarks
import ExportDesk.Proofs.Toml.Replaced
import ExportDesk.Proofs.Toml.Reprint
import ExportDesk.Proofs.Toml.Scalars
import ExportDesk.Proofs.Toml.Separate
import ExportDesk.Proofs.Toml.Spans
import ExportDesk.Proofs.Toml.Spellings
import ExportDesk.Proofs.Toml.Statements
import ExportDesk.Proofs.Toml.Steady
import ExportDesk.Proofs.Toml.Strings
import ExportDesk.Proofs.Toml.Values
import ExportDesk.Proofs.Toml.Walk
import ExportDesk.Proofs.Tool.Attempt
import ExportDesk.Proofs.Tool.BlankLines
import ExportDesk.Proofs.Tool.CutCharacters
import ExportDesk.Proofs.Tool.Interleavings
import ExportDesk.Proofs.Tool.Reported
import ExportDesk.Proofs.Tool.Slices
import ExportDesk.Proofs.Tool.Stages
import ExportDesk.Proofs.Tool.Tail
import ExportDesk.Proofs.Tool.Turns
import ExportDesk.Session
import ExportDesk.Settings.Basic
import ExportDesk.Settings.Store
import ExportDesk.Settings.Toml
import ExportDesk.Shell.Arithmetic
import ExportDesk.Shell.Command
import ExportDesk.Shell.Expansion
import ExportDesk.Shell.Filter
import ExportDesk.Shell.Format
import ExportDesk.Shell.Interpreter
import ExportDesk.Shell.Launch
import ExportDesk.Shell.Machine
import ExportDesk.Shell.Pattern
import ExportDesk.Shell.Program
import ExportDesk.Shell.Token
import ExportDesk.Shell.Utility
import ExportDesk.Shell.Word
import ExportDesk.Text.Blank
import ExportDesk.Text.Fold
import ExportDesk.Text.Lines
import ExportDesk.Text.Utf8
import ExportDesk.Toml.Assembly
import ExportDesk.Toml.Document
import ExportDesk.Toml.Plain
import ExportDesk.Toml.Quoted
import ExportDesk.Toml.Reader
import ExportDesk.Toml.Scalar
import ExportDesk.Tool.Chunks
import ExportDesk.Tool.Lines
import ExportDesk.Tool.Outcome
import ExportDesk.Tool.Pipes
import ExportDesk.Tool.Reading
import ExportDesk.Tool.Run
import ExportDesk.Tool.Tail
