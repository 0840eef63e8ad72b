import FormulaEditor.Text.Quoted
import FormulaEditor.Text.Decimal
import FormulaEditor.Text.Numeral
import FormulaEditor.Formula.Likeness
import FormulaEditor.Formula.WellFormed
import FormulaEditor.Formula.Listing
import FormulaEditor.Formula.Selection
import FormulaEditor.Latex.Diagnostic
import FormulaEditor.Latex.Vocabulary
import FormulaEditor.Latex.Suggestions
import FormulaEditor.Latex.Lexer
import FormulaEditor.Latex.Reader
import FormulaEditor.Latex.Writer
import FormulaEditor.Speech
import FormulaEditor.Editor.Error
import FormulaEditor.Typeset.Spacing
import FormulaEditor.Typeset.Style
import FormulaEditor.Typeset.Glyph
import FormulaEditor.Typeset.Box
import FormulaEditor.Typeset.Grid
import FormulaEditor.Typeset.Layout
import FormulaEditor.Typeset.Rules
import FormulaEditor.Formula.Splice
import FormulaEditor.Editor.Key
import FormulaEditor.Editor.Journal
import FormulaEditor.History
import FormulaEditor.Formula.Placeholders
import FormulaEditor.Editor.State
import FormulaEditor.Editor.Stops
import FormulaEditor.Editor.Display
import FormulaEditor.Editor.Movement
import FormulaEditor.Editor.Selecting
import FormulaEditor.Editor.CommandEntry
import FormulaEditor.Editor.CommandRun
import FormulaEditor.Editor.Deletion
import FormulaEditor.Editor.Insertion
import FormulaEditor.Editor.Scripts
import FormulaEditor.Field.Command
import FormulaEditor.Field.Keymap
import FormulaEditor.Field.Shortcuts
import FormulaEditor.Field.State
import FormulaEditor.Field.Typing
import FormulaEditor.Settings.Toml
import FormulaEditor.Settings.Basic
import FormulaEditor.CommandLine.Request
import FormulaEditor.CommandLine.Answer
import FormulaEditor.Main
import FormulaEditor.Proofs.Formula.Edits
import FormulaEditor.Proofs.Formula.Making
import FormulaEditor.Proofs.Formula.Descent
import FormulaEditor.Proofs.Formula.Location
import FormulaEditor.Proofs.Editor.Sound
import FormulaEditor.Proofs.Editor.Opened
import FormulaEditor.Proofs.Editor.Stops
import FormulaEditor.Proofs.Editor.Navigation
import FormulaEditor.Proofs.Editor.Selecting
import FormulaEditor.Proofs.Latex.Reading
import FormulaEditor.Proofs.Latex.WellFormed
import FormulaEditor.Proofs.Editor.Deleting
import FormulaEditor.Proofs.Editor.Inserting
import FormulaEditor.Proofs.Editor.Scripting
import FormulaEditor.Proofs.Editor.CommandTyping
import FormulaEditor.Proofs.Editor.Operations
import FormulaEditor.Proofs.Editor.Resting
import FormulaEditor.Proofs.Editor.Suggesting
import FormulaEditor.Proofs.Field.Sound
import FormulaEditor.Proofs.Field.Resting
import FormulaEditor.Proofs.Field.Invariant
import FormulaEditor.Proofs.Field.Placed
import FormulaEditor.Proofs.Latex.Spelling
import FormulaEditor.Proofs.Latex.Lexing
import FormulaEditor.Proofs.Latex.Legible
import FormulaEditor.Proofs.Formula.Alike
import FormulaEditor.Proofs.Formula.Resemblance
import FormulaEditor.Proofs.Latex.Writing
import FormulaEditor.Proofs.Latex.ReadingBack
import FormulaEditor.Proofs.Latex.Identities
import FormulaEditor.Proofs.Editor.Placing
import FormulaEditor.Proofs.Editor.Replacing
import FormulaEditor.Proofs.Editor.Completing
import FormulaEditor.Proofs.Field.Completing
import FormulaEditor.Proofs.Editor.Erasing
import FormulaEditor.Proofs.Field.Substituting
import FormulaEditor.Proofs.Latex.Faultless
import FormulaEditor.Proofs.Latex.RoundTrip
import FormulaEditor.Proofs.Latex.Readable
import FormulaEditor.Proofs.Formula.Consisting
import FormulaEditor.Proofs.Editor.Consisting
import FormulaEditor.Proofs.Editor.Entering
import FormulaEditor.Proofs.Field.Keys
import FormulaEditor.Proofs.Latex.Fragments
import FormulaEditor.Proofs.Field.ReadingBack
import FormulaEditor.Proofs.History.Timeline
import FormulaEditor.Proofs.Field.Undoing
import FormulaEditor.Proofs.Formula.Regular
import FormulaEditor.Proofs.Latex.Regular
import FormulaEditor.Proofs.Field.Reverting
import FormulaEditor.Proofs.Field.UpToDate
import FormulaEditor.Proofs.Latex.Arranged
import FormulaEditor.Proofs.Formula.Weight
import FormulaEditor.Proofs.Formula.Ledger
import FormulaEditor.Proofs.Latex.Weighing
import FormulaEditor.Proofs.Latex.Weighing.Reading
import FormulaEditor.Proofs.Latex.Shown
import FormulaEditor.Proofs.Latex.Arguments
import FormulaEditor.Proofs.Editor.Conserving
import FormulaEditor.Proofs.Editor.Conserving.Operations
import FormulaEditor.Proofs.Field.Distinct
import FormulaEditor.Proofs.Editor.Refusing
import FormulaEditor.Proofs.Field.Refusing
import FormulaEditor.Proofs.Latex.Consisting
import FormulaEditor.Proofs.Formula.Filtering
import FormulaEditor.Proofs.Field.CommandMode
import FormulaEditor.Proofs.Typeset.Boxes
import FormulaEditor.Proofs.Typeset.Frames
import FormulaEditor.Proofs.Typeset.Shown
import FormulaEditor.Proofs.Typeset.Finding
import FormulaEditor.Proofs.Typeset.Owners
import FormulaEditor.Proofs.Editor.Displaying
import FormulaEditor.Proofs.Typeset.Marked
import FormulaEditor.Proofs.Editor.Showing
import FormulaEditor.Proofs.Latex.Branches
import FormulaEditor.Proofs.Latex.Cutting
import FormulaEditor.Proofs.Latex.Balance
import FormulaEditor.Proofs.Latex.Reporting
import FormulaEditor.Proofs.Latex.Lossless
import FormulaEditor.Proofs.Editor.StopOrder
import FormulaEditor.Proofs.Field.Matching
import FormulaEditor.Proofs.Field.Firing
import FormulaEditor.Proofs.Editor.Stepping
import FormulaEditor.Proofs.Editor.Tabbing
import FormulaEditor.Proofs.Editor.Framing
import FormulaEditor.Proofs.Editor.Taking
import FormulaEditor.Proofs.Editor.InsertionFrame
import FormulaEditor.Proofs.Latex.Using
import FormulaEditor.Proofs.Editor.Surviving
import FormulaEditor.Proofs.Latex.TextGroups
import FormulaEditor.Proofs.Latex.PlainText
import FormulaEditor.Proofs.Editor.InsertingText
import FormulaEditor.Proofs.Field.PlainTyping
import FormulaEditor.Proofs.Formula.Solid
import FormulaEditor.Proofs.Editor.Losing
import FormulaEditor.Proofs.Editor.Growing
import FormulaEditor.Proofs.Editor.Promoting
import FormulaEditor.Proofs.Editor.Spanning
import FormulaEditor.Proofs.Latex.Braced
import FormulaEditor.Proofs.Editor.Wrapping
import FormulaEditor.Proofs.Editor.Cancelling
import FormulaEditor.Proofs.Latex.Surrounding
import FormulaEditor.Proofs.Field.Unrecorded
import FormulaEditor.Proofs.Field.Retracting
import FormulaEditor.Proofs.Editor.Backspacing
import FormulaEditor.Proofs.Typeset.Operands
import FormulaEditor.Proofs.Latex.Progress
import FormulaEditor.Proofs.Editor.KeyText
import FormulaEditor.Proofs.Latex.Spans
import FormulaEditor.Proofs.Latex.Trimming
import FormulaEditor.Proofs.CommandLine.Filling
import FormulaEditor.Proofs.Formula.Lens
import FormulaEditor.Proofs.Editor.Withdrawing
import FormulaEditor.Proofs.Speech.Composing
import FormulaEditor.Proofs.Speech.ReadingText
import FormulaEditor.Proofs.Formula.PathText
