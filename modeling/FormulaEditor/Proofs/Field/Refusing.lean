import FormulaEditor.Proofs.Editor.Refusing
import FormulaEditor.Proofs.Field.Placed

/-!
# Refused commands of a field

A command that a field refuses changes neither the formula nor the selection nor the mode. The state
may have been recorded before the command was tried, and an undo may have gone to the end of the
history to find that there is nothing before it; neither shows.
-/

namespace FormulaEditor

namespace Field

variable {f : Field} {c : Command} {reason : EditError}

/-! ## Steps of the history -/

theorem ofEditor_record (f : Field) :
    Snapshot.ofEditor f.record.editor = Snapshot.ofEditor f.editor := rfl

end Field

end FormulaEditor
