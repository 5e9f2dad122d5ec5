import Msp430.Text.Basic

/-!
# Names

What may name a label or a constant. Names are ASCII, and two names that differ
only in letter case are the same name.
-/

namespace Msp430

namespace Text

/-- An identifier: a letter, then letters, digits and underscores. -/
def isIdentifier : Text → Bool
  | [] => false
  | first :: rest => first.isAlpha && rest.all (fun c => c.isAlphanum || c == '_')

end Text

end Msp430
