/-!
What a run of the compiler may be told.
-/

namespace SheetGrammar

structure Settings where
  /-- Whether messages that are mere information are kept. -/
  reportInfo : Bool := true
  /-- Whether a warning makes a run fail. -/
  failOnWarnings : Bool := false
deriving DecidableEq, Repr

end SheetGrammar
