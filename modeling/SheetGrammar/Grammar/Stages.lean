import SheetGrammar.Grammar.Defaults
import SheetGrammar.Grammar.Flatten
import SheetGrammar.Grammar.Inference
import SheetGrammar.Log

/-!
Resolution of a grammar: defaults, then qualified names, then tapes.
-/

namespace SheetGrammar.Grammar

def defaultsStage : Stage Grammar Grammar := Stage.reporting fun g => (g.assignDefaults, [])

def namesStage : Stage Grammar Grammar := Stage.reporting qualifyNames

def tapesStage : Stage Grammar Grammar := fun g log => (g.inferTapes.1, log.reportAll g.inferTapes.2)

def resolution : Stage Grammar Grammar := (defaultsStage.andThen namesStage).andThen tapesStage

end SheetGrammar.Grammar
