import SheetGrammar.Sheet.Statements
import SheetGrammar.Sheet.Tables
import SheetGrammar.Sheet.TestColumns

/-!
From a sheet to its grammar: tables written out, tests trimmed to the columns that fit, then the statements read.
-/

namespace SheetGrammar.Sheet.Tree

def tablesStage : Stage Tree Tree := Stage.reporting fun tree => (tree.withTables, tree.implicitTables)

def testColumnsStage : Stage Tree Tree := Stage.reporting fun tree => (tree.withTestColumns, tree.misfits)

def grammarStage : Stage Tree Grammar := fun tree log =>
  (.ok tree.grammar.value, (log.reportAll tree.grammar.messages).addTests tree.grammar.tests)

def interpretation : Stage Tree Grammar := (tablesStage.andThen testColumnsStage).andThen grammarStage

end SheetGrammar.Sheet.Tree
