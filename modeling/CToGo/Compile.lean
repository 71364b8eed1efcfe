import CToGo.Files.Tree
import CToGo.Lowering.Program
import CToGo.Source.Parser.Program
import CToGo.Target.Printer

/-!
# Compilation

The whole way from a source text to a target text.
-/

namespace CToGo

/-- The target file of a source program, with the services that the rules ask for. -/
def compileProgram (rules : List Rule) (p : Source.Program) : Lowered Target.File :=
  p.lower (requirements rules p)

/-- The target text of a source program. -/
def compileTree (rules : List Rule) (p : Source.Program) : Except Diagnostic String :=
  match compileProgram rules p with
  | .ok file => .ok file.text
  | .error r => .error r.toDiagnostic

/-- The target text of a source text, whose diagnostics name `file`. -/
def compile (rules : List Rule) (file source : String) : Except Diagnostic String := do
  compileTree rules (← Source.parse file source)

/-- The target text of the source text in a file; diagnostics name its path. -/
def compilePath (files : Files.FileTree) (path : String) : Except Diagnostic String :=
  match files.readText path with
  | .ok source => compile Rule.standard path source
  | .error e => .error (.file e.message)

end CToGo
