import PhpScribe.Main
import PhpScribe.FileTree
import PhpScribe.FunctionUnit
import PhpScribe.Proofs.Literal.Reader
import PhpScribe.Proofs.Literal.RoundTrip
import PhpScribe.Proofs.ConfigFile.Lexing
import PhpScribe.Proofs.ConfigFile.Sections
import PhpScribe.Proofs.ConfigFile.Splice
import PhpScribe.Proofs.ConfigFile.Runs
import PhpScribe.Proofs.ConfigFile.Grammar
import PhpScribe.Proofs.ConfigFile.Comments
import PhpScribe.Proofs.Sheet.Rows
import PhpScribe.Proofs.ClassUnit.Text
import PhpScribe.Proofs.FileTree.Writing
import PhpScribe.Proofs.Command.Keeping
import PhpScribe.Proofs.Command.Adding
import PhpScribe.Proofs.ClassUnit.Faults
import PhpScribe.Proofs.Lifecycle
import PhpScribe.Proofs.Manifest.Lowering
import PhpScribe.Proofs.Entries
import PhpScribe.Proofs.Literal.Evaluation
import PhpScribe.Proofs.Json.Lexing
import PhpScribe.Proofs.Json.Grammar
import PhpScribe.Proofs.Json.Integers
import PhpScribe.Proofs.ClassUnit.Reordering
import PhpScribe.Proofs.ClassUnit.Defaults
import PhpScribe.Proofs.FirstFault
import PhpScribe.Proofs.Manifest.Acceptance
import PhpScribe.Proofs.Sheet.Moves
import PhpScribe.Proofs.Literal.Fragments
import PhpScribe.Proofs.FunctionAsMethod
import PhpScribe.Proofs.ConfigFile.Answers
import PhpScribe.Proofs.Text.Lines
import PhpScribe.Proofs.Sheet.Bodies
import PhpScribe.Proofs.ClassUnit.ArgumentEdits
import PhpScribe.Proofs.FileTree.Written
import PhpScribe.Proofs.Command.DryRun
import PhpScribe.Proofs.DocComment
import PhpScribe.Proofs.ConfigFile.Offsets
import PhpScribe.Proofs.ConfigFile.Loops
import PhpScribe.Proofs.ConfigFile.Passing
import PhpScribe.Proofs.ConfigFile.Safety
import PhpScribe.Proofs.SharedData
