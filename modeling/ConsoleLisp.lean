import ConsoleLisp.Main
import ConsoleLisp.Proofs.Acyclic.Session
import ConsoleLisp.Proofs.Console.Forces
import ConsoleLisp.Proofs.Datum.Atom
import ConsoleLisp.Proofs.Datum.Freshness
import ConsoleLisp.Proofs.Datum.Literal
import ConsoleLisp.Proofs.Datum.Rejection
import ConsoleLisp.Proofs.Datum.Sequence
import ConsoleLisp.Proofs.Diagnostic.Data
import ConsoleLisp.Proofs.Diagnostic.ParseFailure
import ConsoleLisp.Proofs.Document.Settings
import ConsoleLisp.Proofs.Evaluation.Brackets
import ConsoleLisp.Proofs.Evaluation.Budget
import ConsoleLisp.Proofs.Evaluation.Depth
import ConsoleLisp.Proofs.Evaluation.FrameEffect
import ConsoleLisp.Proofs.Evaluation.Safety
import ConsoleLisp.Proofs.Evaluation.Transparency
import ConsoleLisp.Proofs.Heap.Lists
import ConsoleLisp.Proofs.Heap.Refusals
import ConsoleLisp.Proofs.Heap.Staging
import ConsoleLisp.Proofs.Layout.Session
import ConsoleLisp.Proofs.Level.Document
import ConsoleLisp.Proofs.Memory.Installation
import ConsoleLisp.Proofs.Memory.Session
import ConsoleLisp.Proofs.Native.Calls
import ConsoleLisp.Proofs.Refinement.Session
import ConsoleLisp.Proofs.Scope.Binding
import ConsoleLisp.Proofs.Scope.Lexical
import ConsoleLisp.Proofs.Source.Partition
import ConsoleLisp.Proofs.Value.Cut
