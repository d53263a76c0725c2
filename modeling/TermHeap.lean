import TermHeap.Cell.Word
import TermHeap.Stack
import TermHeap.HashTable.Basic
import TermHeap.HashTable.Entry
import TermHeap.HashTable.Linked
import TermHeap.Term.Equality
import TermHeap.Term.Parser
import TermHeap.Clause.Parser
import TermHeap.Program.Parser
import TermHeap.Store.Build
import TermHeap.Store.Read
import TermHeap.Unify.Basic
import TermHeap.Unify.Log
import TermHeap.Proofs.Heap.Height
import TermHeap.Proofs.Heap.References
import TermHeap.Proofs.Heap.Tree
import TermHeap.Proofs.Heap.Binding
import TermHeap.Proofs.Unify.Step
import TermHeap.Proofs.Unify.Solution
import TermHeap.Proofs.Unify.Agreement
import TermHeap.Proofs.Heap.WellFormed
import TermHeap.Proofs.Unify.Safety
import TermHeap.Proofs.Unify.MostGeneral
import TermHeap.Proofs.HashTable.Lookup
import TermHeap.Proofs.HashTable.Counting
import TermHeap.Proofs.HashTable.Chains
import TermHeap.Proofs.HashTable.Refinement
import TermHeap.Proofs.HashTable.Rebuilding
import TermHeap.Proofs.HashTable.Iteration
import TermHeap.Proofs.HashTable.FiniteMap
import TermHeap.Proofs.Store.Names
import TermHeap.Proofs.Store.Growth
import TermHeap.Proofs.Store.Layout
import TermHeap.Proofs.Store.Consistency
import TermHeap.Proofs.Store.Report
import TermHeap.Proofs.Store.Session
import TermHeap.Proofs.Store.Reading
import TermHeap.Proofs.Store.RoundTrip
import TermHeap.Proofs.Store.TwoStacks
import TermHeap.Proofs.Unify.Reporting
import TermHeap.Proofs.Unify.Termination
import TermHeap.Proofs.Store.DisplayNames
import TermHeap.Proofs.Store.Showing
import TermHeap.Proofs.Store.Reparsing
import TermHeap.Proofs.Store.Overwrite
import TermHeap.Proofs.Unify.Interleaving
import TermHeap.Proofs.Text.Grammar
import TermHeap.Proofs.Text.Lexeme
import TermHeap.Proofs.Term.Step
import TermHeap.Proofs.Term.Acceptance
import TermHeap.Proofs.Program.Acceptance
import TermHeap.Proofs.Term.Written
import TermHeap.Proofs.Heap.Reach
import TermHeap.Proofs.Unify.Writes
import TermHeap.Proofs.Program.Grouping
import TermHeap.Proofs.Program.Written
import TermHeap.Proofs.Store.PrinterRun
import TermHeap.Proofs.Store.Printing
import TermHeap.Proofs.Text.Abreast
import TermHeap.Proofs.Term.Abreast
import TermHeap.Proofs.Program.Calls
import TermHeap.Proofs.Unify.Idempotence
import TermHeap.Proofs.Term.Completion
import TermHeap.Proofs.Store.LevelOrder
import TermHeap.Proofs.Store.Blocks
import TermHeap.Proofs.Store.Sharing
import TermHeap.Proofs.Store.Editing
import TermHeap.Proofs.Heap.Following
import TermHeap.Proofs.Program.Order
import TermHeap.Proofs.HashTable.Load
import TermHeap.Proofs.Storage.ListStack
import TermHeap.Proofs.Text.Literal
import TermHeap.Proofs.Term.Equality
import TermHeap.Proofs.Store.StableSymbols
import TermHeap.Proofs.Cell.Packing
