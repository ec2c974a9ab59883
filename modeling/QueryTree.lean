import QueryTree.Builder.Program
import QueryTree.Main
import QueryTree.Proofs.Aggregation
import QueryTree.Proofs.GroupVariable
import QueryTree.Proofs.Blind
import QueryTree.Proofs.Closure
import QueryTree.Proofs.NormalForm
import QueryTree.Proofs.Partition
import QueryTree.Proofs.Requests
import QueryTree.Proofs.Restriction
import QueryTree.Proofs.Guarded
import QueryTree.Proofs.GroupLevel
import QueryTree.Proofs.Scoping
import QueryTree.Proofs.Replaced
import QueryTree.Proofs.Renaming
import QueryTree.Proofs.Unambiguous
import QueryTree.Proofs.ColumnsRead
import QueryTree.Proofs.Tokens
import QueryTree.Proofs.Digits
import QueryTree.Proofs.Literals
import QueryTree.Proofs.OperatorText
import QueryTree.Proofs.JsonTrees
import QueryTree.Proofs.Comments
import QueryTree.Proofs.MemberTypes
import QueryTree.Proofs.Folding
import QueryTree.Proofs.Durations
import QueryTree.Proofs.ReservedNames
import QueryTree.Proofs.RecordIds
import QueryTree.Proofs.NameSearch
import QueryTree.Proofs.LambdaDepth
import QueryTree.Proofs.LoweredForm
import QueryTree.Proofs.WellFormed
import QueryTree.Proofs.CallForms
import QueryTree.Proofs.StaticForm
import QueryTree.Proofs.Occurrences
import QueryTree.Proofs.Substitution
import QueryTree.Proofs.Visits
