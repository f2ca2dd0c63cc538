import QueryEquiv.Ast.Form
import QueryEquiv.Encode.Mutation
import QueryEquiv.Enumeration
import QueryEquiv.Main
import QueryEquiv.Proofs.AggregateCalls
import QueryEquiv.Proofs.Backing
import QueryEquiv.Proofs.Chains
import QueryEquiv.Proofs.Comparisons
import QueryEquiv.Proofs.ConstraintLists
import QueryEquiv.Proofs.DateCodes
import QueryEquiv.Proofs.Declarations
import QueryEquiv.Proofs.Duplicates
import QueryEquiv.Proofs.Exhaustion
import QueryEquiv.Proofs.ForeignTypes
import QueryEquiv.Proofs.GroupedProjection
import QueryEquiv.Proofs.KeptTexts
import QueryEquiv.Proofs.KnownLabels
import QueryEquiv.Proofs.Partitions
import QueryEquiv.Proofs.ProjectedRows
import QueryEquiv.Proofs.Readback
import QueryEquiv.Proofs.RowTests
import QueryEquiv.Proofs.SingleRows
import QueryEquiv.Proofs.Stars
import QueryEquiv.Proofs.TextCodes
import QueryEquiv.Proofs.TwoGroups
import QueryEquiv.QueryText.Aliases
import QueryEquiv.Search.Valuation
import QueryEquiv.Term.Application
import QueryEquiv.Testbed
import QueryEquiv.Workload.Reading
import QueryEquiv.Workload.Solving
