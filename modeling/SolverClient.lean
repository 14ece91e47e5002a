import SolverClient.Branching
import SolverClient.Constraint.Basic
import SolverClient.Constraint.Build
import SolverClient.Constraint.Document
import SolverClient.Cutoff
import SolverClient.Decimal.Binary
import SolverClient.Decimal.Format
import SolverClient.Decimal.Reading
import SolverClient.Decimal.Shortest
import SolverClient.Engine.Command
import SolverClient.Engine.Exchange
import SolverClient.Engine.InWords
import SolverClient.Engine.Solve
import SolverClient.Expression
import SolverClient.Json.Basic
import SolverClient.Json.Field
import SolverClient.Json.Number
import SolverClient.Json.Parser
import SolverClient.Json.Printer
import SolverClient.MatrixName
import SolverClient.Model.Basic
import SolverClient.Model.Document
import SolverClient.Model.InWords
import SolverClient.ModelError
import SolverClient.NameSource
import SolverClient.Numeric
import SolverClient.Objective
import SolverClient.OrderedMap
import SolverClient.Reply
import SolverClient.Searcher
import SolverClient.Settings.Basic
import SolverClient.Settings.File
import SolverClient.Solution.Record
import SolverClient.Solution.Table
import SolverClient.Solution.Value
import SolverClient.Text.Blank
import SolverClient.Text.Numeral
import SolverClient.Toml.Reader
import SolverClient.Toml.Table
import SolverClient.Variable.Basic
import SolverClient.Variable.Declaration
import SolverClient.Variable.Document
import SolverClient.Variable.InWords
import SolverClient.View
import SolverClient.View.InWords
import SolverClient.Word
import SolverClient.Yaml.Node
import SolverClient.Yaml.Place
import SolverClient.Yaml.Property
import SolverClient.Yaml.Scalar
import SolverClient.Yaml.Token
import SolverClient.Proofs.Constraint.Build
import SolverClient.Proofs.Constraint.Document
import SolverClient.Proofs.Constraint.Selection
import SolverClient.Proofs.Cutoff
import SolverClient.Proofs.Decimal.Finite
import SolverClient.Proofs.Field
import SolverClient.Proofs.Json.WellFormed
import SolverClient.Proofs.MatrixName
import SolverClient.Proofs.Model.Arrange
import SolverClient.Proofs.Model.Document
import SolverClient.Proofs.Model.NormalForm
import SolverClient.Proofs.Model.Run
import SolverClient.Proofs.Objective
import SolverClient.Proofs.OrderedMap
import SolverClient.Proofs.Solution.Gather
import SolverClient.Proofs.Solution.Order
import SolverClient.Proofs.Solution.Own
import SolverClient.Proofs.Solution.Shape
import SolverClient.Proofs.Variable.Declaration
import SolverClient.Proofs.Variable.Document
import SolverClient.Proofs.Variable.Domain
import SolverClient.Proofs.Variable.Reference
import SolverClient.Proofs.Constraint.Reference
import SolverClient.Proofs.Constraint.RoundTrip
import SolverClient.Proofs.Engine.Session
import SolverClient.Proofs.Model.Closed
import SolverClient.Proofs.Engine.Failure
import SolverClient.Proofs.Variable.Made
import SolverClient.Proofs.Solution.Report
import SolverClient.Proofs.Variable.RoundTrip
import SolverClient.Proofs.Engine.Report
import SolverClient.Proofs.NameSource
import SolverClient.Proofs.Model.Naming
import SolverClient.Proofs.Absent
import SolverClient.Proofs.Model.Absent
import SolverClient.Proofs.Model.VariableOrder
import SolverClient.Proofs.Text.Words
import SolverClient.Proofs.Expression.Chain
import SolverClient.Proofs.Expression.Reassociation
import SolverClient.Proofs.Expression.Assembly
import SolverClient.Proofs.Constraint.Conditional
import SolverClient.Proofs.Cutoff.Parts
import SolverClient.Proofs.Solution.Exact
import SolverClient.Proofs.View
import SolverClient.Proofs.Constraint.View
import SolverClient.Proofs.Constraint.Geometry
import SolverClient.Proofs.Variable.Grammar
import SolverClient.Solution.InWords
import SolverClient.Proofs.MatrixName.Exact
import SolverClient.Proofs.Variable.Chain
import SolverClient.Proofs.Grid
import SolverClient.Proofs.View.Steps
import SolverClient.Proofs.Solution.InWords
import SolverClient.Proofs.Solution.Flatten
import SolverClient.Proofs.Word
import SolverClient.Proofs.Variable.InWords
import SolverClient.Proofs.Model.InWords
import SolverClient.Proofs.Engine.InWords
import SolverClient.Proofs.View.InWords
import SolverClient.Proofs.Solution.Counted
