import EntityQuery.Text.Letter
import EntityQuery.Text.Numeral
import EntityQuery.Text.Space
import EntityQuery.Number.Layout
import EntityQuery.Number.Decimal
import EntityQuery.Number.DateTime
import EntityQuery.Document
import EntityQuery.Model
import EntityQuery.Literal
import EntityQuery.Path
import EntityQuery.Term.Substitution
import EntityQuery.Term.Resolve
import EntityQuery.Chain
import EntityQuery.Reader.Chain
import EntityQuery.Statement
import EntityQuery.Query
import EntityQuery.Model.Toml
import EntityQuery.Command.Run
import EntityQuery.Main
import EntityQuery.Lowering.Growth
import EntityQuery.Proofs.Conjuncts
import EntityQuery.Proofs.Fusion
import EntityQuery.Proofs.Meaning
import EntityQuery.Proofs.Placeholders
import EntityQuery.Proofs.Noninterference
import EntityQuery.Proofs.LostRows
import EntityQuery.Proofs.Precedence
import EntityQuery.Proofs.LexicalSafety
import EntityQuery.Proofs.StoreTypes
import EntityQuery.Proofs.OwnAttributes
import EntityQuery.Proofs.WellFormed
import EntityQuery.Proofs.Spelling.Literals
import EntityQuery.Proofs.Spelling.Terms
import EntityQuery.Proofs.Spelling.Levels
import EntityQuery.Proofs.Parentheses
import EntityQuery.Proofs.Spelling.Texts
import EntityQuery.Proofs.Spelling.Chains
import EntityQuery.Proofs.RoundTrip
import EntityQuery.Proofs.Layout
import EntityQuery.Proofs.DerivedTypes
import EntityQuery.Proofs.Lockstep
import EntityQuery.Proofs.DeclarationOrder
import EntityQuery.Proofs.Plugins
import EntityQuery.Proofs.Substitution
import EntityQuery.Proofs.Selection
import EntityQuery.Proofs.LiteralTexts
import EntityQuery.Proofs.Diagnostics.Outcomes
import EntityQuery.Proofs.Members
import EntityQuery.Proofs.Quotes
import EntityQuery.Proofs.PathTexts
import EntityQuery.Proofs.Positions
