import TableApi.Server.Introspection
import TableApi.Config.Load
import TableApi.Http.App
import TableApi.Proofs.Shape
import TableApi.Proofs.Mounting
import TableApi.Proofs.Packing
import TableApi.Proofs.Inserting.Links
import TableApi.Proofs.Inserting.Fresh
import TableApi.Proofs.Inserting
import TableApi.Proofs.Deleting.Held
import TableApi.Proofs.Deleting.Order
import TableApi.Proofs.Calls
import TableApi.Proofs.Introspection
import TableApi.Proofs.Introspection.Aliases
import TableApi.Proofs.Resolving
import TableApi.Proofs.Deleting.KeyColumns
import TableApi.Proofs.Deleting.Reach
import TableApi.Proofs.Expansion
import TableApi.Proofs.Expansion.Chains
import TableApi.Proofs.JoinTree
import TableApi.Proofs.Validation
import TableApi.Proofs.Faithful
import TableApi.Proofs.Selecting
import TableApi.Proofs.Selecting.Satisfied
import TableApi.Proofs.Selecting.Created
import TableApi.Proofs.Renaming
import TableApi.Proofs.Renaming.Rows
import TableApi.Proofs.Renaming.Replies
import TableApi.Proofs.Renaming.Aliases
import TableApi.Proofs.Packing.Filled
import TableApi.Proofs.Packing.Supplied
import TableApi.Proofs.Statements.Selections
import TableApi.Proofs.Statements.Writes
import TableApi.Proofs.Statements.Bodies
import TableApi.Proofs.Statements
import TableApi.Proofs.Statements.Scanning
import TableApi.Proofs.Statements.Spelling
import TableApi.Proofs.Statements.Phrases
import TableApi.Proofs.Statements.Delimited
import TableApi.Proofs.Expansion.Guard
import TableApi.Proofs.Mounting.Trimming
import TableApi.Proofs.Exclusion
import TableApi.Proofs.Packing.Complete
import TableApi.Proofs.Parameters
import TableApi.Proofs.Contract
import TableApi.Proofs.Identifiers
import TableApi.Proofs.Introspection.Validity
import TableApi.Proofs.Introspection.Serving
import TableApi.Proofs.Introspection.Kept
import TableApi.Proofs.Introspection.Relations
import TableApi.Proofs.Introspection.Exact
import TableApi.Proofs.Introspection.LinkOrder
import TableApi.Proofs.Parameters.Grammar
import TableApi.Proofs.Parameters.Reading
import TableApi.Proofs.Paging
import TableApi.Proofs.Statements.Clauses
import TableApi.Proofs.Statements.Lists
import TableApi.Proofs.Transactions
import TableApi.Proofs.Inserting.Stored
import TableApi.Proofs.Expansion.Addresses
import TableApi.Proofs.Deleting.Targets
import TableApi.Proofs.Identifiers.Ranges
import TableApi.Proofs.Packing.Drawn
import TableApi.Proofs.Identifiers.Suiting
import TableApi.Proofs.Packing.Required
import TableApi.Proofs.Packing.Excused
import TableApi.Proofs.Packing.Enforced
import TableApi.Proofs.Ambiguity
import TableApi.Proofs.Packing.Reordered
import TableApi.Proofs.Packing.KeyOrder
import TableApi.Proofs.Mounting.Locality
import TableApi.Proofs.Introspection.Unambiguous
import TableApi.Proofs.Introspection.Apart
import TableApi.Proofs.Parameters.Integers
import TableApi.Proofs.Identifiers.Tags
import TableApi.Proofs.Identifiers.Sizes
