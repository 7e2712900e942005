import QueryFilter.Backend.Transcript
import QueryFilter.Compiler
import QueryFilter.Restriction.Stored
import QueryFilter.Schema.Stored
import QueryFilter.Settings.File
import QueryFilter.Store.Edit
import QueryFilter.Store.Normalize
import QueryFilter.Proofs.Lists
import QueryFilter.Proofs.Expr.Leaves
import QueryFilter.Proofs.Expr.NormalForm
import QueryFilter.Proofs.Compiler.Gate
import QueryFilter.Proofs.Expr.Merge
import QueryFilter.Proofs.Compiler.Reading
import QueryFilter.Proofs.Expr.Gather
import QueryFilter.Proofs.Compiler.RoundTrip
import QueryFilter.Proofs.Store.Below
import QueryFilter.Proofs.Store.Unfold
import QueryFilter.Proofs.Store.Located
import QueryFilter.Proofs.Store.Paths
import QueryFilter.Proofs.Store.Edits
import QueryFilter.Proofs.Store.Run
import QueryFilter.Proofs.Store.Render
import QueryFilter.Proofs.Store.Cells
import QueryFilter.Proofs.Store.Safe
import QueryFilter.Proofs.Store.Frame
import QueryFilter.Proofs.Store.Normal
import QueryFilter.Proofs.Compiler.Literal
import QueryFilter.Proofs.Expr.Collision
import QueryFilter.Proofs.Expr.Placement
import QueryFilter.Proofs.Restriction.Model
import QueryFilter.Proofs.Compiler.Respelling
import QueryFilter.Proofs.Restriction.Spelling
import QueryFilter.Proofs.Expr.Rewrite
import QueryFilter.Proofs.Compiler.SecondTrip
import QueryFilter.Proofs.Compiler.Origin
import QueryFilter.Proofs.Expr.Truth
import QueryFilter.Proofs.Compiler.Depth
import QueryFilter.Proofs.Compiler.Recompile
import QueryFilter.Proofs.Store.Copies
import QueryFilter.Proofs.Store.Address
import QueryFilter.Proofs.Compiler.Modifiers
import QueryFilter.Proofs.Compiler.Faithful
import QueryFilter.Proofs.Json.Keys
import QueryFilter.Proofs.Value.Equality
import QueryFilter.Proofs.Input.Codec
import QueryFilter.Proofs.Modifiers.Form
import QueryFilter.Proofs.Store.Removal
import QueryFilter.Proofs.Compiler.Columns
import QueryFilter.Proofs.Compiler.Siblings
import QueryFilter.Proofs.Compiler.Apart
import QueryFilter.Proofs.Compiler.Bounds
import QueryFilter.Proofs.Compiler.Reordering
import QueryFilter.Proofs.Expr.Requests
import QueryFilter.Proofs.Value.Codec
import QueryFilter.Proofs.Json.Levels
import QueryFilter.Proofs.Restriction.Stored
import QueryFilter.Proofs.Restriction.Grammar
import QueryFilter.Proofs.Count
import QueryFilter.Proofs.Value.Untagged
import QueryFilter.Proofs.Store.Equality
import QueryFilter.Proofs.Toml.Document
import QueryFilter.Proofs.Settings.File
