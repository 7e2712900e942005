/-
# Compiling an input

One walk over the input, from the top down and from left to right, that
carries the column filtered by and collects the modifiers. The key of a node
says what it is: a modifier, a junction of the nodes below, an operator with
its value, or a column whose operators stand below. Nodes side by side are
joined by `and`.

What a node is takes no recursion to see (`Compiler.visit`). So the walk
itself is only the recursion over the tree: a node is either done with, or its
children are compiled and joined.

The first error in the order of the walk ends it.

Key definitions: `Compiler`, `Compiler.visit`, `Compiler.compile`,
`Compiler.build`.
-/
import QueryFilter.Count
import QueryFilter.Filter
import QueryFilter.Restriction.Basic
import QueryFilter.Settings.Basic

namespace QueryFilter

/-- All that an input is compiled against. -/
structure Compiler (C : Type) where
  resolver : Resolver C
  settings : CompilerSettings
  restrictions : RestrictionSet

namespace Compiler

variable {C P Q : Type}

/-! ### Modifiers -/

/-- The count under a modifier. -/
def countOf (modifier : Modifier) (node : InputNode) : Except FilterError UInt64 :=
  match node.value?.bind Count.ofValue? with
  | some n => .ok n
  | none => .error (.countRequired modifier)

/-- The specs of an ordering: a single one, or a list of them. -/
def orderSpecs (node : InputNode) : Except FilterError (List Value) :=
  match node.value? with
  | some v => .ok [v]
  | none => if node.isSimpleList then .ok node.leafValues else .error .orderSpecsRequired

/-- The ordering of one spec. -/
def ordering (r : Resolver C) (v : Value) : Except FilterError (OrderBy C) :=
  match v.string? with
  | none => .error (.orderSpecNotText v)
  | some s => do
    let spec ← OrderSpec.parse s
    let column ← r.resolve spec.reference
    .ok ⟨column, spec.ascending⟩

/-- The orderings of several specs. -/
def orderings (r : Resolver C) : List Value → Except FilterError (List (OrderBy C))
  | [] => .ok []
  | v :: rest => do
    let o ← ordering r v
    let os ← orderings r rest
    .ok (o :: os)

/-- Refuses a limit above the largest one allowed. -/
def checkLimit (settings : CompilerSettings) (limit : UInt64) : Except FilterError Unit :=
  match settings.maxLimit with
  | some most => if most < limit then .error (.limitExceeded limit most) else .ok ()
  | none => .ok ()

/-- The modifiers with what a modifier node says. -/
def addModifier (c : Compiler C) (modifiers : Modifiers C) (modifier : Modifier)
    (node : InputNode) : Except FilterError (Modifiers C) :=
  match modifier with
  | .limit => do
    let limit ← countOf .limit node
    checkLimit c.settings limit
    .ok (modifiers.setLimit limit)
  | .offset => do
    let offset ← countOf .offset node
    .ok (modifiers.setOffset offset)
  | .orderBy => do
    let specs ← orderSpecs node
    let os ← orderings c.resolver specs
    .ok (modifiers.addOrderBy os)

/-! ### Leaves -/

/-- The column around a node, which a value needs. -/
def attached (column : Option String) (key : String) : Except FilterError String :=
  match column with
  | some reference => .ok reference
  | none => .error (.unattached key)

/-- The leaf of a column, an operator and a value, if they exist and are allowed. -/
def leaf [ColumnRef C] (c : Compiler C) (reference symbol : String) (value : Value) :
    Except FilterError (Expr C) := do
  let column ← c.resolver.resolve reference
  let op ← Operator.ofSymbol symbol value
  c.restrictions.check (ColumnRef.name column) op
  .ok (.leaf column op)

/-- Whether a symbol is that of an operator that takes no list. -/
def refusesList (symbol : String) : Bool :=
  (OperatorKind.ofSymbol? symbol).any fun kind => !kind.expectsSequence

/-! ### The walk -/

/-- What is to be done at a node. -/
inductive Step (C : Type) where
  /-- The node is dealt with. -/
  | done (expression : Option (Expr C)) (modifiers : Modifiers C)
  /-- The children are compiled, with this column around them, and joined. -/
  | descend (kind : Junction) (column : Option String)

/-- What is to be done at a node that no keyword names. -/
def visitPlain [ColumnRef C] (c : Compiler C) (column : Option String) (modifiers : Modifiers C)
    (node : InputNode) : Except FilterError (Step C) :=
  match node.value? with
  | some value => do
    let reference ← attached column node.key
    let e ← c.leaf reference node.key value
    .ok (.done (some e) modifiers)
  | none =>
    if node.isSimpleList then do
      let reference ← attached column node.key
      if refusesList node.key then .error (.listNotTaken node.key)
      else do
        let e ← c.leaf reference node.key (.array node.leafValues)
        .ok (.done (some e) modifiers)
    else if column.isSome ∧ OperatorKind.isSymbol node.key then
      .error (.operatorWithMembers node.key)
    else .ok (.descend .and (some node.key))

/-- What is to be done at a node, with a column around it or none, `depth`
levels down. -/
def visit [ColumnRef C] (c : Compiler C) (column : Option String) (depth : Nat)
    (modifiers : Modifiers C) (node : InputNode) : Except FilterError (Step C) :=
  if c.settings.maxDepth.toNat < depth then .error (.tooDeep c.settings.maxDepth)
  else
    match Modifier.ofKey? node.key with
    | some modifier => do
      let modifiers ← c.addModifier modifiers modifier node
      .ok (.done none modifiers)
    | none =>
      match Junction.ofName? node.key with
      | some kind =>
        if node.isLeaf then .error (.junctionWithoutMembers node.key)
        else .ok (.descend kind column)
      | none => c.visitPlain column modifiers node

mutual

/-- The expression of a node, and the modifiers with those in it. -/
def compileNode [ColumnRef C] (c : Compiler C) (column : Option String) (depth : Nat)
    (modifiers : Modifiers C) : InputNode → Except FilterError (Option (Expr C) × Modifiers C)
  | .leaf key value => do
    match ← c.visit column depth modifiers (.leaf key value) with
    | .done e modifiers => .ok (e, modifiers)
    | .descend _ _ => .ok (none, modifiers)
  | .list key children => do
    match ← c.visit column depth modifiers (.list key children) with
    | .done e modifiers => .ok (e, modifiers)
    | .descend kind column => do
      let (es, modifiers) ← compileNodes c column (depth + 1) modifiers children
      .ok (Expr.joined kind es, modifiers)
  | .map key children => do
    match ← c.visit column depth modifiers (.map key children) with
    | .done e modifiers => .ok (e, modifiers)
    | .descend kind column => do
      let (es, modifiers) ← compileNodes c column (depth + 1) modifiers children
      .ok (Expr.joined kind es, modifiers)

/-- The expressions of the nodes that have one, and the modifiers with those in them. -/
def compileNodes [ColumnRef C] (c : Compiler C) (column : Option String) (depth : Nat)
    (modifiers : Modifiers C) :
    List InputNode → Except FilterError (List (Expr C) × Modifiers C)
  | [] => .ok ([], modifiers)
  | node :: rest => do
    let (e, modifiers) ← compileNode c column depth modifiers node
    let (es, modifiers) ← compileNodes c column depth modifiers rest
    .ok (e.toList ++ es, modifiers)

end

/-- The filter of an input. -/
def compile [ColumnRef C] (c : Compiler C) (input : FilterInput) :
    Except FilterError (Filter C) := do
  let (es, modifiers) ← c.compileNodes none 1 .empty input.nodes
  .ok ⟨Expr.joined .and es, modifiers⟩

/-- The query of a backend with the filter of an input applied. The output
columns are those of the query. -/
def build [ColumnRef C] (registered : String → String → Option C) (settings : CompilerSettings)
    (restrictions : RestrictionSet) (b : Backend C P Q) (query : Q) (input : FilterInput) :
    Except FilterError Q := do
  let c : Compiler C := ⟨⟨registered, b.selected query⟩, settings, restrictions⟩
  let filter ← c.compile input
  .ok (filter.apply b query)

end Compiler
end QueryFilter
