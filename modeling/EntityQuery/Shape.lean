import EntityQuery.Expr.Build
import EntityQuery.Path

/-!
Shapes of queries: what a statement selects, from where, under which condition and in which order.

* `Projection` -- the projected expressions by their paths, in order of first insertion;
* `Memo` -- the attributes used so far by the names of their properties, in order of first use;
  using one more never takes another away (`Memo.prefix_use`);
* `Shape` -- a query under way;
* `Shape.rowAt?` -- the row bound at a path: before any projection the row of the source itself.
-/
namespace EntityQuery

/-! ## 1. Projections and attributes in use -/

/-- Projected expressions by their paths. -/
abbrev Projection := List (Path × Expr)

namespace Projection

/-- The expression at a path. -/
def get? (path : Path) : Projection → Option Expr
  | [] => none
  | (p, e) :: rest => if p = path then some e else get? path rest

/-- An expression at a path: in place of the one there, or at the end. -/
def insert (path : Path) (expr : Expr) : Projection → Projection
  | [] => [(path, expr)]
  | (p, e) :: rest => if p = path then (p, expr) :: rest else (p, e) :: insert path expr rest

theorem get?_insert_self (path : Path) (e : Expr) (projection : Projection) :
    (projection.insert path e).get? path = some e := by
  induction projection with
  | nil => simp [insert, get?]
  | cons entry rest ih =>
    obtain ⟨p, old⟩ := entry
    by_cases h : p = path <;> simp [insert, get?, h, ih]

theorem get?_insert_of_ne {path other : Path} (h : other ≠ path) (e : Expr)
    (projection : Projection) : (projection.insert path e).get? other = projection.get? other := by
  induction projection with
  | nil => simp [insert, get?, h.symm]
  | cons entry rest ih =>
    obtain ⟨p, old⟩ := entry
    by_cases hp : p = path
    · subst hp
      simp [insert, get?, h.symm]
    · simp only [insert, hp, if_false, get?]
      split
      · rfl
      · exact ih

/-- The projection that insertions one after another give. -/
def ofList (entries : List (Path × Expr)) : Projection :=
  entries.foldl (fun projection entry => projection.insert entry.1 entry.2) []

end Projection

/-- The attributes in use, by the names of their properties. -/
abbrev Memo := List (String × AttributeRef)

namespace Memo

/-- The attribute in use for a property name. -/
def get? (name : String) : Memo → Option AttributeRef
  | [] => none
  | (n, ref) :: rest => if n = name then some ref else get? name rest

/-- The attribute for a property: the one in use under its name, or a new one at the end. -/
def use (memo : Memo) (property : Property) (source : Source) : AttributeRef × Memo :=
  match memo.get? property.name with
  | some ref => (ref, memo)
  | none => (.of property source, memo ++ [(property.name, .of property source)])

/-- The attributes in use before come first and in the same order afterwards. -/
theorem prefix_use (memo : Memo) (property : Property) (source : Source) :
    memo <+: (memo.use property source).2 := by
  unfold use
  split
  · exact List.prefix_refl memo
  · exact List.prefix_append memo _

theorem get?_append_of_isSome {memo : Memo} {name : String} {ref : AttributeRef}
    (h : memo.get? name = some ref) (more : Memo) : Memo.get? name (memo ++ more) = some ref := by
  induction memo with
  | nil => cases h
  | cons entry rest ih =>
    obtain ⟨n, old⟩ := entry
    by_cases hn : n = name
    · simpa [get?, hn] using h
    · simp only [get?, hn, if_false] at h
      simpa [get?, hn] using ih h

theorem get?_append_self {memo : Memo} {name : String} (h : memo.get? name = none)
    (ref : AttributeRef) : Memo.get? name (memo ++ [(name, ref)]) = some ref := by
  induction memo with
  | nil => simp [get?]
  | cons entry rest ih =>
    obtain ⟨n, old⟩ := entry
    by_cases hn : n = name
    · simp [get?, hn] at h
    · simp only [get?, hn, if_false] at h
      simpa [get?, hn] using ih h

/-- The attribute that is used is in use afterwards. -/
theorem get?_use (memo : Memo) (property : Property) (source : Source) :
    (memo.use property source).2.get? property.name = some (memo.use property source).1 := by
  unfold use
  split
  · assumption
  · exact get?_append_self (by assumption) _

end Memo

/-! ## 2. Shapes -/

/-- One term of the order of the rows. -/
structure OrderTerm where
  expr : Expr
  descending : Bool

/-- The text of a term of the order. -/
def OrderTerm.text (o : OrderTerm) : String := o.expr.text ++ (if o.descending then " DESC" else "")

/-- A term of the order as a document. -/
def OrderTerm.document (o : OrderTerm) : Document :=
  .record [("expression", o.expr.document), ("descending", .flag o.descending)]

/-- A query under way. -/
structure Shape where
  source : Source
  filter : Option Expr := none
  projection : Projection := []
  order : List OrderTerm := []
  memo : Memo := []

namespace Shape

/-- All rows of an entity. -/
def of (entity : Entity) : Shape := { source := .of entity }

/-- A further condition, besides those there are. -/
def addFilter (shape : Shape) (condition : Expr) : Shape :=
  match shape.filter with
  | none => { shape with filter := some condition }
  | some existing => { shape with filter := some (existing.both condition) }

/-- A further term of the order. -/
def addOrder (shape : Shape) (term : OrderTerm) : Shape :=
  { shape with order := shape.order ++ [term] }

/-- The row bound at a path. While nothing is projected it is the source's own, at the root. -/
def rowAt? (shape : Shape) (path : Path) : Option RowRef :=
  match shape.projection.get? path with
  | some (.row ref) => some ref
  | some _ => none
  | none =>
    if path.isRoot && shape.projection.isEmpty then
      some { entity := shape.source.entity, source := shape.source }
    else none

/-- The attribute for a property, and the shape that has it in use. -/
def useAttribute (shape : Shape) (property : Property) : AttributeRef × Shape :=
  let (ref, memo) := shape.memo.use property shape.source
  (ref, { shape with memo := memo })

/-! ## 3. Text and document -/

/-- What is selected, as a text. -/
def selectionText (shape : Shape) : String :=
  if shape.projection.isEmpty then shape.source.text ++ ".*"
  else ", ".intercalate (shape.projection.map fun (path, e) => e.text ++ " AS " ++ path.text)

/-- The text of a shape. -/
def text (shape : Shape) : String :=
  "SELECT " ++ shape.selectionText ++ " FROM " ++ shape.source.text
    ++ (match shape.filter with
        | some e => " WHERE " ++ e.text
        | none => "")
    ++ (if shape.order.isEmpty then ""
        else " ORDER BY " ++ ", ".intercalate (shape.order.map OrderTerm.text))

/-- A shape as a document; the projected expressions are fields named by their paths. -/
def document (shape : Shape) : Document :=
  .record [("from", shape.source.document), ("filter", .optional Expr.document shape.filter),
    ("projection_map", .record (shape.projection.map fun (path, e) => (path.text, e.document))),
    ("orderings", .list (shape.order.map OrderTerm.document))]

end Shape

end EntityQuery
