/-
Declaring shapes.

A builder holds the table so far and the first inconsistency met.  Declaring a name again with the
structure it has gives the place it has; with another structure it is an inconsistency, which
`build` reports.  Anonymous shapes are named after their structure.  Main statement:
`Builder.wellFormed_add`, by which declarations that refer to shapes declared before make a well
formed table.
-/
import SimpleSerialize.Schema

namespace SimpleSerialize

namespace ShapeName

/-- A vector is named after its element and its length. -/
def vector (element : String) (length : Extent) : String :=
  s!"Vector[{element}," ++ length.display ++ "]"

def list (element : String) : (limit : Option Extent) → String
  | some limit => s!"List[{element}," ++ limit.display ++ "]"
  | none => s!"List[{element}]"

def union (nullable : Bool) (variants : List String) : String :=
  "Union[" ++ String.intercalate "," (if nullable then "None" :: variants else variants) ++ "]"

/-- The name of a shape with arguments. -/
def applied (name : String) (arguments : List String) : String :=
  name ++ "[" ++ String.intercalate "," arguments ++ "]"

end ShapeName

/-- A table of shapes under construction. -/
structure Builder where
  schema : Schema := {}
  /-- The first inconsistency met. -/
  fault : Option SchemaError := none

/-- A step of declaring shapes. -/
abbrev Declare := StateM Builder

namespace Builder

/-- Notes an inconsistency, unless one was met before. -/
def report (b : Builder) (e : SchemaError) : Builder := { b with fault := b.fault <|> some e }

/-- Declares a name and gives its place. -/
def add (b : Builder) (name : String) (d : Declaration) : ShapeId × Builder :=
  match b.schema.find? name with
  | some id =>
    match b.schema.declaration? id with
    | some known =>
      if known.sameStructure d then (id, b) else (id, b.report (.conflictingDeclaration name))
    | none => (id, b)
  | none => (b.schema.size, { b with schema := b.schema.push ⟨name, d⟩ })

/-- The finished table, or the first inconsistency met. -/
def build (b : Builder) : Except SchemaError Schema :=
  match b.fault with
  | some e => .error e
  | none => .ok b.schema

/-- A declaration that refers to shapes declared before may be put at the end of a table, under a
new name. -/
theorem wellFormed_push {s : Schema} {name : String} {d : Declaration} (wf : s.WellFormed)
    (new : s.find? name = none) (known : ∀ r ∈ d.references, r < s.size) :
    (s.push ⟨name, d⟩).WellFormed := by
  rw [Schema.find?_eq] at new
  rw [Schema.push]
  refine ⟨fun id e here r mem => ?_, ?_⟩
  · rcases Nat.lt_trichotomy id s.size with inside | rfl | outside
    · exact wf.references_lt id e (List.getElem?_append_left inside ▸ here) r mem
    · cases here.symm.trans (s.getElem?_push ⟨name, d⟩)
      exact known r mem
    · rw [List.getElem?_eq_none] at here
      · cases here
      · rw [List.length_append]
        exact outside
  · rw [List.map_append, List.nodup_append]
    refine ⟨wf.nodup, List.pairwise_singleton _ _, fun a old b added same => ?_⟩
    obtain ⟨e, he, rfl⟩ := List.mem_map.mp old
    obtain rfl : b = name := List.mem_singleton.mp added
    have other := List.findIdx?_eq_none_iff.mp new e he
    simp [same] at other

/-- Declaring a shape keeps the table well formed, if all shapes that it refers to are declared. -/
theorem wellFormed_add {b : Builder} {name : String} {d : Declaration} (wf : b.schema.WellFormed)
    (known : ∀ r ∈ d.references, r < b.schema.size) : (b.add name d).2.schema.WellFormed := by
  unfold add
  split
  · split
    · split
      · exact wf
      · exact wf
    · exact wf
  · rename_i new
    exact wellFormed_push wf new known

end Builder

namespace Declare

def declare (name : String) (d : Declaration) : Declare ShapeId := fun b => b.add name d

/-- The name of a shape declared before. -/
def nameOf (id : ShapeId) : Declare String := return (← get).schema.name id

/-- Declares a basic shape under the name of its kind. -/
def basic (kind : BasicKind) : Declare ShapeId := do
  match kind with
  | .uint width =>
    unless width ∈ BasicKind.uintWidths do
      modify (·.report (.unsupported kind.shapeName none none))
  | _ => pure ()
  declare kind.shapeName (.basic kind)

def bool : Declare ShapeId := basic .bool

def uint (width : UInt8) : Declare ShapeId := basic (.uint width)

def bytes (length : UInt32) : Declare ShapeId := basic (.bytes length)

/-- Declares a vector of exactly `length` elements. -/
def vector (element : ShapeId) (length : Extent) : Declare ShapeId := do
  declare (ShapeName.vector (← nameOf element) length) (.sequence element (.vector length))

/-- Declares a list of at most `limit` elements, or one of any length. -/
def list (element : ShapeId) (limit : Option Extent) : Declare ShapeId := do
  let size := match limit with
    | some e => .bounded e
    | none => .unbounded
  declare (ShapeName.list (← nameOf element) limit) (.sequence element size)

/-- Declares a union, under the name of its structure unless it is given one. -/
def union (name : Option String) (variants : List ShapeId) (nullable : Bool) : Declare ShapeId := do
  let structural := ShapeName.union nullable (← variants.mapM nameOf)
  declare (name.getD structural) (.union variants nullable)

def container (name : String) (fields : List Field) : Declare ShapeId :=
  declare name (.container fields)

/-- Declares a shape that travels as `target`. -/
def subclass (name : String) (target : ShapeId) (rebuild : Rebuild) : Declare ShapeId :=
  declare name (.subclass target rebuild)

/-- Declares a structure under a name or, without one, under the name of the structure.  Containers
and subclasses are never named after their structure. -/
def structure? (name : Option String) (d : Declaration) : Declare (Option ShapeId) :=
  match name, d with
  | some name, d => some <$> declare name d
  | none, .basic kind => some <$> basic kind
  | none, .sequence element (.vector length) => some <$> vector element length
  | none, .sequence element (.bounded limit) => some <$> list element (some limit)
  | none, .sequence element .unbounded => some <$> list element none
  | none, .union variants nullable => some <$> union none variants nullable
  | none, .container _ => return none
  | none, .subclass _ _ => return none

/-- The table that some declarations make from nothing. -/
def build {α : Type} (steps : Declare α) : Except SchemaError Schema := (steps.run {}).2.build

end Declare

end SimpleSerialize
