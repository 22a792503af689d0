/-
Size variables: lengths of sequences that are known by name and bound to numbers at run time.

A table is kept in the order of its names, each of which it binds once; `SizeVars.place` keeps it so.
-/
import SimpleSerialize.Error

namespace SimpleSerialize

/-- Values of named lengths, in the order of the names. -/
structure SizeVars where
  entries : List (String × UInt64) := []
  ordered : entries.Pairwise (·.1 < ·.1) := by exact .nil
  deriving DecidableEq

namespace SizeVars

/-- Puts a binding in its place, over an earlier one of the same name. -/
def place (name : String) (n : UInt64) : List (String × UInt64) → List (String × UInt64)
  | [] => [(name, n)]
  | (key, m) :: rest =>
    if name = key then (name, n) :: rest
    else if name < key then (name, n) :: (key, m) :: rest
    else (key, m) :: place name n rest

theorem mem_place {name : String} {n : UInt64} {entries : List (String × UInt64)}
    {e : String × UInt64} (h : e ∈ place name n entries) : e = (name, n) ∨ e ∈ entries := by
  induction entries with
  | nil => exact .inl (List.mem_singleton.mp h)
  | cons entry rest ih =>
    unfold place at h
    split at h
    · exact (List.mem_cons.mp h).imp_right (List.mem_cons_of_mem _)
    · split at h
      · exact List.mem_cons.mp h
      · rcases List.mem_cons.mp h with rfl | h
        · exact .inr List.mem_cons_self
        · exact (ih h).imp_right (List.mem_cons_of_mem _)

theorem pairwise_place {entries : List (String × UInt64)} (name : String) (n : UInt64)
    (h : entries.Pairwise (·.1 < ·.1)) : (place name n entries).Pairwise (·.1 < ·.1) := by
  induction entries with
  | nil => exact List.pairwise_singleton _ _
  | cons entry rest ih =>
    obtain ⟨below, rest_ordered⟩ := List.pairwise_cons.mp h
    unfold place
    split
    · rename_i same
      subst same
      exact List.pairwise_cons.mpr ⟨below, rest_ordered⟩
    · rename_i differ
      split
      · rename_i less
        refine List.pairwise_cons.mpr ⟨fun e he => ?_, h⟩
        rcases List.mem_cons.mp he with rfl | he
        · exact less
        · exact String.lt_trans less (below e he)
      · rename_i notLess
        refine List.pairwise_cons.mpr ⟨fun e he => ?_, ih rest_ordered⟩
        rcases mem_place he with rfl | he
        · exact Classical.byContradiction fun notMore =>
            differ (String.le_antisymm (String.not_lt.mp notMore) (String.not_lt.mp notLess))
        · exact below e he

def insert (vars : SizeVars) (name : String) (n : UInt64) : SizeVars :=
  ⟨place name n vars.entries, pairwise_place name n vars.ordered⟩

/-- The table of some bindings; of two for one name the later counts. -/
def ofList (pairs : List (String × UInt64)) : SizeVars :=
  pairs.foldl (fun vars (name, n) => vars.insert name n) {}

def find? (vars : SizeVars) (name : String) : Option UInt64 :=
  vars.entries.lookup name

/-- The number that a shape takes its length from, known by name. -/
def require (value? : String → Option UInt64) (shape name : String) : Except SchemaError UInt64 :=
  match value? name with
  | some n => .ok n
  | none => .error (.unboundVariable shape name)

end SizeVars

end SimpleSerialize
