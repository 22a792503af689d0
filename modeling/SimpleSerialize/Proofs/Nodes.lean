/-
What can be asked of every node of a format.

`Everywhere` carries a condition from a tree down to all its parts; the conditions on formats that
later statements ask for are built from it.  Main statements:

* `Format.induct`: induction over formats, with a hypothesis for each part of a node;
* `Handler.eq_of_finish`, `Handler.finish_eq`: what the links of a node do to a decoded value, if
  their functions are inert or the identity.
-/
import SimpleSerialize.Format
import SimpleSerialize.Proofs.Success

namespace SimpleSerialize

/-- A condition holds of a tree, of its parts, and of their parts in turn. -/
inductive Everywhere {τ : Type} (parts : τ → List τ) (P : τ → Prop) : τ → Prop
  | node {t : τ} : P t → (∀ s ∈ parts t, Everywhere parts P s) → Everywhere parts P t

namespace Everywhere

variable {τ : Type} {parts : τ → List τ} {P : τ → Prop} {t : τ}

theorem here (h : Everywhere parts P t) : P t := by
  cases h with
  | node here _ => exact here

theorem inside (h : Everywhere parts P t) : ∀ s ∈ parts t, Everywhere parts P s := by
  cases h with
  | node _ inside => exact inside

theorem imp {Q : τ → Prop} (h : Everywhere parts P t) (step : ∀ s, P s → Q s) :
    Everywhere parts Q t := by
  induction h with
  | node here _ ih => exact .node (step _ here) ih

end Everywhere

namespace Rebuild

/-- What the function accepts it gives back unchanged. -/
def Inert (f : Rebuild) : Prop := ∀ v w, f v = .ok w → w = v

/-- The function accepts every value and gives it back unchanged. -/
def Identity (f : Rebuild) : Prop := ∀ v, f v = .ok v

theorem Identity.inert {f : Rebuild} (h : Identity f) : Inert f := by
  intro v w hw
  rw [h v] at hw
  cases hw
  rfl

end Rebuild

namespace Handler

variable {α : Type} {h : Handler α} {v w : Value}

theorem eq_of_relink {link : String × Rebuild} (inert : link.2.Inert) (h : relink v link = .ok w) :
    w = v := by
  rw [relink] at h
  split at h
  · cases h
    exact inert v _ ‹_›
  · cases h

/-- Inert links leave a value as it is wherever they let it pass. -/
theorem eq_of_finish (inert : ∀ link ∈ h.links, Rebuild.Inert link.2) (done : h.finish v = .ok w) :
    w = v := by
  rw [finish] at done
  -- The innermost link comes first.
  replace inert : ∀ link ∈ h.links.reverse, Rebuild.Inert link.2 :=
    fun link hl => inert link (List.mem_reverse.mp hl)
  generalize h.links.reverse = links at inert done
  induction links with
  | nil => exact (pure_eq_ok.mp done).symm
  | cons link links ih =>
    rw [List.foldlM_cons, bind_eq_ok] at done
    obtain ⟨u, first, rest⟩ := done
    rw [eq_of_relink (inert link List.mem_cons_self) first] at rest
    exact ih (fun l hl => inert l (List.mem_cons_of_mem _ hl)) rest

/-- Links that are the identity let every value pass as it is. -/
theorem finish_eq (identity : ∀ link ∈ h.links, Rebuild.Identity link.2) : h.finish v = .ok v := by
  rw [finish]
  replace identity : ∀ link ∈ h.links.reverse, Rebuild.Identity link.2 :=
    fun link hl => identity link (List.mem_reverse.mp hl)
  generalize h.links.reverse = links at identity
  induction links with
  | nil => rfl
  | cons link links ih =>
    rw [List.foldlM_cons, bind_eq_ok]
    refine ⟨v, ?_, ih fun l hl => identity l (List.mem_cons_of_mem _ hl)⟩
    rw [relink, identity link List.mem_cons_self v]

end Handler

namespace Format

/-- The formats of the parts of a node. -/
def parts : Format → List Format
  | basic _ _ => []
  | list _ _ _ element => [element]
  | union _ _ _ variants => variants
  | container _ _ fields _ => fields

/-- The wrappers around the accessor of a node. -/
def links : Format → List (String × Rebuild)
  | basic _ a => a.links
  | list _ a _ _ => a.links
  | union _ a _ _ => a.links
  | container _ a _ _ => a.links

/-- Induction over formats. -/
@[elab_as_elim, induction_eliminator]
theorem induct {motive : Format → Prop}
    (basic : ∀ head handler, motive (basic head handler))
    (list : ∀ head handler regime element, motive element →
      motive (list head handler regime element))
    (union : ∀ head handler nullable variants, (∀ f ∈ variants, motive f) →
      motive (union head handler nullable variants))
    (container : ∀ head handler fields size, (∀ f ∈ fields, motive f) →
      motive (container head handler fields size)) :
    ∀ f, motive f :=
  Format.rec basic list union container (fun _ h => nomatch h) fun f fs hf hfs g hg => by
    rcases List.mem_cons.mp hg with rfl | hg
    · exact hf
    · exact hfs g hg

/-- Induction over formats by their parts, whatever the category of a node. -/
theorem induct_parts {motive : Format → Prop}
    (step : ∀ f : Format, (∀ p ∈ f.parts, motive p) → motive f) (f : Format) : motive f := by
  induction f with
  | basic head a => exact step _ nofun
  | list head a regime element ih => exact step _ (List.forall_mem_singleton.mpr ih)
  | union head a nullable variants ih => exact step _ ih
  | container head a fields size ih => exact step _ ih

/-- The functions of all links in the format satisfy a condition. -/
def AllLinks (P : Rebuild → Prop) : Format → Prop :=
  Everywhere parts fun f => ∀ link ∈ f.links, P link.2

/-- The elements of every list in the format can be counted: they are not known to have no bytes.
Vectors may have such elements. -/
def Countable : Format → Prop :=
  Everywhere parts fun
    | list _ _ (.list _) element => element.fixedSize ≠ some 0
    | _ => True

/-- A single byte. -/
def IsByte : Format → Prop
  | basic _ a => a.base = .uint 1
  | _ => False

/-- What resolution makes sure of at every node. -/
def Lawful : Format → Prop :=
  Everywhere parts fun
    | list _ a regime element => regime ≠ .vector 0 ∧ (a.base = .byteSequence → element.IsByte)
    | container _ _ fields size => size = totalSize fields
    | _ => True

theorem AllLinks.imp {P Q : Rebuild → Prop} {f : Format} (h : f.AllLinks P)
    (step : ∀ r, P r → Q r) : f.AllLinks Q :=
  Everywhere.imp h fun _ here link hl => step _ (here link hl)

end Format

end SimpleSerialize
