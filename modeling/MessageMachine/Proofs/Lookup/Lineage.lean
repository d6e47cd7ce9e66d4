import MessageMachine.Machine.Method
import MessageMachine.Proofs.Machine.Access
import MessageMachine.Proofs.Table.Mapping

/-!
# Lineages

A lookup goes from a type along its supertypes.  `Lineage nil h type chain` says that these are the types of
`chain`, nearest first, `type` itself included.  A chain ends, so no type is its own proper supertype
(`Lineage.nodup`), and a chain is shorter than the fuel of a lookup (`Lineage.length_le`).
-/

namespace MessageMachine

variable {nil type supertype : Value} {h h' : Heap} {chain : List Value}

/-- The type and its supertypes, nearest first. -/
inductive Lineage (nil : Value) (h : Heap) : Value → List Value → Prop where
  | root : Lineage nil h nil []
  | cons {type supertype : Value} {chain : List Value} : type ≠ nil →
      h.fetchField type Slot.supertype = .ok supertype → Lineage nil h supertype chain →
      Lineage nil h type (type :: chain)

namespace Lineage

theorem unique {chain' : List Value} (hl : Lineage nil h type chain)
    (hl' : Lineage nil h type chain') : chain = chain' := by
  induction hl generalizing chain' with
  | root =>
      cases hl' with
      | root => rfl
      | cons hne => exact absurd rfl hne
  | cons hne hsuper _ ih =>
      cases hl' with
      | root => exact absurd rfl hne
      | cons _ hsuper' hrest =>
          cases hsuper.symm.trans hsuper'
          rw [ih hrest]

/-- A supertype has the rest of the chain as its own. -/
theorem of_mem (hl : Lineage nil h type chain) (hmem : supertype ∈ chain) :
    ∃ before after, chain = before ++ after ∧ Lineage nil h supertype after := by
  induction hl with
  | root => cases hmem
  | @cons type above chain hne hsuper hrest ih =>
      rcases List.mem_cons.mp hmem with heq | hmem
      · subst heq
        exact ⟨[], supertype :: chain, rfl, .cons hne hsuper hrest⟩
      · obtain ⟨before, after, hchain, hafter⟩ := ih hmem
        exact ⟨type :: before, after, congrArg (List.cons type) hchain, hafter⟩

/-- A type is not among its own proper supertypes, because its chain ends. -/
theorem nodup (hl : Lineage nil h type chain) : chain.Nodup := by
  induction hl with
  | root => exact List.nodup_nil
  | @cons type above chain hne hsuper hrest ih =>
      refine List.nodup_cons.mpr ⟨fun hmem => ?_, ih⟩
      obtain ⟨before, after, hchain, hafter⟩ := hrest.of_mem hmem
      have heq : type :: chain = after := unique (.cons hne hsuper hrest) hafter
      have hlength := congrArg List.length hchain
      rw [List.length_append, ← heq, List.length_cons] at hlength
      omega

theorem nil_not_mem (hl : Lineage nil h type chain) : nil ∉ chain := by
  induction hl with
  | root => exact List.not_mem_nil
  | cons hne _ _ ih => exact List.not_mem_cons_of_ne_of_not_mem hne.symm ih

theorem fields (hl : Lineage nil h type chain) : ∀ t ∈ chain, ∃ xs, h.fields t = .ok xs := by
  induction hl with
  | root => nofun
  | cons _ hsuper _ ih =>
      intro t ht
      rcases List.mem_cons.mp ht with rfl | ht
      · obtain ⟨xs, hxs, -⟩ := Heap.fetchField_eq_ok.mp hsuper
        exact ⟨xs, hxs⟩
      · exact ih t ht

/-- A chain is shorter than the fuel of a lookup. -/
theorem length_le (hl : Lineage nil h type chain) : chain.length ≤ h.objectCount :=
  Heap.length_le_of_fields hl.nodup hl.fields

theorem transfer (hl : Lineage nil h type chain) (hsame : ∀ t ∈ chain, ∀ x,
    h.fetchField t Slot.supertype = .ok x → h'.fetchField t Slot.supertype = .ok x) :
    Lineage nil h' type chain := by
  induction hl with
  | root => exact .root
  | cons hne hsuper _ ih =>
      refine .cons hne (hsame _ List.mem_cons_self _ hsuper) (ih fun t ht => ?_)
      exact hsame t (List.mem_cons_of_mem _ ht)

end Lineage

end MessageMachine
