import Mathlib.Logic.Relation

namespace Quire.Precedence
open Relation
variable {Node Name : Type} {edge : Node → Node → Prop} {order : List Node}

-- Every predecessor of a listed node is listed before it.
def Ordered (edge : Node → Node → Prop) (order : List Node) : Prop :=
  ∀ earlier b later, order = earlier ++ b :: later → ∀ a, edge a b → a ∈ earlier

def Acyclic (edge : Node → Node → Prop) : Prop := ∀ a, ¬ TransGen edge a a

theorem Ordered.ancestor (ordered : Ordered edge order) (ancestor : TransGen edge a b)
    (at_b : order = earlier ++ b :: later) : a ∈ earlier := by
  induction ancestor generalizing earlier later with
  | single step => exact ordered earlier _ later at_b _ step
  | @tail c d path step ih =>
    have listed : c ∈ earlier := ordered earlier d later at_b c step
    obtain ⟨front,between,rfl⟩ := List.append_of_mem listed
    have at_c : order = front ++ c :: (between ++ d :: later) := by simpa using at_b
    exact List.mem_append_left _ (ih at_c)

-- Renaming the nodes of an order, when each named edge comes from an edge.
theorem Ordered.map (ordered : Ordered edge order) {named : Name → Name → Prop} (name : Node → Name)
    (covered : ∀ b ∈ order, ∀ a, named a (name b) → ∃ c, name c = a ∧ edge c b) :
    Ordered named (order.map name) := by
  intro earlier b later split a step
  obtain ⟨front,rest,rfl,rfl,tail⟩ := List.map_eq_append_iff.mp split
  obtain ⟨node,back,rfl,rfl,rfl⟩ := List.map_eq_cons_iff.mp tail
  obtain ⟨c,rfl,before⟩ := covered node (by simp) a step
  exact List.mem_map_of_mem (ordered front node back rfl c before)

-- Components are classes of mutual reachability. If none has two nodes and none
-- is a node with an edge to itself, there is no cycle at all.
theorem acyclic_of_components {components : List (List Node)} {known : Node → Prop}
    (bounded : ∀ a b, edge a b → known a ∧ known b)
    (classes : ∀ a b, known a → known b →
      ((∃ c ∈ components, a ∈ c ∧ b ∈ c) ↔ ReflTransGen edge a b ∧ ReflTransGen edge b a))
    (trivial : ∀ c ∈ components, c.length ≤ 1)
    (loopless : ∀ a, [a] ∈ components → ¬ edge a a) : Acyclic edge := by
  intro a cycle
  obtain ⟨b,first,back⟩ := TransGen.head'_iff.mp cycle
  obtain ⟨knownA,knownB⟩ := bounded a b first
  obtain ⟨c,member,inA,inB⟩ := (classes a b knownA knownB).mpr ⟨.single first,back⟩
  obtain ⟨x,rfl⟩ : ∃ x, c = [x] := by
    apply List.length_eq_one_iff.mp
    have small := trivial c member
    have positive := List.length_pos_of_mem inA
    omega
  obtain rfl := List.mem_singleton.mp inA
  obtain rfl := List.mem_singleton.mp inB
  exact loopless b member first

end Quire.Precedence
