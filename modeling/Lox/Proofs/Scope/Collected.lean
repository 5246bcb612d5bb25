import Mathlib
import Lox.Scope.Node

/-!
# Lox.Proofs.Scope.Collected

What is due at the nodes of a tree, node by node: a list collects it if its members are, up to their
order, what is due at each of the paths. Collections for the parts of a node, together with what is
due at the node itself, make one for the node (`Collects.of_parts`).
-/

namespace Lox

/-- The list holds what is due at the nodes from `node` down, once for each node it is due at. -/
def Collects {α : Type} (due : Node → α → Prop) (node : Node) (xs : List α) : Prop :=
  ∃ sites : List (List Nat × α), sites.Nodup ∧
    (∀ path x, (path, x) ∈ sites ↔ ∃ inner, node.at? path = some inner ∧ due inner x) ∧
    xs.Perm (sites.map Prod.snd)

/-- The same for several nodes. -/
def CollectsAll {α : Type} (due : Node → α → Prop) (nodes : List Node) (xs : List α) : Prop :=
  ∃ xss, List.Forall₂ (Collects due) nodes xss ∧ xs.Perm xss.flatten

namespace CollectsAll

variable {α : Type} {due : Node → α → Prop} {node : Node} {nodes nodes' : List Node}
  {xs ys : List α}

theorem nil : CollectsAll due [] [] := ⟨[], .nil, .nil⟩

theorem cons (h : Collects due node xs) (hs : CollectsAll due nodes ys) :
    CollectsAll due (node :: nodes) (xs ++ ys) := by
  obtain ⟨yss, hyss, hys⟩ := hs
  exact ⟨xs :: yss, .cons h hyss, hys.append_left xs⟩

theorem single (h : Collects due node xs) : CollectsAll due [node] xs := by
  have hcons := cons h nil
  rwa [List.append_nil] at hcons

theorem append (h : CollectsAll due nodes xs) (h' : CollectsAll due nodes' ys) :
    CollectsAll due (nodes ++ nodes') (xs ++ ys) := by
  obtain ⟨xss, hxss, hxs⟩ := h
  obtain ⟨yss, hyss, hys⟩ := h'
  refine ⟨xss ++ yss, List.rel_append hxss hyss, ?_⟩
  rw [List.flatten_append]
  exact hxs.append hys

/-- Places in several trees: which of them, the path in it, and what is due there. -/
theorem exists_sites {xss : List (List α)} (h : List.Forall₂ (Collects due) nodes xss) :
    ∃ sites : List (Nat × List Nat × α), sites.Nodup ∧
      (∀ i path x, (i, path, x) ∈ sites ↔
        ∃ node inner, nodes[i]? = some node ∧ node.at? path = some inner ∧ due inner x) ∧
      xss.flatten.Perm (sites.map fun site => site.2.2) := by
  induction h with
  | nil => exact ⟨[], .nil, by simp, .nil⟩
  | @cons node xs nodes xss hfirst _ ih =>
    obtain ⟨first, hfirstNodup, hfirstMem, hfirstPerm⟩ := hfirst
    obtain ⟨later, hlaterNodup, hlaterMem, hlaterPerm⟩ := ih
    refine ⟨first.map (Prod.mk 0) ++ later.map (Prod.map Nat.succ id), ?_, fun i path x => ?_, ?_⟩
    · refine List.Nodup.append (hfirstNodup.map (Prod.mk_right_injective 0))
        (hlaterNodup.map (Nat.succ_injective.prodMap Function.injective_id)) ?_
      intro site hsite hsite'
      obtain ⟨s, -, rfl⟩ := List.mem_map.1 hsite
      obtain ⟨⟨j, t⟩, -, heq⟩ := List.mem_map.1 hsite'
      cases heq
    · cases i with
      | zero =>
        have hlater : (0, path, x) ∉ later.map (Prod.map Nat.succ id) := by simp
        simp [hlater, hfirstMem]
      | succ i =>
        have hfirst : (i + 1, path, x) ∉ first.map (Prod.mk 0) := by simp
        simp [hfirst, hlaterMem]
    · rw [List.flatten_cons, List.map_append, List.map_map, List.map_map]
      exact hfirstPerm.append hlaterPerm

end CollectsAll

namespace Collects

variable {α : Type} {due : Node → α → Prop} {node : Node} {xs own rest : List α}

/-- What is due at a node and what its parts collect. -/
theorem of_parts (hnodup : own.Nodup) (hown : ∀ x, x ∈ own ↔ due node x)
    (hparts : CollectsAll due node.parts rest) (hxs : xs.Perm (own ++ rest)) :
    Collects due node xs := by
  obtain ⟨xss, hxss, hrest⟩ := hparts
  obtain ⟨sites, hsitesNodup, hsitesMem, hsitesPerm⟩ := CollectsAll.exists_sites hxss
  let below : Nat × List Nat × α → List Nat × α := fun site => (site.1 :: site.2.1, site.2.2)
  have hbelow : Function.Injective below := by
    rintro ⟨i, path, x⟩ ⟨j, path', y⟩ h
    cases h
    rfl
  refine ⟨own.map (Prod.mk []) ++ sites.map below, ?_, fun path x => ?_, ?_⟩
  · refine List.Nodup.append (hnodup.map (Prod.mk_right_injective [])) (hsitesNodup.map hbelow) ?_
    intro site hsite hsite'
    obtain ⟨x, -, rfl⟩ := List.mem_map.1 hsite
    obtain ⟨s, -, heq⟩ := List.mem_map.1 hsite'
    cases heq
  · cases path with
    | nil =>
      have hsites : ([], x) ∉ sites.map below := by simp [below]
      simp [hsites, hown, Node.at?]
    | cons i path =>
      have hmem : (i :: path, x) ∈ sites.map below ↔ (i, path, x) ∈ sites :=
        List.mem_map_of_injective hbelow (a := (i, path, x))
      have hself : (i :: path, x) ∉ own.map (Prod.mk []) := by simp
      rw [List.mem_append, or_iff_right hself, hmem, hsitesMem]
      simp only [Node.at?, Option.bind_eq_some_iff]
      constructor
      · rintro ⟨inner, last, hinner, hlast, hx⟩
        exact ⟨last, ⟨inner, hinner, hlast⟩, hx⟩
      · rintro ⟨last, ⟨inner, hinner, hlast⟩, hx⟩
        exact ⟨inner, last, hinner, hlast, hx⟩
  · refine hxs.trans ?_
    rw [List.map_append, List.map_map, List.map_map]
    exact ((List.Perm.of_eq (List.map_id own).symm).append (hrest.trans hsitesPerm))

/-- The places, in the order of the list. -/
theorem exists_eq (h : Collects due node xs) : ∃ sites : List (List Nat × α), sites.Nodup ∧
    (∀ path x, (path, x) ∈ sites ↔ ∃ inner, node.at? path = some inner ∧ due inner x) ∧
    xs = sites.map Prod.snd := by
  obtain ⟨sites, hnodup, hmem, hperm⟩ := h
  have hsame : List.Forall₂ (fun x site => x = site.2) (sites.map Prod.snd) sites :=
    List.forall₂_map_left_iff.2 (List.forall₂_same.2 fun _ _ => rfl)
  obtain ⟨ordered, hordered, hsites⟩ := List.perm_comp_forall₂ hperm hsame
  refine ⟨ordered, hsites.nodup_iff.2 hnodup, fun path x => ?_, ?_⟩
  · rw [hsites.mem_iff]
    exact hmem path x
  · rw [← List.forall₂_eq_eq_eq, List.forall₂_map_right_iff]
    exact hordered

end Collects
end Lox
