import Lox.Proofs.Parse.Drawn
import Lox.Proofs.Scope.Walk

/-!
# Lox.Proofs.Scope.Exact

What the static checks report is lexical scope and nothing else. The errors are the breaches of the
static rules, one for each node and each rule it breaks (`errors_exact`). The table has the distance
of each reference of a parsed program to the nearest scope with its name, and no other entries
(`locals_exact`).
-/

namespace Lox

/-! ## Errors -/

/-- The breach that a finding at a path stands for. -/
def Resolve.offence? : List Nat × Finding → Option (List Nat × Token × ResolveProblem)
  | (path, .violation token problem) => some (path, token, problem)
  | (_, .bound _ _) => none

theorem Resolve.offence?_eq_some {site : List Nat × Finding}
    {offence : List Nat × Token × ResolveProblem} :
    offence? site = some offence ↔ site = (offence.1, .violation offence.2.1 offence.2.2) := by
  obtain ⟨path, f⟩ := site
  obtain ⟨path', token, problem⟩ := offence
  cases f <;> simp [offence?]

theorem Resolve.errorOf?_eq (site : List Nat × Finding) :
    errorOf? site.2 = (offence? site).map fun o => .resolve o.2.1 o.2.2 := by
  obtain ⟨path, f⟩ := site
  cases f <;> rfl

/-- The reported errors are the breaches of the static rules at the nodes of the program, one error
for each. -/
theorem Resolve.errors_exact (program : List Stmt) :
    ∃ offences : List (List Nat × Token × ResolveProblem), offences.Nodup ∧
      (∀ path token problem, (path, token, problem) ∈ offences ↔
        ∃ node, (Node.root program).at? path = some node ∧ node.Breaks token problem) ∧
      errors program = offences.map fun o => .resolve o.2.1 o.2.2 := by
  obtain ⟨sites, hnodup, hmem, hfindings⟩ := (collects_findings program).exists_eq
  refine ⟨sites.filterMap offence?, hnodup.filterMap ?_, fun path token problem => ?_, ?_⟩
  · intro site site' offence hsite hsite'
    rw [offence?_eq_some.1 hsite, offence?_eq_some.1 hsite']
  · simp only [List.mem_filterMap, offence?_eq_some, exists_eq_right, hmem]
    refine exists_congr fun node => and_congr_right fun _ => ⟨fun hdue => ?_, .violation⟩
    cases hdue with
    | violation h => exact h
  · rw [errors, hfindings, List.filterMap_map, List.map_filterMap]
    exact List.filterMap_congr fun site _ => errorOf?_eq site

/-! ## References -/

namespace Node

/-- The identity of the reference that a node is, if it is one. -/
def ids : Node → List RefId
  | ⟨.expr (.var id _), _⟩ | ⟨.expr (.assign id _ _), _⟩ | ⟨.expr (.superRef id _ _), _⟩
  | ⟨.expr (.thisRef id _), _⟩ => [id]
  | _ => []

theorem nodup_ids (node : Node) : node.ids.Nodup := by
  unfold ids
  split <;> simp

def IsReference (node : Node) (id : RefId) : Prop := ∃ d?, node.Refers id d?

theorem mem_ids {node : Node} {id : RefId} : id ∈ node.ids ↔ node.IsReference id := by
  constructor
  · intro h
    unfold ids at h
    split at h
    · rw [List.mem_singleton.1 h]
      exact ⟨_, .var⟩
    · rw [List.mem_singleton.1 h]
      exact ⟨_, .assign⟩
    · rw [List.mem_singleton.1 h]
      exact ⟨_, .superRef⟩
    · rename_i _ keyword a
      rw [List.mem_singleton.1 h]
      by_cases hcls : a.derived? = none
      · exact ⟨_, .thisOutside hcls⟩
      · exact ⟨_, .thisRef hcls⟩
    · cases h
  · rintro ⟨d?, h⟩
    cases h <;> exact List.mem_singleton_self id

theorem collectsIds {node : Node} {xs rest : List RefId}
    (hparts : CollectsAll IsReference node.parts rest) (hxs : xs.Perm (node.ids ++ rest)) :
    Collects IsReference node xs :=
  .of_parts node.nodup_ids (fun _ => mem_ids) hparts hxs

/-- A reference is bound in one way only. -/
theorem Refers.unique {node : Node} {id id' : RefId} {d? d?' : Option Nat}
    (h : node.Refers id d?) (h' : node.Refers id' d?') : d? = d?' := by
  cases h with
  | thisRef hcls =>
    cases h' with
    | thisRef => rfl
    | thisOutside hcls' => exact absurd hcls' hcls
  | thisOutside hcls =>
    cases h' with
    | thisRef hcls' => exact absurd hcls hcls'
    | thisOutside => rfl
  | _ =>
    cases h'
    rfl

end Node

open Node (IsReference collectsIds)

def idsOf (refs : List (RefId × Token)) : List RefId := refs.map Prod.fst

theorem idsOf_append (xs ys : List (RefId × Token)) : idsOf (xs ++ ys) = idsOf xs ++ idsOf ys :=
  List.map_append

mutual

theorem Expr.collects_refs (a : Surroundings) :
    ∀ e : Expr, Collects IsReference ⟨.expr e, a⟩ (idsOf e.refs)
  | .constant _ | .unparsed => collectsIds .nil .rfl
  | .grouping e | .unary _ e | .get e _ => collectsIds (.single (Expr.collects_refs a e)) .rfl
  | .binary l _ r | .logical l _ r => by
    rw [Expr.refs, idsOf_append]
    exact collectsIds (.cons (Expr.collects_refs a l) (.single (Expr.collects_refs a r))) .rfl
  | .var _ _ | .thisRef _ _ | .superRef _ _ _ => collectsIds .nil .rfl
  | .assign _ _ value => collectsIds (.single (Expr.collects_refs a value)) .rfl
  | .call callee _ args => by
    rw [Expr.refs, idsOf_append]
    exact collectsIds (.cons (Expr.collects_refs a callee) (Expr.collects_refsOfList a args)) .rfl
  | .set object _ value => by
    rw [Expr.refs, idsOf_append]
    exact collectsIds (.cons (Expr.collects_refs a object) (.single (Expr.collects_refs a value)))
      .rfl

theorem Expr.collects_refsOfList (a : Surroundings) :
    ∀ es : List Expr, CollectsAll IsReference (Node.exprs a es) (idsOf (Expr.refsOfList es))
  | [] => .nil
  | e :: es => by
    rw [Expr.refsOfList, idsOf_append]
    exact .cons (Expr.collects_refs a e) (Expr.collects_refsOfList a es)

end

theorem Expr.collects_refsOfOption (a : Surroundings) :
    ∀ e : Option Expr,
      CollectsAll IsReference (Node.exprs a e.toList) (idsOf (Expr.refsOfOption e))
  | none => .nil
  | some e => .single (Expr.collects_refs a e)

theorem Node.collects_parameters (a : Surroundings) (params : List Token) :
    CollectsAll IsReference (parameters a params) [] := by
  induction params generalizing a with
  | nil => exact .nil
  | cons t ts ih =>
    have hparameter : Collects IsReference ⟨.parameter t, a⟩ [] := collectsIds .nil .rfl
    exact .cons hparameter (ih (a.declaring [t.lexeme]))

mutual

theorem Stmt.collects_refs : ∀ (s : Stmt) (a : Surroundings),
    Collects IsReference ⟨.stmt s, a⟩ (idsOf s.refs)
  | .expression e, a => collectsIds (.single (Expr.collects_refs a e)) .rfl
  | .var _ init, _ => collectsIds (Expr.collects_refsOfOption _ init) .rfl
  | .block body, _ => collectsIds (Stmt.collects_refsOfList body _) .rfl
  | .ifThen condition yes, a => by
    rw [Stmt.refs, idsOf_append]
    exact collectsIds (.cons (Expr.collects_refs a condition) (.single (Stmt.collects_refs yes a)))
      .rfl
  | .ifElse condition yes no, a => by
    rw [Stmt.refs, idsOf_append, idsOf_append, List.append_assoc]
    exact collectsIds (.cons (Expr.collects_refs a condition)
      (.cons (Stmt.collects_refs yes a) (.single (Stmt.collects_refs no _)))) .rfl
  | .loop condition body, a => by
    rw [Stmt.refs, idsOf_append]
    exact collectsIds (.cons (Expr.collects_refs a condition) (.single (Stmt.collects_refs body a)))
      .rfl
  | .function decl, _ => collectsIds (.single (FunctionDecl.collects_refs decl _ _)) .rfl
  | .ret _ value, a => collectsIds (Expr.collects_refsOfOption a value) .rfl
  | .cls _ superclass ds, _ => by
    rw [Stmt.refs, idsOf_append]
    exact collectsIds ((Expr.collects_refsOfOption _ superclass).append
      (FunctionDecl.collects_refsOfList ds _)) .rfl

theorem Stmt.collects_refsOfList : ∀ (ss : List Stmt) (a : Surroundings),
    CollectsAll IsReference (Node.inOrder a ss) (idsOf (Stmt.refsOfList ss))
  | [], _ => .nil
  | s :: ss, a => by
    rw [Stmt.refsOfList, idsOf_append]
    exact .cons (Stmt.collects_refs s a) (Stmt.collects_refsOfList ss _)

theorem FunctionDecl.collects_refs : ∀ (d : FunctionDecl) (kind : Body) (a : Surroundings),
    Collects IsReference ⟨.body kind d, a⟩ (idsOf d.refs)
  | ⟨_, params, body⟩, _, _ =>
    collectsIds ((Node.collects_parameters _ params).append (Stmt.collects_refsOfList body _)) .rfl

theorem FunctionDecl.collects_refsOfList : ∀ (ds : List FunctionDecl) (a : Surroundings),
    CollectsAll IsReference (Node.methods a ds) (idsOf (FunctionDecl.refsOfList ds))
  | [], _ => .nil
  | d :: ds, a => by
    rw [FunctionDecl.refsOfList, idsOf_append]
    exact .cons (FunctionDecl.collects_refs d _ a) (FunctionDecl.collects_refsOfList ds a)

end

theorem collects_refs (program : List Stmt) :
    Collects IsReference (Node.root program) (idsOf (Stmt.refsOfList program)) :=
  collectsIds (Stmt.collects_refsOfList program {}) .rfl

/-- Where references are numbered apart, a number belongs to one place. -/
theorem Node.path_eq_of_isReference {program : List Stmt} {path path' : List Nat} {node node' : Node}
    {id : RefId} (hnodup : (idsOf (Stmt.refsOfList program)).Nodup)
    (hnode : (root program).at? path = some node) (hnode' : (root program).at? path' = some node')
    (h : node.IsReference id) (h' : node'.IsReference id) : path = path' := by
  obtain ⟨sites, -, hmem, hids⟩ := (collects_refs program).exists_eq
  rw [hids] at hnodup
  have hsite := (hmem path id).2 ⟨node, hnode, h⟩
  have hsite' := (hmem path' id).2 ⟨node', hnode', h'⟩
  have hpath : (path, id) = (path', id) := List.inj_on_of_nodup_map hnodup hsite hsite' rfl
  exact (Prod.mk.inj hpath).1

theorem Node.eq_of_isReference {program : List Stmt} {path path' : List Nat} {node node' : Node}
    {id : RefId} (hnodup : (idsOf (Stmt.refsOfList program)).Nodup)
    (hnode : (root program).at? path = some node) (hnode' : (root program).at? path' = some node')
    (h : node.IsReference id) (h' : node'.IsReference id) : node = node' := by
  rw [path_eq_of_isReference hnodup hnode hnode' h h', hnode'] at hnode
  exact (Option.some.inj hnode).symm

/-- A node of a program is a reference only if the program has its number. -/
theorem Node.mem_refs_of_isReference {program : List Stmt} {path : List Nat} {node : Node}
    {id : RefId} (hnode : (root program).at? path = some node) (h : node.IsReference id) :
    id ∈ idsOf (Stmt.refsOfList program) := by
  obtain ⟨sites, -, hmem, hids⟩ := (collects_refs program).exists_eq
  rw [hids]
  exact List.mem_map_of_mem ((hmem path id).2 ⟨node, hnode, h⟩)

/-! ## The table -/

/-- An entry is a reference that some scope has, with its distance. -/
theorem Locals.mem_entries {program : List Stmt} {id : RefId} {d : Nat} :
    (id, d) ∈ (ofProgram program).entries ↔
      ∃ path node, (Node.root program).at? path = some node ∧ node.Refers id (some d) := by
  obtain ⟨sites, -, hmem, hfindings⟩ := (Resolve.collects_findings program).exists_eq
  have hentry : (id, d) ∈ (ofProgram program).entries ↔
      .bound id d ∈ Resolve.findings program := by
    simp only [ofProgram, List.mem_filterMap]
    constructor
    · rintro ⟨f, hf, heq⟩
      cases f <;> cases heq
      exact hf
    · exact fun h => ⟨_, h, rfl⟩
  rw [hentry, hfindings, List.mem_map]
  constructor
  · rintro ⟨⟨path, f⟩, hsite, rfl⟩
    obtain ⟨node, hnode, hdue⟩ := (hmem path _).1 hsite
    cases hdue with
    | bound h => exact ⟨path, node, hnode, h⟩
  · rintro ⟨path, node, hnode, h⟩
    exact ⟨(path, .bound id d), (hmem path _).2 ⟨node, hnode, .bound h⟩, rfl⟩

theorem Locals.findAmong?_eq_some {id : RefId} {d : Nat} {es : List (RefId × Nat)}
    (h : findAmong? id es = some d) : (id, d) ∈ es := by
  induction es with
  | nil => cases h
  | cons e es ih =>
    obtain ⟨i, d'⟩ := e
    rw [findAmong?] at h
    split at h
    · rename_i hi
      cases h
      rw [hi]
      exact List.mem_cons_self
    · exact List.mem_cons_of_mem _ (ih h)

theorem Locals.findAmong?_ne_none {id : RefId} {d : Nat} {es : List (RefId × Nat)}
    (h : (id, d) ∈ es) : findAmong? id es ≠ none := by
  induction es with
  | nil => cases h
  | cons e es ih =>
    obtain ⟨i, d'⟩ := e
    rw [findAmong?]
    split
    · simp
    · rename_i hi
      obtain heq | h := List.mem_cons.1 h
      · cases heq
        exact absurd rfl hi
      · exact ih h

/-- The table of a parsed program, whether or not the parse had complaints: each reference has the
distance to the nearest scope that has its name at that point, or no entry if there is none, and
every entry belongs to a reference. -/
theorem locals_exact (first : RefId) (tokens : List Token) :
    (∀ path node id d?,
      (Node.root (Parse.ofTokens first tokens).statements).at? path = some node →
      node.Refers id d? →
      (Locals.ofProgram (Parse.ofTokens first tokens).statements).find? id = d?) ∧
    ∀ id d, (id, d) ∈ (Locals.ofProgram (Parse.ofTokens first tokens).statements).entries →
      ∃ path node, (Node.root (Parse.ofTokens first tokens).statements).at? path = some node ∧
        node.Refers id (some d) := by
  refine ⟨fun path node id d? hnode hrefers => ?_, fun id d => Locals.mem_entries.1⟩
  have hnodup := Parse.nodup_refs first tokens
  generalize (Parse.ofTokens first tokens).statements = program at *
  cases hfind : (Locals.ofProgram program).find? id with
  | some d =>
    obtain ⟨path', node', hnode', hrefers'⟩ :=
      Locals.mem_entries.1 (Locals.findAmong?_eq_some hfind)
    have hsame := Node.eq_of_isReference hnodup hnode hnode' ⟨_, hrefers⟩ ⟨_, hrefers'⟩
    rw [hsame] at hrefers
    exact hrefers'.unique hrefers
  | none =>
    cases d? with
    | none => rfl
    | some d =>
      exact absurd hfind
        (Locals.findAmong?_ne_none (Locals.mem_entries.2 ⟨path, node, hnode, hrefers⟩))

end Lox
