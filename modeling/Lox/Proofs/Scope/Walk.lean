import Lox.Proofs.Scope.Carried
import Lox.Proofs.Scope.Collected

/-!
# Lox.Proofs.Scope.Walk

The static walk against lexical scope. The scopes and the context that the walk holds when it comes
to a node are those of the node's surroundings (`Surroundings.Describes`), so it finds there what is
due at the node, and over a whole program what is due at each node, once (`collects_findings`).
-/

namespace Lox

/-! ## What is due at a node -/

/-- A distance for a reference that some scope has, and every breach of a static rule. -/
inductive Node.Due : Node → Finding → Prop where
  | bound {node : Node} {id : RefId} {d : Nat} (h : node.Refers id (some d)) :
      Due node (.bound id d)
  | violation {node : Node} {token : Token} {problem : ResolveProblem}
      (h : node.Breaks token problem) : Due node (.violation token problem)

namespace Surroundings

def bind (a : Surroundings) (id : RefId) (name : String) : List Finding :=
  match a.distance? name with
  | some d => [.bound id d]
  | none => []

def redeclared (a : Surroundings) (name : Token) : List Finding :=
  Resolve.violationIf (a.declares name.lexeme) name .alreadyDeclared

/-- The name is declared by the variable whose initializer the node is in. -/
def isPending (a : Surroundings) (name : String) : Bool :=
  decide (a.scopes ≠ [] ∧ a.initializing = some name)

theorem mem_bind {a : Surroundings} {id : RefId} {name : String} {f : Finding} :
    f ∈ a.bind id name ↔ ∃ d, a.distance? name = some d ∧ f = .bound id d := by
  unfold bind
  cases a.distance? name <;> simp

theorem nodup_bind (a : Surroundings) (id : RefId) (name : String) : (a.bind id name).Nodup := by
  unfold bind
  cases a.distance? name <;> simp

end Surroundings

theorem Resolve.mem_violationIf {wrong : Bool} {token : Token} {problem : ResolveProblem}
    {f : Finding} :
    f ∈ violationIf wrong token problem ↔ wrong = true ∧ f = .violation token problem := by
  cases wrong <;> simp [violationIf]

theorem Resolve.nodup_violationIf (wrong : Bool) (token : Token) (problem : ResolveProblem) :
    (violationIf wrong token problem).Nodup := by
  cases wrong <;> simp [violationIf]

namespace Node

open Resolve (violationIf mem_violationIf nodup_violationIf)

/-- What is due at a node, as a list. -/
def dues : Node → List Finding
  | ⟨.expr (.var id name), a⟩ =>
    violationIf (a.isPending name.lexeme) name .readInOwnInitializer ++ a.bind id name.lexeme
  | ⟨.expr (.assign id name _), a⟩ => a.bind id name.lexeme
  | ⟨.expr (.thisRef id keyword), a⟩ =>
    if a.derived? = none then [.violation keyword .thisOutsideClass] else a.bind id keyword.lexeme
  | ⟨.expr (.superRef id keyword _), a⟩ =>
    violationIf (a.derived? == none) keyword .superOutsideClass ++
      violationIf (a.derived? == some false) keyword .superWithoutSuperclass ++
      a.bind id keyword.lexeme
  | ⟨.stmt (.var name _), a⟩ => a.redeclared name
  | ⟨.stmt (.function decl), a⟩ => a.redeclared decl.name
  | ⟨.stmt (.ret keyword value), a⟩ =>
    violationIf (a.body? == none) keyword .returnAtTopLevel ++
      violationIf (value.isSome && a.body? == some (.method initializerName)) keyword
        .valueFromInitializer
  | ⟨.stmt (.cls name none _), a⟩ => a.redeclared name
  | ⟨.stmt (.cls name (some superclass) _), a⟩ =>
    a.redeclared name ++ Resolve.selfInheritance name superclass
  | ⟨.parameter name, a⟩ => a.redeclared name
  | _ => []

theorem due_of_mem_redeclared {a : Surroundings} {part : Part} {name : Token} {f : Finding}
    (hpart : Declares part name) (h : f ∈ a.redeclared name) : Due ⟨part, a⟩ f := by
  obtain ⟨hd, rfl⟩ := mem_violationIf.1 h
  exact .violation (.alreadyDeclared hpart hd)

theorem due_of_mem_bind {node : Node} {a : Surroundings} {id : RefId} {name : String} {f : Finding}
    (hrefers : node.Refers id (a.distance? name)) (h : f ∈ a.bind id name) : node.Due f := by
  obtain ⟨d, hd, rfl⟩ := Surroundings.mem_bind.1 h
  rw [hd] at hrefers
  exact .bound hrefers

theorem due_of_mem_dues {node : Node} {f : Finding} (h : f ∈ node.dues) : node.Due f := by
  obtain ⟨part, a⟩ := node
  cases part with
  | program | body => cases h
  | parameter name => exact due_of_mem_redeclared .parameter h
  | expr e =>
    cases e with
    | var id name =>
      obtain h | h := List.mem_append.1 h
      · obtain ⟨hpending, rfl⟩ := mem_violationIf.1 h
        obtain ⟨hlocal, hname⟩ := of_decide_eq_true hpending
        exact .violation (.readInOwnInitializer hlocal hname)
      · exact due_of_mem_bind .var h
    | assign id name value => exact due_of_mem_bind .assign h
    | thisRef id keyword =>
      rw [dues] at h
      split at h
      · rename_i hcls
        rw [List.mem_singleton.1 h]
        exact .violation (.thisOutsideClass hcls)
      · rename_i hcls
        exact due_of_mem_bind (.thisRef hcls) h
    | superRef id keyword method =>
      obtain h | h := List.mem_append.1 h
      · obtain h | h := List.mem_append.1 h
        · obtain ⟨hcls, rfl⟩ := mem_violationIf.1 h
          exact .violation (.superOutsideClass (eq_of_beq hcls))
        · obtain ⟨hcls, rfl⟩ := mem_violationIf.1 h
          exact .violation (.superWithoutSuperclass (eq_of_beq hcls))
      · exact due_of_mem_bind .superRef h
    | _ => cases h
  | stmt s =>
    cases s with
    | var name init => exact due_of_mem_redeclared .var h
    | function decl => exact due_of_mem_redeclared .function h
    | ret keyword value =>
      obtain h | h := List.mem_append.1 h
      · obtain ⟨hbody, rfl⟩ := mem_violationIf.1 h
        exact .violation (.returnAtTopLevel (eq_of_beq hbody))
      · obtain ⟨hboth, rfl⟩ := mem_violationIf.1 h
        obtain ⟨hvalue, hbody⟩ := Bool.and_eq_true_iff.1 hboth
        obtain ⟨e, rfl⟩ := Option.isSome_iff_exists.1 hvalue
        exact .violation (.valueFromInitializer (eq_of_beq hbody))
    | cls name superclass methods =>
      cases superclass with
      | none => exact due_of_mem_redeclared .cls h
      | some superclass =>
        obtain h | h := List.mem_append.1 h
        · exact due_of_mem_redeclared .cls h
        · unfold Resolve.selfInheritance at h
          split at h
          · obtain ⟨hname, rfl⟩ := mem_violationIf.1 h
            exact .violation (.selfInheritance (eq_of_beq hname))
          · cases h
    | _ => cases h

theorem mem_dues_of_refers {node : Node} {id : RefId} {d? : Option Nat} {d : Nat}
    (h : node.Refers id d?) (hd : d? = some d) : .bound id d ∈ node.dues := by
  cases h with
  | var => exact List.mem_append_right _ (Surroundings.mem_bind.2 ⟨d, hd, rfl⟩)
  | assign => exact Surroundings.mem_bind.2 ⟨d, hd, rfl⟩
  | superRef => exact List.mem_append_right _ (Surroundings.mem_bind.2 ⟨d, hd, rfl⟩)
  | thisRef hcls =>
    rw [dues, if_neg hcls]
    exact Surroundings.mem_bind.2 ⟨d, hd, rfl⟩
  | thisOutside => cases hd

theorem mem_dues_of_breaks {node : Node} {token : Token} {problem : ResolveProblem}
    (h : node.Breaks token problem) : .violation token problem ∈ node.dues := by
  cases h with
  | returnAtTopLevel hbody => simp [dues, mem_violationIf, hbody]
  | valueFromInitializer hbody => simp [dues, mem_violationIf, hbody]
  | thisOutsideClass hcls => simp [dues, hcls]
  | superOutsideClass hcls => simp [dues, mem_violationIf, hcls]
  | superWithoutSuperclass hcls => simp [dues, mem_violationIf, hcls]
  | selfInheritance hname =>
    simp [dues, Resolve.selfInheritance, mem_violationIf, hname]
  | @alreadyDeclared part _ a hpart hd =>
    have hmem : .violation token .alreadyDeclared ∈ a.redeclared token :=
      mem_violationIf.2 ⟨hd, rfl⟩
    cases hpart with
    | var => exact hmem
    | function => exact hmem
    | @cls _ superclass _ =>
      cases superclass with
      | none => exact hmem
      | some superclass => exact List.mem_append_left _ hmem
    | parameter => exact hmem
  | readInOwnInitializer hlocal hname =>
    simp [dues, mem_violationIf, Surroundings.isPending, hlocal, hname]

theorem mem_dues {node : Node} {f : Finding} : f ∈ node.dues ↔ node.Due f := by
  refine ⟨due_of_mem_dues, fun h => ?_⟩
  cases h with
  | bound h => exact mem_dues_of_refers h rfl
  | violation h => exact mem_dues_of_breaks h

theorem nodup_dues (node : Node) : node.dues.Nodup := by
  obtain ⟨part, a⟩ := node
  cases part with
  | program | body => exact List.nodup_nil
  | parameter name => exact nodup_violationIf _ _ _
  | expr e =>
    cases e with
    | var id name =>
      rw [dues, violationIf, Surroundings.bind]
      split <;> split <;> simp
    | assign id name value => exact Surroundings.nodup_bind _ _ _
    | thisRef id keyword =>
      rw [dues]
      split
      · exact List.nodup_singleton _
      · exact Surroundings.nodup_bind _ _ _
    | superRef id keyword method =>
      rw [dues, violationIf, violationIf, Surroundings.bind]
      split <;> split <;> split <;> simp
    | _ => exact List.nodup_nil
  | stmt s =>
    cases s with
    | var | function => exact nodup_violationIf _ _ _
    | ret keyword value =>
      rw [dues, violationIf, violationIf]
      split <;> split <;> simp
    | cls name superclass methods =>
      cases superclass with
      | none => exact nodup_violationIf _ _ _
      | some superclass =>
        cases superclass with
        | var =>
          rw [dues, Surroundings.redeclared, Resolve.selfInheritance, violationIf, violationIf]
          split <;> split <;> simp
        | _ =>
          show (a.redeclared name ++ []).Nodup
          rw [List.append_nil]
          exact nodup_violationIf _ _ _
    | _ => exact List.nodup_nil

/-- A node is collected with its parts. -/
theorem collects {node : Node} {xs rest : List Finding} (hparts : CollectsAll Due node.parts rest)
    (hxs : xs.Perm (node.dues ++ rest)) : Collects Due node xs :=
  .of_parts node.nodup_dues (fun _ => mem_dues) hparts hxs

end Node

/-! ## The scopes of the walk -/

def FunctionContext.of : Option Body → FunctionContext
  | none => .outside
  | some .function => .function
  | some (.method name) => if name == initializerName then .initializer else .method

def ClassContext.of : Option Bool → ClassContext
  | none => .outside
  | some false => .plain
  | some true => .subclass

theorem FunctionContext.of_beq_outside (b : Option Body) : (of b == .outside) = (b == none) := by
  rcases b with _ | _ | name
  · rfl
  · rfl
  · by_cases h : name = initializerName <;> simp [of, h]

theorem FunctionContext.of_beq_initializer (b : Option Body) :
    (of b == .initializer) = (b == some (.method initializerName)) := by
  rcases b with _ | _ | name
  · rfl
  · rfl
  · by_cases h : name = initializerName <;> simp [of, h]

theorem ClassContext.of_eq_outside (d : Option Bool) : of d = .outside ↔ d = none := by
  rcases d with _ | _ | _ <;> simp [of]

theorem ClassContext.of_beq_outside (d : Option Bool) : (of d == .outside) = (d == none) := by
  rcases d with _ | _ | _ <;> rfl

theorem ClassContext.of_beq_plain (d : Option Bool) : (of d == .plain) = (d == some false) := by
  rcases d with _ | _ | _ <;> rfl

/-- The scope has exactly these names. -/
def Scope.HasNames (names : List String) (s : Scope) : Prop :=
  ∀ name, s.contains name = names.contains name

namespace Surroundings

/-! ### Declarations -/

section Declaring

variable (a : Surroundings) (names later : List String)

theorem declaring_nil : a.declaring [] = a := by
  obtain ⟨_ | ⟨e, outer⟩, initializing⟩ := a
  · rfl
  · cases e <;> rfl

theorem declaring_declaring :
    (a.declaring names).declaring later = a.declaring (later ++ names) := by
  obtain ⟨_ | ⟨e, outer⟩, initializing⟩ := a
  · rfl
  · cases e <;> simp [declaring, Enclosure.declaring]

theorem body?_declaring : (a.declaring names).body? = a.body? := by
  obtain ⟨_ | ⟨e, outer⟩, initializing⟩ := a
  · rfl
  · cases e <;> rfl

theorem derived?_declaring : (a.declaring names).derived? = a.derived? := by
  obtain ⟨_ | ⟨e, outer⟩, initializing⟩ := a
  · rfl
  · cases e <;> rfl

end Declaring

/-- Where a statement can stand: in a block, a body or the global scope, and in no initializer. -/
structure Ready (a : Surroundings) : Prop where
  holder : a.enclosing = [] ∨ (∃ names outer, a.enclosing = .block names :: outer) ∨
    ∃ kind names outer, a.enclosing = .body kind names :: outer
  initializing : a.initializing = none

namespace Ready

variable {a : Surroundings}

theorem declaring (h : a.Ready) (names : List String) : (a.declaring names).Ready := by
  refine ⟨?_, h.initializing⟩
  obtain henclosing | ⟨_, _, henclosing⟩ | ⟨_, _, _, henclosing⟩ := h.holder <;>
    simp [Surroundings.declaring, Enclosure.declaring, henclosing]

theorem scopes_declaring (h : a.Ready) (names : List String) :
    (a.declaring names).scopes =
      match a.scopes with
      | [] => []
      | earlier :: outer => (names ++ earlier) :: outer := by
  obtain henclosing | ⟨_, _, henclosing⟩ | ⟨_, _, _, henclosing⟩ := h.holder <;>
    simp [Surroundings.declaring, Enclosure.declaring, scopes, Enclosure.scopes, henclosing]

end Ready

theorem ready_block {a : Surroundings} (h : a.initializing = none) :
    (a.within (.block [])).Ready :=
  ⟨.inr (.inl ⟨[], a.enclosing, rfl⟩), h⟩

theorem ready_body {a : Surroundings} (h : a.initializing = none) (kind : Body) :
    (a.within (.body kind [])).Ready :=
  ⟨.inr (.inr ⟨kind, [], a.enclosing, rfl⟩), h⟩

theorem isPending_eq_false {a : Surroundings} (h : a.initializing = none) (name : String) :
    a.isPending name = false := by
  simp [isPending, h]

/-! ### Descriptions -/

/-- The walk holds the scopes and the context of these surroundings. -/
structure Describes (a : Surroundings) (ctx : ResolveContext) (scopes : List Scope) : Prop where
  names : List.Forall₂ Scope.HasNames a.scopes scopes
  function : ctx.function = FunctionContext.of a.body?
  cls : ctx.cls = ClassContext.of a.derived?
  pending : ∀ name, Scope.isPending name scopes = a.isPending name

theorem describes_global : Describes {} {} [] where
  names := .nil
  function := rfl
  cls := rfl
  pending _ := rfl

namespace Describes

variable {a : Surroundings} {ctx : ResolveContext} {scopes : List Scope}

theorem distance?_eq (h : a.Describes ctx scopes) (name : String) :
    Scope.distance? name scopes = a.distance? name := by
  have hnames := h.names
  unfold distance?
  generalize a.scopes = names at hnames ⊢
  clear h
  induction hnames with
  | nil => rfl
  | cons hfirst _ ih => rw [Scope.distance?, List.findIdx?_cons, hfirst name, ih]

theorem bind_eq (h : a.Describes ctx scopes) (id : RefId) (name : String) :
    Resolve.bind scopes id name = a.bind id name := by
  rw [Resolve.bind, h.distance?_eq]
  rfl

theorem redeclared_eq (h : a.Describes ctx scopes) (name : Token) :
    Resolve.violationIf (Scope.declares name.lexeme scopes) name .alreadyDeclared =
      a.redeclared name := by
  have hnames := h.names
  unfold redeclared declares
  generalize a.scopes = names at hnames ⊢
  cases hnames with
  | nil => rfl
  | cons hfirst _ => rw [Scope.declares, hfirst name.lexeme]

theorem settled (h : a.Describes ctx scopes) (hi : a.initializing = none) :
    Scope.Settled scopes := by
  intro name
  rw [h.pending, isPending_eq_false hi]

/-- Entering a name into the innermost scope. -/
theorem names_enter (h : a.Describes ctx scopes) (hr : a.Ready) (name : String) (complete : Bool) :
    List.Forall₂ Scope.HasNames (a.declaring [name]).scopes (Scope.enter name complete scopes) := by
  have hnames := h.names
  rw [hr.scopes_declaring]
  generalize a.scopes = names at hnames ⊢
  cases hnames with
  | nil => exact .nil
  | cons hfirst houter =>
    refine .cons (fun m => ?_) houter
    rw [Bindings.contains_insert, hfirst m]
    simp [eq_comm]

theorem declare (h : a.Describes ctx scopes) (hr : a.Ready) (name : Token) :
    (a.declaring [name.lexeme]).Describes ctx (Resolve.declareWhole scopes name).1 where
  names := by
    show List.Forall₂ _ _ (Scope.declare scopes name)
    rw [Scope.declare_eq_enter]
    exact h.names_enter hr name.lexeme true
  function := by rw [h.function, body?_declaring]
  cls := by rw [h.cls, derived?_declaring]
  pending m := ((h.settled hr.initializing).declare name m).trans
    (@isPending_eq_false (a.declaring _) hr.initializing m).symm

/-- In the initializer of a variable its declaration is under way. -/
theorem initializer (h : a.Describes ctx scopes) (hr : a.Ready) (name : Token) :
    Describes { a.declaring [name.lexeme] with initializing := some name.lexeme } ctx
      (Resolve.declare scopes name).1 where
  names := h.names_enter hr name.lexeme false
  function := by
    rw [h.function]
    exact congrArg _ (body?_declaring a _).symm
  cls := by
    rw [h.cls]
    exact congrArg _ (derived?_declaring a _).symm
  pending m := by
    have hnames := h.names_enter hr name.lexeme false
    show Scope.isPending m (Scope.enter name.lexeme false scopes) =
      decide ((a.declaring [name.lexeme]).scopes ≠ [] ∧ some name.lexeme = some m)
    generalize (a.declaring [name.lexeme]).scopes = inner at hnames ⊢
    by_cases hm : name.lexeme = m
    · cases scopes with
      | nil =>
        cases hnames
        simp [Scope.enter, Scope.isPending]
      | cons s outer =>
        cases hnames
        simp [Scope.enter, Scope.isPending, hm]
    · rw [Scope.isPending_enter_of_ne hm, h.settled hr.initializing m]
      simp [hm]

theorem block (h : a.Describes ctx scopes) (hi : a.initializing = none) :
    (a.within (.block [])).Describes ctx (.empty :: scopes) where
  names := .cons (fun _ => rfl) h.names
  function := h.function
  cls := h.cls
  pending m := (@isPending_eq_false (a.within _) hi m).symm

theorem body (h : a.Describes ctx scopes) (hi : a.initializing = none) (kind : Body) :
    (a.within (.body kind [])).Describes { ctx with function := .of (some kind) }
      (.empty :: scopes) where
  names := .cons (fun _ => rfl) h.names
  function := rfl
  cls := h.cls
  pending m := (@isPending_eq_false (a.within _) hi m).symm

theorem hasNames_singleton (name : String) :
    Scope.HasNames [name] (Bindings.singleton name true) := by
  intro m
  rw [Scope.contains_singleton]
  simp [eq_comm]

theorem plainClass (h : a.Describes ctx scopes) (hi : a.initializing = none) :
    (a.within (.cls false)).Describes { ctx with cls := .plain } (Resolve.thisScope :: scopes) where
  names := .cons (hasNames_singleton "this") h.names
  function := h.function
  cls := rfl
  pending m := (Scope.isPending_singleton_cons "this" m _).trans
    (@isPending_eq_false (a.within _) hi m).symm

theorem derivedClass (h : a.Describes ctx scopes) (hi : a.initializing = none) :
    (a.within (.cls true)).Describes { ctx with cls := .subclass }
      (Resolve.thisScope :: Resolve.superScope :: scopes) where
  names := .cons (hasNames_singleton "this") (.cons (hasNames_singleton "super") h.names)
  function := h.function
  cls := rfl
  pending m := (Scope.isPending_singleton_cons "this" m _).trans
    (@isPending_eq_false (a.within _) hi m).symm

theorem clause (h : a.Describes ctx scopes) :
    (a.within .clause).Describes { ctx with cls := .subclass } scopes where
  names := h.names
  function := h.function
  cls := rfl
  pending := h.pending

end Describes
end Surroundings

/-! ## The walk -/

namespace Resolve

open Node (Due)

variable {a : Surroundings} {ctx : ResolveContext} {scopes : List Scope}

mutual

theorem collects_expr (h : a.Describes ctx scopes) :
    ∀ e : Expr, Collects Due ⟨.expr e, a⟩ (expr ctx scopes e)
  | .constant _ | .unparsed => Node.collects .nil .rfl
  | .grouping e | .unary _ e | .get e _ => Node.collects (.single (collects_expr h e)) .rfl
  | .binary l _ r | .logical l _ r =>
    Node.collects (.cons (collects_expr h l) (.single (collects_expr h r))) .rfl
  | .var id name => by
    refine Node.collects .nil (.of_eq ?_)
    rw [expr, h.bind_eq, h.pending, List.append_nil]
    rfl
  | .assign id name value => by
    refine Node.collects (.single (collects_expr h value)) ?_
    rw [expr, h.bind_eq]
    exact List.perm_append_comm
  | .call callee _ args =>
    Node.collects (.cons (collects_expr h callee) (collects_exprs h args)) .rfl
  | .set object _ value =>
    Node.collects (.cons (collects_expr h object) (.single (collects_expr h value)))
      List.perm_append_comm
  | .thisRef id keyword => by
    refine Node.collects .nil (.of_eq ?_)
    rw [expr, h.bind_eq, h.cls, List.append_nil, Node.dues]
    simp only [ClassContext.of_eq_outside]
  | .superRef id keyword _ => by
    refine Node.collects .nil (.of_eq ?_)
    rw [expr, h.bind_eq, h.cls, ClassContext.of_beq_outside, ClassContext.of_beq_plain,
      List.append_nil]
    rfl

theorem collects_exprs (h : a.Describes ctx scopes) :
    ∀ es : List Expr, CollectsAll Due (Node.exprs a es) (exprs ctx scopes es)
  | [] => .nil
  | e :: es => .cons (collects_expr h e) (collects_exprs h es)

end

theorem collects_optionalExpr (h : a.Describes ctx scopes) :
    ∀ e : Option Expr, CollectsAll Due (Node.exprs a e.toList) (optionalExpr ctx scopes e)
  | none => .nil
  | some e => .single (collects_expr h e)

/-- Each parameter is declared after the ones before it. -/
theorem collects_declareAll (h : a.Describes ctx scopes) (hr : a.Ready) (params : List Token) :
    CollectsAll Due (Node.parameters a params) (declareAll scopes params).2 ∧
      (a.declaring (params.map Token.lexeme).reverse).Describes ctx
        (declareAll scopes params).1 := by
  induction params generalizing a scopes with
  | nil => exact ⟨.nil, by rwa [List.map_nil, List.reverse_nil, a.declaring_nil]⟩
  | cons t ts ih =>
    obtain ⟨hcollects, hdescribes⟩ := ih (h.declare hr t) (hr.declaring _)
    rw [a.declaring_declaring, ← List.reverse_cons, ← List.map_cons] at hdescribes
    refine ⟨.cons (Node.collects .nil (.of_eq ?_)) hcollects, hdescribes⟩
    rw [List.append_nil]
    exact h.redeclared_eq t

theorem describes_stmt : ∀ (s : Stmt) {a : Surroundings} {scopes : List Scope},
    a.Describes ctx scopes → a.Ready →
      (a.declaring s.declaredNames).Describes ctx (stmt ctx scopes s).1
  | .expression _, a, _, h, _ | .block _, a, _, h, _ | .ret _ _, a, _, h, _ => by
    rw [Stmt.declaredNames, a.declaring_nil]
    exact h
  | .var name _, _, _, h, hr => h.declare hr name
  | .ifThen _ yes, _, _, h, hr => describes_stmt yes h hr
  | .ifElse _ yes no, a, _, h, hr => by
    rw [Stmt.declaredNames, ← a.declaring_declaring]
    exact describes_stmt no (describes_stmt yes h hr) (hr.declaring _)
  | .loop _ body, _, _, h, hr => describes_stmt body h hr
  | .function decl, _, _, h, hr => h.declare hr decl.name
  | .cls name none _, _, _, h, hr | .cls name (some _) _, _, _, h, hr => h.declare hr name

mutual

theorem collects_stmt : ∀ (s : Stmt) {a : Surroundings} {ctx : ResolveContext}
    {scopes : List Scope}, a.Describes ctx scopes → a.Ready →
      Collects Due ⟨.stmt s, a⟩ (stmt ctx scopes s).2
  | .expression e, _, _, _, h, _ => Node.collects (.single (collects_expr h e)) .rfl
  | .var name init, _, _, _, h, hr => by
    refine Node.collects (collects_optionalExpr (h.initializer hr name) init) (.of_eq ?_)
    rw [stmt]
    exact congrArg (· ++ _) (h.redeclared_eq name)
  | .block body, _, _, _, h, hr => by
    have hi := hr.initializing
    exact Node.collects (collects_stmts body (h.block hi) (Surroundings.ready_block hi)) .rfl
  | .ifThen condition yes, _, _, _, h, hr =>
    Node.collects (.cons (collects_expr h condition) (.single (collects_stmt yes h hr))) .rfl
  | .ifElse condition yes no, _, _, _, h, hr => by
    have hno := collects_stmt no (describes_stmt yes h hr) (hr.declaring _)
    refine Node.collects
      (.cons (collects_expr h condition) (.cons (collects_stmt yes h hr) (.single hno))) (.of_eq ?_)
    rw [stmt]
    exact List.append_assoc _ _ _
  | .loop condition body, _, _, _, h, hr =>
    Node.collects (.cons (collects_expr h condition) (.single (collects_stmt body h hr))) .rfl
  | .function decl, _, _, _, h, hr => by
    have hbody :=
      collects_functionBody decl (h.declare hr decl.name) hr.initializing .function
    refine Node.collects (.single hbody) (.of_eq ?_)
    rw [stmt]
    exact congrArg (· ++ _) (h.redeclared_eq decl.name)
  | .ret keyword value, _, _, _, h, _ => by
    refine Node.collects (collects_optionalExpr h value) (.of_eq ?_)
    rw [stmt, returnRules, h.function, FunctionContext.of_beq_outside,
      FunctionContext.of_beq_initializer]
    rfl
  | .cls name none ds, _, _, _, h, hr => by
    have hi := hr.initializing
    have hdeclared := h.declare hr name
    refine Node.collects (collects_methods ds (hdeclared.plainClass hi) hi) (.of_eq ?_)
    rw [stmt]
    exact congrArg (· ++ _) (h.redeclared_eq name)
  | .cls name (some superclass) ds, _, _, _, h, hr => by
    have hi := hr.initializing
    have hdeclared := h.declare hr name
    have hclause := collects_expr hdeclared.clause superclass
    refine Node.collects (.cons hclause (collects_methods ds (hdeclared.derivedClass hi) hi))
      (.of_eq ?_)
    rw [stmt, List.append_assoc (_ ++ _)]
    exact congrArg (· ++ _ ++ _) (h.redeclared_eq name)

theorem collects_stmts : ∀ (ss : List Stmt) {a : Surroundings} {ctx : ResolveContext}
    {scopes : List Scope}, a.Describes ctx scopes → a.Ready →
      CollectsAll Due (Node.inOrder a ss) (stmts ctx scopes ss).2
  | [], _, _, _, _, _ => .nil
  | s :: ss, _, _, _, h, hr =>
    .cons (collects_stmt s h hr) (collects_stmts ss (describes_stmt s h hr) (hr.declaring _))

theorem collects_functionBody : ∀ (d : FunctionDecl) {a : Surroundings} {ctx : ResolveContext}
    {scopes : List Scope}, a.Describes ctx scopes → a.initializing = none → ∀ kind : Body,
      Collects Due ⟨.body kind d, a⟩
        (functionBody { ctx with function := .of (some kind) } scopes d)
  | ⟨_, params, body⟩, a, _, _, h, hi, kind => by
    have hr := Surroundings.ready_body hi kind
    obtain ⟨hparams, hdescribes⟩ := collects_declareAll (h.body hi kind) hr params
    exact Node.collects (hparams.append (collects_stmts body hdescribes (hr.declaring _))) .rfl

theorem collects_methods : ∀ (ds : List FunctionDecl) {a : Surroundings} {ctx : ResolveContext}
    {scopes : List Scope}, a.Describes ctx scopes → a.initializing = none →
      CollectsAll Due (Node.methods a ds) (methods ctx scopes ds)
  | [], _, _, _, _, _ => .nil
  | d :: ds, _, _, _, h, hi =>
    .cons (collects_functionBody d h hi (.method d.name.lexeme)) (collects_methods ds h hi)

end

/-- The walk over a program finds what is due at each of its nodes, once for each. -/
theorem collects_findings (program : List Stmt) :
    Collects Due (Node.root program) (findings program) :=
  Node.collects (collects_stmts program Surroundings.describes_global ⟨.inl rfl, rfl⟩) .rfl

end Resolve
end Lox
