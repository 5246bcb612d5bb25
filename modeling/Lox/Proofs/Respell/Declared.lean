import Lox.Proofs.Respell.Spelled

/-!
# Lox.Proofs.Respell.Declared

A new spelling changes one of the local variables of a program, the one it is for
(`Stmt.localVariables_respell`).
-/

namespace Lox

/-- The site of a list whose first part has this index: the path to the scope sought counts parts
from the first one on. -/
def Site.shift (i : Nat) : Site → Site
  | .around (k :: path) => .around ((i + k) :: path)
  | site => site

theorem Site.shift_zero (site : Site) : site.shift 0 = site := by
  cases site with
  | around path =>
    cases path with
    | nil => rfl
    | cons k path => rw [shift, Nat.zero_add]
  | _ => rfl

namespace Respelling

variable (c : Respelling) (site : Site)

/-! ## Variables of one scope -/

/-- The name that a variable has when it is declared in the scope it stands in. -/
def nameAt (name : String) : String :=
  if site = .inside 0 ∧ name = c.old then c.new else name

theorem lexeme_declaration (name : Token) :
    (c.declaration site name).lexeme = c.nameAt site name.lexeme := by
  unfold nameAt
  by_cases h : site = .inside 0 ∧ name.lexeme = c.old
  · rw [if_pos h, h.1, declaration_inside_zero h.2]
  · rw [if_neg h, declaration_eq_self fun hsite hname => h ⟨hsite, hname⟩]

@[simp] theorem nameAt_first : c.nameAt site.first = c.nameAt site := by
  funext name
  simp only [nameAt, Site.first_eq_inside]

@[simp] theorem nameAt_rest : c.nameAt site.rest = c.nameAt site := by
  funext name
  simp only [nameAt, Site.rest_eq_inside]

theorem ownVariables_respell (ss : List Stmt) : ∀ site,
    Stmt.ownVariables (Stmt.respellList c site ss) =
      (Stmt.ownVariables ss).map (c.nameAt site) := by
  induction ss with
  | nil => exact fun _ => rfl
  | cons s ss ih =>
    intro site
    cases s with
    | var name init =>
      simp only [Stmt.respellList, Stmt.respell, Stmt.ownVariables, List.map_cons, ih,
        lexeme_declaration, nameAt_first, nameAt_rest]
    | cls name superclass methods =>
      cases superclass <;>
        simp only [Stmt.respellList, Stmt.respell, Stmt.ownVariables, ih, nameAt_rest]
    | _ => simp only [Stmt.respellList, Stmt.respell, Stmt.ownVariables, ih, nameAt_rest]

theorem any_declaresVariable (name : String) (ss : List Stmt) :
    ss.any (·.declaresVariable name) = true ↔ name ∈ Stmt.ownVariables ss := by
  induction ss with
  | nil => simp [Stmt.ownVariables]
  | cons s ss ih =>
    rw [List.any_cons, Bool.or_eq_true, ih]
    cases s with
    | var n _ => simp [Stmt.ownVariables, Stmt.declaresVariable, @eq_comm _ name n.lexeme]
    | _ => simp [Stmt.ownVariables, Stmt.declaresVariable]

/-! ## Variables of all scopes -/

/-- A local variable of a part of a program that lies like this. -/
def variableAt : Site → LocalVariable → LocalVariable
  | .around path, x => if x = ⟨path, c.old⟩ then ⟨path, c.new⟩ else x
  | _, x => x

/-- The variables of the scope sought are those declared in it. -/
theorem mk_nameAt_body {declares : Bool} {name : String} (h : name = c.old → declares = true) :
    LocalVariable.mk [] (c.nameAt (site.body declares) name) = c.variableAt site ⟨[], name⟩ := by
  cases site with
  | around path =>
    cases path with
    | nil =>
      by_cases hname : name = c.old
      · simp [h hname, hname, nameAt, variableAt, Site.body]
      · simp [hname, nameAt, variableAt]
    | cons k path => simp [nameAt, variableAt, Site.body]
  | _ => simp [nameAt, variableAt, Site.body]

/-- Variables of scopes further in are none of this one. -/
theorem variableAt_body {declares : Bool} {x : LocalVariable} (hx : x.path ≠ []) :
    c.variableAt (site.body declares) x = c.variableAt site x := by
  cases site with
  | around path =>
    cases path with
    | nil =>
      have hne : x ≠ ⟨[], c.old⟩ := by
        rintro rfl
        exact hx rfl
      cases declares <;> simp [variableAt, Site.body, hne]
    | cons k path => rfl
  | _ => rfl

theorem under_variableAt (i : Nat) (path : List Nat) (x : LocalVariable) :
    (c.variableAt (.around path) x).under i = c.variableAt (.around (i :: path)) (x.under i) := by
  by_cases hx : x = ⟨path, c.old⟩
  · subst hx
    simp [variableAt, LocalVariable.under]
  · have hne : x.under i ≠ ⟨i :: path, c.old⟩ := by
      intro heq
      simp only [LocalVariable.under, LocalVariable.mk.injEq, List.cons.injEq, true_and] at heq
      exact hx (by rw [← heq.1, ← heq.2])
    simp [variableAt, hx, hne]

/-- Where the path leads elsewhere, the variable keeps its name. -/
theorem variableAt_of_ne {path : List Nat} {x : LocalVariable} (hx : x.path ≠ path) :
    c.variableAt (.around path) x = x := by
  refine if_neg fun heq => hx ?_
  rw [heq]

theorem under_variableAt_first (i : Nat) (x : LocalVariable) :
    (c.variableAt site.first x).under i = c.variableAt (site.shift i) (x.under i) := by
  cases site with
  | around path =>
    match path with
    | [] => exact (c.variableAt_of_ne (List.cons_ne_nil _ _)).symm
    | 0 :: path => exact c.under_variableAt i path x
    | (k + 1) :: path =>
      refine (c.variableAt_of_ne fun heq => ?_).symm
      have := (List.cons.inj heq).1
      omega
  | _ => rfl

theorem variableAt_rest {i : Nat} {x : LocalVariable}
    (hx : ∃ j path, x.path = (i + 1 + j) :: path) :
    c.variableAt (site.rest.shift (i + 1)) x = c.variableAt (site.shift i) x := by
  obtain ⟨j, rest, hx⟩ := hx
  cases site with
  | around path =>
    match path with
    | [] =>
      have hne : x.path ≠ [] := by
        rw [hx]
        exact List.cons_ne_nil _ _
      exact (c.variableAt_of_ne hne).symm
    | 0 :: path =>
      refine (c.variableAt_of_ne fun heq => ?_).symm
      have := (List.cons.inj (hx.symm.trans heq)).1
      omega
    | (k + 1) :: path =>
      have hindex : i + 1 + k = i + (k + 1) := by omega
      simp only [Site.rest, Site.shift, hindex]
  | _ => rfl

end Respelling

theorem Stmt.path_variablesFrom (ss : List Stmt) : ∀ i, ∀ x ∈ Stmt.variablesFrom i ss,
    ∃ j path, x.path = (i + j) :: path := by
  induction ss with
  | nil => exact fun _ _ hx => absurd hx List.not_mem_nil
  | cons s ss ih =>
    intro i x hx
    obtain hx | hx := List.mem_append.1 hx
    · obtain ⟨y, -, rfl⟩ := List.mem_map.1 hx
      exact ⟨0, y.path, rfl⟩
    · obtain ⟨j, path, hpath⟩ := ih (i + 1) x hx
      exact ⟨1 + j, path, by rw [hpath, Nat.add_assoc]⟩

theorem FunctionDecl.path_variablesFrom (ds : List FunctionDecl) : ∀ i,
    ∀ x ∈ FunctionDecl.variablesFrom i ds, ∃ j path, x.path = (i + j) :: path := by
  induction ds with
  | nil => exact fun _ _ hx => absurd hx List.not_mem_nil
  | cons d ds ih =>
    intro i x hx
    obtain hx | hx := List.mem_append.1 hx
    · obtain ⟨y, -, rfl⟩ := List.mem_map.1 hx
      exact ⟨0, y.path, rfl⟩
    · obtain ⟨j, path, hpath⟩ := ih (i + 1) x hx
      exact ⟨1 + j, path, by rw [hpath, Nat.add_assoc]⟩

namespace Respelling

variable (c : Respelling) (site : Site) {declares : Bool}

/-- The variables of a scope itself, which is the one sought or is not. -/
theorem map_nameAt_body {names : List String} (h : c.old ∈ names → declares = true) :
    (names.map (c.nameAt (site.body declares))).map (LocalVariable.mk [] ·) =
      (names.map (LocalVariable.mk [] ·)).map (c.variableAt site) := by
  rw [List.map_map, List.map_map]
  refine List.map_congr_left fun name hname => c.mk_nameAt_body site fun heq => h ?_
  rwa [← heq]

theorem map_variableAt_body (body : List Stmt) :
    (Stmt.variablesFrom 0 body).map (c.variableAt ((site.body declares).shift 0)) =
      (Stmt.variablesFrom 0 body).map (c.variableAt site) := by
  rw [Site.shift_zero]
  refine List.map_congr_left fun x hx => c.variableAt_body site ?_
  obtain ⟨j, path, hpath⟩ := Stmt.path_variablesFrom body 0 x hx
  rw [hpath]
  exact List.cons_ne_nil _ _

/-- Variables of parts that come after the first. -/
theorem map_variableAt_rest {i : Nat} {xs : List LocalVariable}
    (hxs : ∀ x ∈ xs, ∃ j path, x.path = (i + 1 + j) :: path) :
    xs.map (c.variableAt (site.rest.shift (i + 1))) = xs.map (c.variableAt (site.shift i)) :=
  List.map_congr_left fun x hx => c.variableAt_rest site (hxs x hx)

theorem map_under_variableAt (i : Nat) (xs : List LocalVariable) :
    (xs.map (c.variableAt site.first)).map (.under i) =
      (xs.map (.under i)).map (c.variableAt (site.shift i)) := by
  rw [List.map_map, List.map_map]
  exact List.map_congr_left fun x _ => c.under_variableAt_first site i x

/-- Within a receiver scope no variable is declared. -/
theorem variableAt_deeper : c.variableAt site.deeper = c.variableAt site := by
  cases site <;> rfl

end Respelling

section

variable (c : Respelling)

mutual

theorem Stmt.variables_respell : ∀ (site : Site) (s : Stmt),
    (s.respell c site).variables = s.variables.map (c.variableAt site)
  | _, .expression _ | _, .var _ _ | _, .ret _ _ => rfl
  | site, .block body => by
    have hown := (Respelling.any_declaresVariable c.old body).2
    simp only [Stmt.respell, Stmt.variables, List.map_append, c.ownVariables_respell,
      c.map_nameAt_body site hown, Stmt.variablesFrom_respell 0 _ body, c.map_variableAt_body]
  | site, .ifThen _ yes => Stmt.variables_respell site yes
  | site, .ifElse _ yes no => by
    have hno : ∀ x ∈ no.variables.map (LocalVariable.under 1),
        ∃ j path, x.path = (0 + 1 + j) :: path := by
      intro x hx
      obtain ⟨y, -, rfl⟩ := List.mem_map.1 hx
      exact ⟨0, y.path, rfl⟩
    simp only [Stmt.respell, Stmt.variables, List.map_append, Stmt.variables_respell site.first yes,
      Stmt.variables_respell site.rest.first no, c.map_under_variableAt,
      c.map_variableAt_rest site hno, Site.shift_zero]
  | site, .loop _ body => Stmt.variables_respell site body
  | site, .function decl => FunctionDecl.variables_respell site decl
  | site, .cls _ none methods => by
    simp only [Stmt.respell, Stmt.variables, FunctionDecl.variablesFrom_respell 0 _ methods,
      Site.shift_zero, c.variableAt_deeper]
  | site, .cls _ (some _) methods => by
    simp only [Stmt.respell, Stmt.variables, FunctionDecl.variablesFrom_respell 0 _ methods,
      Site.shift_zero, c.variableAt_deeper]

theorem Stmt.variablesFrom_respell : ∀ (i : Nat) (site : Site) (ss : List Stmt),
    Stmt.variablesFrom i (Stmt.respellList c site ss) =
      (Stmt.variablesFrom i ss).map (c.variableAt (site.shift i))
  | _, _, [] => rfl
  | i, site, s :: ss => by
    simp only [Stmt.respellList, Stmt.variablesFrom, List.map_append,
      Stmt.variables_respell site.first s, Stmt.variablesFrom_respell (i + 1) site.rest ss,
      c.map_under_variableAt, c.map_variableAt_rest site (Stmt.path_variablesFrom ss (i + 1))]

theorem FunctionDecl.variables_respell : ∀ (site : Site) (d : FunctionDecl),
    (d.respell c site).variables = d.variables.map (c.variableAt site)
  | site, ⟨name, params, body⟩ => by
    have hown (h : c.old ∈ params.map (·.lexeme) ++ Stmt.ownVariables body) :
        FunctionDecl.declaresVariable c.old ⟨name, params, body⟩ = true := by
      obtain h | h := List.mem_append.1 h
      · obtain ⟨p, hp, hname⟩ := List.mem_map.1 h
        exact Bool.or_eq_true _ _ ▸ .inl (List.any_eq_true.2 ⟨p, hp, beq_iff_eq.2 hname⟩)
      · exact Bool.or_eq_true _ _ ▸ .inr ((Respelling.any_declaresVariable c.old body).2 h)
    have hnames (site : Site) : (params.map (c.declaration site)).map (·.lexeme) =
        (params.map (·.lexeme)).map (c.nameAt site) := by
      simp only [List.map_map, Function.comp_def, c.lexeme_declaration]
    simp only [FunctionDecl.respell, FunctionDecl.variables, hnames, c.ownVariables_respell,
      ← List.map_append, c.map_nameAt_body site hown, Stmt.variablesFrom_respell 0 _ body,
      c.map_variableAt_body]

theorem FunctionDecl.variablesFrom_respell : ∀ (i : Nat) (site : Site) (ds : List FunctionDecl),
    FunctionDecl.variablesFrom i (FunctionDecl.respellList c site ds) =
      (FunctionDecl.variablesFrom i ds).map (c.variableAt (site.shift i))
  | _, _, [] => rfl
  | i, site, d :: ds => by
    simp only [FunctionDecl.respellList, FunctionDecl.variablesFrom, List.map_append,
      FunctionDecl.variables_respell site.first d,
      FunctionDecl.variablesFrom_respell (i + 1) site.rest ds, c.map_under_variableAt,
      c.map_variableAt_rest site (FunctionDecl.path_variablesFrom ds (i + 1))]

end

end

/-- A new spelling changes just the variable that it is for. -/
theorem Stmt.localVariables_respell (old new : String) (path : List Nat) (program : List Stmt) :
    Stmt.localVariables (Stmt.respellProgram old new path program) =
      (Stmt.localVariables program).map fun x => if x = ⟨path, old⟩ then ⟨path, new⟩ else x := by
  have h := Stmt.variablesFrom_respell ⟨Locals.ofProgram program, old, new⟩ 0 (.around path) program
  rw [Site.shift_zero] at h
  exact h

end Lox
