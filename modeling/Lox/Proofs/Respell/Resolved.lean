import Lox.Proofs.Respell.Spelled

/-!
# Lox.Proofs.Respell.Resolved

The static walk finds the same in a program and in the program with another spelling for a local
variable (`Resolve.findings_respell`). On its way the walk has scopes that differ in the scope sought
only, which has the new name in place of the old one (`Scope.Respelled`), so each reference is found
as far out as before, and a declaration is new in its scope if it was.
-/

namespace Lox

open Resolve (declareAll declareWhole thisScope superScope)

/-! ## Scopes -/

/-- Stacks of scopes, the second with the new name for the variable of the scope so far outward. -/
inductive Scope.Respelled (c : Respelling) : Nat → List Scope → List Scope → Prop
  | own {s s' : Scope} {outer : List Scope} : s.find? c.new = none → s'.find? c.old = none →
      s'.find? c.new = s.find? c.old →
      (∀ name, name ≠ c.old → name ≠ c.new → s'.find? name = s.find? name) →
      Respelled c 0 (s :: outer) (s' :: outer)
  | inner {depth : Nat} {s : Scope} {outer outer' : List Scope} : s.find? c.new = none →
      Respelled c depth outer outer' → Respelled c (depth + 1) (s :: outer) (s :: outer')

namespace Scope

theorem distance?_cons (name : String) (s : Scope) (outer : List Scope) :
    distance? name (s :: outer) =
      if (s.find? name).isSome then some 0 else (distance? name outer).map (· + 1) := rfl

namespace Respelled

variable {c : Respelling} {depth : Nat} {scopes scopes' : List Scope}

theorem distance?_eq_of_ne (h : Respelled c depth scopes scopes') {name : String}
    (hold : name ≠ c.old) (hnew : name ≠ c.new) :
    distance? name scopes' = distance? name scopes := by
  induction h with
  | own _ _ _ hother => rw [distance?_cons, distance?_cons, hother name hold hnew]
  | inner _ _ ih => rw [distance?_cons, distance?_cons, ih]

/-- Where the old name is found in the scope sought, the new one is. -/
theorem distance?_new (h : Respelled c depth scopes scopes')
    (hd : distance? c.old scopes = some depth) : distance? c.new scopes' = some depth := by
  induction h with
  | own _ _ hsame _ =>
    rw [distance?_cons] at hd ⊢
    rw [hsame]
    split at hd
    · rename_i hfound
      rw [if_pos hfound]
    · simp at hd
  | inner hfresh _ ih =>
    rw [distance?_cons] at hd ⊢
    rw [hfresh]
    split at hd
    · cases hd
    · simp only [Option.map_eq_some_iff, Nat.add_right_cancel_iff] at hd
      obtain ⟨d, hd, rfl⟩ := hd
      simp [ih hd]

/-- Where the old name is not found in the scope sought, it is found as before. -/
theorem distance?_old (h : Respelled c depth scopes scopes')
    (hd : distance? c.old scopes ≠ some depth) :
    distance? c.old scopes' = distance? c.old scopes := by
  induction h with
  | @own s s' _ _ habsent _ _ =>
    rw [distance?_cons] at hd ⊢
    rw [distance?_cons, habsent]
    split at hd
    · exact absurd rfl hd
    · rename_i hmissing
      rw [if_neg hmissing]
      rfl
  | @inner _ s _ _ _ _ ih =>
    rw [distance?_cons] at hd ⊢
    rw [distance?_cons]
    split at hd
    · rename_i hfound
      rw [if_pos hfound, if_pos hfound]
    · rename_i hmissing
      rw [if_neg hmissing, if_neg hmissing, ih]
      intro heq
      rw [heq] at hd
      exact hd rfl

theorem isPending_eq_of_ne (h : Respelled c depth scopes scopes') {name : String}
    (hold : name ≠ c.old) (hnew : name ≠ c.new) :
    isPending name scopes' = isPending name scopes := by
  cases h with
  | own _ _ _ hother => simp only [isPending, hother name hold hnew]
  | inner => rfl

theorem isPending_new (h : Respelled c depth scopes scopes')
    (hd : distance? c.old scopes = some depth) :
    isPending c.new scopes' = isPending c.old scopes := by
  cases h with
  | own _ _ hsame _ => simp only [isPending, hsame]
  | inner hfresh _ =>
    rw [distance?_cons] at hd
    split at hd
    · cases hd
    · rename_i hmissing
      simp only [isPending, hfresh, Option.not_isSome_iff_eq_none.1 hmissing]

theorem isPending_old (h : Respelled c depth scopes scopes')
    (hd : distance? c.old scopes ≠ some depth) :
    isPending c.old scopes' = isPending c.old scopes := by
  cases h with
  | own _ habsent _ _ =>
    rw [distance?_cons] at hd
    split at hd
    · exact absurd rfl hd
    · rename_i hmissing
      simp only [isPending, habsent, Option.not_isSome_iff_eq_none.1 hmissing]
  | inner => rfl

theorem declares_eq (h : Respelled c depth scopes scopes') {name : String}
    (hold : depth = 0 → name ≠ c.old) (hnew : name ≠ c.new) :
    declares name scopes' = declares name scopes := by
  cases h with
  | own _ _ _ hother => simp only [declares, Bindings.contains, hother name (hold rfl) hnew]
  | inner => rfl

theorem declares_new (h : Respelled c 0 scopes scopes') :
    declares c.new scopes' = declares c.old scopes := by
  cases h with
  | own _ _ hsame _ => simp only [declares, Bindings.contains, hsame]

theorem enter (h : Respelled c depth scopes scopes') {name : String}
    (hold : depth = 0 → name ≠ c.old) (hnew : name ≠ c.new) (complete : Bool) :
    Respelled c depth (Scope.enter name complete scopes) (Scope.enter name complete scopes') := by
  cases h with
  | own hfresh habsent hsame hother =>
    have hold := hold rfl
    refine .own ?_ ?_ ?_ fun m hm hm' => ?_
    · rw [Bindings.find?_insert_of_ne _ hnew, hfresh]
    · rw [Bindings.find?_insert_of_ne _ hold, habsent]
    · rw [Bindings.find?_insert_of_ne _ hnew, Bindings.find?_insert_of_ne _ hold, hsame]
    · rw [Bindings.find?_insert, Bindings.find?_insert, hother m hm hm']
  | inner hfresh h => exact .inner (by rw [Bindings.find?_insert_of_ne _ hnew, hfresh]) h

/-- The variable itself is entered, under its new name in the second stack. -/
theorem enter_new (h : Respelled c 0 scopes scopes') (hne : c.old ≠ c.new) (complete : Bool) :
    Respelled c 0 (Scope.enter c.old complete scopes) (Scope.enter c.new complete scopes') := by
  cases h with
  | own hfresh habsent _ hother =>
    refine .own ?_ ?_ ?_ fun m hm hm' => ?_
    · rw [Bindings.find?_insert_of_ne _ hne, hfresh]
    · rw [Bindings.find?_insert_of_ne _ hne.symm, habsent]
    · rw [Bindings.find?_insert_self, Bindings.find?_insert_self]
    · rw [Bindings.find?_insert_of_ne _ hm.symm, Bindings.find?_insert_of_ne _ hm'.symm,
        hother m hm hm']

end Respelled

end Scope

namespace Respelling

variable {c : Respelling} {site : Site} {scopes scopes' : List Scope} {isTop : Bool}

/-- The scopes of the walk over either program at a site: they differ inside the scope sought
only. -/
structure Stacks (c : Respelling) (site : Site) (scopes scopes' : List Scope) : Prop where
  inside : ∀ depth, site = .inside depth → Scope.Respelled c depth scopes scopes'
  outside : (∀ depth, site ≠ .inside depth) → scopes' = scopes

namespace Stacks

/-- Around the scope sought the scopes are the same. -/
theorem around (c : Respelling) (path : List Nat) (scopes : List Scope) :
    c.Stacks (.around path) scopes scopes where
  inside := by
    intro depth hsite
    cases hsite
  outside := fun _ => rfl

/-- What matters of a site is whether it is inside. -/
theorem congr {site' : Site} (h : c.Stacks site scopes scopes')
    (hsite : ∀ depth, site' = .inside depth ↔ site = .inside depth) :
    c.Stacks site' scopes scopes' :=
  ⟨fun depth hinside => h.inside depth ((hsite depth).1 hinside),
    fun houtside => h.outside fun depth => mt (hsite depth).2 (houtside depth)⟩

theorem first_iff : c.Stacks site.first scopes scopes' ↔ c.Stacks site scopes scopes' :=
  ⟨fun h => h.congr fun _ => Site.first_eq_inside.symm, fun h => h.congr fun _ =>
    Site.first_eq_inside⟩

theorem rest_iff : c.Stacks site.rest scopes scopes' ↔ c.Stacks site scopes scopes' :=
  ⟨fun h => h.congr fun _ => Site.rest_eq_inside.symm, fun h => h.congr fun _ =>
    Site.rest_eq_inside⟩

theorem body (h : c.Stacks site scopes scopes') (declares : Bool) :
    c.Stacks (site.body declares) (.empty :: scopes) (.empty :: scopes') where
  inside := by
    intro depth hsite
    obtain ⟨rfl, -, rfl⟩ | ⟨outer, rfl, houter⟩ := Site.body_eq_inside.1 hsite
    · rw [h.outside nofun]
      exact .own rfl rfl rfl fun _ _ _ => rfl
    · exact .inner rfl (h.inside outer houter)
  outside := by
    intro hsite
    rw [h.outside fun depth hdepth => hsite (depth + 1) ?_]
    exact Site.body_eq_inside.2 (.inr ⟨depth, rfl, hdepth⟩)

theorem deeper (h : c.Stacks site scopes scopes') {name : String} (hnew : name ≠ c.new) :
    c.Stacks site.deeper (Bindings.singleton name true :: scopes)
      (Bindings.singleton name true :: scopes') where
  inside := by
    intro depth hsite
    obtain ⟨outer, rfl, houter⟩ := Site.deeper_eq_inside.1 hsite
    refine .inner ?_ (h.inside outer houter)
    rw [Bindings.singleton, Bindings.find?_insert_of_ne _ hnew]
    rfl
  outside := by
    intro hsite
    rw [h.outside fun depth hdepth => hsite (depth + 1) ?_]
    exact Site.deeper_eq_inside.2 ⟨depth, rfl, hdepth⟩

/-! ### Declarations -/

theorem declaration_cases (c : Respelling) (site : Site) (name : Token) :
    site = .inside 0 ∧ name.lexeme = c.old ∧ (c.declaration site name).lexeme = c.new ∨
      (site = .inside 0 → name.lexeme ≠ c.old) ∧ c.declaration site name = name := by
  by_cases h : site = .inside 0 ∧ name.lexeme = c.old
  · rw [h.1]
    exact .inl ⟨rfl, h.2, declaration_inside_zero h.2⟩
  · have hold (hsite : site = .inside 0) : name.lexeme ≠ c.old := fun hname => h ⟨hsite, hname⟩
    exact .inr ⟨hold, declaration_eq_self hold⟩

theorem enter (h : c.Stacks site scopes scopes') {name : Token} (hnew : name.lexeme ≠ c.new)
    (complete : Bool) : c.Stacks site (Scope.enter name.lexeme complete scopes)
      (Scope.enter (c.declaration site name).lexeme complete scopes') := by
  obtain ⟨rfl, hname, hspelled⟩ | ⟨hold, hspelled⟩ := declaration_cases c site name
  · rw [hspelled, hname]
    refine ⟨fun depth hsite => ?_, fun hsite => absurd rfl (hsite 0)⟩
    cases hsite
    exact (h.inside 0 rfl).enter_new (hname ▸ hnew) complete
  · rw [hspelled]
    refine ⟨fun depth hsite => (h.inside depth hsite).enter ?_ hnew complete, fun hsite => ?_⟩
    · rintro rfl
      exact hold hsite
    · rw [h.outside hsite]

theorem declares_eq (h : c.Stacks site scopes scopes') {name : Token}
    (hnew : name.lexeme ≠ c.new) :
    Scope.declares (c.declaration site name).lexeme scopes' =
      Scope.declares name.lexeme scopes := by
  obtain ⟨rfl, hname, hspelled⟩ | ⟨hold, hspelled⟩ := declaration_cases c site name
  · rw [hspelled, hname]
    exact (h.inside 0 rfl).declares_new
  · rw [hspelled]
    by_cases hsite : ∃ depth, site = .inside depth
    · obtain ⟨depth, hsite⟩ := hsite
      refine (h.inside depth hsite).declares_eq ?_ hnew
      rintro rfl
      exact hold hsite
    · rw [h.outside fun depth hdepth => hsite ⟨depth, hdepth⟩]

/-! ### References -/

/-- Where names are found, and whether their declarations are under way. -/
theorem reference_eq (h : c.Stacks site scopes scopes') {id : RefId} {name : Token}
    (hnew : name.lexeme ≠ c.new)
    (hid : c.locals.find? id = Scope.distance? name.lexeme scopes) :
    Scope.distance? (c.reference site id name).lexeme scopes' =
        Scope.distance? name.lexeme scopes ∧
      Scope.isPending (c.reference site id name).lexeme scopes' =
        Scope.isPending name.lexeme scopes := by
  unfold reference
  cases site with
  | inside depth =>
    have h := h.inside depth rfl
    dsimp only
    split
    · rename_i hbound
      obtain ⟨hold, hd⟩ := hbound
      rw [hid, hold] at hd
      rw [hold, hd]
      exact ⟨h.distance?_new hd, h.isPending_new hd⟩
    · rename_i hother
      by_cases hold : name.lexeme = c.old
      · have hd : Scope.distance? c.old scopes ≠ some depth := fun hd =>
          hother ⟨hold, by rw [hid, hold, hd]⟩
        rw [hold]
        exact ⟨h.distance?_old hd, h.isPending_old hd⟩
      · exact ⟨h.distance?_eq_of_ne hold hnew, h.isPending_eq_of_ne hold hnew⟩
  | _ =>
    rw [h.outside nofun]
    exact ⟨rfl, rfl⟩

theorem distance?_eq (h : c.Stacks site scopes scopes') {name : String}
    (hold : ∀ depth, site = .inside depth → name ≠ c.old) (hnew : name ≠ c.new) :
    Scope.distance? name scopes' = Scope.distance? name scopes := by
  by_cases hsite : ∃ depth, site = .inside depth
  · obtain ⟨depth, hsite⟩ := hsite
    exact (h.inside depth hsite).distance?_eq_of_ne (hold depth hsite) hnew
  · rw [h.outside fun depth hdepth => hsite ⟨depth, hdepth⟩]

end Stacks

theorem reference_cases (c : Respelling) (site : Site) (id : RefId) (name : Token) :
    (c.reference site id name).lexeme = c.new ∨ c.reference site id name = name := by
  unfold reference
  split
  · split
    · exact .inl rfl
    · exact .inr rfl
  · exact .inr rfl

end Respelling

/-- The superclass of a class is looked up with the class itself declared, and found as before. -/
theorem Expr.Linked.declare {t : Table} {ctx : ResolveContext} {scopes : List Scope} {id : RefId}
    {superName name : Token} (h : (Expr.var id superName).Linked t ctx scopes)
    (hne : superName.lexeme ≠ name.lexeme) :
    (Expr.var id superName).Linked t ctx (Scope.declare scopes name) := by
  obtain ⟨hid, hready⟩ := h
  rw [Scope.declare_eq_enter]
  exact ⟨by rwa [Scope.distance?_enter_of_ne hne.symm],
    by rwa [Scope.isPending_enter_of_ne hne.symm]⟩

namespace Resolve

variable {c : Respelling} {t : Table} {ctx : ResolveContext} {scopes scopes' : List Scope}
  {site : Site} {isTop : Bool}

/-! ## Findings -/

/-- No violation is found. -/
def Clean (fs : List Finding) : Prop := fs.filterMap errorOf? = []

theorem clean_append {fs gs : List Finding} : Clean (fs ++ gs) ↔ Clean fs ∧ Clean gs := by
  simp only [Clean, List.filterMap_append, List.append_eq_nil_iff]

theorem bind_reference (h : c.Stacks site scopes scopes') {id : RefId} {name : Token}
    (hnew : name.lexeme ≠ c.new) (hid : c.locals.find? id = Scope.distance? name.lexeme scopes) :
    bind scopes' id (c.reference site id name).lexeme = bind scopes id name.lexeme := by
  rw [bind, bind, (h.reference_eq hnew hid).1]

theorem bind_eq (h : c.Stacks site scopes scopes') (id : RefId) {name : String}
    (hold : ∀ depth, site = .inside depth → name ≠ c.old) (hnew : name ≠ c.new) :
    bind scopes' id name = bind scopes id name := by
  rw [bind, bind, h.distance?_eq hold hnew]

theorem expr_var (h : c.Stacks site scopes scopes') {id : RefId} {name : Token}
    (hnew : name.lexeme ≠ c.new) (hid : c.locals.find? id = Scope.distance? name.lexeme scopes)
    (hready : Scope.isPending name.lexeme scopes = false) :
    expr ctx scopes' (.var id (c.reference site id name)) = expr ctx scopes (.var id name) := by
  simp only [expr]
  rw [bind_reference h hnew hid, (h.reference_eq hnew hid).2, hready]
  rfl

mutual

theorem expr_respell (hc : c.locals = t.locals) (hnew : c.new ≠ "this" ∧ c.new ≠ "super")
    (hfits : c.Fits site isTop scopes) (h : c.Stacks site scopes scopes') :
    ∀ {e : Expr}, e.Formed → e.Linked t ctx scopes → (∀ x ∈ e.refs, x.2.lexeme ≠ c.new) →
      expr ctx scopes' (e.respell c site) = expr ctx scopes e
  | .constant _, _, _, _ => rfl
  | .grouping e, he, hl, hn => expr_respell hc hnew hfits h (e := e) he hl hn
  | .unary _ e, he, hl, hn => expr_respell hc hnew hfits h (e := e) he.2 hl.2 hn
  | .get e _, he, hl, hn => expr_respell hc hnew hfits h (e := e) he hl hn
  | .binary l _ r, he, hl, hn => by
    have hn := List.forall_mem_append.1 hn
    have hleft := expr_respell hc hnew hfits h he.2.1 hl.2.1 hn.1
    have hright := expr_respell hc hnew hfits h he.2.2 hl.2.2 hn.2
    simp only [Expr.respell, expr, hleft, hright]
  | .logical l _ r, he, hl, hn => by
    have hn := List.forall_mem_append.1 hn
    have hleft := expr_respell hc hnew hfits h he.1 hl.1 hn.1
    have hright := expr_respell hc hnew hfits h he.2 hl.2 hn.2
    simp only [Expr.respell, expr, hleft, hright]
  | .var id name, _, hl, hn =>
    expr_var h (hn (id, name) (List.mem_singleton_self _)) (hc ▸ hl.1.2) hl.2
  | .assign id name value, he, hl, hn => by
    have hn := List.forall_mem_cons.1 hn
    have hvalue := expr_respell hc hnew hfits h he.2 hl.2.2 hn.2
    simp only [Expr.respell, expr, hvalue]
    rw [bind_reference h hn.1 (hc ▸ hl.2.1.2)]
  | .call callee _ args, he, hl, hn => by
    have hn := List.forall_mem_append.1 hn
    have hcallee := expr_respell hc hnew hfits h he.1 hl.1 hn.1
    have hargs := exprs_respell hc hnew hfits h he.2 hl.2 hn.2
    simp only [Expr.respell, expr, hcallee, hargs]
  | .set object _ value, he, hl, hn => by
    have hn := List.forall_mem_append.1 hn
    have hobject := expr_respell hc hnew hfits h he.1 hl.1 hn.1
    have hvalue := expr_respell hc hnew hfits h he.2 hl.2 hn.2
    simp only [Expr.respell, expr, hobject, hvalue]
  | .thisRef id keyword, he, _, _ => by
    have hkeyword : keyword.lexeme = "this" := he
    simp only [Expr.respell, expr, hkeyword]
    rw [bind_eq h id (fun depth hsite => (hfits depth hsite).2.2.1.symm) hnew.1.symm]
  | .superRef id keyword _, he, _, _ => by
    have hkeyword : keyword.lexeme = "super" := he
    simp only [Expr.respell, expr, hkeyword]
    rw [bind_eq h id (fun depth hsite => (hfits depth hsite).2.2.2.symm) hnew.2.symm]
  | .unparsed, _, hl, _ => hl.elim

theorem exprs_respell (hc : c.locals = t.locals) (hnew : c.new ≠ "this" ∧ c.new ≠ "super")
    (hfits : c.Fits site isTop scopes) (h : c.Stacks site scopes scopes') :
    ∀ {es : List Expr}, Expr.AllFormed es → Expr.AllLinked t ctx scopes es →
      (∀ x ∈ Expr.refsOfList es, x.2.lexeme ≠ c.new) →
      exprs ctx scopes' (Expr.respellList c site es) = exprs ctx scopes es
  | [], _, _, _ => rfl
  | e :: es, he, hl, hn => by
    have hn := List.forall_mem_append.1 hn
    have hfirst := expr_respell hc hnew hfits h he.1 hl.1 hn.1
    have hmore := exprs_respell hc hnew hfits h he.2 hl.2 hn.2
    simp only [Expr.respellList, exprs, hfirst, hmore]

end

theorem optionalExpr_respell (hc : c.locals = t.locals)
    (hnew : c.new ≠ "this" ∧ c.new ≠ "super") (hfits : c.Fits site isTop scopes)
    (h : c.Stacks site scopes scopes') {e : Option Expr} (he : Expr.OptionFormed e)
    (hl : Expr.OptionLinked t ctx scopes e) (hn : c.new ∉ Expr.namesOfOption e) :
    optionalExpr ctx scopes' (e.map (Expr.respell c site)) = optionalExpr ctx scopes e := by
  cases e with
  | none => rfl
  | some e => exact expr_respell hc hnew hfits h he hl (Expr.ne_of_not_mem_names hn)

/-! ### Declarations -/

/-- What is declared here is new in its scope, under either name. -/
theorem snd_declare_respell (h : c.Stacks site scopes scopes') {name : Token}
    (hnew : name.lexeme ≠ c.new) (hname : name.Declarable scopes) :
    (declare scopes' (c.declaration site name)).2 = (declare scopes name).2 := by
  simp only [declare]
  rw [h.declares_eq hnew, hname.2]
  rfl

theorem stacks_declareWhole (h : c.Stacks site scopes scopes') {name : Token}
    (hnew : name.lexeme ≠ c.new) :
    c.Stacks site (declareWhole scopes name).1
      (declareWhole scopes' (c.declaration site name)).1 := by
  show c.Stacks site (Scope.declare scopes name) (Scope.declare scopes' (c.declaration site name))
  rw [Scope.declare_eq_enter, Scope.declare_eq_enter]
  exact h.enter hnew true

/-- A function or class is declared under the name that it has. -/
theorem declareName_respell (h : c.Stacks site scopes scopes') {name : Token}
    (hnew : name.lexeme ≠ c.new) (hname : name.Declarable scopes)
    (hold : site = .inside 0 → name.lexeme ≠ c.old) :
    (declareWhole scopes' name).2 = (declareWhole scopes name).2 ∧
      c.Stacks site (declareWhole scopes name).1 (declareWhole scopes' name).1 := by
  have hdeclare := snd_declare_respell h hnew hname
  have hstacks := stacks_declareWhole h hnew
  rw [Respelling.declaration_eq_self hold] at hdeclare hstacks
  exact ⟨hdeclare, hstacks⟩

theorem declareAll_respell : ∀ {params : List Token} {scopes scopes' : List Scope},
    c.Stacks site scopes scopes' → Token.AllDeclarable scopes params →
    c.new ∉ params.map (·.lexeme) →
    (declareAll scopes' (params.map (c.declaration site))).2 = (declareAll scopes params).2 ∧
      c.Stacks site (declareAll scopes params).1
        (declareAll scopes' (params.map (c.declaration site))).1
  | [], _, _, h, _, _ => ⟨rfl, h⟩
  | p :: ps, scopes, scopes', h, hps, hn => by
    rw [List.map_cons, List.mem_cons, not_or] at hn
    obtain ⟨hmore, hstacks⟩ :=
      declareAll_respell (stacks_declareWhole h (Ne.symm hn.1)) hps.2 hn.2
    refine ⟨?_, hstacks⟩
    simp only [List.map_cons, declareAll, hmore]
    have hfirst : (declareWhole scopes' (c.declaration site p)).2 = (declareWhole scopes p).2 :=
      snd_declare_respell h (Ne.symm hn.1) hps.1
    rw [hfirst]

/-- A class that does not name itself as its superclass does not come to do so. -/
theorem selfInheritance_respell (c : Respelling) (site : Site) {name : Token} {id : RefId}
    {superName : Token} (hnew : name.lexeme ≠ c.new)
    (hclean : Clean (selfInheritance name (.var id superName))) :
    superName.lexeme ≠ name.lexeme ∧
      selfInheritance name (.var id (c.reference site id superName)) =
        selfInheritance name (.var id superName) := by
  have hne : superName.lexeme ≠ name.lexeme := by
    intro heq
    simp [Clean, selfInheritance, heq, violationIf, errorOf?] at hclean
  refine ⟨hne, ?_⟩
  obtain hspelled | hspelled := c.reference_cases site id superName
  · simp only [selfInheritance, hspelled, beq_false_of_ne hne, beq_false_of_ne hnew.symm]
    rfl
  · rw [hspelled]

/-! ### Statements -/

mutual

theorem stmt_respell (hc : c.locals = t.locals) (hnew : c.new ≠ "this" ∧ c.new ≠ "super") :
    ∀ {s : Stmt} {ctx : ResolveContext} {scopes scopes' : List Scope} {site : Site} {isTop : Bool},
    s.Formed → s.Linked t ctx scopes → Clean (stmt ctx scopes s).2 → c.new ∉ s.names →
    c.Fits site isTop scopes → c.Stacks site scopes scopes' →
    (site = .inside 0 → s.NotNamed c.old) →
    (stmt ctx scopes' (s.respell c site)).2 = (stmt ctx scopes s).2 ∧
      c.Stacks site (stmt ctx scopes s).1 (stmt ctx scopes' (s.respell c site)).1
  | .expression e, _, _, _, _, _, hs, hl, _, hn, hfits, h, _ =>
    ⟨expr_respell hc hnew hfits h hs hl (Expr.ne_of_not_mem_names hn), h⟩
  | .var name init, ctx, scopes, scopes', site, isTop, hs, hl, _, hn, hfits, h, _ => by
    rw [Stmt.names, List.mem_cons, not_or] at hn
    have hname := Ne.symm hn.1
    have hinit := optionalExpr_respell hc hnew
      (hfits.move (Scope.enter_ne_nil name.lexeme false)) (h.enter hname false) hs.2 hl.2 hn.2
    refine ⟨?_, stacks_declareWhole h hname⟩
    simp only [Stmt.respell, stmt]
    rw [snd_declare_respell h hname hl.1]
    exact congrArg _ hinit
  | .block body, ctx, scopes, scopes', site, isTop, hs, hl, hclean, hn, hfits, h, _ => by
    obtain ⟨hown, hold⟩ := hfits.block hl
    exact ⟨(stmts_respell hc hnew hs hl hclean hn hown (h.body _) hold).1, h⟩
  | .ifThen condition yes, ctx, scopes, scopes', site, isTop, hs, hl, hclean, hn, hfits, h, _ => by
    rw [Stmt.names, List.mem_append, not_or] at hn
    obtain ⟨hyes, hstacks⟩ := stmt_respell hc hnew hs.2.2 hl.2.2 (clean_append.1 hclean).2 hn.2
      hfits h fun _ => Stmt.notNamed_of_isStatement hl.2.1 _
    have hcondition := expr_respell hc hnew hfits h hs.1 hl.1 (Expr.ne_of_not_mem_names hn.1)
    refine ⟨?_, hstacks⟩
    simp only [Stmt.respell, stmt, hcondition, hyes]
  | .ifElse condition yes no, ctx, scopes, scopes', site, isTop, hs, hl, hclean, hn, hfits, h,
      _ => by
    rw [Stmt.names, List.mem_append, List.mem_append, not_or, not_or] at hn
    obtain ⟨hsc, hsys, hsy, hsns, hsn⟩ := hs
    obtain ⟨hlc, ⟨-, hly⟩, -, hln⟩ := hl
    obtain ⟨hclean, hcleanNo⟩ := clean_append.1 hclean
    have hafter : (stmt ctx scopes yes).1 = yes.after scopes := Stmt.fst_stmt hsy
    rw [Stmt.after_of_isStatement hsys] at hafter
    obtain ⟨hyes, hstacks⟩ := stmt_respell hc hnew hsy hly (clean_append.1 hclean).2 hn.1.2
      hfits.first (Respelling.Stacks.first_iff.2 h) fun _ => Stmt.notNamed_of_isStatement hsys _
    rw [Respelling.Stacks.first_iff, hafter] at hstacks
    have hcleanNo : Clean (stmt ctx scopes no).2 := hafter ▸ hcleanNo
    obtain ⟨hno, hstacks⟩ := stmt_respell hc hnew hsn hln hcleanNo hn.2 hfits.rest.first
      (Respelling.Stacks.first_iff.2 (Respelling.Stacks.rest_iff.2 hstacks))
      fun _ => Stmt.notNamed_of_isStatement hsns _
    rw [Respelling.Stacks.first_iff, Respelling.Stacks.rest_iff] at hstacks
    have hcondition := expr_respell hc hnew hfits h hsc hlc (Expr.ne_of_not_mem_names hn.1.1)
    simp only [Stmt.respell, stmt, hafter]
    exact ⟨by rw [hcondition, hyes, hno], hstacks⟩
  | .loop condition body, ctx, scopes, scopes', site, isTop, hs, hl, hclean, hn, hfits, h, _ => by
    rw [Stmt.names, List.mem_append, not_or] at hn
    obtain ⟨hbody, hstacks⟩ := stmt_respell hc hnew hs.2.2 hl.2.2 (clean_append.1 hclean).2 hn.2
      hfits h fun _ => Stmt.notNamed_of_isStatement hl.2.1 _
    have hcondition := expr_respell hc hnew hfits h hs.1 hl.1 (Expr.ne_of_not_mem_names hn.1)
    refine ⟨?_, hstacks⟩
    simp only [Stmt.respell, stmt, hcondition, hbody]
  | .function ⟨name, params, body⟩, ctx, scopes, scopes', site, isTop, hs, hl, hclean, hn, hfits, h,
      hold => by
    have hname : name.lexeme ≠ c.new := fun heq => hn (heq ▸ List.mem_cons_self)
    obtain ⟨hdeclare, hstacks⟩ := declareName_respell h hname hl.1 hold
    refine ⟨?_, hstacks⟩
    have hbody := functionBody_respell hc hnew hs.2 hl.2 (clean_append.1 hclean).2 hn
      (hfits.move (Scope.declare_ne_nil name)) hstacks
    simp only [Stmt.respell, FunctionDecl.respell, stmt]
    rw [hdeclare]
    exact congrArg _ hbody
  | .ret keyword value, ctx, scopes, scopes', site, isTop, hs, hl, _, hn, hfits, h, _ => by
    refine ⟨?_, h⟩
    simp only [Stmt.respell, stmt, optionalExpr_respell hc hnew hfits h hs hl.2 hn,
      Option.isSome_map]
  | .cls name none ms, ctx, scopes, scopes', site, isTop, hs, hl, hclean, hn, hfits, h, hold => by
    rw [Stmt.names, List.mem_cons, not_or, List.mem_append, not_or] at hn
    obtain ⟨hdeclare, hstacks⟩ := declareName_respell h (Ne.symm hn.1) hl.1 hold
    refine ⟨?_, hstacks⟩
    have hms := methods_respell hc hnew hs.2.2 hl.2 (clean_append.1 hclean).2 hn.2.2
      ((hfits.move (Scope.declare_ne_nil name)).deeper thisScope) (hstacks.deeper hnew.1.symm)
    simp only [Stmt.respell, stmt]
    rw [hdeclare]
    exact congrArg _ hms
  | .cls name (some superclass) ms, ctx, scopes, scopes', site, isTop, hs, hl, hclean, hn, hfits, h,
      hold => by
    rw [Stmt.names, List.mem_cons, not_or, List.mem_append, not_or] at hn
    obtain ⟨hdeclare, hstacks⟩ := declareName_respell h (Ne.symm hn.1) hl.1 hold
    refine ⟨?_, hstacks⟩
    obtain ⟨-, hlsuper, hlms⟩ := hl
    obtain ⟨hclean, hcleanMs⟩ := clean_append.1 hclean
    have hself := (clean_append.1 (clean_append.1 hclean).1).2
    have hms := methods_respell hc hnew hs.2.2 hlms hcleanMs hn.2.2
      (((hfits.move (Scope.declare_ne_nil name)).deeper superScope).deeper thisScope)
      ((hstacks.deeper hnew.2.symm).deeper hnew.1.symm)
    cases superclass with
    | var id superName =>
      obtain ⟨hne, hself⟩ := selfInheritance_respell c site (Ne.symm hn.1) hself
      obtain ⟨hid, hready⟩ := hlsuper.declare hne
      have hsuper : expr { ctx with cls := .subclass } (declareWhole scopes' name).1
          (.var id (c.reference site id superName)) =
            expr { ctx with cls := .subclass } (declareWhole scopes name).1 (.var id superName) :=
        expr_var hstacks (fun heq => hn.2.1 (heq ▸ List.mem_singleton_self _)) (hc ▸ hid.2) hready
      simp only [Stmt.respell, Expr.respell, stmt]
      rw [hdeclare, hself]
      exact congr (congrArg _ (congrArg _ hsuper)) hms
    | _ => exact hs.2.1.elim

theorem stmts_respell (hc : c.locals = t.locals) (hnew : c.new ≠ "this" ∧ c.new ≠ "super") :
    ∀ {ss : List Stmt} {ctx : ResolveContext} {scopes scopes' : List Scope} {site : Site}
    {isTop : Bool}, Stmt.AllFormed ss → Stmt.AllLinked t ctx scopes ss →
    Clean (stmts ctx scopes ss).2 → c.new ∉ Stmt.namesOfList ss → c.Fits site isTop scopes →
    c.Stacks site scopes scopes' → (site = .inside 0 → ∀ s ∈ ss, s.NotNamed c.old) →
    (stmts ctx scopes' (Stmt.respellList c site ss)).2 = (stmts ctx scopes ss).2 ∧
      c.Stacks site (stmts ctx scopes ss).1 (stmts ctx scopes' (Stmt.respellList c site ss)).1
  | [], _, _, _, _, _, _, _, _, _, _, h, _ => ⟨rfl, h⟩
  | s :: ss, ctx, scopes, scopes', site, isTop, hs, hl, hclean, hn, hfits, h, hold => by
    rw [Stmt.namesOfList, List.mem_append, not_or] at hn
    obtain ⟨hcleanFirst, hcleanMore⟩ := clean_append.1 hclean
    have hafter : (stmt ctx scopes s).1 = s.after scopes := Stmt.fst_stmt hs.1
    obtain ⟨hfirst, hstacks⟩ := stmt_respell hc hnew hs.1 hl.1 hcleanFirst hn.1 hfits.first
      (Respelling.Stacks.first_iff.2 h)
      fun hsite => hold (Site.first_eq_inside.1 hsite) s List.mem_cons_self
    rw [Respelling.Stacks.first_iff, hafter] at hstacks
    have hcleanMore : Clean (stmts ctx (s.after scopes) ss).2 := hafter ▸ hcleanMore
    obtain ⟨hmore, hstacks⟩ := stmts_respell hc hnew hs.2 hl.2 hcleanMore hn.2
      (hfits.move s.after_ne_nil).rest (Respelling.Stacks.rest_iff.2 hstacks)
      fun hsite s' hs' => hold (Site.rest_eq_inside.1 hsite) s' (List.mem_cons_of_mem s hs')
    rw [Respelling.Stacks.rest_iff] at hstacks
    simp only [Stmt.respellList, stmts, hafter]
    exact ⟨by rw [hfirst, hmore], hstacks⟩

theorem functionBody_respell (hc : c.locals = t.locals)
    (hnew : c.new ≠ "this" ∧ c.new ≠ "super") : ∀ {d : FunctionDecl} {ctx : ResolveContext}
    {scopes scopes' : List Scope} {site : Site} {isTop : Bool}, d.Formed → d.Linked t ctx scopes →
    Clean (functionBody ctx scopes d) → c.new ∉ d.names → c.Fits site isTop scopes →
    c.Stacks site scopes scopes' →
    functionBody ctx scopes' (d.respell c site) = functionBody ctx scopes d
  | ⟨name, params, body⟩, ctx, scopes, scopes', site, isTop, hd, hl, hclean, hn, hfits, h => by
    rw [FunctionDecl.names, List.mem_cons, not_or, List.mem_append, not_or] at hn
    obtain ⟨hparams, hbody⟩ := hl
    obtain ⟨hown, hold⟩ := hfits.function name hparams hbody
    have hne : (Bindings.empty : Scope) :: scopes ≠ [] := List.cons_ne_nil _ _
    obtain ⟨hdeclared, hstacks⟩ := declareAll_respell (h.body _) hparams hn.2.1
    have hbody := stmts_respell hc hnew hd.2 hbody (clean_append.1 hclean).2 hn.2.2
      (hown.move fun _ => Token.declareAll_ne_nil hne) hstacks hold
    simp only [FunctionDecl.respell, functionBody]
    rw [hdeclared, hbody.1]

theorem methods_respell (hc : c.locals = t.locals)
    (hnew : c.new ≠ "this" ∧ c.new ≠ "super") : ∀ {ds : List FunctionDecl} {ctx : ResolveContext}
    {scopes scopes' : List Scope} {site : Site} {isTop : Bool}, FunctionDecl.AllFormed ds →
    FunctionDecl.AllLinked t ctx scopes ds → Clean (methods ctx scopes ds) →
    c.new ∉ FunctionDecl.namesOfList ds → c.Fits site isTop scopes → c.Stacks site scopes scopes' →
    methods ctx scopes' (FunctionDecl.respellList c site ds) = methods ctx scopes ds
  | [], _, _, _, _, _, _, _, _, _, _, _ => rfl
  | d :: ds, ctx, scopes, scopes', site, isTop, hd, hl, hclean, hn, hfits, h => by
    rw [FunctionDecl.namesOfList, List.mem_append, not_or] at hn
    have hfirst := functionBody_respell hc hnew hd.1 hl.1 (clean_append.1 hclean).1 hn.1
      hfits.first (Respelling.Stacks.first_iff.2 h)
    have hmore := methods_respell hc hnew hd.2 hl.2 (clean_append.1 hclean).2 hn.2 hfits.rest
      (Respelling.Stacks.rest_iff.2 h)
    have hcontext : methodContext (d.respell c site.first) = methodContext d := by
      cases d
      rfl
    simp only [FunctionDecl.respellList, methods]
    rw [hcontext, hfirst, hmore]

end

/-- The walk over a program finds what it finds when one of the local variables has a new name. -/
theorem findings_respell {t : Table} {program : List Stmt} {old new : String} (path : List Nat)
    (ht : t.locals = Locals.ofProgram program) (hformed : Stmt.AllFormed program)
    (hlinked : Stmt.AllLinked t {} [] program) (herrors : errors program = [])
    (hfresh : new ∉ Stmt.namesOfList program) (hnew : new ≠ "this" ∧ new ≠ "super") :
    findings (Stmt.respellProgram old new path program) = findings program := by
  have hsites := Respelling.Fits.around ⟨Locals.ofProgram program, old, new⟩ path true []
  have hstacks := Respelling.Stacks.around ⟨Locals.ofProgram program, old, new⟩ path []
  refine (stmts_respell ht.symm hnew hformed hlinked herrors hfresh hsites hstacks ?_).1
  intro hsite
  cases hsite

end Resolve

end Lox
