import Lox.Program.Respell
import Lox.Proofs.Respell.Alike
import Lox.Proofs.Scope.Carried

/-!
# Lox.Proofs.Respell.Spelled

A linked program and the same program with another spelling for a local variable are alike
(`Stmt.allAlike_respell`). Within the scope of the variable a name has the new spelling where the
static scopes find it in that scope, and its own spelling elsewhere (`Respelling.spelling`); the
distance of a reference says which of the two it is. No function or class of that scope has the name
of the variable, since a scope declares a name once.
-/

namespace Lox

open Resolve (declareAll declareWhole thisScope superScope)

/-! ## Names that a scope declares -/

/-- The name that a statement declares in the scope it stands in. -/
def Stmt.declared? : Stmt → Option String
  | .var name _ | .cls name _ _ => some name.lexeme
  | .function decl => some decl.name.lexeme
  | _ => none

/-- The statement is no function or class of this name. -/
def Stmt.NotNamed (name : String) : Stmt → Prop
  | .function decl => decl.name.lexeme ≠ name
  | .cls n _ _ => n.lexeme ≠ name
  | _ => True

theorem Stmt.notNamed_of_isStatement {s : Stmt} (h : s.isStatement = true) (name : String) :
    s.NotNamed name := by
  cases s with
  | var | function | cls => cases h
  | _ => trivial

theorem Stmt.notNamed_of_declared? {s : Stmt} {name : String} (h : s.declared? ≠ some name) :
    s.NotNamed name := by
  cases s with
  | function | cls => exact fun heq => h (congrArg some heq)
  | _ => trivial

theorem Stmt.notNamed_of_declaresVariable {s : Stmt} {name : String}
    (h : s.declaresVariable name = true) : s.NotNamed name := by
  cases s with
  | function | cls => cases h
  | _ => trivial

theorem Stmt.declared?_of_declaresVariable {s : Stmt} {name : String}
    (h : s.declaresVariable name = true) : s.declared? = some name := by
  cases s with
  | var n init => exact congrArg some (eq_of_beq h)
  | _ => cases h

section Declared

variable {t : Table} {ctx : ResolveContext} {scopes : List Scope} {name : String}

namespace Scope

theorem declares_declare (n : Token) (h : scopes ≠ []) :
    declares name (Scope.declare scopes n) = (decide (n.lexeme = name) || declares name scopes) := by
  cases scopes with
  | nil => exact absurd rfl h
  | cons s outer =>
    rw [declare_eq_enter]
    exact declares_enter n.lexeme name true s outer

theorem enter_ne_nil (n : String) (complete : Bool) (h : scopes ≠ []) :
    enter n complete scopes ≠ [] := by
  cases scopes with
  | nil => exact absurd rfl h
  | cons s outer => exact List.cons_ne_nil _ _

theorem declare_ne_nil (n : Token) (h : scopes ≠ []) : Scope.declare scopes n ≠ [] := by
  rw [declare_eq_enter]
  exact enter_ne_nil n.lexeme true h

theorem ne_nil_of_declares (h : declares name scopes = true) : scopes ≠ [] := by
  rintro rfl
  cases h

end Scope

namespace Stmt

theorem declares_after (s : Stmt) (h : Scope.declares name scopes = true) :
    Scope.declares name (s.after scopes) = true := by
  have hdeclare (n : Token) : Scope.declares name (Scope.declare scopes n) = true := by
    rw [Scope.declares_declare n (Scope.ne_nil_of_declares h), h, Bool.or_true]
  cases s with
  | var | cls | function => exact hdeclare _
  | _ => exact h

theorem declares_after_self {s : Stmt} (hs : s.declared? = some name) (h : scopes ≠ []) :
    Scope.declares name (s.after scopes) = true := by
  have hdeclare (n : Token) : Scope.declares n.lexeme (Scope.declare scopes n) = true := by
    rw [Scope.declares_declare n h, decide_eq_true rfl, Bool.true_or]
  cases s with
  | var | cls | function =>
    cases hs
    exact hdeclare _
  | _ => cases hs

theorem after_ne_nil (s : Stmt) (h : scopes ≠ []) : s.after scopes ≠ [] := by
  cases s with
  | var | cls | function => exact Scope.declare_ne_nil _ h
  | _ => exact h

/-- What a linked statement declares is new in its scope. -/
theorem Linked.declares_eq_false {s : Stmt} (h : s.Linked t ctx scopes)
    (hs : s.declared? = some name) : Scope.declares name scopes = false := by
  cases s with
  | var | function =>
    cases hs
    exact h.1.2
  | cls _ superclass =>
    cases hs
    cases superclass <;> exact h.1.2
  | _ => cases hs

/-- A name that the scope has is not declared again. -/
theorem AllLinked.declared?_ne : ∀ {ss : List Stmt} {scopes : List Scope},
    AllLinked t ctx scopes ss → Scope.declares name scopes = true →
    ∀ s ∈ ss, s.declared? ≠ some name
  | [], _, _, _ => List.forall_mem_nil _
  | s :: ss, scopes, hl, h => by
    intro s' hs' hdeclared
    obtain rfl | hs' := List.mem_cons.1 hs'
    · have := hl.1.declares_eq_false hdeclared
      rw [h] at this
      cases this
    · exact hl.2.declared?_ne (s.declares_after h) s' hs' hdeclared

/-- A scope that has a variable has no function and no class of its name. -/
theorem AllLinked.notNamed : ∀ {ss : List Stmt} {scopes : List Scope},
    AllLinked t ctx scopes ss → scopes ≠ [] →
    Scope.declares name scopes = true ∨ ss.any (·.declaresVariable name) = true →
    ∀ s ∈ ss, s.NotNamed name
  | [], _, _, _, _ => List.forall_mem_nil _
  | s :: ss, scopes, hl, hne, h => by
    intro s' hs'
    obtain h | h := h
    · exact notNamed_of_declared? (hl.declared?_ne h s' hs')
    rw [List.any_cons, Bool.or_eq_true] at h
    have hafter := s.after_ne_nil hne
    obtain h | h := h
    · obtain rfl | hs' := List.mem_cons.1 hs'
      · exact notNamed_of_declaresVariable h
      · have hdeclares := declares_after_self (declared?_of_declaresVariable h) hne
        exact hl.2.notNamed hafter (.inl hdeclares) s' hs'
    · obtain rfl | hs' := List.mem_cons.1 hs'
      · -- It is declared later, so it is not declared here.
        refine notNamed_of_declared? fun hdeclared => ?_
        obtain ⟨v, hv, hvariable⟩ := List.any_eq_true.1 h
        exact hl.2.declared?_ne (declares_after_self hdeclared hne) v hv
          (declared?_of_declaresVariable hvariable)
      · exact hl.2.notNamed hafter (.inr h) s' hs'

/-- A variable that is declared has a name that declarations may give. -/
theorem AllLinked.isName_of_declaresVariable : ∀ {ss : List Stmt} {scopes : List Scope},
    AllLinked t ctx scopes ss → ss.any (·.declaresVariable name) = true →
    name ≠ "this" ∧ name ≠ "super"
  | s :: ss, scopes, hl, h => by
    rw [List.any_cons, Bool.or_eq_true] at h
    obtain h | h := h
    · cases s with
      | var n init =>
        obtain rfl : n.lexeme = name := eq_of_beq h
        exact hl.1.1.1
      | _ => cases h
    · exact hl.2.isName_of_declaresVariable h

end Stmt

namespace Token

theorem declareAll_ne_nil : ∀ {params : List Token} {scopes : List Scope}, scopes ≠ [] →
    (declareAll scopes params).1 ≠ []
  | [], _, h => h
  | p :: ps, scopes, h => by
    show (declareAll (Scope.declare scopes p) ps).1 ≠ []
    exact declareAll_ne_nil (Scope.declare_ne_nil p h)

/-- A scope has the parameters that are declared in it, and what it had before. -/
theorem declares_declareAll : ∀ {params : List Token} {scopes : List Scope}, scopes ≠ [] →
    params.any (·.lexeme == name) = true ∨ Scope.declares name scopes = true →
    Scope.declares name (declareAll scopes params).1 = true
  | [], _, _, h => h.elim nofun id
  | p :: ps, scopes, hne, h => by
    show Scope.declares name (declareAll (Scope.declare scopes p) ps).1 = true
    refine declares_declareAll (Scope.declare_ne_nil p hne) ?_
    rw [Scope.declares_declare p hne]
    rw [List.any_cons, Bool.or_eq_true, or_assoc] at h
    obtain h | h | h := h
    · exact .inr (by rw [decide_eq_true (eq_of_beq h), Bool.true_or])
    · exact .inl h
    · exact .inr (by rw [h, Bool.or_true])

end Token

end Declared

/-! ## Sites -/

namespace Site

variable {site : Site} {depth : Nat}

theorem first_eq_inside : site.first = inside depth ↔ site = inside depth := by
  cases site with
  | around path =>
    cases path with
    | nil => exact ⟨nofun, nofun⟩
    | cons i path => cases i <;> exact ⟨nofun, nofun⟩
  | _ => exact Iff.rfl

theorem rest_eq_inside : site.rest = inside depth ↔ site = inside depth := by
  cases site with
  | around path =>
    cases path with
    | nil => exact ⟨nofun, nofun⟩
    | cons i path => cases i <;> exact ⟨nofun, nofun⟩
  | _ => exact Iff.rfl

/-- The scope sought is entered here, or its inside is entered once more. -/
theorem body_eq_inside {declares : Bool} : site.body declares = inside depth ↔
    (depth = 0 ∧ declares = true ∧ site = around []) ∨
      ∃ outer, depth = outer + 1 ∧ site = inside outer := by
  cases site with
  | around path =>
    cases path with
    | nil =>
      cases declares with
      | false => exact ⟨nofun, nofun⟩
      | true =>
        refine ⟨fun h => ?_, fun h => ?_⟩
        · cases h
          exact .inl ⟨rfl, rfl, rfl⟩
        · obtain ⟨rfl, -, -⟩ | ⟨_, -, h⟩ := h
          · rfl
          · cases h
    | cons i path => exact ⟨nofun, nofun⟩
  | inside outer =>
    refine ⟨fun h => ?_, fun h => ?_⟩
    · cases h
      exact .inr ⟨outer, rfl, rfl⟩
    · obtain ⟨-, -, h⟩ | ⟨_, rfl, h⟩ := h
      · cases h
      · cases h
        rfl
  | apart => exact ⟨nofun, nofun⟩

theorem deeper_eq_inside :
    site.deeper = inside depth ↔ ∃ outer, depth = outer + 1 ∧ site = inside outer := by
  cases site with
  | inside outer =>
    refine ⟨fun h => ?_, fun h => ?_⟩
    · cases h
      exact ⟨outer, rfl, rfl⟩
    · obtain ⟨_, rfl, h⟩ := h
      cases h
      rfl
  | _ => exact ⟨nofun, nofun⟩

end Site

namespace Respelling

variable {c : Respelling} {site : Site} {scopes : List Scope} {isTop : Bool}

/-! ## Spellings -/

/-- The name with the new spelling is found in the scope sought. -/
def Hits (c : Respelling) (site : Site) (scopes : List Scope) : Prop :=
  ∃ depth, site = .inside depth ∧ Scope.distance? c.old scopes = some depth

/-- How names are spelled at a site with these scopes around it. -/
def spelling (c : Respelling) (site : Site) (scopes : List Scope) : Spelling := fun a a' =>
  a ≠ c.new ∧ (a' = c.new ∧ a = c.old ∧ c.Hits site scopes ∨
    a' = a ∧ ¬(a = c.old ∧ c.Hits site scopes))

/-- Inside the scope sought there is a scope, and the variable is not the receiver and not the
superclass. -/
def Fits (c : Respelling) (site : Site) (isTop : Bool) (scopes : List Scope) : Prop :=
  ∀ depth, site = .inside depth →
    isTop = false ∧ scopes ≠ [] ∧ c.old ≠ "this" ∧ c.old ≠ "super"

theorem spelling_congr {site' : Site} {scopes' : List Scope}
    (h : c.Hits site scopes ↔ c.Hits site' scopes') :
    c.spelling site scopes = c.spelling site' scopes' := by
  funext a a'
  simp only [spelling, h]

@[simp] theorem spelling_first (c : Respelling) (site : Site) (scopes : List Scope) :
    c.spelling site.first scopes = c.spelling site scopes := by
  refine spelling_congr ?_
  simp only [Hits, Site.first_eq_inside]

@[simp] theorem spelling_rest (c : Respelling) (site : Site) (scopes : List Scope) :
    c.spelling site.rest scopes = c.spelling site scopes := by
  refine spelling_congr ?_
  simp only [Hits, Site.rest_eq_inside]

/-- Outside of the scope sought every name is spelled as it is. -/
theorem spelling_around {path : List Nat} {a a' : String}
    (h : c.spelling (.around path) scopes a a') : a' = a := by
  obtain ⟨-, ⟨-, -, depth, hsite, -⟩ | ⟨h, -⟩⟩ := h
  · cases hsite
  · exact h

theorem spelling_self {a : String} (hnew : a ≠ c.new)
    (hold : ∀ depth, site = .inside depth → a ≠ c.old) : c.spelling site scopes a a :=
  ⟨hnew, .inr ⟨rfl, fun ⟨h, depth, hsite, _⟩ => hold depth hsite h⟩⟩

/-- Around the scope sought nothing is asked of the scopes. -/
theorem Fits.around (c : Respelling) (path : List Nat) (isTop : Bool) (scopes : List Scope) :
    c.Fits (.around path) isTop scopes := by
  intro depth hsite
  cases hsite

theorem Fits.first (h : c.Fits site isTop scopes) : c.Fits site.first isTop scopes :=
  fun depth hsite => h depth (Site.first_eq_inside.1 hsite)

theorem Fits.rest (h : c.Fits site isTop scopes) : c.Fits site.rest isTop scopes :=
  fun depth hsite => h depth (Site.rest_eq_inside.1 hsite)

theorem Fits.move (h : c.Fits site isTop scopes) {scopes' : List Scope}
    (hne : scopes ≠ [] → scopes' ≠ []) : c.Fits site isTop scopes' := by
  intro depth hsite
  obtain ⟨htop, hscopes, hnames⟩ := h depth hsite
  exact ⟨htop, hne hscopes, hnames⟩

/-! ### Declarations -/

theorem hits_enter_of_ne {name : String} (h : name ≠ c.old) (complete : Bool) :
    c.Hits site (Scope.enter name complete scopes) ↔ c.Hits site scopes := by
  simp only [Hits, Scope.distance?_enter_of_ne h]

theorem hits_enter_old (h : scopes ≠ []) (complete : Bool) :
    c.Hits site (Scope.enter c.old complete scopes) ↔ site = .inside 0 := by
  cases scopes with
  | nil => exact absurd rfl h
  | cons s outer =>
    simp only [Hits, Scope.distance?_enter_self]
    refine ⟨?_, fun h => ⟨0, h, rfl⟩⟩
    rintro ⟨depth, hsite, hdepth⟩
    cases hdepth
    exact hsite

theorem not_hits_of_top (h : c.Fits site true scopes) (scopes' : List Scope) :
    ¬c.Hits site scopes' := by
  rintro ⟨depth, hsite, -⟩
  cases (h depth hsite).1

/-- After a declaration of the name it is found in the innermost scope, sought or not. -/
theorem hits_enter (h : c.Fits site isTop scopes) (name : String) (complete : Bool) :
    c.Hits site (Scope.enter name complete scopes) ↔
      name = c.old ∧ site = .inside 0 ∨ name ≠ c.old ∧ c.Hits site scopes := by
  by_cases hname : name = c.old
  · subst hname
    simp only [true_and, ne_eq, not_true_eq_false, false_and, or_false]
    constructor
    · intro hhits
      have hscopes : scopes ≠ [] := by
        obtain ⟨depth, hsite, -⟩ := hhits
        exact (h depth hsite).2.1
      exact (hits_enter_old hscopes complete).1 hhits
    · intro hsite
      exact (hits_enter_old (h 0 hsite).2.1 complete).2 hsite
  · simp only [hname, hits_enter_of_ne hname, false_and, ne_eq, not_false_eq_true, true_and,
      false_or]

theorem spelling_enter (h : c.Fits site isTop scopes) (name : String) (complete complete' : Bool) :
    c.spelling site (Scope.enter name complete scopes) =
      c.spelling site (Scope.enter name complete' scopes) := by
  refine spelling_congr ?_
  rw [hits_enter h, hits_enter h]

theorem declaration_inside_zero {name : Token} (h : name.lexeme = c.old) :
    (c.declaration (.inside 0) name).lexeme = c.new := by
  simp [declaration, h, Token.spelled]

theorem declaration_eq_self {name : Token} (h : site = .inside 0 → name.lexeme ≠ c.old) :
    c.declaration site name = name := by
  unfold declaration
  split
  · exact if_neg (h rfl)
  · rfl

/-- A declaration gives its name the spelling that it has itself. -/
theorem declares_declaration {name : Token} (hnew : name.lexeme ≠ c.new)
    (hfits : c.Fits site isTop scopes) (complete : Bool) :
    (c.spelling site scopes).Declares isTop name.lexeme (c.declaration site name).lexeme
      (c.spelling site (Scope.enter name.lexeme complete scopes)) := by
  have hhits := hits_enter hfits name.lexeme complete
  refine ⟨fun htop => ?_, fun _ => ?_, ?_⟩
  · subst htop
    rw [declaration_eq_self]
    exact fun hsite => nomatch (hfits 0 hsite).1
  · rintro a a' ⟨hfresh, ha⟩
    by_cases hhere : name.lexeme = c.old ∧ site = .inside 0
    · rw [hhere.2, declaration_inside_zero hhere.1]
      obtain ⟨rfl, rfl, -⟩ | ⟨rfl, hother⟩ := ha
      · exact ⟨fun _ => rfl, fun _ => hhere.1⟩
      · refine ⟨fun heq => ?_, fun heq => absurd heq.symm hfresh⟩
        exact absurd ⟨heq.symm.trans hhere.1, hhits.2 (.inl hhere)⟩ hother
    · rw [declaration_eq_self fun hsite hname => hhere ⟨hname, hsite⟩]
      obtain ⟨rfl, rfl, hfound⟩ | ⟨rfl, -⟩ := ha
      · obtain hfound | ⟨hne, -⟩ := hhits.1 hfound
        · exact absurd hfound hhere
        · exact ⟨fun heq => absurd heq hne, fun heq => absurd heq hnew⟩
      · exact Iff.rfl
  · rintro a a' ⟨hfresh, ha⟩ h
    have hsame (hold : a = c.old) :
        c.Hits site (Scope.enter name.lexeme complete scopes) ↔ c.Hits site scopes := by
      obtain rfl | hne := h
      · exact iff_of_false (not_hits_of_top hfits _) (not_hits_of_top hfits _)
      · exact hits_enter_of_ne (hold ▸ hne) complete
    refine ⟨hfresh, ?_⟩
    obtain ⟨ha', hold, hfound⟩ | ⟨ha', hother⟩ := ha
    · exact .inl ⟨ha', hold, (hsame hold).1 hfound⟩
    · exact .inr ⟨ha', fun ⟨hold, hfound⟩ => hother ⟨hold, (hsame hold).2 hfound⟩⟩

/-! ### Inner scopes -/

theorem hits_body (declares : Bool) :
    c.Hits (site.body declares) (.empty :: scopes) ↔ c.Hits site scopes := by
  simp only [Hits, Site.body_eq_inside, Scope.distance?_empty_cons]
  constructor
  · rintro ⟨depth, ⟨rfl, -, -⟩ | ⟨outer, rfl, hsite⟩, hdepth⟩
    · simp at hdepth
    · exact ⟨outer, hsite, by simpa using hdepth⟩
  · rintro ⟨depth, hsite, hdepth⟩
    exact ⟨depth + 1, .inr ⟨depth, rfl, hsite⟩, by rw [hdepth]; rfl⟩

/-- A new scope changes no spelling. -/
theorem spelling_body (declares : Bool) :
    c.spelling (site.body declares) (.empty :: scopes) = c.spelling site scopes :=
  spelling_congr (hits_body declares)

/-- The scope of the receiver or the superclass has that name and no other. -/
theorem declares_deeper {name : String} (hnew : name ≠ c.new)
    (hold : ∀ depth, site = .inside depth → name ≠ c.old) :
    (c.spelling site scopes).Declares false name name
      (c.spelling site.deeper (Bindings.singleton name true :: scopes)) := by
  have hhits (hne : name ≠ c.old) : c.Hits site.deeper (Bindings.singleton name true :: scopes) ↔
      c.Hits site scopes := by
    simp only [Hits, Site.deeper_eq_inside, Scope.distance?_cons_of_ne hne]
    constructor
    · rintro ⟨_, ⟨outer, rfl, hsite⟩, hdepth⟩
      exact ⟨outer, hsite, by simpa using hdepth⟩
    · rintro ⟨depth, hsite, hdepth⟩
      exact ⟨depth + 1, ⟨depth, rfl, hsite⟩, by rw [hdepth]; rfl⟩
  refine ⟨nofun, fun _ => ?_, ?_⟩
  · rintro a a' ⟨hfresh, ⟨rfl, rfl, depth, hsite, -⟩ | ⟨rfl, -⟩⟩
    · obtain ⟨outer, -, hinside⟩ := Site.deeper_eq_inside.1 hsite
      exact ⟨fun heq => absurd heq (hold outer hinside), fun heq => absurd heq hnew⟩
    · exact Iff.rfl
  · rintro a a' ⟨hfresh, ha⟩ h
    have hne : name ≠ a := h.resolve_left nofun
    refine ⟨hfresh, ?_⟩
    obtain ⟨ha', rfl, hfound⟩ | ⟨ha', hother⟩ := ha
    · exact .inl ⟨ha', rfl, (hhits hne).1 hfound⟩
    · refine .inr ⟨ha', fun ⟨heq, hfound⟩ => hother ⟨heq, ?_⟩⟩
      exact (hhits (heq ▸ hne)).2 hfound

/-! ### References -/

/-- The distance of a reference says whether its name is found in the scope sought. -/
theorem spelling_reference {id : RefId} {name : Token} (hnew : name.lexeme ≠ c.new)
    (hid : c.locals.find? id = Scope.distance? name.lexeme scopes) :
    c.spelling site scopes name.lexeme (c.reference site id name).lexeme := by
  refine ⟨hnew, ?_⟩
  unfold reference
  cases site with
  | inside depth =>
    dsimp only
    split
    · rename_i h
      refine .inl ⟨rfl, h.1, depth, rfl, ?_⟩
      rw [← h.1, ← hid, h.2]
    · rename_i h
      refine .inr ⟨rfl, ?_⟩
      rintro ⟨hold, _, hsite, hdepth⟩
      cases hsite
      exact h ⟨hold, by rw [hid, hold, hdepth]⟩
  | _ => exact .inr ⟨rfl, fun ⟨_, _, hsite, _⟩ => nomatch hsite⟩

end Respelling

/-! ## Trees -/

theorem Expr.ne_of_not_mem_names {name : String} {e : Expr} (h : name ∉ e.names) :
    ∀ x ∈ e.refs, x.2.lexeme ≠ name :=
  fun _ hx heq => h (heq ▸ List.mem_map_of_mem hx)

section Trees

variable {c : Respelling} {t : Table} {ctx : ResolveContext} {scopes : List Scope} {site : Site}
  {isTop : Bool}

mutual

theorem Expr.alike_respell (hc : c.locals = t.locals) (hnew : c.new ≠ "this" ∧ c.new ≠ "super")
    (hfits : c.Fits site isTop scopes) : ∀ {e : Expr}, e.Linked t ctx scopes →
    (∀ x ∈ e.refs, x.2.lexeme ≠ c.new) → e.Alike (c.spelling site scopes) (e.respell c site)
  | .constant x, _, _ => .constant x
  | .grouping e, h, hn => .grouping (Expr.alike_respell hc hnew hfits (e := e) h hn)
  | .unary _ _, h, hn => .unary (Expr.alike_respell hc hnew hfits h.2 hn)
  | .binary _ _ _, h, hn =>
    have hn := List.forall_mem_append.1 hn
    .binary (Expr.alike_respell hc hnew hfits h.2.1 hn.1)
      (Expr.alike_respell hc hnew hfits h.2.2 hn.2)
  | .logical _ _ _, h, hn =>
    have hn := List.forall_mem_append.1 hn
    .logical (Expr.alike_respell hc hnew hfits h.1 hn.1)
      (Expr.alike_respell hc hnew hfits h.2 hn.2)
  | .var id name, h, hn =>
    .var (Respelling.spelling_reference (hn (id, name) (List.mem_singleton_self _)) (hc ▸ h.1.2))
  | .assign id name _, h, hn =>
    have hn := List.forall_mem_cons.1 hn
    .assign (Respelling.spelling_reference hn.1 (hc ▸ h.2.1.2))
      (Expr.alike_respell hc hnew hfits h.2.2 hn.2)
  | .call _ _ _, h, hn =>
    have hn := List.forall_mem_append.1 hn
    .call (Expr.alike_respell hc hnew hfits h.1 hn.1) (Expr.allAlike_respell hc hnew hfits h.2 hn.2)
  | .get _ _, h, hn => .get (Expr.alike_respell hc hnew hfits h hn)
  | .set _ _ _, h, hn =>
    have hn := List.forall_mem_append.1 hn
    .set (Expr.alike_respell hc hnew hfits h.1 hn.1) (Expr.alike_respell hc hnew hfits h.2 hn.2)
  | .thisRef _ keyword, h, _ => by
    refine .thisRef ?_
    rw [h.1]
    exact Respelling.spelling_self hnew.1.symm fun depth hsite => (hfits depth hsite).2.2.1.symm
  | .superRef _ _ _, _, _ =>
    .superRef (Respelling.spelling_self hnew.2.symm fun depth hsite =>
        (hfits depth hsite).2.2.2.symm)
      (Respelling.spelling_self hnew.1.symm fun depth hsite => (hfits depth hsite).2.2.1.symm)
  | .unparsed, h, _ => h.elim

theorem Expr.allAlike_respell (hc : c.locals = t.locals)
    (hnew : c.new ≠ "this" ∧ c.new ≠ "super") (hfits : c.Fits site isTop scopes) :
    ∀ {es : List Expr}, Expr.AllLinked t ctx scopes es →
    (∀ x ∈ Expr.refsOfList es, x.2.lexeme ≠ c.new) →
    Expr.AllAlike (c.spelling site scopes) es (Expr.respellList c site es)
  | [], _, _ => .nil
  | _ :: _, h, hn =>
    have hn := List.forall_mem_append.1 hn
    .cons (Expr.alike_respell hc hnew hfits h.1 hn.1)
      (Expr.allAlike_respell hc hnew hfits h.2 hn.2)

end

theorem Expr.optionAlike_respell (hc : c.locals = t.locals)
    (hnew : c.new ≠ "this" ∧ c.new ≠ "super") (hfits : c.Fits site isTop scopes)
    {e : Option Expr} (h : Expr.OptionLinked t ctx scopes e) (hn : c.new ∉ Expr.namesOfOption e) :
    Option.Rel (Expr.Alike (c.spelling site scopes)) e (e.map (Expr.respell c site)) := by
  cases e with
  | none => exact .none
  | some e => exact .some (Expr.alike_respell hc hnew hfits h (Expr.ne_of_not_mem_names hn))

namespace Respelling

theorem declares_declare {name : Token} (hnew : name.lexeme ≠ c.new)
    (hfits : c.Fits site isTop scopes) :
    (c.spelling site scopes).Declares isTop name.lexeme (c.declaration site name).lexeme
      (c.spelling site (Scope.declare scopes name)) := by
  rw [Scope.declare_eq_enter]
  exact declares_declaration hnew hfits true

/-- A function or class is declared under the name that it has. -/
theorem declares_name {name : Token} (hnew : name.lexeme ≠ c.new)
    (hfits : c.Fits site isTop scopes) (hold : site = .inside 0 → name.lexeme ≠ c.old) :
    (c.spelling site scopes).Declares isTop name.lexeme name.lexeme
      (c.spelling site (Scope.declare scopes name)) := by
  have h := declares_declare hnew hfits
  rwa [declaration_eq_self hold] at h

theorem declaresAll_map : ∀ {params : List Token} {scopes : List Scope},
    c.Fits site false scopes → c.new ∉ params.map (·.lexeme) →
    (c.spelling site scopes).DeclaresAll params (params.map (c.declaration site))
      (c.spelling site (declareAll scopes params).1)
  | [], _, _, _ => .nil
  | p :: ps, scopes, hfits, hn => by
    rw [List.map_cons, List.mem_cons, not_or] at hn
    exact .cons (declares_declare (Ne.symm hn.1) hfits)
      (declaresAll_map (hfits.move (Scope.declare_ne_nil p)) hn.2)

/-- The scope sought is one that has the variable. -/
theorem Fits.body {isTop' : Bool} (hfits : c.Fits site isTop' scopes) {declares : Bool}
    (h : declares = true → c.old ≠ "this" ∧ c.old ≠ "super") {inner : List Scope}
    (hinner : inner ≠ []) : c.Fits (site.body declares) false inner := by
  intro depth hsite
  refine ⟨rfl, hinner, ?_⟩
  obtain ⟨-, hdeclares, -⟩ | ⟨outer, -, houter⟩ := Site.body_eq_inside.1 hsite
  · exact h hdeclares
  · exact (hfits outer houter).2.2

theorem Fits.deeper (hfits : c.Fits site isTop scopes) (s : Scope) :
    c.Fits site.deeper false (s :: scopes) := by
  intro depth hsite
  obtain ⟨outer, -, houter⟩ := Site.deeper_eq_inside.1 hsite
  exact ⟨rfl, List.cons_ne_nil s scopes, (hfits outer houter).2.2⟩

end Respelling

theorem Site.declares_of_body {declares : Bool} (h : site.body declares = .inside 0) :
    declares = true := by
  obtain ⟨-, h, -⟩ | ⟨_, h, -⟩ := Site.body_eq_inside.1 h
  · exact h
  · cases h

namespace Respelling.Fits

/-- The scope of a block, and what stands in it. -/
theorem block (hfits : c.Fits site isTop scopes) {body : List Stmt}
    (h : Stmt.AllLinked t ctx (.empty :: scopes) body) :
    c.Fits (site.body (body.any (·.declaresVariable c.old))) false (.empty :: scopes) ∧
      (site.body (body.any (·.declaresVariable c.old)) = .inside 0 →
        ∀ s ∈ body, s.NotNamed c.old) := by
  have hne : (Bindings.empty : Scope) :: scopes ≠ [] := List.cons_ne_nil _ _
  exact ⟨hfits.body h.isName_of_declaresVariable hne,
    fun hsite => h.notNamed hne (.inr (Site.declares_of_body hsite))⟩

/-- The scope of a function, of its parameters and its body. -/
theorem function (hfits : c.Fits site isTop scopes) (name : Token) {params : List Token}
    {body : List Stmt} (hparams : Token.AllDeclarable (.empty :: scopes) params)
    (hbody : Stmt.AllLinked t ctx (declareAll (.empty :: scopes) params).1 body) :
    c.Fits (site.body (FunctionDecl.declaresVariable c.old ⟨name, params, body⟩)) false
        (.empty :: scopes) ∧
      (site.body (FunctionDecl.declaresVariable c.old ⟨name, params, body⟩) = .inside 0 →
        ∀ s ∈ body, s.NotNamed c.old) := by
  have hne : (Bindings.empty : Scope) :: scopes ≠ [] := List.cons_ne_nil _ _
  refine ⟨hfits.body (fun hown => ?_) hne, fun hsite => ?_⟩
  · obtain hparam | hvariable := Bool.or_eq_true _ _ ▸ hown
    · obtain ⟨p, hp, hname⟩ := List.any_eq_true.1 hparam
      rw [← eq_of_beq hname]
      exact hparams.isName p hp
    · exact hbody.isName_of_declaresVariable hvariable
  · have hown := Bool.or_eq_true _ _ ▸ Site.declares_of_body hsite
    exact hbody.notNamed (Token.declareAll_ne_nil hne)
      (hown.imp (fun h => Token.declares_declareAll hne (.inl h)) id)

end Respelling.Fits

mutual

theorem Stmt.alike_respell (hc : c.locals = t.locals) (hnew : c.new ≠ "this" ∧ c.new ≠ "super") :
    ∀ {s : Stmt} {ctx : ResolveContext} {scopes : List Scope} {site : Site} {isTop : Bool},
    s.Linked t ctx scopes → c.new ∉ s.names →
    c.Fits site isTop scopes → (site = .inside 0 → s.NotNamed c.old) →
    Stmt.Alike isTop (c.spelling site scopes) (c.spelling site (s.after scopes)) s
      (s.respell c site)
  | .expression _, _, _, _, _, h, hn, hfits, _ =>
    .expression (Expr.alike_respell hc hnew hfits h (Expr.ne_of_not_mem_names hn))
  | .var name init, ctx, scopes, site, isTop, h, hn, hfits, _ => by
    rw [Stmt.names, List.mem_cons, not_or] at hn
    have hinit := Expr.optionAlike_respell hc hnew
      (hfits.move (Scope.enter_ne_nil name.lexeme false)) h.2 hn.2
    have hdeclare := Respelling.declares_declare (Ne.symm hn.1) hfits
    rw [Respelling.spelling_enter hfits name.lexeme false true, ← Scope.declare_eq_enter] at hinit
    exact .var hdeclare hinit
  | .block body, ctx, scopes, site, isTop, h, hn, hfits, _ => by
    obtain ⟨hown, hold⟩ := hfits.block h
    have hbody := Stmt.allAlike_respell hc hnew h hn hown hold
    rw [Respelling.spelling_body] at hbody
    exact .block hbody
  | .ifThen condition yes, ctx, scopes, site, isTop, h, hn, hfits, _ => by
    rw [Stmt.names, List.mem_append, not_or] at hn
    obtain ⟨hcondition, hstatement, hyes⟩ := h
    have hyes := Stmt.alike_respell hc hnew hyes hn.2 hfits
      fun _ => Stmt.notNamed_of_isStatement hstatement _
    rw [Stmt.after_of_isStatement hstatement] at hyes
    exact .ifThen (Expr.alike_respell hc hnew hfits hcondition (Expr.ne_of_not_mem_names hn.1)) hyes
  | .ifElse condition yes no, ctx, scopes, site, isTop, h, hn, hfits, _ => by
    rw [Stmt.names, List.mem_append, List.mem_append, not_or, not_or] at hn
    obtain ⟨hcondition, ⟨hstatement, hyes⟩, hstatement', hno⟩ := h
    have hyes := Stmt.alike_respell hc hnew hyes hn.1.2 hfits.first
      fun _ => Stmt.notNamed_of_isStatement hstatement _
    have hno := Stmt.alike_respell hc hnew hno hn.2 hfits.rest.first
      fun _ => Stmt.notNamed_of_isStatement hstatement' _
    rw [Stmt.after_of_isStatement hstatement, Respelling.spelling_first] at hyes
    rw [Stmt.after_of_isStatement hstatement', Respelling.spelling_first,
      Respelling.spelling_rest] at hno
    exact .ifElse (Expr.alike_respell hc hnew hfits hcondition (Expr.ne_of_not_mem_names hn.1.1))
      hyes hno
  | .loop condition body, ctx, scopes, site, isTop, h, hn, hfits, _ => by
    rw [Stmt.names, List.mem_append, not_or] at hn
    obtain ⟨hcondition, hstatement, hbody⟩ := h
    have hbody := Stmt.alike_respell hc hnew hbody hn.2 hfits
      fun _ => Stmt.notNamed_of_isStatement hstatement _
    rw [Stmt.after_of_isStatement hstatement] at hbody
    exact .loop (Expr.alike_respell hc hnew hfits hcondition (Expr.ne_of_not_mem_names hn.1)) hbody
  | .function decl, ctx, scopes, site, isTop, h, hn, hfits, hold => by
    have hname : decl.name.lexeme ≠ c.new := by
      obtain ⟨name, params, body⟩ := decl
      exact fun heq => hn (heq ▸ List.mem_cons_self)
    exact .function (Respelling.declares_name hname hfits hold)
      (FunctionDecl.alike_respell hc hnew h.2 hn (hfits.move (Scope.declare_ne_nil decl.name)))
  | .ret _ value, _, _, _, _, h, hn, hfits, _ =>
    .ret (Expr.optionAlike_respell hc hnew hfits h.2 hn)
  | .cls name none ms, ctx, scopes, site, isTop, h, hn, hfits, hold => by
    rw [Stmt.names, List.mem_cons, not_or, List.mem_append, not_or] at hn
    have hfits' := hfits.move (Scope.declare_ne_nil name)
    have hthis : (c.spelling site (Scope.declare scopes name)).Declares false "this" "this"
        (c.spelling site.deeper (thisScope :: Scope.declare scopes name)) :=
      Respelling.declares_deeper hnew.1.symm fun depth hsite => (hfits depth hsite).2.2.1.symm
    exact .cls (Respelling.declares_name (Ne.symm hn.1) hfits hold)
      (FunctionDecl.allAlike_respell hc hnew h.2 hn.2.2 (hfits'.deeper thisScope) hthis)
  | .cls name (some superclass) ms, ctx, scopes, site, isTop, h, hn, hfits, hold => by
    rw [Stmt.names, List.mem_cons, not_or, List.mem_append, not_or] at hn
    obtain ⟨-, hsuperclass, hms⟩ := h
    have hfits' := (hfits.move (Scope.declare_ne_nil name)).deeper superScope
    have hsuper : (c.spelling site (Scope.declare scopes name)).Declares false "super" "super"
        (c.spelling site.deeper (superScope :: Scope.declare scopes name)) :=
      Respelling.declares_deeper hnew.2.symm fun depth hsite => (hfits depth hsite).2.2.2.symm
    have hthis : (c.spelling site.deeper (superScope :: Scope.declare scopes name)).Declares false
        "this" "this" (c.spelling site.deeper.deeper
          (thisScope :: superScope :: Scope.declare scopes name)) :=
      Respelling.declares_deeper hnew.1.symm fun depth hsite => (hfits' depth hsite).2.2.1.symm
    exact .subclass (Expr.alike_respell hc hnew hfits hsuperclass (Expr.ne_of_not_mem_names hn.2.1))
      (Respelling.declares_name (Ne.symm hn.1) hfits hold) hsuper
      (FunctionDecl.allAlike_respell hc hnew hms hn.2.2 (hfits'.deeper thisScope) hthis)

theorem Stmt.allAlike_respell (hc : c.locals = t.locals)
    (hnew : c.new ≠ "this" ∧ c.new ≠ "super") : ∀ {ss : List Stmt} {ctx : ResolveContext}
    {scopes : List Scope} {site : Site} {isTop : Bool}, Stmt.AllLinked t ctx scopes ss →
    c.new ∉ Stmt.namesOfList ss → c.Fits site isTop scopes →
    (site = .inside 0 → ∀ s ∈ ss, s.NotNamed c.old) →
    Stmt.AllAlike isTop (c.spelling site scopes) ss (Stmt.respellList c site ss)
  | [], _, _, _, _, _, _, _, _ => .nil
  | s :: ss, ctx, scopes, site, isTop, h, hn, hfits, hold => by
    rw [Stmt.namesOfList, List.mem_append, not_or] at hn
    have hfirst := Stmt.alike_respell hc hnew h.1 hn.1 hfits.first
      fun hsite => hold (Site.first_eq_inside.1 hsite) s List.mem_cons_self
    have hmore := Stmt.allAlike_respell hc hnew h.2 hn.2 (hfits.move s.after_ne_nil).rest
      fun hsite s' hs' => hold (Site.rest_eq_inside.1 hsite) s' (List.mem_cons_of_mem s hs')
    rw [Respelling.spelling_first, Respelling.spelling_first] at hfirst
    rw [Respelling.spelling_rest] at hmore
    exact .cons hfirst hmore

theorem FunctionDecl.alike_respell (hc : c.locals = t.locals)
    (hnew : c.new ≠ "this" ∧ c.new ≠ "super") : ∀ {d : FunctionDecl} {ctx : ResolveContext}
    {scopes : List Scope} {site : Site} {isTop : Bool}, d.Linked t ctx scopes → c.new ∉ d.names →
    c.Fits site isTop scopes → d.Alike (c.spelling site scopes) (d.respell c site)
  | ⟨name, params, body⟩, ctx, scopes, site, isTop, h, hn, hfits => by
    rw [FunctionDecl.names, List.mem_cons, not_or, List.mem_append, not_or] at hn
    obtain ⟨hparams, hbody⟩ := h
    obtain ⟨hown, hold⟩ := hfits.function name hparams hbody
    have hne : (Bindings.empty : Scope) :: scopes ≠ [] := List.cons_ne_nil _ _
    have hbody := Stmt.allAlike_respell hc hnew hbody hn.2.2
      (hown.move fun _ => Token.declareAll_ne_nil hne) hold
    have hparams := Respelling.declaresAll_map hown hn.2.1
    rw [Respelling.spelling_body] at hparams
    exact .mk hparams hbody

/-- Methods with a receiver around each of them. -/
theorem FunctionDecl.allAlike_respell (hc : c.locals = t.locals)
    (hnew : c.new ≠ "this" ∧ c.new ≠ "super") : ∀ {ds : List FunctionDecl} {ctx : ResolveContext}
    {scopes : List Scope} {site : Site} {isTop : Bool} {r : Spelling},
    FunctionDecl.AllLinked t ctx scopes ds → c.new ∉ FunctionDecl.namesOfList ds →
    c.Fits site isTop scopes → r.Declares false "this" "this" (c.spelling site scopes) →
    FunctionDecl.AllAlike r ds (FunctionDecl.respellList c site ds)
  | [], _, _, _, _, _, _, _, _, _ => .nil
  | d :: ds, ctx, scopes, site, isTop, r, h, hn, hfits, hthis => by
    rw [FunctionDecl.namesOfList, List.mem_append, not_or] at hn
    have hreceiver : c.spelling site scopes "this" "this" :=
      Respelling.spelling_self hnew.1.symm fun depth hsite => (hfits depth hsite).2.2.1.symm
    have hfirst := FunctionDecl.alike_respell hc hnew h.1 hn.1 hfits.first
    have hmore := FunctionDecl.allAlike_respell (r := r) hc hnew h.2 hn.2 hfits.rest
    rw [Respelling.spelling_first] at hfirst
    rw [Respelling.spelling_rest] at hmore
    exact .cons hthis hreceiver hfirst (hmore hthis)

end

end Trees

end Lox
