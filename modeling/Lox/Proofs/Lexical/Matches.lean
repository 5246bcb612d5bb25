import Lox.Lexical.Eval
import Lox.Proofs.Lexical.Declare

/-!
# Lox.Proofs.Lexical.Matches

Computations of the two machines that end alike (`Matches`): with related values, with one failure
that programs may really have, or out of fuel, and the machines agree again. Running one after the
other keeps this up (`Matches.bind`). There is one lemma for each thing that the evaluators do with
their machines.
-/

namespace Lox

/-- A sink may fail, but that is no internal failure. -/
def Error.isInternal : Error → Bool
  | runtime problem => problem.isInternal
  | _ => false

theorem Error.isInternal_of_isStatic {e : Error} (h : e.isStatic = true) :
    e.isInternal = false := by
  cases e with
  | runtime p => cases h
  | _ => rfl

namespace Lexical

variable {α β γ δ : Type}

/-- From machines that agree under `w`, both ends are alike. -/
def Matches (w : Plan) (own : Option FrameId) (frame : FrameId) (R : Plan → α → β → Prop) :
    Outcome Lox.Machine α → Outcome Machine β → Prop
  | .done a m, .done b x => ∃ w', w.Grows own w' ∧ Agree w' frame m x ∧ R w' a b
  | .failed e m, .failed e' x =>
    (e' = e ∧ e.isInternal = false) ∧ ∃ w', w.Grows own w' ∧ Agree w' frame m x
  | .outOfFuel, .outOfFuel => True
  | _, _ => False

section Rules

variable {w w' : Plan} {own : Option FrameId} {frame : FrameId} {R : Plan → α → β → Prop}
  {Q : Plan → γ → δ → Prop} {m : Lox.Machine} {x : Machine}

namespace Matches

theorem of_done {o : Outcome Lox.Machine α} {o' : Outcome Machine β}
    (h : Matches w own frame R o o') {a : α} (ho : o = .done a m) :
    ∃ w' b x, w.Grows own w' ∧ Agree w' frame m x ∧ R w' a b := by
  subst ho
  cases o' with
  | done b x =>
    obtain ⟨w', hg, ha, hr⟩ := h
    exact ⟨w', b, x, hg, ha, hr⟩
  | _ => exact h.elim

/-- What is known of both ends may be weakened. -/
theorem weaken {w₀ : Plan} {own₀ : Option FrameId} {R' : Plan → α → β → Prop}
    {o : Outcome Lox.Machine α} {o' : Outcome Machine β} (h : Matches w own frame R o o')
    (hg : ∀ w', w.Grows own w' → w₀.Grows own₀ w') (hr : ∀ w' a b, R w' a b → R' w' a b) :
    Matches w₀ own₀ frame R' o o' := by
  cases o with
  | done a m =>
    cases o' with
    | done b x =>
      obtain ⟨w', hgrows, ha, hab⟩ := h
      exact ⟨w', hg w' hgrows, ha, hr w' a b hab⟩
    | _ => exact h
  | failed e m =>
    cases o' with
    | failed e' x =>
      obtain ⟨he, w', hgrows, ha⟩ := h
      exact ⟨he, w', hg w' hgrows, ha⟩
    | _ => exact h
  | outOfFuel =>
    cases o' with
    | outOfFuel => trivial
    | _ => exact h

theorem after (hg : w.Grows own w') {o : Outcome Lox.Machine α} {o' : Outcome Machine β}
    (h : Matches w' own frame R o o') : Matches w own frame R o o' :=
  h.weaken (fun _ hg' => hg.trans hg') fun _ _ _ => id

/-- What the first of two computations adds to the plan may be less than what both may. -/
theorem bindFrom {own' : Option FrameId} (hsub : ∀ w', w.Grows own' w' → w.Grows own w')
    {c : Lox.Eval α} {c' : Eval β} {k : α → Lox.Eval γ} {k' : β → Eval δ}
    (h : Matches w own' frame R (c m) (c' x))
    (hk : ∀ w' a b m' x', w.Grows own' w' → Agree w' frame m' x' → R w' a b →
      Matches w' own frame Q (k a m') (k' b x')) :
    Matches w own frame Q ((c >>= k) m) ((c' >>= k') x) := by
  rw [Computation.bind_apply, Computation.bind_apply]
  revert h
  cases c m with
  | done a m =>
    cases c' x with
    | done b x =>
      rintro ⟨w', hg, ha, hr⟩
      exact (hk w' a b m x hg ha hr).after (hsub w' hg)
    | _ => exact False.elim
  | failed e m =>
    cases c' x with
    | failed e' x =>
      rintro ⟨he, w', hg, ha⟩
      exact ⟨he, w', hsub w' hg, ha⟩
    | _ => exact False.elim
  | outOfFuel =>
    cases c' x with
    | outOfFuel => exact id
    | _ => exact False.elim

theorem bind {c : Lox.Eval α} {c' : Eval β} {k : α → Lox.Eval γ} {k' : β → Eval δ}
    (h : Matches w own frame R (c m) (c' x))
    (hk : ∀ w' a b m' x', w.Grows own w' → Agree w' frame m' x' → R w' a b →
      Matches w' own frame Q (k a m') (k' b x')) :
    Matches w own frame Q ((c >>= k) m) ((c' >>= k') x) :=
  bindFrom (fun _ => id) h hk

/-- First an evaluation that leaves the frame of the caller without new variables. -/
theorem bindNone {c : Lox.Eval α} {c' : Eval β} {k : α → Lox.Eval γ} {k' : β → Eval δ}
    (h : Matches w none frame R (c m) (c' x))
    (hk : ∀ w' a b m' x', w.Grows none w' → Agree w' frame m' x' → R w' a b →
      Matches w' own frame Q (k a m') (k' b x')) :
    Matches w own frame Q ((c >>= k) m) ((c' >>= k') x) :=
  bindFrom (fun _ => Plan.Grows.widen) h hk

/-- Only the second side has something to add to its value. -/
theorem mapRight {Q : Plan → α → δ → Prop} {o : Outcome Lox.Machine α} {c' : Eval β}
    {g : β → δ} (h : Matches w none frame R o (c' x))
    (hk : ∀ w' a b, w.Grows none w' → R w' a b → Q w' a (g b)) :
    Matches w own frame Q o ((c' >>= fun b => pure (g b)) x) := by
  rw [Computation.bind_apply]
  revert h
  cases c' x with
  | done b x =>
    cases o with
    | done a m =>
      rintro ⟨w', hg, ha, hr⟩
      exact ⟨w', hg.widen, ha, hk w' a b hg hr⟩
    | _ => exact False.elim
  | failed e' x =>
    cases o with
    | failed e m =>
      rintro ⟨he, w', hg, ha⟩
      exact ⟨he, w', hg.widen, ha⟩
    | _ => exact False.elim
  | outOfFuel =>
    cases o with
    | outOfFuel => exact id
    | _ => exact False.elim

theorem ret {a : α} {b : β} (h : Agree w frame m x) (hr : R w a b) :
    Matches w own frame R ((pure a : Lox.Eval α) m) ((pure b : Eval β) x) :=
  ⟨w, .refl w, h, hr⟩

theorem fail (h : Agree w frame m x) {problem : RuntimeProblem}
    (hp : problem.isInternal = false) :
    Matches w own frame R (Computation.fail problem m) (Computation.fail problem x) :=
  ⟨⟨rfl, hp⟩, w, .refl w, h⟩

theorem ofExcept (h : Agree w frame m x) {r : Except RuntimeProblem Value}
    {r' : Except RuntimeProblem (Value Names)} (hr : ResultRel w r r') :
    Matches w own frame ValueRel (Computation.ofExcept r m) (Computation.ofExcept r' x) := by
  cases r with
  | ok v =>
    cases r' with
    | ok v' => exact ret h hr
    | error p => exact hr.elim
  | error p =>
    cases r' with
    | ok v' => exact hr.elim
    | error p' =>
      obtain ⟨rfl, hp⟩ := hr
      exact fail h hp

/-- Slots of a frame that is new for the caller are no concern of it. -/
theorem inside {w₀ : Plan} {f : FrameId} (hg : w₀.Grows own w) (hf : w₀.links.length ≤ f)
    {o : Outcome Lox.Machine α} {o' : Outcome Machine β}
    (h : Matches w (some f) frame R o o') : Matches w₀ own frame R o o' :=
  h.weaken (fun _ hg' => hg'.inside hg hf) fun _ _ _ => id

theorem inFrame {f : FrameId} {c : Lox.Eval α} {c' : Eval β} (hm : Agree w frame m x)
    (h : Matches w own f R (c { m with current := f }) (c' x)) :
    Matches w own frame R (Lox.Eval.inFrame f c m) (c' x) := by
  unfold Lox.Eval.inFrame
  simp only [hm.current]
  revert h
  cases c { m with current := f } with
  | done a m =>
    cases c' x with
    | done b x =>
      rintro ⟨w', hg', ha, hr⟩
      exact ⟨w', hg', ha.inFrame frame, hr⟩
    | _ => exact False.elim
  | failed e m =>
    cases c' x with
    | failed e' x =>
      rintro ⟨he, w', hg', ha⟩
      exact ⟨he, w', hg', ha.inFrame frame⟩
    | _ => exact False.elim
  | outOfFuel =>
    cases c' x with
    | outOfFuel => exact id
    | _ => exact False.elim

end Matches

end Rules

section Primitives

variable {w : Plan} {own : Option FrameId} {frame : FrameId} {m : Lox.Machine} {x : Machine}
  {t : Table} {scopes : List Lox.Scope} {names : Names}

/-! ## Variables -/

/-- What a local name stands for. -/
theorem Aligned.exists_value {f : FrameId} (ha : Aligned w scopes f names)
    (h : Agree w frame m x) {name : String} {d : Nat} (hs : Scope.Has scopes name d) :
    ∃ v c v', m.store.getAt? f d name = some v ∧ names.find? name = some c ∧
      x.read? c = some v' ∧ ValueRel w v v' ∧ Suits name v := by
  obtain ⟨c, a, hc, hanc, hslot, hfilled⟩ := ha.cell name d hs.1
  obtain ⟨v, v', hv, hv', hrel, hsuits⟩ := h.slot c a name hslot (hfilled hs.2)
  refine ⟨v, c, v', ?_, hc, hv', hrel, hsuits⟩
  unfold Store.getAt?
  rw [h.ancestor?_eq, hanc]
  exact hv

theorem Agree.find?_locals (h : Agree w frame m x) (ht : t.Le w.table) {id : RefId}
    {d : Option Nat} (hid : t.Says id d) : m.locals.find? id = d := by
  rw [h.locals]
  exact (hid.mono ht).2

theorem matches_lookUp (h : Agree w frame m x) (ha : Aligned w scopes frame names)
    (ht : t.Le w.table) {id : RefId} {name : String}
    (hid : t.Says id (Scope.distance? name scopes)) (hp : Scope.isPending name scopes = false) :
    Matches w own frame ValueRel (Lox.Eval.lookUp id name m) (lookUp names name x) := by
  unfold Lox.Eval.lookUp lookUp
  rw [h.find?_locals ht hid]
  cases hd : Scope.distance? name scopes with
  | some d =>
    obtain ⟨v, c, v', hv, hc, hv', hrel, -⟩ := ha.exists_value h ⟨hd, hp⟩
    rw [h.current, hc]
    simp only [hv, hv', Lox.Eval.found]
    exact ⟨w, .refl w, h, hrel⟩
  | none =>
    rw [ha.global name hd, h.get?_globals]
    have hglobal := h.global name
    revert hglobal
    cases m.store.local? w.globals name <;> cases x.globals.find? name <;> rintro ⟨⟩
    · exact ⟨⟨rfl, rfl⟩, w, .refl w, h⟩
    · rename_i hrel
      exact ⟨w, .refl w, h, hrel⟩

theorem matches_assign (h : Agree w frame m x) (ha : Aligned w scopes frame names)
    (ht : t.Le w.table) {id : RefId} {name : Token} (hn : name.IsName)
    (hid : t.Says id (Scope.distance? name.lexeme scopes)) {v : Value} {v' : Value Names}
    (hv : ValueRel w v v') :
    Matches w own frame (fun _ _ _ => True) (Lox.Eval.assign id name.lexeme v m)
      (assign names name.lexeme v' x) := by
  unfold Lox.Eval.assign assign
  rw [h.find?_locals ht hid]
  cases hd : Scope.distance? name.lexeme scopes with
  | some d =>
    obtain ⟨c, a, hc, hanc, hslot, -⟩ := ha.cell name.lexeme d hd
    have hlt : c < w.slots.length := (List.getElem?_eq_some_iff.1 hslot).1
    rw [h.current, hc]
    simp only [h.ancestor?_eq, hanc, Lox.Eval.writeTo]
    exact ⟨w.fill c hlt, w.grows_fill own c hlt,
      h.setCell hslot hlt (hv.mono (w.grows_fill own c hlt).toLe) (suits_of_isName hn v), trivial⟩
  | none =>
    rw [ha.global name.lexeme hd, h.owner?_globals]
    have hglobal := h.global name.lexeme
    revert hglobal
    cases m.store.local? w.globals name.lexeme <;> cases x.globals.find? name.lexeme <;>
      rintro ⟨⟩
    · exact ⟨⟨rfl, rfl⟩, w, .refl w, h⟩
    · exact ⟨w, .refl w, h.setGlobal name.lexeme hv, trivial⟩

/-- Parameters get their arguments. -/
theorem matches_defineAll {f : FrameId} {cls : ClassContext} : ∀ {params : List Token}
    {args : List Value} {args' : List (Value Names)} {w : Plan} {scopes : List Lox.Scope}
    {names : Names} {m : Lox.Machine} {x : Machine},
    Agree w frame m x → At w cls scopes f (.within names) → scopes ≠ [] →
    Token.AllDeclarable scopes params → List.Forall₂ (ValueRel w) args args' →
    args.length = params.length →
    Matches w (some f) frame
      (fun w' _ names' => At w' cls (Resolve.declareAll scopes params).1 f (.within names'))
      (Lox.Eval.defineAll f params args m) (declareAll names params args' x)
  | [], _, _, w, _, _, _, _, h, hat, _, _, hargs, hlen => by
    cases hargs with
    | nil => exact ⟨w, .refl w, h, hat⟩
    | cons => cases hlen
  | p :: ps, _, _, w, scopes, names, m, x, h, hat, hs, hp, hargs, hlen => by
    cases hargs with
    | nil => cases hlen
    | cons hv hvs =>
      obtain ⟨w', hg, h', hat'⟩ := hat.bindParameter hs hp.1 h hv
      have hs' : Scope.declare scopes p ≠ [] := by
        rw [Scope.declare_eq_enter]
        cases scopes with
        | nil => exact absurd rfl hs
        | cons => exact nofun
      exact (matches_defineAll h' hat' hs' hp.2 (ValueRel.monoAll hg.toLe hvs)
        (Nat.succ.inj hlen)).after hg

/-! ## Methods and instances -/

theorem matches_bindMethod (h : Agree w frame m x) {f : Closure} {g : Closure Names}
    (hf : MethodRel w f g) {v : Value} {v' : Value Names} (hv : ValueRel w v v')
    (hobject : ∃ c o, v = .object c o) :
    Matches w own frame (fun w' f' g' => FunctionRel w' f' g' ∧ f'.decl = f.decl)
      (Lox.Eval.bindMethod f v m) (bindMethod g v' x) := by
  obtain ⟨hdecl, hinit, scopes, hr, hs, ha⟩ := hf
  have hg := w.grows_wrap own f.env "this"
  have hframe : m.store.frames.size = w.links.length := h.frames
  refine ⟨w.wrap f.env "this", hg, ?_, ⟨hdecl, hinit, Resolve.thisScope :: scopes,
    hr.mono hg.toLe, Scope.settled_singleton_cons "this" scopes, ?_⟩, rfl⟩
  · simp only [Store.addFrame, hframe]
    exact h.wrap f.env "this" hv ⟨fun _ => hobject, fun h => absurd h (by decide)⟩
  · simp only [Store.addFrame, hframe, h.cells]
    exact ha.wrap hs "this"

theorem matches_newObject (h : Agree w frame m x) {c : Class} {c' : Class Names}
    (hc : ClassRel w c c') :
    Matches w own frame (fun w' v v' => ValueRel w' v v' ∧ ∃ c o, v = .object c o)
      (Lox.Eval.newObject c m) (newObject c' x) := by
  refine ⟨w, .refl w, h.addObject, ?_, c, m.store.objects.size, rfl⟩
  rw [h.size]
  exact .object _ hc

theorem matches_field? (h : Agree w frame m x) (o : ObjectId) (name : String) :
    Matches w own frame (fun w' v v' => Option.Rel (ValueRel w') v v')
      (Lox.Eval.field? o name m) (field? o name x) :=
  ⟨w, .refl w, h, h.field?_rel o name⟩

theorem matches_setField (h : Agree w frame m x) (o : ObjectId) (name : String) {v : Value}
    {v' : Value Names} (hv : ValueRel w v v') :
    Matches w own frame (fun _ _ _ => True) (Lox.Eval.setField o name v m)
      (setField o name v' x) :=
  ⟨w, .refl w, h.setField o name hv, trivial⟩

theorem matches_property (h : Agree w frame m x) {c : Class} {c' : Class Names} (o : ObjectId)
    (hc : ClassRel w c c') (name : String) :
    Matches w own frame ValueRel (Lox.Eval.property c o name m) (Eval.property c' o name x) := by
  unfold Lox.Eval.property Eval.property
  refine (matches_field? h o name).bind fun w' v v' m' x' hg h' hv => ?_
  cases hv with
  | some hv => exact .ret h' hv
  | none =>
    have hc' := hc.mono hg.toLe
    have hfound := hc'.findMethod? name
    revert hfound
    cases c.findMethod? name <;> cases c'.findMethod? name <;> rintro ⟨⟩
    · exact .fail h' rfl
    · rename_i hf
      exact (matches_bindMethod h' hf (.object o hc') ⟨c, o, rfl⟩).bind
        fun _ _ _ _ _ _ h'' hf' => .ret h'' (.function hf'.1)

/-! ## The outside -/

/-- Worlds change alike, and failures are the sink's. -/
theorem World.printLine_cases (text : String) (o : World) :
    (∃ o', World.printLine text o = .done () o') ∨
      ∃ p o', World.printLine text o = .failed (.sink p) o' := by
  have hwrite (s : String) (o : World) : (∃ o', World.write s o = .done () o') ∨
      ∃ p o', World.write s o = .failed (.sink p) o' := by
    unfold World.write
    dsimp only
    split
    · exact .inl ⟨_, rfl⟩
    · exact .inr ⟨_, _, rfl⟩
  have hflush (o : World) : (∃ o', World.flush o = .done () o') ∨
      ∃ p o', World.flush o = .failed (.sink p) o' := by
    unfold World.flush
    split
    · exact .inl ⟨_, rfl⟩
    · exact .inr ⟨_, _, rfl⟩
  unfold World.printLine
  simp only [Computation.bind_apply]
  obtain ⟨o₁, h₁⟩ | ⟨p, o₁, h₁⟩ := hwrite text o
  · obtain ⟨o₂, h₂⟩ | ⟨p, o₂, h₂⟩ := hwrite "\n" o₁
    · simpa only [h₁, h₂] using hflush o₂
    · exact .inr ⟨p, o₂, by simp only [h₁, h₂]⟩
  · exact .inr ⟨p, o₁, by simp only [h₁]⟩

theorem text_headD_eq {args : List Value} {args' : List (Value Names)}
    (h : List.Forall₂ (ValueRel w) args args') :
    (args'.headD .nil).text = (args.headD .nil).text := by
  cases h with
  | nil => rfl
  | cons hv _ => exact hv.text_eq

theorem matches_native (h : Agree w frame m x) (n : Native) {args : List Value}
    {args' : List (Value Names)} (hargs : List.Forall₂ (ValueRel w) args args') :
    Matches w own frame ValueRel (Lox.Eval.onWorld (n.run args) m)
      (onWorld (n.run args') x) := by
  unfold Lox.Eval.onWorld onWorld
  rw [h.world]
  cases n with
  | clock => exact ⟨w, .refl w, h.inWorld _, .number _⟩
  | str =>
    simp only [Native.run, text_headD_eq hargs]
    exact ⟨w, .refl w, h.inWorld _, .string _⟩
  | print =>
    simp only [Native.run, text_headD_eq hargs, Computation.bind_apply]
    obtain ⟨o, ho⟩ | ⟨p, o, ho⟩ :=
      World.printLine_cases (args.headD .nil).text m.toWorld
    · rw [ho]
      exact ⟨w, .refl w, h.inWorld o, .nil⟩
    · rw [ho]
      exact ⟨⟨rfl, rfl⟩, w, .refl w, h.inWorld o⟩

end Primitives

end Lexical
end Lox
