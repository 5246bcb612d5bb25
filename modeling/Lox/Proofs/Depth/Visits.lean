import Mathlib
import Lox.Proofs.Depth.Point

/-!
# Lox.Proofs.Depth.Visits

Code with a reference in it is visited once (`Visits.unique`). The references of some programs have
numbers of their own, so at most one part of some code has a given one: two visits of code with that
reference are on one way down, and code is larger than its parts.
-/

namespace Lox
namespace Resolve

open Relation (ReflTransGen)

/-- The parts over which the walk goes with other scopes. -/
def Code.outer : Code → List Code
  | stmt (.var _ (some e)) => [expr e]
  | stmt (.block body) => [stmts body]
  | stmt (.ifElse _ _ no) => [stmt no]
  | stmt (.function d) => [decl d]
  | stmt (.cls _ superclass ms) => superclass.toList.map expr ++ ms.map decl
  | stmts (_ :: ss) => [stmts ss]
  | decl d => [stmts d.body]
  | _ => []

theorem WalksTo.mem_parts {c c' : Code} {p p' : Point} (h : WalksTo c p c' p') :
    c' ∈ c.inner ++ c.outer := by
  cases h with
  | inner hc => exact List.mem_append_left _ hc
  | superclass => exact List.mem_append_right _ (List.mem_append_left _ (List.mem_singleton.2 rfl))
  | method hd =>
    exact List.mem_append_right _ (List.mem_append_right _ (List.mem_map_of_mem hd))
  | _ => exact List.mem_append_right _ (List.mem_singleton.2 rfl)

theorem sizeOf_lt_of_mem_inner {c c' : Code} (h : c' ∈ c.inner) : sizeOf c' < sizeOf c := by
  unfold Code.inner at h
  split at h <;> simp only [List.mem_cons, List.not_mem_nil, or_false] at h <;>
    obtain rfl | rfl := h <;> simp <;> omega

theorem WalksTo.sizeOf_lt {c c' : Code} {p p' : Point} (h : WalksTo c p c' p') :
    sizeOf c' < sizeOf c := by
  cases h with
  | inner hc => exact sizeOf_lt_of_mem_inner hc
  | method hd =>
    have := List.sizeOf_lt_of_mem hd
    simp
    omega
  | @body d _ =>
    obtain ⟨name, params, body⟩ := d
    simp
  | _ => simp <;> omega

/-- From code of a linked program the walk goes on to a part of it at one point only. -/
theorem WalksTo.point_eq {T : Table} {c c' : Code} {p p₁ p₂ : Point} (hf : c.Fits T p)
    (h₁ : WalksTo c p c' p₁) (h₂ : WalksTo c p c' p₂) : p₁ = p₂ := by
  cases h₁ <;> cases h₂ <;> try rfl
  case inner.no =>
    have hyes := hf.inner (.tail _ (.head _))
    obtain ⟨t, -, hl⟩ := hf.1
    exact (hyes.after_eq hl.2.1.1).symm
  case no.inner =>
    have hyes := hf.inner (.tail _ (.head _))
    obtain ⟨t, -, hl⟩ := hf.1
    exact hyes.after_eq hl.2.1.1
  all_goals
    rename_i h
    simp [Code.inner] at h

/-- The walk goes on to this code, or it is already there. -/
def Moves (c : Code) (p : Point) (c' : Code) (p' : Point) : Prop :=
  (c' = c ∧ p' = p) ∨ WalksTo c p c' p'

theorem Moves.point_eq {T : Table} {c c' : Code} {p p₁ p₂ : Point} (hf : c.Fits T p)
    (h₁ : Moves c p c' p₁) (h₂ : Moves c p c' p₂) : p₁ = p₂ := by
  obtain ⟨rfl, rfl⟩ | h₁ := h₁ <;> obtain ⟨hc, rfl⟩ | h₂ := h₂
  · rfl
  · exact absurd h₂.sizeOf_lt (Nat.lt_irrefl _)
  · subst hc
    exact absurd h₁.sizeOf_lt (Nat.lt_irrefl _)
  · exact h₁.point_eq hf h₂

/-! ## References -/

theorem sum_timesIn_methods (i : RefId) (ms : List FunctionDecl) :
    (ms.map fun d => timesIn i d.refs).sum = timesIn i (FunctionDecl.refsOfList ms) := by
  induction ms with
  | nil => rfl
  | cons d ms ih => rw [List.map_cons, List.sum_cons, ih, FunctionDecl.refsOfList, timesIn_append]

/-- All parts together have the references of the whole, at most. -/
theorem sum_timesIn_parts (i : RefId) (c : Code) :
    ((c.inner ++ c.outer).map fun c' => timesIn i c'.refs).sum ≤ timesIn i c.refs := by
  cases c with
  | expr e => cases e <;> simp [Code.inner, Code.outer, Code.refs, Expr.refs]
  | exprs es => cases es <;> simp [Code.inner, Code.outer, Code.refs, Expr.refsOfList]
  | stmts ss => cases ss <;> simp [Code.inner, Code.outer, Code.refs, Stmt.refsOfList]
  | decl d =>
    obtain ⟨name, params, body⟩ := d
    simp [Code.inner, Code.outer, Code.refs, FunctionDecl.refs]
  | stmt s =>
    cases s with
    | var name init | ret keyword init =>
      cases init <;> simp [Code.inner, Code.outer, Code.refs, Stmt.refs, Expr.refsOfOption]
    | cls name superclass ms =>
      have hms := sum_timesIn_methods i ms
      cases superclass <;>
        simp [Code.inner, Code.outer, Code.refs, Stmt.refs, Expr.refsOfOption, Function.comp_def,
          hms]
    | _ => simp [Code.inner, Code.outer, Code.refs, Stmt.refs]

theorem le_sum_of_mem {α : Type} {f : α → Nat} {l : List α} {a : α} (ha : a ∈ l) :
    f a ≤ (l.map f).sum :=
  List.single_le_sum (fun _ _ => Nat.zero_le _) _ (List.mem_map_of_mem ha)

/-- Two parts that count are the same if all together count for one. -/
theorem eq_of_sum_le_one {α : Type} {f : α → Nat} {l : List α} {a b : α} (h : (l.map f).sum ≤ 1)
    (ha : a ∈ l) (hb : b ∈ l) (hfa : 0 < f a) (hfb : 0 < f b) : a = b := by
  induction l with
  | nil => cases ha
  | cons x l ih =>
    rw [List.map_cons, List.sum_cons] at h
    obtain rfl | ha' := List.mem_cons.1 ha
    · obtain rfl | hb' := List.mem_cons.1 hb
      · rfl
      · have : f b ≤ (l.map f).sum := le_sum_of_mem hb'
        omega
    · obtain rfl | hb' := List.mem_cons.1 hb
      · have : f a ≤ (l.map f).sum := le_sum_of_mem ha'
        omega
      · exact ih (by omega) ha' hb'

theorem WalksTo.timesIn_le {c c' : Code} {p p' : Point} (h : WalksTo c p c' p') (i : RefId) :
    timesIn i c'.refs ≤ timesIn i c.refs :=
  Nat.le_trans (le_sum_of_mem (f := fun c => timesIn i c.refs) h.mem_parts) (sum_timesIn_parts i c)

/-! ## Ways down -/

/-- The references of the programs have numbers of their own. -/
structure Numbered (ps : List (List Stmt)) : Prop where
  once : ∀ program ∈ ps, ∀ i, timesIn i (Stmt.refsOfList program) ≤ 1
  apart : ∀ program ∈ ps, ∀ program' ∈ ps, ∀ i, 0 < timesIn i (Stmt.refsOfList program) →
    0 < timesIn i (Stmt.refsOfList program') → program = program'

/-- The walk goes on to a part with this reference, in code of a linked program that has it once. -/
def Leads (T : Table) (i : RefId) (a b : Code × Point) : Prop :=
  a.1.Fits T a.2 ∧ timesIn i a.1.refs ≤ 1 ∧ 0 < timesIn i b.1.refs ∧ WalksTo a.1 a.2 b.1 b.2

theorem Leads.rightUnique (T : Table) (i : RefId) : Relator.RightUnique (Leads T i) := by
  rintro ⟨c, p⟩ ⟨c₁, p₁⟩ ⟨c₂, p₂⟩ ⟨hf, honce, hi₁, h₁⟩ ⟨-, -, hi₂, h₂⟩
  obtain rfl : c₁ = c₂ := eq_of_sum_le_one (f := fun c => timesIn i c.refs)
    (Nat.le_trans (sum_timesIn_parts i c) honce) h₁.mem_parts h₂.mem_parts hi₁ hi₂
  exact congrArg (Prod.mk c₁) (h₁.point_eq hf h₂)

theorem Leads.sizeOf_le {T : Table} {i : RefId} {a b : Code × Point}
    (h : ReflTransGen (Leads T i) a b) : sizeOf b.1 ≤ sizeOf a.1 := by
  induction h with
  | refl => exact Nat.le_refl _
  | tail _ hstep ih => exact Nat.le_trans (Nat.le_of_lt hstep.2.2.2.sizeOf_lt) ih

/-- A way down does not come back to the same code. -/
theorem Leads.eq_of_same {T : Table} {i : RefId} {c : Code} {p p' : Point}
    (h : ReflTransGen (Leads T i) (c, p) (c, p')) : p = p' := by
  obtain heq | ⟨b, hstep, hrest⟩ := h.cases_head
  · exact congrArg Prod.snd heq
  · have hlt : sizeOf b.1 < sizeOf c := hstep.2.2.2.sizeOf_lt
    have hle : sizeOf c ≤ sizeOf b.1 := sizeOf_le hrest
    exact absurd hlt (Nat.not_lt.2 hle)

variable {ps : List (List Stmt)} {T : Table} {c : Code} {p p' : Point}

/-- To code with a reference there is a way down from the program that has the reference. -/
theorem Visits.exists_way (hk : Known ps T) (hn : Numbered ps) (h : Visits ps c p) {i : RefId}
    (hi : 0 < timesIn i c.refs) :
    ∃ program ∈ ps, 0 < timesIn i (Stmt.refsOfList program) ∧ timesIn i c.refs ≤ 1 ∧
      ReflTransGen (Leads T i) (.stmts program, {}) (c, p) := by
  induction h with
  | program hp => exact ⟨_, hp, hi, hn.once _ hp i, .refl⟩
  | part hv hw ih =>
    obtain ⟨program, hp, hprogram, honce, hway⟩ := ih (Nat.lt_of_lt_of_le hi (hw.timesIn_le i))
    exact ⟨program, hp, hprogram, Nat.le_trans (hw.timesIn_le i) honce,
      hway.tail ⟨hv.fits hk, honce, hi, hw⟩⟩

/-- Code with a reference in it is visited at one point. -/
theorem Visits.unique (hk : Known ps T) (hn : Numbered ps) (h : Visits ps c p)
    (h' : Visits ps c p') (hrefs : c.refs ≠ []) : p = p' := by
  obtain ⟨⟨i, t⟩, refs, hrefs⟩ := List.exists_cons_of_ne_nil hrefs
  have hi : 0 < timesIn i c.refs := by
    rw [hrefs, timesIn_cons, if_pos rfl]
    exact Nat.succ_pos _
  obtain ⟨program, hp, hprogram, -, hway⟩ := h.exists_way hk hn hi
  obtain ⟨program', hp', hprogram', -, hway'⟩ := h'.exists_way hk hn hi
  obtain rfl := hn.apart program hp program' hp' i hprogram hprogram'
  obtain h | h := ReflTransGen.total_of_right_unique (Leads.rightUnique T i) hway hway'
  · exact Leads.eq_of_same h
  · exact (Leads.eq_of_same h).symm

end Resolve
end Lox
