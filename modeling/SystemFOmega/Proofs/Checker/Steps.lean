import SystemFOmega.Checker.Typing
import SystemFOmega.Proofs.Run

/-!
# Steps of the checker and its tables

Most steps of the checker leave its tables alone: to move to another place, to note something in the
trace, to normalize a type or to substitute in it. A condition that depends on the tables alone
(`Checker.State.OnTables`) holds after such a step if it held before, so an invariant of the checker
only has to be looked at where a definition is found.
-/

namespace SystemFOmega

open Run

/-- What `P` says of a state depends on its tables alone. -/
def Checker.State.OnTables (P : Checker.State → Prop) : Prop :=
  ∀ {s s' : Checker.State}, P s → s'.kinds = s.kinds → s'.types = s.types → s'.exprs = s.exprs →
    P s'

/-- The checker with the options `o` can bring `t` to the normal form `t'`. -/
def Ty.NormalizesBy (o : Checker.Options) (t t' : Ty) : Prop :=
  ∃ c n, t.normalize o.order o.fuel c o.depth = .ok t' n

theorem Context.find_eq {α : Type} {table : Table Name α} {x : Ident} {a : α}
    (h : table.get? x.name = some a) : Context.find table x = .ok a := by
  rw [Context.find, h]

namespace Check

variable {P : Checker.State → Prop} {s : Checker.State} {Q : Prop}

theorem found_ends {α : Type} {r : Except Undefined α} {a : α} {Q : Prop} (h : r = .ok a) :
    Ends (found r) s (fun b s' => b = a ∧ s' = s) Q := by
  subst h
  exact .pure ⟨rfl, rfl⟩

theorem enter_keeps (hP : Checker.State.OnTables P) (hs : P s) (e : Expr) :
    Ends (enter e) s (fun _ s' => P s') Q := hP hs rfl rfl rfl

theorem note_keeps (hP : Checker.State.OnTables P) (hs : P s) (step : Unit → Trace.Step) :
    Ends (note step) s (fun _ s' => P s') Q := by
  show P (if s.trace.enabled then _ else _)
  split
  · exact hP hs rfl rfl rfl
  · exact hs

theorem subst_keeps (hP : Checker.State.OnTables P) (hs : P s) (x : Name) (r t : Ty) :
    Ends (Check.subst x r t) s (fun u s' => (∃ c, u = (t.subst x r c).1) ∧ P s') Q :=
  ⟨⟨_, rfl⟩, hP hs rfl rfl rfl⟩

/-- To normalize a type changes nothing that the tables and definitions depend on. -/
theorem normalize_keeps (hP : Checker.State.OnTables P) (o : Checker.Options) (hs : P s) (t : Ty) :
    Ends (Check.normalize o t) s (fun t' s' => t.NormalizesBy o t' ∧ P s') True := by
  unfold Ends Check.normalize
  cases hn : t.normalize o.order o.fuel s.supply o.depth with
  | ok t' n => exact ⟨⟨_, n, hn⟩, hP hs rfl rfl rfl⟩
  | error err n => cases err <;> trivial

end Check

/-! ## Options -/

/-- Of the options, elaboration looks at the one for the cache only. -/
theorem KindExpr.elaborate_congr {o o' : Checker.Options} {n : Nat} (h : o.cache = o'.cache)
    (Γ : Context) (k : KindExpr) : k.elaborate o n Γ = k.elaborate o' n Γ := by
  induction n generalizing k with
  | zero => rfl
  | succ n ih => cases k <;> simp only [elaborate, Check.keepKind, ih, h]

/-- Only the option to keep results matters where types are elaborated. -/
theorem TypeExpr.elaborate_congr {o o' : Checker.Options} {n : Nat} (h : o.cache = o'.cache)
    (Γ : Context) (t : TypeExpr) : t.elaborate o n Γ = t.elaborate o' n Γ := by
  induction n generalizing Γ t with
  | zero => rfl
  | succ n ih =>
    cases t with
    | bind b x k t => cases b <;> simp only [elaborate, ih, KindExpr.elaborate_congr h]
    | _ => simp only [elaborate, Check.keepType, ih, h, KindExpr.elaborate_congr h]

/-! ## Whole programs -/

namespace Expr

variable {same : Checker.Comparison} {o : Checker.Options} {e r : Expr} {c : Int} {tr : Trace}

/-- What is told about a program is what the checker finds for the renamed one. -/
theorem typeOfBy_of_rename (h : e.rename {} 1 = .ok r c) :
    (e.typeOfBy same o tr).1 =
      match r.inferNormal same o { supply := c, trace := tr } with
      | .ok t _ => .ok t
      | .error f s => .error (f.locate s.loc) := by
  unfold typeOfBy EStateM.run
  rw [h]
  dsimp only
  cases r.inferNormal same o { supply := c, trace := tr } <;> rfl

theorem typeOfBy_ok {t : Ty} (h : e.rename {} 1 = .ok r c) :
    (e.typeOfBy same o tr).1 = .ok t ↔
      ∃ s, r.inferNormal same o { supply := c, trace := tr } = .ok t s := by
  rw [typeOfBy_of_rename h]
  cases r.inferNormal same o { supply := c, trace := tr } <;> simp

end Expr

end SystemFOmega
