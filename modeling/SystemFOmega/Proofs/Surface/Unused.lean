import SystemFOmega.Proofs.Core.Relabel
import SystemFOmega.Proofs.Surface.Binders

/-!
# Unused definitions

A definition is unused if no reference in its scope is to its name. Two programs may differ in the
values of unused definitions (`Expr.Redefines`). Renaming then gives other numbers to all binders
behind such a value, but it gives them in the same order: there is a relabeling that takes the names
of the one program to those of the other, with the names of unused definitions set apart
(`Matching`). The renamed programs are the same but for this and for the values
(`Expr.Mirrors`, `Expr.Redefines.mirrors`).
-/

namespace SystemFOmega

open Run

/-! ## Two programs -/

/-- Whether a reference in `e` is to a binder of `x` at the level `l` around it. -/
def Expr.uses (e : Expr) (l : Level) (x : Ident) : Bool := (e.free l).any (·.value = x.value)

/-- The second program differs from the first in the values of unused definitions at most. -/
inductive Expr.Redefines : Expr → Expr → Prop
  | lit (n : Int) (l : Option Location) : Redefines (.lit n l) (.lit n l)
  | var (x : Ident) (l : Option Location) : Redefines (.var x l) (.var x l)
  | lam (x : Ident) (t : TypeExpr) {e e' : Expr} (l : Option Location) : Redefines e e' →
    Redefines (.lam x t e l) (.lam x t e' l)
  | app {f f' a a' : Expr} (l : Option Location) : Redefines f f' → Redefines a a' →
    Redefines (.app f a l) (.app f' a' l)
  | tlam (x : Ident) (k : KindExpr) {e e' : Expr} (l : Option Location) : Redefines e e' →
    Redefines (.tlam x k e l) (.tlam x k e' l)
  | tapp {f f' : Expr} (t : TypeExpr) (l : Option Location) : Redefines f f' →
    Redefines (.tapp f t l) (.tapp f' t l)
  | ann {e e' : Expr} (t : TypeExpr) (l : Option Location) : Redefines e e' →
    Redefines (.ann e t l) (.ann e' t l)
  | letIn (x : Ident) {v v' e e' : Expr} (l : Option Location) :
    (e.uses .expr x → Redefines v v') → Redefines e e' →
    Redefines (.letIn x v e l) (.letIn x v' e' l)
  | typeIn (x : Ident) {v v' : TypeExpr} {e e' : Expr} (l : Option Location) :
    (e.uses .type x → v = v') → Redefines e e' → Redefines (.typeIn x v e l) (.typeIn x v' e' l)
  | kindIn (x : Ident) {v v' : KindExpr} {e e' : Expr} (l : Option Location) :
    (e.uses .kind x → v = v') → Redefines e e' → Redefines (.kindIn x v e l) (.kindIn x v' e' l)

theorem Expr.Redefines.refl (e : Expr) : e.Redefines e := by
  induction e with
  | lit n l => exact .lit n l
  | var x l => exact .var x l
  | lam x t e l ih => exact .lam x t l ih
  | app f a l hf ha => exact .app l hf ha
  | tlam x k e l ih => exact .tlam x k l ih
  | tapp f t l ih => exact .tapp t l ih
  | ann e t l ih => exact .ann t l ih
  | letIn x v e l hv he => exact .letIn x l (fun _ => hv) he
  | typeIn x v e l ih => exact .typeIn x l (fun _ => rfl) ih
  | kindIn x v e l ih => exact .kindIn x l (fun _ => rfl) ih

/-! ## The names of two programs -/

/-- A relabeling between the names of two programs, with the names of unused definitions set
apart. -/
structure Matching (b : Int) extends Relabeling b where
  unused : List Name
  unused_lt {x : Name} : x ∈ unused → x.id < left

namespace Matching

variable {b : Int} {M N O : Matching b} {x x' : Name} {v : String}

/-- `x` and `x'` are the names of binders that correspond. -/
structure Pairs (M : Matching b) (x x' : Name) : Prop where
  covers : M.Covers x
  eq : M.perm x = x'

/-- The programs may refer to `x` and to `x'`. -/
structure Used (M : Matching b) (x x' : Name) : Prop extends M.Pairs x x' where
  not_mem : x ∉ M.unused

/-- The later matching says the same of all names there are. -/
structure Le (M N : Matching b) : Prop where
  le : M.toRelabeling.Le N.toRelabeling
  unused {x : Name} : M.Covers x → (x ∈ N.unused ↔ x ∈ M.unused)

theorem Le.refl (M : Matching b) : M.Le M := ⟨.refl _, fun _ => Iff.rfl⟩

theorem Le.trans (h : M.Le N) (h' : N.Le O) : M.Le O :=
  ⟨h.le.trans h'.le, fun hx => (h'.unused (h.le.covers hx)).trans (h.unused hx)⟩

/-- Names stay paired as both runs go on. -/
theorem Pairs.mono (h : M.Pairs x x') (hle : M.Le N) : N.Pairs x x' :=
  ⟨hle.le.covers h.covers, (hle.le.perm h.covers).trans h.eq⟩

theorem Used.mono (h : M.Used x x') (hle : M.Le N) : N.Used x x' :=
  ⟨h.toPairs.mono hle, fun hx => h.not_mem ((hle.unused h.covers).1 hx)⟩

/-- Both programs go on behind phrases that need not correspond. -/
def skip (M : Matching b) {c c' : Int} (hc : M.left ≤ c) (hc' : M.right ≤ c') : Matching b where
  perm := M.perm
  left := c
  right := c'
  value := M.value
  fixed := M.fixed
  le_left := Int.le_trans M.le_left hc
  le_right := Int.le_trans M.le_right hc'
  unused := M.unused
  unused_lt hx := Int.lt_of_lt_of_le (M.unused_lt hx) hc

theorem le_skip (M : Matching b) {c c' : Int} (hc : M.left ≤ c) (hc' : M.right ≤ c') :
    M.Le (M.skip hc hc') :=
  ⟨⟨hc, hc', fun _ => rfl⟩, fun _ => Iff.rfl⟩

/-- Both programs bind `v`; `used` tells whether they may refer to it. -/
def bind (M : Matching b) (v : String) (used : Bool) : Matching b where
  toRelabeling := M.toRelabeling.extend v
  unused := if used then M.unused else ⟨v, M.left⟩ :: M.unused
  unused_lt {x} hx := by
    have hx : x = ⟨v, M.left⟩ ∨ x ∈ M.unused := by
      cases used with
      | true => exact .inr hx
      | false => exact List.mem_cons.1 hx
    rcases hx with rfl | hx
    · exact Int.lt_add_one_iff.2 (Int.le_refl _)
    · exact Int.lt_trans (M.unused_lt hx) (Int.lt_add_one_iff.2 (Int.le_refl _))

/-- To enter a binder in both runs is to go on. -/
theorem le_bind (M : Matching b) (v : String) (used : Bool) : M.Le (M.bind v used) := by
  refine ⟨M.le_extend v, fun {x} hx => ?_⟩
  have hne : x ≠ ⟨v, M.left⟩ := by
    rintro rfl
    exact absurd hx.1 (Int.lt_irrefl _)
  cases used <;> simp [bind, hne]

theorem pairs_bind (M : Matching b) (v : String) (used : Bool) :
    (M.bind v used).Pairs ⟨v, M.left⟩ ⟨v, M.right⟩ :=
  ⟨M.covers_fresh v, M.extend_fresh v⟩

/-- A binder that is not among the unused ones later on has been entered as used. -/
theorem Le.used {used : Bool} (hle : (M.bind v used).Le N) (h : ⟨v, M.left⟩ ∉ N.unused) :
    used := by
  cases used with
  | true => rfl
  | false => exact absurd ((hle.unused (M.covers_fresh v)).2 List.mem_cons_self) h

theorem used_bind (M : Matching b) (v : String) :
    (M.bind v true).Used ⟨v, M.left⟩ ⟨v, M.right⟩ :=
  ⟨M.pairs_bind v true, fun hx => absurd (M.unused_lt hx) (Int.lt_irrefl _)⟩

end Matching

/-! ## The same phrase with other names -/

section Mirrors

variable {b : Int}

/-- The kinds are the same but for the names, which correspond. -/
inductive KindExpr.Mirrors (M : Matching b) : KindExpr → KindExpr → Prop
  | star : Mirrors M .star .star
  | var {x x' : Ident} : M.Used x.name x'.name → Mirrors M (.var x) (.var x')
  | arrow {j j' k k' : KindExpr} : Mirrors M j j' → Mirrors M k k' →
    Mirrors M (.arrow j k) (.arrow j' k')

/-- The types are the same but for the names, which correspond. -/
inductive TypeExpr.Mirrors (M : Matching b) : TypeExpr → TypeExpr → Prop
  | int : Mirrors M .int .int
  | var {x x' : Ident} : M.Used x.name x'.name → Mirrors M (.var x) (.var x')
  | arrow {s s' t t' : TypeExpr} : Mirrors M s s' → Mirrors M t t' →
    Mirrors M (.arrow s t) (.arrow s' t')
  | bind (c : Binder) {x x' : Ident} {k k' : KindExpr} {t t' : TypeExpr} :
    M.Used x.name x'.name → k.Mirrors M k' → Mirrors M t t' →
    Mirrors M (.bind c x k t) (.bind c x' k' t')
  | app {f f' a a' : TypeExpr} : Mirrors M f f' → Mirrors M a a' →
    Mirrors M (.app f a) (.app f' a')
  | kinded {t t' : TypeExpr} {k k' : KindExpr} : Mirrors M t t' → k.Mirrors M k' →
    Mirrors M (.kinded t k) (.kinded t' k')

/-- The values of unused definitions may be anything. -/
inductive Expr.Mirrors (M : Matching b) : Expr → Expr → Prop
  | lit (n : Int) (l : Option Location) : Mirrors M (.lit n l) (.lit n l)
  | var {x x' : Ident} (l : Option Location) : M.Used x.name x'.name →
    Mirrors M (.var x l) (.var x' l)
  | lam {x x' : Ident} {t t' : TypeExpr} {e e' : Expr} (l : Option Location) :
    M.Used x.name x'.name → t.Mirrors M t' → Mirrors M e e' →
    Mirrors M (.lam x t e l) (.lam x' t' e' l)
  | app {f f' a a' : Expr} (l : Option Location) : Mirrors M f f' → Mirrors M a a' →
    Mirrors M (.app f a l) (.app f' a' l)
  | tlam {x x' : Ident} {k k' : KindExpr} {e e' : Expr} (l : Option Location) :
    M.Used x.name x'.name → k.Mirrors M k' → Mirrors M e e' →
    Mirrors M (.tlam x k e l) (.tlam x' k' e' l)
  | tapp {f f' : Expr} {t t' : TypeExpr} (l : Option Location) : Mirrors M f f' →
    t.Mirrors M t' → Mirrors M (.tapp f t l) (.tapp f' t' l)
  | ann {e e' : Expr} {t t' : TypeExpr} (l : Option Location) : Mirrors M e e' →
    t.Mirrors M t' → Mirrors M (.ann e t l) (.ann e' t' l)
  | letIn {x x' : Ident} {v v' e e' : Expr} (l : Option Location) : M.Pairs x.name x'.name →
    (x.name ∉ M.unused → Mirrors M v v') → Mirrors M e e' →
    Mirrors M (.letIn x v e l) (.letIn x' v' e' l)
  | typeIn {x x' : Ident} {v v' : TypeExpr} {e e' : Expr} (l : Option Location) :
    M.Pairs x.name x'.name → (x.name ∉ M.unused → v.Mirrors M v') → Mirrors M e e' →
    Mirrors M (.typeIn x v e l) (.typeIn x' v' e' l)
  | kindIn {x x' : Ident} {v v' : KindExpr} {e e' : Expr} (l : Option Location) :
    M.Pairs x.name x'.name → (x.name ∉ M.unused → v.Mirrors M v') → Mirrors M e e' →
    Mirrors M (.kindIn x v e l) (.kindIn x' v' e' l)

variable {M N : Matching b}

theorem KindExpr.Mirrors.mono {k k' : KindExpr} (h : k.Mirrors M k') (hle : M.Le N) :
    k.Mirrors N k' := by
  induction h with
  | star => exact .star
  | var hx => exact .var (hx.mono hle)
  | arrow _ _ hj hk => exact .arrow hj hk

theorem TypeExpr.Mirrors.mono {t t' : TypeExpr} (h : t.Mirrors M t') (hle : M.Le N) :
    t.Mirrors N t' := by
  induction h with
  | int => exact .int
  | var hx => exact .var (hx.mono hle)
  | arrow _ _ hs ht => exact .arrow hs ht
  | bind c hx hk _ ht => exact .bind c (hx.mono hle) (hk.mono hle) ht
  | app _ _ hf ha => exact .app hf ha
  | kinded _ hk ht => exact .kinded ht (hk.mono hle)

/-- Expressions stay mirrored as both runs go on. -/
theorem Expr.Mirrors.mono {e e' : Expr} (h : e.Mirrors M e') (hle : M.Le N) :
    e.Mirrors N e' := by
  have hmem {x x' : Name} (hx : M.Pairs x x') (h : x ∉ N.unused) : x ∉ M.unused :=
    fun hM => h ((hle.unused hx.covers).2 hM)
  induction h with
  | lit n l => exact .lit n l
  | var l hx => exact .var l (hx.mono hle)
  | lam l hx ht _ he => exact .lam l (hx.mono hle) (ht.mono hle) he
  | app l _ _ hf ha => exact .app l hf ha
  | tlam l hx hk _ he => exact .tlam l (hx.mono hle) (hk.mono hle) he
  | tapp l _ ht hf => exact .tapp l hf (ht.mono hle)
  | ann l _ ht he => exact .ann l he (ht.mono hle)
  | letIn l hx _ _ hv he => exact .letIn l (hx.mono hle) (fun h => hv (hmem hx h)) he
  | typeIn l hx hv _ he =>
    exact .typeIn l (hx.mono hle) (fun h => (hv (hmem hx h)).mono hle) he
  | kindIn l hx hv _ he =>
    exact .kindIn l (hx.mono hle) (fun h => (hv (hmem hx h)).mono hle) he

end Mirrors

/-! ## Renaming two programs -/

section Rename

variable {b : Int} {M : Matching b} {s s' : Scope}

/-- What the scopes find for the names `xs` corresponds. -/
def Scope.Agrees (M : Matching b) (s s' : Scope) (xs : Level → List Name) : Prop :=
  ∀ l, ∀ x ∈ xs l, ∀ y y', (s.binders l).get? x.value = some y →
    (s'.binders l).get? x.value = some y' → M.Used y y'

namespace Scope.Agrees

variable {xs ys : Level → List Name}

theorem left (h : Agrees M s s' fun l => xs l ++ ys l) : Agrees M s s' xs :=
  fun l x hx => h l x (List.mem_append_left _ hx)

theorem right (h : Agrees M s s' fun l => xs l ++ ys l) : Agrees M s s' ys :=
  fun l x hx => h l x (List.mem_append_right _ hx)

theorem mono {N : Matching b} (h : Agrees M s s' xs) (hle : M.Le N) : Agrees N s s' xs :=
  fun l x hx y y' hy hy' => (h l x hx y y' hy hy').mono hle

/-- The names below a binder, if they do not refer to it when it is unused. -/
theorem bind {l : Level} {x : Ident} (h : Agrees M s s' fun m => unbound m l x (xs m))
    (used : Bool) (hused : (xs l).any (·.value = x.value) → used) :
    Agrees (M.bind x.value used) (s.bind l ⟨x.value, M.left⟩)
      (s'.bind l ⟨x.value, M.right⟩) xs := by
  intro m y hy z z' hz hz'
  rw [get?_bind] at hz hz'
  by_cases he : l = m ∧ x.value = y.value
  · rw [if_pos he] at hz hz'
    obtain ⟨rfl, he⟩ := he
    obtain rfl := Option.some.inj hz
    obtain rfl := Option.some.inj hz'
    obtain rfl : used = true := hused (List.any_eq_true.2 ⟨y, hy, decide_eq_true he.symm⟩)
    exact M.used_bind x.value
  · rw [if_neg he] at hz hz'
    have hmem : y ∈ unbound m l x (xs m) :=
      mem_unbound.2 ⟨hy, fun hx => he ⟨hx.1.symm, congrArg Name.value hx.2.symm⟩⟩
    exact (h m y hmem z z' hz hz').mono (M.le_bind x.value used)

end Scope.Agrees

/-- Where both runs end well, the results satisfy `P` for a later matching of the names. -/
def Rename.InStep {α : Type} (M : Matching b) (m m' : Rename α)
    (P : Matching b → α → α → Prop) : Prop :=
  Both m M.left m' M.right fun r c r' c' => ∃ N, M.Le N ∧ N.left = c ∧ N.right = c' ∧ P N r r'

namespace Rename.InStep

variable {α β : Type} {m m' : Rename α} {f f' : α → Rename β} {P : Matching b → α → α → Prop}
  {R : Matching b → β → β → Prop}

theorem pure {a a' : α} (h : P M a a') : InStep M (pure a) (pure a') P :=
  Both.pure ⟨M, .refl M, rfl, rfl, h⟩

/-- One renaming after the other, in both runs. -/
theorem bind (h : InStep M m m' P)
    (hf : ∀ N, M.Le N → ∀ a a', P N a a' → InStep N (f a) (f' a') R) :
    InStep M (m >>= f) (m' >>= f') R := by
  refine Both.bind h ?_
  rintro a _ a' _ ⟨N, hle, rfl, rfl, hP⟩ r c r' c' hr hr'
  obtain ⟨O, hle', hO⟩ := hf N hle a a' hP r c r' c' hr hr'
  exact ⟨O, hle.trans hle', hO⟩

/-- Both runs number a binder. -/
theorem fresh {x : Ident} {f f' : Ident → Rename β} (used : Bool)
    (hf : InStep (M.bind x.value used) (f (x.withId M.left)) (f' (x.withId M.right)) R) :
    InStep M (x.fresh >>= f) (x.fresh >>= f') R := by
  intro r c r' c' hr hr'
  obtain ⟨N, hle, hN⟩ := hf r c r' c' hr hr'
  exact ⟨N, (M.le_bind x.value used).trans hle, hN⟩

/-- Both runs rename the value of a definition, which need not correspond if it is unused. -/
theorem value {used : Bool} (hm : ∀ a c, m M.left = .ok a c → M.left ≤ c)
    (hm' : ∀ a c, m' M.right = .ok a c → M.right ≤ c) (h : used → InStep M m m' P) :
    InStep M m m' fun N a a' => used → P N a a' := by
  intro a c a' c' ha ha'
  cases used with
  | true =>
    obtain ⟨N, hle, hleft, hright, hP⟩ := h rfl a c a' c' ha ha'
    exact ⟨N, hle, hleft, hright, fun _ => hP⟩
  | false =>
    have hc := hm a c ha
    have hc' := hm' a' c' ha'
    exact ⟨M.skip hc hc', M.le_skip hc hc', rfl, rfl, fun hu => absurd hu Bool.false_ne_true⟩

end Rename.InStep

/-- Both runs resolve a name, as binders that are paired and used, or neither does. -/
theorem Ident.resolve_inStep {l : Level} (x : Ident)
    (hs : Scope.Agrees M s s' fun m => if m = l then [x.name] else []) :
    Rename.InStep M (x.resolve l s) (x.resolve l s') fun N y y' => N.Used y.name y'.name := by
  unfold resolve
  intro y c y' c' hy hy'
  cases hg : (s.binders l).get? x.value with
  | none =>
    rw [hg] at hy
    cases hy
  | some z =>
    cases hg' : (s'.binders l).get? x.value with
    | none =>
      rw [hg'] at hy'
      cases hy'
    | some z' =>
      rw [hg] at hy
      rw [hg'] at hy'
      obtain ⟨rfl, rfl⟩ := pure_ok.1 hy
      obtain ⟨rfl, rfl⟩ := pure_ok.1 hy'
      have hx : x.name ∈ if l = l then [x.name] else [] := by simp
      exact ⟨M, .refl M, rfl, rfl, hs l x.name hx z z' hg hg'⟩

theorem KindExpr.rename_inStep (k : KindExpr) (hs : Scope.Agrees M s s' fun l => k.free l) :
    Rename.InStep M (k.rename s) (k.rename s') fun N r r' => r.Mirrors N r' := by
  induction k generalizing M with
  | star => exact .pure .star
  | var x => exact .bind (x.resolve_inStep hs) fun N _ y y' hy => .pure (.var hy)
  | arrow j k hj hk =>
    refine .bind (hj hs.left) fun N hN r r' hr => ?_
    exact .bind (hk (hs.right.mono hN)) fun O hO t t' ht => .pure (.arrow (hr.mono hO) ht)

/-- No name is bound but to be used. -/
theorem Scope.Agrees.bind_used {l : Level} {x : Ident} {xs : Level → List Name}
    (h : Agrees M s s' fun m => unbound m l x (xs m)) :
    Agrees (M.bind x.value true) (s.bind l ⟨x.value, M.left⟩) (s'.bind l ⟨x.value, M.right⟩) xs :=
  h.bind true fun _ => rfl

/-- A type is renamed in step. -/
theorem TypeExpr.rename_inStep (t : TypeExpr) (hs : Scope.Agrees M s s' fun l => t.free l) :
    Rename.InStep M (t.rename s) (t.rename s') fun N r r' => r.Mirrors N r' := by
  induction t generalizing M s s' with
  | int => exact .pure .int
  | var x => exact .bind (x.resolve_inStep hs) fun N _ y y' hy => .pure (.var hy)
  | arrow t u ht hu =>
    refine .bind (ht hs.left) fun N hN r r' hr => ?_
    exact .bind (hu (hs.right.mono hN)) fun O hO w w' hw => .pure (.arrow (hr.mono hO) hw)
  | bind c x k t ih =>
    refine .bind (k.rename_inStep hs.left) fun N hN j j' hj => ?_
    refine .fresh true ?_
    refine .bind (ih (hs.right.mono hN).bind_used) fun O hO r r' hr => ?_
    exact .pure (.bind c ((N.used_bind x.value).mono hO)
      (hj.mono ((N.le_bind x.value true).trans hO)) hr)
  | app f a hf ha =>
    refine .bind (hf hs.left) fun N hN r r' hr => ?_
    exact .bind (ha (hs.right.mono hN)) fun O hO w w' hw => .pure (.app (hr.mono hO) hw)
  | kinded t k ih =>
    refine .bind (ih hs.left) fun N hN r r' hr => ?_
    exact .bind (k.rename_inStep (hs.right.mono hN)) fun O hO j j' hj =>
      .pure (.kinded (hr.mono hO) hj)

/-- Expressions that differ in unused definitions are renamed in step. -/
theorem Expr.Redefines.rename_inStep {e e' : Expr} (h : e.Redefines e')
    (hs : Scope.Agrees M s s' fun l => e.free l) :
    Rename.InStep M (e.rename s) (e'.rename s') fun N r r' => r.Mirrors N r' := by
  induction h generalizing M s s' with
  | lit n l => exact .pure (.lit n l)
  | var x l => exact .bind (x.resolve_inStep hs) fun N _ y y' hy => .pure (.var l hy)
  | lam x t l _ ih =>
    refine .bind (t.rename_inStep hs.left) fun N hN u u' hu => ?_
    refine .fresh true ?_
    refine .bind (ih (hs.right.mono hN).bind_used) fun O hO r r' hr => ?_
    exact .pure (.lam l ((N.used_bind x.value).mono hO)
      (hu.mono ((N.le_bind x.value true).trans hO)) hr)
  | app l _ _ hf ha =>
    refine .bind (hf hs.left) fun N hN r r' hr => ?_
    exact .bind (ha (hs.right.mono hN)) fun O hO w w' hw => .pure (.app l (hr.mono hO) hw)
  | tlam x k l _ ih =>
    refine .bind (k.rename_inStep hs.left) fun N hN j j' hj => ?_
    refine .fresh true ?_
    refine .bind (ih (hs.right.mono hN).bind_used) fun O hO r r' hr => ?_
    exact .pure (.tlam l ((N.used_bind x.value).mono hO)
      (hj.mono ((N.le_bind x.value true).trans hO)) hr)
  | tapp t l _ ih =>
    refine .bind (ih hs.left) fun N hN r r' hr => ?_
    exact .bind (t.rename_inStep (hs.right.mono hN)) fun O hO u u' hu =>
      .pure (.tapp l (hr.mono hO) hu)
  | ann t l _ ih =>
    refine .bind (ih hs.left) fun N hN r r' hr => ?_
    exact .bind (t.rename_inStep (hs.right.mono hN)) fun O hO u u' hu =>
      .pure (.ann l (hr.mono hO) hu)
  | @letIn x v v' e e' l _ _ hv he =>
    -- the values of an unused definition need not correspond, and may take other numbers
    refine .bind (.value (fun _ _ h => (v.rename_numbered.of_ok h).le)
      (fun _ _ h => (v'.rename_numbered.of_ok h).le) fun hu => hv hu hs.left) fun N hN w w' hw => ?_
    refine .fresh (e.uses .expr x) ?_
    refine .bind (he ((hs.right.mono hN).bind _ id)) fun O hO r r' hr => ?_
    exact .pure (.letIn l ((N.pairs_bind x.value _).mono hO)
      (fun h => (hw (hO.used h)).mono ((N.le_bind x.value _).trans hO)) hr)
  | @typeIn x v v' e e' l hv _ ih =>
    have hval (hu : e.uses .type x) : Rename.InStep M (v.rename s) (v'.rename s')
        fun N r r' => r.Mirrors N r' := hv hu ▸ v.rename_inStep hs.left
    refine .bind (.value (fun _ _ h => (v.rename_numbered.of_ok h).le)
      (fun _ _ h => (v'.rename_numbered.of_ok h).le) hval) fun N hN w w' hw => ?_
    refine .fresh (e.uses .type x) ?_
    refine .bind (ih ((hs.right.mono hN).bind _ id)) fun O hO r r' hr => ?_
    exact .pure (.typeIn l ((N.pairs_bind x.value _).mono hO)
      (fun h => (hw (hO.used h)).mono ((N.le_bind x.value _).trans hO)) hr)
  | @kindIn x v v' e e' l hv _ ih =>
    have hval (hu : e.uses .kind x) : Rename.InStep M (v.rename s) (v'.rename s')
        fun N r r' => r.Mirrors N r' := hv hu ▸ v.rename_inStep hs.left
    refine .bind (.value (fun _ _ h => Int.le_of_eq (v.rename_keeps.of_ok h).symm)
      (fun _ _ h => Int.le_of_eq (v'.rename_keeps.of_ok h).symm) hval) fun N hN w w' hw => ?_
    refine .fresh (e.uses .kind x) ?_
    refine .bind (ih ((hs.right.mono hN).bind _ id)) fun O hO r r' hr => ?_
    exact .pure (.kindIn l ((N.pairs_bind x.value _).mono hO)
      (fun h => (hw (hO.used h)).mono ((N.le_bind x.value _).trans hO)) hr)

/-- Before the first binder no names are matched. -/
def Matching.start (c : Int) : Matching c where
  perm := Equiv.refl Name
  left := c
  right := c
  value _ := rfl
  fixed _ := rfl
  le_left := Int.le_refl c
  le_right := Int.le_refl c
  unused := []
  unused_lt h := absurd h List.not_mem_nil

/-- The renamed programs are the same but for the numbers and the values of unused definitions. -/
theorem Expr.Redefines.mirrors {e e' r r' : Expr} {c d d' : Int} (h : e.Redefines e')
    (hr : e.rename {} c = .ok r d) (hr' : e'.rename {} c = .ok r' d') :
    ∃ M : Matching c, M.left = d ∧ M.right = d' ∧ r.Mirrors M r' := by
  have hs : Scope.Agrees (Matching.start c) {} {} fun l => e.free l := by
    intro l x _ y y' hy
    cases l <;> cases hy
  obtain ⟨M, -, hM⟩ := h.rename_inStep hs r d r' d' hr hr'
  exact ⟨M, hM⟩

end Rename

end SystemFOmega
