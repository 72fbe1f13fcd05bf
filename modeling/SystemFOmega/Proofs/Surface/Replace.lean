import SystemFOmega.Proofs.Surface.Binders
import SystemFOmega.Proofs.Surface.Substitution
import SystemFOmega.Surface.Subst

/-!
# Replacements capture nothing

What a replacement does, with the names that it makes for binders on the way, is said once for
phrases of all levels (`Phrase.Puts`), and substitution in kinds, types and expressions does it
(`Expr.subst_does`).

The names that are made have the numbers through which the counter goes (`Phrase.Puts.numbered`),
and a phrase has no other new names (`Phrase.Puts.names`). With a counter above every number in
sight, so that these names are new, a replacement follows the rules of substitution without capture
(`Phrase.Puts.substitutes`), and is substitution of one skeleton for a free name in another
(`Phrase.Puts.skeleton`).
-/

namespace SystemFOmega

namespace Phrase

/-- Putting `p` for the free name `z` of the level `l` in a phrase, from a counter to another. The
names in the list are made on the way, in this order. -/
inductive Puts : Level → Name → Phrase → Int → Phrase → List Name → Phrase → Int → Prop
  | leaf {l : Level} {z : Name} {p : Phrase} {c : Int} (k : Skeleton.Leaf) :
    Puts l z p c (leaf k) [] (leaf k) c
  | hit {l : Level} {z : Name} {p : Phrase} {c : Int} : Puts l z p c (ref l z) [] p c
  | miss {l m : Level} {x z : Name} {p : Phrase} {c : Int} (h : ¬ (m = l ∧ x = z)) :
    Puts l z p c (ref m x) [] (ref m x) c
  | pair {l : Level} {z : Name} {p a a' b b' : Phrase} {c c₁ c₂ : Int} {ms ms' : List Name}
    (o : Skeleton.Pairing) : Puts l z p c a ms a' c₁ → Puts l z p c₁ b ms' b' c₂ →
    Puts l z p c (pair o a b) (ms ++ ms') (pair o a' b') c₂
  /-- A binder of the same name hides it. -/
  | hidden {l : Level} {x z : Name} {p a a' b : Phrase} {c c₁ : Int} {ms : List Name}
    {s : Skeleton.Scoping} (h : s.level = l ∧ x = z) : Puts l z p c a ms a' c₁ →
    Puts l z p c (bind s x a b) ms (bind s x a' b) c₁
  | kept {l : Level} {x z : Name} {p a a' b b' : Phrase} {c c₁ c₂ : Int} {ms ms' : List Name}
    {s : Skeleton.Scoping} (h : ¬ (s.level = l ∧ x = z)) (hx : x ∉ p.free s.level) :
    Puts l z p c b ms b' c₁ → Puts l z p c₁ a ms' a' c₂ →
    Puts l z p c (bind s x a b) (ms ++ ms') (bind s x a' b') c₂
  /-- A binder that would capture a name of `p` is given the next number first. -/
  | renamed {l : Level} {x y z : Name} {p a a' b b₁ b₂ : Phrase} {c c₁ c₂ c₃ : Int}
    {ms₁ ms₂ ms₃ : List Name} {s : Skeleton.Scoping} (h : ¬ (s.level = l ∧ x = z))
    (hx : x ∈ p.free s.level) (hy : y = ⟨x.value, c⟩) :
    Puts s.level x (ref s.level y) (c + 1) b ms₁ b₁ c₁ → Puts l z p c₁ b₁ ms₂ b₂ c₂ →
    Puts l z p c₂ a ms₃ a' c₃ →
    Puts l z p c (bind s x a b) (y :: (ms₁ ++ ms₂ ++ ms₃)) (bind s y a' b₂) c₃

namespace Puts

variable {l : Level} {z : Name} {p a a' : Phrase} {c c' : Int} {ms : List Name}

/-- The binders that get new names are numbered one after the other. -/
theorem numbered (h : Puts l z p c a ms a' c') : Numbered c c' ms := by
  induction h with
  | leaf | hit | miss => rfl
  | pair o _ _ ha hb => exact ha.append hb
  | hidden _ _ ha => exact ha
  | kept _ _ _ _ hb ha => exact hb.append ha
  | renamed _ _ hy _ _ _ h₁ h₂ ha =>
    subst hy
    exact ⟨rfl, (h₁.append h₂).append ha⟩

/-- The names of the result are those of the phrase, of what is put in, and the new ones. -/
theorem names (h : Puts l z p c a ms a' c') : a'.names ⊆ a.names ++ p.names ++ ms := by
  induction h with
  | leaf | miss => simp
  | hit => simp
  | pair o _ _ ha hb =>
    simp only [Phrase.names]
    grind
  | hidden _ _ ha =>
    simp only [Phrase.names]
    grind
  | kept _ _ _ _ hb ha =>
    simp only [Phrase.names]
    grind
  | renamed _ _ _ _ _ _ h₁ h₂ ha =>
    simp only [Phrase.names] at h₁ ⊢
    grind

/-- A reference for a name leaves the size as it is. -/
theorem size {m : Level} {y : Name} (hp : p = ref m y) (h : Puts l z p c a ms a' c') :
    a'.size = a.size := by
  induction h generalizing m y with
  | leaf | miss => rfl
  | hit =>
    rw [hp]
    rfl
  | pair o _ _ ha hb => simp only [Phrase.size, ha hp, hb hp]
  | hidden _ _ ha => simp only [Phrase.size, ha hp]
  | kept _ _ _ _ hb ha => simp only [Phrase.size, ha hp, hb hp]
  | renamed _ _ _ _ _ _ h₁ h₂ ha => simp only [Phrase.size, h₁ rfl, h₂ hp, ha hp]

theorem le (h : Puts l z p c a ms a' c') : c ≤ c' := h.numbered.le

/-- The names of the result are below the counter. -/
theorem names_below (h : Puts l z p c a ms a' c') (ha : Below c a.names) (hp : Below c p.names) :
    Below c' a'.names := by
  intro y hy
  have hle := h.le
  rcases List.mem_append.1 (h.names hy) with hy | hy
  · have hlt := (List.mem_append.1 hy).elim (ha y) (hp y)
    omega
  · exact h.numbered.lt_of_mem hy

/-- From a counter above all numbers in sight, putting `p` in follows the rules of substitution. -/
theorem substitutes (h : Puts l z p c a ms a' c') (ha : Below c a.names)
    (hp : Below c (z :: p.names)) : Substitutes l z p a a' := by
  induction h with
  | leaf k => exact .leaf k
  | hit => exact .hit
  | miss h => exact .miss h
  | pair o h _ iha ihb =>
    have hle := h.le
    exact .pair o (iha (ha.mono (Int.le_refl _) (by simp [Phrase.names])) hp)
      (ihb (ha.mono hle (by simp [Phrase.names])) (hp.mono hle (List.Subset.refl _)))
  | hidden h _ iha => exact .hidden h (iha (ha.mono (Int.le_refl _) (by simp [Phrase.names])) hp)
  | kept h hx hb _ ihb iha =>
    have hle := hb.le
    exact .bind h hx (iha (ha.mono hle (by simp [Phrase.names])) (hp.mono hle (List.Subset.refl _)))
      (ihb (ha.mono (Int.le_refl _) (by simp [Phrase.names])) hp)
  | @renamed l x y z p a a' b b₁ b₂ c c₁ c₂ c₃ ms₁ ms₂ ms₃ s h hx hy hb₁ hb₂ _ ih₁ ih₂ iha =>
    have hid : y.id = c := congrArg Name.id hy
    have hle₁ := hb₁.le
    have hle₂ := hb₂.le
    have hb : Below c b.names := ha.mono (Int.le_refl c) (by simp [Phrase.names])
    have hxy : Below (c + 1) (x :: (ref s.level y).names) := by
      intro w hw
      rcases List.mem_cons.1 hw with rfl | hw
      · have hlt := ha w (.head _)
        omega
      · obtain rfl := List.mem_singleton.1 hw
        omega
    have hb' : Below c₁ b₁.names :=
      hb₁.names_below (hb.mono (by omega) (List.Subset.refl _)) fun w hw => hxy w (.tail _ hw)
    -- the new name is neither replaced, nor put in, nor in the body
    have hhidden : ¬ (s.level = l ∧ y = z) := by
      rintro ⟨-, rfl⟩
      exact hp.not_mem (Int.le_of_eq hid.symm) (.head _)
    have hput : y ∉ p.free s.level := fun hu =>
      hp.not_mem (Int.le_of_eq hid.symm) (.tail _ (free_subset _ p hu))
    have hnew : ¬ b.skeleton.Uses (.free s.level y) := fun hu =>
      hb.not_mem (Int.le_of_eq hid.symm) (free_subset _ b (mem_free.2 hu))
    have h₁ := ih₁ (hb.mono (by omega) (List.Subset.refl _)) hxy
    have h₂ := ih₂ hb' (hp.mono (by omega) (List.Subset.refl _))
    have ha' := iha (ha.mono (by omega) (by simp [Phrase.names]))
      (hp.mono (by omega) (List.Subset.refl _))
    have hbody : (Phrase.bind s x a b).skeleton = (Phrase.bind s y a b₁).skeleton := by
      simp only [Phrase.skeleton, h₁.skeleton, Skeleton.close_put_ref hnew]
    exact .alpha hbody rfl (.bind hhidden hput ha' h₂)

/-- From a counter above all numbers in sight, `p` is put in without capture. -/
theorem skeleton (h : Puts l z p c a ms a' c') (ha : Below c a.names)
    (hp : Below c (z :: p.names)) :
    a'.skeleton = a.skeleton.subst (Skeleton.put l z p.skeleton) :=
  (h.substitutes ha hp).skeleton

end Puts

end Phrase

/-! ## Computations with a counter -/

/-- What a computation with a counter ends in. -/
def Supply.Ends {α : Type} (m : StateM Int α) (c : Int) (P : α → Int → Prop) : Prop :=
  P (m.run c).1 (m.run c).2

namespace Supply.Ends

variable {α β : Type} {m : StateM Int α} {c : Int} {P : α → Int → Prop}

theorem pure {a : α} (h : P a c) : Supply.Ends (pure a) c P := h

theorem bind {f : α → StateM Int β} {Q : β → Int → Prop} (h : Supply.Ends m c P)
    (hf : ∀ a c', P a c' → Supply.Ends (f a) c' Q) : Supply.Ends (m >>= f) c Q :=
  hf _ _ h

end Supply.Ends

/-! ## Substitution -/

namespace Replacement

/-- What is put in. -/
def phrase : Replacement → Phrase
  | .expr _ e => e.phrase
  | .type _ t => t.phrase
  | .kind _ k => k.phrase

/-- Doing a replacement in a phrase, from a counter to another. -/
def Puts (σ : Replacement) (c : Int) (a : Phrase) (ms : List Name) (a' : Phrase) (c' : Int) :
    Prop :=
  Phrase.Puts σ.level σ.name σ.phrase c a ms a' c'

/-- Doing a replacement, whatever names are made on the way. -/
def Does (σ : Replacement) (c : Int) (a a' : Phrase) (c' : Int) : Prop :=
  ∃ ms, σ.Puts c a ms a' c'

/-- A replacement as a substitution of skeletons. -/
def put (σ : Replacement) : Mark → Skeleton := Skeleton.put σ.level σ.name σ.phrase.skeleton

/-- Doing a replacement in a binder `x` and its body `b` gives `y` and `b'`, whatever phrase outside
the scope of the binder it goes on with. -/
def Enters (σ : Replacement) (c : Int) (s : Skeleton.Scoping) (x : Name) (b : Phrase) (y : Name)
    (b' : Phrase) (c₁ : Int) : Prop :=
  ∀ a a' c₂, σ.Does c₁ a a' c₂ → σ.Does c (.bind s x a b) (.bind s y a' b') c₂

variable {σ : Replacement} {c : Int}

theorem Does.pair {o : Skeleton.Pairing} {a a' b b' : Phrase} {c₁ c₂ : Int}
    (ha : σ.Does c a a' c₁) (hb : σ.Does c₁ b b' c₂) :
    σ.Does c (.pair o a b) (.pair o a' b') c₂ := by
  obtain ⟨ms, ha⟩ := ha
  obtain ⟨ms', hb⟩ := hb
  exact ⟨ms ++ ms', .pair o ha hb⟩

theorem free_phrase (l : Level) (σ : Replacement) : σ.phrase.free l = σ.free l := by
  cases σ with
  | expr x e => exact e.free_phrase l
  | type x t => exact t.free_phrase l
  | kind x k => exact k.free_phrase l

theorem level_reference (l : Level) (x : Name) (y : Ident) : (reference l x y).level = l := by
  cases l <;> rfl

theorem name_reference (l : Level) (x : Name) (y : Ident) : (reference l x y).name = x := by
  cases l <;> rfl

theorem phrase_reference (l : Level) (x : Name) (y : Ident) :
    (reference l x y).phrase = .ref l y.name := by
  cases l <;> rfl

/-- Under a binder, `go` does replacements in phrases of the size of the body. -/
theorem under_enters {β : Type} (phrase : β → Phrase) {go : Replacement → β → StateM Int β}
    {s : Skeleton.Scoping} {l : Level} (hl : s.level = l) (x : Ident) (body : β)
    (hgo : ∀ (τ : Replacement) (b : β) (c : Int), (phrase b).size = (phrase body).size →
      Supply.Ends (go τ b) c fun b' c' => τ.Does c (phrase b) (phrase b') c') :
    Supply.Ends (σ.under l x go body) c fun r c₁ =>
      σ.Enters c s x.name (phrase body) r.1.name (phrase r.2) c₁ := by
  subst hl
  unfold under
  split
  case isTrue h =>
    refine .pure fun _ _ _ ha => ?_
    obtain ⟨ms, ha⟩ := ha
    exact ⟨ms, .hidden h ha⟩
  case isFalse hne =>
  split
  case isFalse hx =>
    rw [← free_phrase] at hx
    refine .bind (hgo σ body c rfl) fun b' c₁ hb => .pure fun _ _ _ ha => ?_
    obtain ⟨ms, hb⟩ := hb
    obtain ⟨ms', ha⟩ := ha
    exact ⟨ms ++ ms', .kept hne hx hb ha⟩
  case isTrue hx =>
    rw [← free_phrase] at hx
    refine .bind (P := fun y c' => y = x.withId c ∧ c' = c + 1) ⟨rfl, rfl⟩ fun y c' h => ?_
    obtain ⟨rfl, rfl⟩ := h
    refine .bind (hgo _ body _ rfl) fun b₁ c₁ h₁ => ?_
    obtain ⟨ms₁, h₁⟩ := h₁
    rw [Puts, level_reference, name_reference, phrase_reference] at h₁
    refine .bind (hgo σ b₁ c₁ (h₁.size rfl)) fun b₂ c₂ h₂ => .pure fun _ _ _ ha => ?_
    obtain ⟨ms₂, h₂⟩ := h₂
    obtain ⟨ms₃, ha⟩ := ha
    exact ⟨_, .renamed hne hx rfl h₁ h₂ ha⟩

end Replacement

section

variable {σ : Replacement} {c : Int}

theorem KindExpr.subst_does (k : KindExpr) : σ.Does c k.phrase (k.subst σ).phrase c := by
  induction k with
  | star => exact ⟨[], .leaf _⟩
  | var x =>
    refine ⟨[], ?_⟩
    cases σ with
    | kind y k =>
      rw [subst, Replacement.kindFor]
      split
      case isTrue h => exact h ▸ .hit
      case isFalse h => exact .miss fun he => h he.2
    | expr | type => exact .miss fun h => Level.noConfusion h.1
  | arrow j k hj hk => exact hj.pair hk

/-- With fuel for the type, the replacement is made. -/
theorem TypeExpr.substWithin_does {n : Nat} {t : TypeExpr} (hn : t.size ≤ n) :
    Supply.Ends (t.substWithin n σ) c fun t' c' => σ.Does c t.phrase t'.phrase c' := by
  induction n generalizing t σ c with
  | zero => cases t <;> simp [size] at hn
  | succ n ih =>
    cases t with
    | int => exact .pure ⟨[], .leaf _⟩
    | var x =>
      refine .pure ⟨[], ?_⟩
      cases σ with
      | type y t =>
        rw [Replacement.typeFor]
        split
        case isTrue h => exact h ▸ .hit
        case isFalse h => exact .miss fun he => h he.2
      | expr | kind => exact .miss fun h => Level.noConfusion h.1
    | arrow s t | app s t =>
      simp only [size] at hn
      refine .bind (ih (t := s) (by omega)) fun s' c₁ hs => ?_
      refine .bind (ih (t := t) (by omega)) fun t' c₂ ht => ?_
      exact .pure (hs.pair ht)
    | bind b x k t =>
      simp only [size] at hn
      refine .bind (Replacement.under_enters phrase (s := .quantify b) rfl x t fun τ u c hu => ?_)
        fun r c₁ hr => .pure (hr _ _ _ k.subst_does)
      rw [size_phrase, size_phrase] at hu
      exact ih (by omega)
    | kinded t k =>
      simp only [size] at hn
      exact .bind (ih (t := t) (by omega)) fun t' c₁ ht => .pure (ht.pair k.subst_does)

theorem TypeExpr.subst_does (t : TypeExpr) :
    Supply.Ends (t.subst σ) c fun t' c' => σ.Does c t.phrase t'.phrase c' :=
  substWithin_does (Nat.le_refl _)

/-- With fuel for the expression, the replacement is made. -/
theorem Expr.substWithin_does {n : Nat} {e : Expr} (hn : e.size ≤ n) :
    Supply.Ends (e.substWithin n σ) c fun e' c' => σ.Does c e.phrase e'.phrase c' := by
  induction n generalizing e σ c with
  | zero => cases e <;> simp [size] at hn
  | succ n ih =>
    -- a binder and its body
    have hunder {s : Skeleton.Scoping} {l : Level} (hl : s.level = l) (x : Ident) (e : Expr)
        (hn : e.size ≤ n) : Supply.Ends (σ.under l x (substWithin n) e) c fun r c₁ =>
          σ.Enters c s x.name e.phrase r.1.name r.2.phrase c₁ := by
      refine Replacement.under_enters phrase hl x e fun τ b c hb => ?_
      rw [size_phrase, size_phrase] at hb
      exact ih (by omega)
    cases e with
    | lit => exact .pure ⟨[], .leaf _⟩
    | var x =>
      refine .pure ⟨[], ?_⟩
      cases σ with
      | expr y e =>
        rw [Replacement.exprFor]
        split
        case isTrue h => exact h ▸ .hit
        case isFalse h => exact .miss fun he => h he.2
      | type | kind => exact .miss fun h => Level.noConfusion h.1
    | lam x t e =>
      simp only [size] at hn
      refine .bind (hunder (s := .lam) rfl x e (by omega)) fun r c₁ hr => ?_
      exact .bind t.subst_does fun t' c₂ ht => .pure (hr _ _ _ ht)
    | app f a =>
      simp only [size] at hn
      refine .bind (ih (e := f) (by omega)) fun f' c₁ hf => ?_
      exact .bind (ih (e := a) (by omega)) fun a' c₂ ha => .pure (hf.pair ha)
    | tlam x k e =>
      simp only [size] at hn
      refine .bind (hunder (s := .tlam) rfl x e (by omega)) fun r c₁ hr => ?_
      exact .pure (hr _ _ _ k.subst_does)
    | tapp e t | ann e t =>
      simp only [size] at hn
      refine .bind (ih (e := e) (by omega)) fun e' c₁ he => ?_
      exact .bind t.subst_does fun t' c₂ ht => .pure (he.pair ht)
    | letIn x v e =>
      simp only [size] at hn
      refine .bind (hunder (s := .letIn) rfl x e (by omega)) fun r c₁ hr => ?_
      exact .bind (ih (e := v) (by omega)) fun v' c₂ hv => .pure (hr _ _ _ hv)
    | typeIn x v e =>
      simp only [size] at hn
      refine .bind (hunder (s := .typeIn) rfl x e (by omega)) fun r c₁ hr => ?_
      exact .bind v.subst_does fun v' c₂ hv => .pure (hr _ _ _ hv)
    | kindIn x v e =>
      simp only [size] at hn
      refine .bind (hunder (s := .kindIn) rfl x e (by omega)) fun r c₁ hr => ?_
      exact .pure (hr _ _ _ v.subst_does)

theorem Expr.subst_does (e : Expr) :
    Supply.Ends (e.subst σ) c fun e' c' => σ.Does c e.phrase e'.phrase c' :=
  substWithin_does (Nat.le_refl _)

/-- The replacement is made in phrases of all three levels. -/
theorem Tree.subst_does (t : Tree) :
    Supply.Ends (t.subst σ) c fun t' c' => σ.Does c t.phrase t'.phrase c' := by
  cases t with
  | kind k => exact .pure k.subst_does
  | type t => exact .bind t.subst_does fun _ _ h => .pure h
  | expr e => exact .bind e.subst_does fun _ _ h => .pure h

end

/-- From a counter above all numbers in sight, substitution in a kind, type or expression gives what
the rules of substitution give, up to the choice of bound names. It takes away every free occurrence
of the name, and brings in all free names of what is put there once for each, so none is bound. -/
theorem Tree.subst_avoids_capture (t : Tree) (σ : Replacement) (c : Int)
    (hc : Below c (t.names ++ σ.name :: σ.phrase.names)) :
    (∀ u : Tree, Phrase.Substitutes σ.level σ.name σ.phrase t.phrase u.phrase ↔
      ((t.subst σ).run c).1.AlphaEq u) ∧
    ∀ l y, (((t.subst σ).run c).1.free l).count y =
      (if l = σ.level ∧ y = σ.name then 0 else (t.free l).count y) +
        (t.free σ.level).count σ.name * (σ.free l).count y := by
  obtain ⟨ms, hms⟩ := t.subst_does (σ := σ) (c := c)
  have hsubst := hms.substitutes
    (fun x hx => hc x (List.mem_append_left _ (by rwa [← t.names_phrase])))
    fun x hx => hc x (List.mem_append_right _ hx)
  refine ⟨fun u => ⟨fun hu => hsubst.skeleton.trans hu.skeleton.symm, fun hu => ?_⟩, fun l y => ?_⟩
  · exact .alpha rfl hu hsubst
  · have hmark : Mark.free l y = .free σ.level σ.name ↔ l = σ.level ∧ y = σ.name := by simp
    simp only [← free_phrase, ← Replacement.free_phrase, Phrase.count_free, hsubst.skeleton,
      Skeleton.count_put, hmark]

/-- `λa: *. λx: a. e`, where the numbers of `a` and `x` are `i` and `j`. -/
def Tree.underBoth (i j : Int) (e : Expr) : Tree :=
  .expr (.tlam ⟨⟨"a", i⟩, none⟩ .star (.lam ⟨⟨"x", j⟩, none⟩ (.var ⟨⟨"a", i⟩, none⟩) e none) none)

/-- `(x : a)`, where the numbers of `a` and `x` are 0 and 1. -/
def Expr.annotatedVar : Expr :=
  .ann (.var ⟨⟨"x", 1⟩, none⟩ none) (.var ⟨⟨"a", 0⟩, none⟩) none

/-- Binders of two levels make way for the names that they would capture. -/
theorem Tree.subst_avoids_capture_underBoth :
    have σ := Replacement.expr ⟨"f", 2⟩ .annotatedVar
    have t := underBoth 0 1 (.var ⟨⟨"f", 2⟩, none⟩ none)
    Phrase.Substitutes σ.level σ.name σ.phrase t.phrase (underBoth 7 8 .annotatedVar).phrase ∧
      (((t.subst σ).run 3).1.free .expr).count ⟨"x", 1⟩ = 1 ∧
      (((t.subst σ).run 3).1.free .type).count ⟨"a", 0⟩ = 1 :=
  have h := Tree.subst_avoids_capture (underBoth 0 1 (.var ⟨⟨"f", 2⟩, none⟩ none))
    (.expr ⟨"f", 2⟩ .annotatedVar) 3 (by decide)
  ⟨(h.1 _).2 (by decide), h.2 .expr ⟨"x", 1⟩, h.2 .type ⟨"a", 0⟩⟩

end SystemFOmega
