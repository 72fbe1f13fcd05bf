import SystemFOmega.Fault
import SystemFOmega.Proofs.Checker.Traversal
import SystemFOmega.Proofs.Diagnostic.Report
import SystemFOmega.Proofs.Surface.Parser

/-!
# Every diagnostic points into the text

The places of tokens lie within the text, and phrases get their places from tokens. Renaming keeps
them, the checker names no other places, and it always stands at one of them, which is where a
failure is put that has none of its own (`Expr.typeOf_located`). So a text that cannot be read, or
whose program is rejected, has a diagnostic with a place within it, and the report shows the message
(`Expr.diagnostics_point_into_text`).
-/

namespace SystemFOmega

open Run Check

/-- There is a place, and it satisfies `L`. -/
def Located (L : Location → Prop) (l : Option Location) : Prop := ∃ l', l = some l' ∧ L l'

variable {L : Location → Prop}

/-! ## The checker -/

/-- A change of the state that does not move. -/
theorem Check.modify_confines {Q : Failure → Prop} {f : Checker.State → Checker.State}
    (hf : ∀ s, (f s).loc = s.loc) :
    Confines (fun s : Checker.State => Located L s.loc) Q (modify f : Check Unit) :=
  .of_maintains (fun s hs => (hf s).symm ▸ hs) fun s => ⟨(), f s, rfl⟩

theorem Check.confines_stable : Stable (Located L) fun m =>
    Confines (fun s : Checker.State => Located L s.loc) (fun f => ∀ l ∈ f.loc, L l) m where
  pure a := .of_maintains (.pure a) fun s => ⟨a, s, rfl⟩
  bind := .bind
  get := .of_maintains .get fun s => ⟨s, s, rfl⟩
  raise c l h := by
    refine .throw fun l' hl' => ?_
    obtain rfl | ⟨l, rfl, hl⟩ := h
    · cases hl'
    · obtain rfl := Option.some.inj hl'
      exact hl
  enter {e} he := by
    refine .of_maintains (fun s _ => ?_) fun s => ⟨_, _, rfl⟩
    obtain ⟨l, hloc, hl⟩ := he
    show Located L (e.loc.or s.loc)
    rw [hloc]
    exact ⟨l, rfl, hl⟩
  note step := by
    refine modify_confines fun s => ?_
    split <;> rfl
  normalize o t := by
    refine ⟨fun s hs => ?_, fun {s s' f} _ hf => ?_⟩
    · unfold Check.normalize
      split <;> exact hs
    · unfold Check.normalize at hf
      split at hf <;> cases hf <;> exact fun _ h => by cases h
  subst x r t := .of_maintains (fun _ h => h) fun s => ⟨_, _, rfl⟩
  keepKind o x k := by
    refine modify_confines fun s => ?_
    split <;> rfl
  keepType o x t := by
    refine modify_confines fun s => ?_
    split <;> rfl
  keepExpr o x t := by
    refine modify_confines fun s => ?_
    split <;> rfl

/-- It makes no difference where the checker stands before it moves to an expression. -/
theorem Check.inferring_moved {Γ : Context} {e : Expr} {l : Location} (h : e.loc = some l)
    (rule : Check Ty) (s : Checker.State) :
    inferring Γ e rule s = inferring Γ e rule { s with loc := some l } := by
  have henter (s : Checker.State) : enter e s = .ok () { s with loc := some l } := by
    show EStateM.Result.ok _ _ = EStateM.Result.ok _ _
    rw [h]
    rfl
  unfold inferring
  rw [bind_of_ok _ (henter s), bind_of_ok _ (henter { s with loc := some l })]

theorem Expr.inferNormal_moved {e : Expr} {l : Location} (h : e.loc = some l)
    (same : Checker.Comparison) (o : Checker.Options) (s : Checker.State) :
    e.inferNormal same o s = e.inferNormal same o { s with loc := some l } := by
  obtain ⟨n, hn⟩ : ∃ n, Context.reach {} e.size = n + 1 := by
    refine Nat.exists_eq_succ_of_ne_zero ?_
    unfold Context.reach
    omega
  have hinfer : e.inferBy same o (n + 1) {} s =
      e.inferBy same o (n + 1) {} { s with loc := some l } := by
    rw [inferBy.eq_def]
    exact inferring_moved h _ s
  unfold inferNormal
  rw [hn]
  show EStateM.bind _ _ s = EStateM.bind _ _ _
  unfold EStateM.bind
  rw [hinfer]

/-- The failure of a program whose places satisfy `L` has such a place. -/
theorem Expr.typeOf_located {e : Expr} (he : e.Each (Located L ·.loc) (Located L))
    {o : Checker.Options} {tr tr' : Trace} {f : Failure} (h : e.typeOf o tr = (.error f, tr')) :
    Located L f.loc := by
  have hrename := Expr.rename_each (s := {}) (c := 1) he
  unfold typeOf typeOfBy EStateM.run at h
  cases hr : e.rename {} 1 with
  | error u c =>
    rw [hr] at h
    cases h
    exact hrename.of_error hr
  | ok r c =>
    rw [hr] at h
    dsimp only at h
    have heach := hrename.of_ok hr
    obtain ⟨l, hloc, hl⟩ := heach.loc
    have hconfines := inferNormal_stable confines_stable Ty.conform o heach
    rw [inferNormal_moved hloc] at h
    let s : Checker.State := { loc := some l, supply := c, trace := tr }
    have hs : Located L s.loc := ⟨l, rfl, hl⟩
    cases hrun : r.inferNormal Ty.conform o s with
    | ok t s' =>
      rw [hrun] at h
      cases h
    | error g s' =>
      rw [hrun] at h
      cases h
      have hend := hconfines.keeps s hs
      rw [hrun] at hend
      show Located L (g.loc.or s'.loc)
      cases hg : g.loc with
      | none => exact hend
      | some l' => exact ⟨l', rfl, hconfines.error hs hrun l' hg⟩

/-! ## Reports -/

/-- The diagnostic has a place within the text, the excerpt of the text at that place is there, and
the message stands in the report. -/
structure Diagnostic.PointsInto (text : String) (d : Diagnostic) : Prop where
  place : Located (·.Within text) d.details.loc
  shown (p : Palette) {l : Location} : d.details.loc = some l → excerpt p text l d.message ≠ ""
  told (p : Palette) (trace : Trace) : d.message.toList <:+: (d.report p trace).toList

theorem Diagnostic.pointsInto {text : String} {d : Diagnostic}
    (hsource : d.details.source = some text)
    (hplace : Located (·.Within text) d.details.loc) : d.PointsInto text := by
  obtain ⟨l, hloc, hl⟩ := hplace
  refine ⟨⟨l, hloc, hl⟩, fun p l' hl' => ?_, fun p trace => ?_⟩
  · obtain rfl := Option.some.inj (hloc.symm.trans hl')
    exact (excerpt_shows p hl d.message).2
  · unfold report
    simp only [hsource, hloc]
    cases hpresent : present? (some text) with
    | none => exact (p.infix_error d.message).trans (Text.prefix_intercalate _ _ _).isInfix
    | some source =>
      obtain rfl : source = text := by
        unfold present? at hpresent
        split at hpresent
        · cases hpresent
        · cases hpresent
        · rename_i htext
          exact (Option.some.inj hpresent).symm.trans (Option.some.inj htext).symm
      exact (excerpt_shows p hl d.message).1.trans (Text.prefix_intercalate _ _ _).isInfix

/-! ## Texts -/

/-- A fault with a diagnostic has a place, which is that of the diagnostic. -/
theorem ReadFault.diagnostic_details {f : ReadFault} {d : Diagnostic}
    (h : f.fault = .diagnostic d) :
    (∃ l, f.loc = some l) ∧ d.details.loc = f.loc ∧ d.details.source = none := by
  cases f with
  | numeral n => cases h
  | _ =>
    cases h
    exact ⟨⟨_, rfl⟩, rfl, rfl⟩

theorem Failure.diagnostic_details (f : Failure) :
    f.diagnostic.details.loc = f.loc ∧ f.diagnostic.details.source = none := by
  unfold Failure.diagnostic
  cases f.cause with
  | clash c => cases c <;> exact ⟨rfl, rfl⟩
  | _ => exact ⟨rfl, rfl⟩

/-- A text that is read has its places within it, and so has a fault. -/
theorem Expr.parse_within (text : String) (file : Option String) (depth : Nat) :
    (∀ e, Expr.parse text file depth = .ok e →
      e.Each (Located (·.Within text) ·.loc) (Located (·.Within text))) ∧
    ∀ f, Expr.parse text file depth = .error f → ∀ l ∈ f.loc, l.Within text := by
  obtain ⟨hok, herror⟩ := Token.lex_places file text
  cases hlex : Token.lex file text with
  | error s =>
    simp only [Expr.parse, Parser.run, hlex]
    refine ⟨fun e he => (by cases he), fun f hf l hl => ?_⟩
    cases hf
    obtain rfl := Option.some.inj hl
    exact herror s hlex
  | ok ts =>
    have hstart : (Parser.front []).loc.Within text :=
      Position.location_within (List.nil_append text.toList).symm none
    obtain ⟨hread, hfault⟩ :=
      parse_written (T := (·.loc.Within text)) depth hlex hstart (hok ts hlex)
    refine ⟨fun e he => (hread e he).mono (fun x hx => ?_) fun l hl => ?_, fun f hf l hl => ?_⟩
    · obtain ⟨t, ht, rfl⟩ := hx
      exact ⟨t.loc, rfl, ht⟩
    · obtain ⟨t, ht, rfl⟩ := hl
      exact ⟨t.loc, rfl, ht⟩
    · obtain ⟨t, ht, he⟩ := hfault f hf l hl
      exact Option.some.inj he ▸ ht

/-- Where a text cannot be read, or the program that is read from it is rejected, the diagnostic
points into the text. -/
theorem Expr.diagnostics_point_into_text (text : String) (file : Option String) (depth : Nat) :
    (∀ f d, Expr.parse text file depth = .error f → f.fault = .diagnostic d →
      ∀ name, (d.withSource (some text) name).PointsInto text) ∧
    ∀ (e : Expr) (o : Checker.Options) (tr tr' : Trace) (f : Failure),
      Expr.parse text file depth = .ok e → o.source = some text →
      e.typeOf o tr = (.error f, tr') → (o.diagnose f).PointsInto text := by
  obtain ⟨hread, hfault⟩ := parse_within text file depth
  refine ⟨fun f d hf hd name => ?_, fun e o tr tr' f he ho hf => ?_⟩
  · obtain ⟨⟨l, hl⟩, hloc, hsource⟩ := ReadFault.diagnostic_details hd
    refine Diagnostic.pointsInto ?_ ⟨l, hloc.trans hl, hfault f hf l hl⟩
    simp [Diagnostic.withSource, hsource, present?]
  · obtain ⟨hloc, hsource⟩ := f.diagnostic_details
    refine Diagnostic.pointsInto ?_ ?_
    · simp [Checker.Options.diagnose, Diagnostic.withSource, hsource, present?, ho]
    · have hplace := typeOf_located (hread e he) hf
      rw [← hloc] at hplace
      exact hplace

/-- A text that ends behind its last line feed, and a program whose kinds clash, which is reported
at the ascription around them. -/
theorem Expr.diagnostics_point_into_text_end :
    let opened := "(\n"
    let fault : ReadFault := .unexpected (.phrase .expr) .eof ⟨2, 1, none⟩
    let applied := "(5 :\n Int Int)"
    let o : Checker.Options := { source := some applied }
    let f : Failure := ⟨.notOperator (.int .star) .int, some ⟨1, 1, none⟩⟩
    (Expr.parse opened = .error fault ∧ ∃ d : Diagnostic, fault.fault = .diagnostic d ∧
      (d.withSource (some opened) none).PointsInto opened) ∧
    ∃ e, Expr.parse applied = .ok e ∧ (e.typeOf o).1 = .error f ∧
      (o.diagnose f).PointsInto applied := by
  intro opened fault applied o f
  have hopened : Expr.parse opened = .error fault := error?_eq_some.1 (by decide +kernel)
  have hrun : ((Expr.parse applied).toOption.bind fun e => error? (e.typeOf o).1) = some f := by
    decide +kernel
  obtain ⟨e, he, hf⟩ := Option.bind_eq_some_iff.1 hrun
  have he := toOption_eq_some.1 he
  have hf := error?_eq_some.1 hf
  refine ⟨⟨hopened, _, rfl, ?_⟩, e, he, hf, ?_⟩
  · exact (diagnostics_point_into_text opened none _).1 fault _ hopened rfl none
  · exact (diagnostics_point_into_text applied none _).2 e o {} _ f he rfl (Prod.ext hf rfl)

end SystemFOmega
