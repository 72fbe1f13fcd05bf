import SystemFOmega.Diagnostic.Basic
import SystemFOmega.Proofs.Token.Places

/-!
# What a report shows

An excerpt of a text at a place within it starts with the message (`excerpt_shows`). A derivation
trace stands behind everything else in a report (`Diagnostic.report_eq`), and an empty one leaves no
mark (`Diagnostic.report_of_clear`).
-/

namespace SystemFOmega

/-! ## Lines put together -/

namespace Text

variable (s a : String) (l : List String)

theorem prefix_intercalate : a.toList <+: (s.intercalate (a :: l)).toList := by
  rw [String.toList_intercalate]
  cases l with
  | nil => simp
  | cons b l => simp [List.intercalate]

theorem intercalate_ne_empty {a : String} (h : a ≠ "") : s.intercalate (a :: l) ≠ "" := by
  intro he
  have hprefix := prefix_intercalate s a l
  rw [he] at hprefix
  exact h (String.toList_eq_nil_iff.1 (List.prefix_nil.1 hprefix))

/-- A last line goes behind the others. -/
theorem intercalate_concat (t : String) :
    s.intercalate (a :: l ++ [t]) = s.intercalate (a :: l) ++ (s ++ t) := by
  induction l generalizing a with
  | nil =>
    rw [List.cons_append, List.nil_append, String.intercalate_cons_cons,
      String.intercalate_singleton, String.intercalate_singleton, String.append_assoc]
  | cons b l ih =>
    rw [List.cons_append, List.cons_append, String.intercalate_cons_cons, ← List.cons_append, ih b,
      String.intercalate_cons_cons]
    simp only [String.append_assoc]

end Text

/-! ## Excerpts -/

section

variable {text : String} {l : Location}

theorem Palette.infix_error (p : Palette) (message : String) :
    message.toList <:+: (p.paint .error ("Error: " ++ message)).toList :=
  ⟨(p.wrap .error "✗").toList ++ " Error: ".toList, [], by simp [paint, Style.mark?]⟩

/-- The parts of an excerpt. -/
theorem excerpt_eq (p : Palette) (h : l.Within text) (message : String) : ∃ body,
    excerpt p text l message = "\n".intercalate
      ((if message.isEmpty then [] else [p.paint .error ("Error: " ++ message)]) ++
        (p.paint .dim "at" ++ " " ++ l.display) :: body) := by
  have hline : (0 < l.line && l.line ≤ (sourceLines text).length) = true := by
    have := h.one_le_line
    have := h.line_le
    simp only [Bool.and_eq_true, decide_eq_true_eq]
    omega
  unfold excerpt
  simp only [hline, if_true, List.append_assoc]
  exact ⟨_, rfl⟩

/-- An excerpt at a place within the text is there, and the message stands in it. -/
theorem excerpt_shows (p : Palette) (h : l.Within text) (message : String) :
    message.toList <:+: (excerpt p text l message).toList ∧ excerpt p text l message ≠ "" := by
  obtain ⟨body, hbody⟩ := excerpt_eq p h message
  rw [hbody]
  split
  · rename_i hempty
    obtain rfl : message = "" := by simpa using hempty
    exact ⟨List.nil_infix, Text.intercalate_ne_empty _ _ (by simp)⟩
  · refine ⟨?_, Text.intercalate_ne_empty _ _ (by simp [Palette.paint, Style.mark?])⟩
    exact (p.infix_error message).trans (Text.prefix_intercalate _ _ _).isInfix

end

/-! ## Traces -/

theorem Trace.format_eq_empty {t : Trace} (h : t.steps = #[]) (p : Palette) : t.format p = "" := by
  rw [format, if_pos (by simp [h])]

theorem Trace.format_ne_empty {t : Trace} (h : t.steps ≠ #[]) (p : Palette) :
    t.format p ≠ "" := by
  rw [format, if_neg (by simpa using h)]
  refine Text.intercalate_ne_empty _ _ ?_
  show p.wrap .bold _ ≠ ""
  unfold Palette.wrap
  split
  · exact fun he => absurd (congrArg String.length he) (by simp)
  · decide

/-- A trace without steps is as good as none. -/
theorem Diagnostic.report_of_clear (d : Diagnostic) (p : Palette) {t : Trace} (h : t.steps = #[]) :
    d.report p t = d.report p {} := by
  simp only [report, Trace.format_eq_empty h, Trace.format_eq_empty (t := {}) rfl]

/-- A trace stands at the end of a report. -/
theorem Diagnostic.report_eq (d : Diagnostic) (p : Palette) {t : Trace} (h : t.steps ≠ #[]) :
    d.report p t = d.report p {} ++ ("\n" ++ t.format p) := by
  unfold report
  simp only [Trace.format_eq_empty (t := {}) rfl, String.isEmpty_iff, Trace.format_ne_empty h,
    if_false, if_true, List.append_nil]
  split <;> exact Text.intercalate_concat _ _ _ _

end SystemFOmega
