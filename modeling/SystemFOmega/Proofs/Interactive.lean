import Mathlib.Data.List.Induction
import Mathlib.Tactic.ByContra
import SystemFOmega.Interactive
import SystemFOmega.Proofs.Checker.Quiet
import SystemFOmega.Proofs.Diagnostic.Report

/-!
# What a line of a session depends on

A line prints what it would print as the first line of a session with the current settings, with one
exception. A line that is checked starts with a clear trace (`Checking`), but `:reduce` and `:ast`
do not check their text (`Reading`), and if they end in a diagnostic, the report shows the trace of
the last line that was checked (`Recorded`). `Interactive.feed_after` says that this is all that
goes from one line to another.
-/

namespace SystemFOmega

open Run

/-! ## Jobs -/

/-- A trace that is off records nothing, also where the strategy is refused. -/
theorem Checker.Request.typeOf_trace (q : Checker.Request) (e : Expr) {tr : Trace}
    (htr : tr.enabled = false) : (q.typeOf e tr).2 = tr := by
  unfold typeOf
  cases q.options with
  | error r => rfl
  | ok o =>
    have htrace : (e.typeOf o tr).2 = tr := Expr.typeOf_trace e htr
    dsimp only
    split <;> rename_i hrun <;> rwa [hrun] at htrace

/-- The transcript `t` after the output `out`, with its trace changed by `g`. -/
def Transcript.after (out : String) (g : Trace → Trace) (t : Transcript) : Transcript :=
  ⟨out ++ t.out, g t.trace⟩

namespace Job

variable {out : String} {g : Trace → Trace}

theorem writeLine_commutes (text : String) :
    Commutes (Transcript.after out g) (writeLine text) :=
  .of_modify fun _ => congrArg (Transcript.mk · _) String.append_assoc

theorem parse_commutes (source file : String) :
    Commutes (Transcript.after out g) (parse source file) := by
  unfold parse
  split
  · exact .pure _
  · exact .throw _

/-- The trace is that of this check. -/
theorem check_commutes (p : Palette) (s : Settings) (source file : String) (e : Expr) :
    Commutes (Transcript.after out id) (check p s source file e) := by
  unfold check
  refine .bind (.of_modify fun _ => rfl) fun _ => ?_
  split
  · split
    · exact .bind (writeLine_commutes _) fun _ => .pure _
    · exact .bind (.pure _) fun _ => .pure _
  · exact .throw _

theorem reduce_commutes (p : Palette) (s : Settings) (e : Expr) :
    Commutes (Transcript.after out g) (reduce p s e) := by
  unfold reduce
  split
  · exact .throw _
  · split
    · exact .throw _
    · split
      · refine .bind (.forIn _ fun b => ?_) fun _ => .pure _
        exact .bind (writeLine_commutes _) fun _ => .pure _
      · exact .pure _

end Job

/-- A job that goes on alike with every trace leaves the trace alone. -/
theorem Job.keeps_trace {α : Type} {job : Job α} (h : ∀ g, Commutes (Transcript.after "" g) job)
    (tr : Trace) : Maintains (fun t => t.trace = tr) job := by
  rintro t rfl
  have hsame : t.after "" (fun _ => t.trace) = t := by simp [Transcript.after]
  have hrun := h (fun _ => t.trace) t
  rw [hsame] at hrun
  rw [hrun]
  cases job t <;> rfl

/-- A job that records nothing in a clear trace. -/
abbrev Job.Silent {α : Type} (job : Job α) : Prop :=
  Maintains (fun t : Transcript => t.trace.steps = #[]) job

theorem Job.silent_of_commutes {α : Type} {job : Job α}
    (h : ∀ g, Commutes (Transcript.after "" g) job) : job.Silent := by
  intro t ht
  show (endState (job t)).trace.steps = #[]
  rw [Job.keeps_trace h t.trace t rfl, ht]

namespace Interactive

/-- A job that checks a text: it starts with a clear trace, and records nothing unless it is
verbose. -/
structure Checking (job : Settings → Job Unit) : Prop where
  appends : ∀ s out, Commutes (Transcript.after out id) (job s)
  clears : ∀ s (t : Transcript) tr, job s { t with trace := tr } = job s t
  silent : ∀ s : Settings, s.verbose = false → (job s).Silent

/-- A job that does not look at the trace and leaves it alone. -/
def Reading (job : Settings → Job Unit) : Prop :=
  ∀ s out g, Commutes (Transcript.after out g) (job s)

section

variable (p : Palette) (source file : String)

theorem check_commutes (s : Settings) (out : String) :
    Commutes (Transcript.after out id) (check p source file s) :=
  .bind (.of_modify fun _ => rfl) fun _ =>
    .bind (Job.parse_commutes source file) fun _ =>
      .bind (Job.check_commutes p s source file _) fun _ => .pure _

theorem check_silent {s : Settings} (hs : s.verbose = false) :
    (check p source file s).Silent := by
  refine .bind (fun _ _ => rfl) fun _ => ?_
  refine .bind (Job.silent_of_commutes fun _ => Job.parse_commutes source file) fun e => ?_
  refine .bind (.bind (fun t _ => ?_) fun _ => ?_) fun _ => .pure _
  · show (Checker.Request.typeOf _ e { enabled := s.verbose }).2.steps = #[]
    rw [Checker.Request.typeOf_trace _ e hs]
  · split
    · rw [hs]
      exact .bind (.pure _) fun _ => .pure _
    · exact .throw _

theorem evaluate_checking : Checking (evaluate p source file) where
  appends s out := .bind (check_commutes p source file s out) fun _ =>
    .bind (Job.reduce_commutes p s _) fun _ => Job.writeLine_commutes _
  clears _ _ _ := rfl
  silent s hs := .bind (check_silent p source file hs) fun _ =>
    Job.silent_of_commutes fun _ =>
      .bind (Job.reduce_commutes p s _) fun _ => Job.writeLine_commutes _

theorem showType_checking : Checking (showType p source) where
  appends s out := .bind (check_commutes p source origin s out) fun _ => Job.writeLine_commutes _
  clears _ _ _ := rfl
  silent _ hs := .bind (check_silent p source origin hs) fun _ =>
    Job.silent_of_commutes fun _ => Job.writeLine_commutes _

theorem showReduction_reading : Reading (showReduction p source) := fun s _ _ =>
  .bind (Job.parse_commutes source origin) fun _ =>
    .bind (Job.reduce_commutes p s _) fun _ => Job.writeLine_commutes _

theorem showTree_reading : Reading (fun _ => showTree source) := fun _ _ _ =>
  .bind (Job.parse_commutes source origin) fun _ => Job.writeLine_commutes _

end

/-! ## What a line asks for -/

/-- Whether a text is checked for a line: that of an expression, or the one that `:type` or `:load`
is given. -/
def checks (files : Files) (line : String) : Bool :=
  if isCommand line then
    let (word, argument) := splitCommand line
    !argument.isEmpty && (word = ":type" || word = ":t" ||
      word = ":load" && Files.isPath argument && (files argument).toOption.isSome)
  else !(Text.strip line).isEmpty

/-- The job of a line whose text is not checked. -/
def unchecked? (p : Palette) (line : String) : Option (Settings → Job Unit) :=
  let (word, argument) := splitCommand line
  if !isCommand line || argument.isEmpty then none
  else if word = ":reduce" || word = ":r" then some (showReduction p argument)
  else if word = ":ast" then some fun _ => showTree argument
  else none

/-- The session `s` after another one that has printed `out` and taken the lines `history`, with its
trace changed by `g`. -/
def after (out : String) (history : List String) (g : Trace → Trace) (s : Interactive) :
    Interactive :=
  { s with history := history ++ s.history, transcript := s.transcript.after out g }

section

variable {p : Palette} {files : Files} {line : String} {out : String} {history : List String}
  {g : Trace → Trace}

theorem writeLine_commutes (text : String) : Commutes (after out history g) (writeLine text) :=
  .of_modify fun s => by simp [after, Transcript.after, Transcript.write, String.append_assoc]

theorem toggleVerbose_commutes : Commutes (after out history g) toggleVerbose :=
  fun s => writeLine_commutes _ { s with settings := { s.settings with verbose := _ } }

theorem setStrategy_commutes (word : String) :
    Commutes (after out history g) (setStrategy p word) := by
  unfold setStrategy
  split
  · exact fun s => writeLine_commutes _ s
  · split
    · exact .bind (.of_modify fun _ => rfl) fun _ => writeLine_commutes _
    · exact writeLine_commutes _

section

variable {job : Settings → Job Unit} {s : Interactive} {t : Transcript}

theorem guarded_of_ok (h : job s.settings s.transcript = .ok () t) :
    guarded p job s = .ok () { s with transcript := t } := by
  unfold guarded EStateM.run
  rw [h]

/-- A diagnostic is reported with the trace there is. -/
theorem guarded_of_diagnostic {d : Diagnostic}
    (h : job s.settings s.transcript = .error (.diagnostic d) t) :
    guarded p job s = .ok () { s with transcript := t.write (d.report p t.trace ++ "\n") } := by
  unfold guarded EStateM.run
  rw [h]
  rfl

theorem guarded_of_refusal {r : Refusal} (h : job s.settings s.transcript = .error (.refusal r) t) :
    guarded p job s = .error (.refusal r) { s with transcript := t } := by
  unfold guarded EStateM.run
  rw [h]

end

theorem guarded_trace (p : Palette) (job : Settings → Job Unit) (s : Interactive) :
    (endState (guarded p job s)).transcript.trace =
      (endState (job s.settings s.transcript)).trace := by
  cases h : job s.settings s.transcript with
  | ok _ t => rw [guarded_of_ok h]; rfl
  | error f t =>
    cases f with
    | diagnostic d => rw [guarded_of_diagnostic h]; rfl
    | refusal r => rw [guarded_of_refusal h]; rfl

theorem guarded_commutes {job : Settings → Job Unit}
    (h : ∀ s, Commutes (Transcript.after out id) (job s)) :
    Commutes (after out history id) (guarded p job) := by
  intro s
  have hrun := h s.settings s.transcript
  cases hjob : job s.settings s.transcript with
  | ok _ t =>
    rw [hjob] at hrun
    rw [guarded_of_ok hjob, guarded_of_ok (s := s.after out history id) hrun]
    rfl
  | error f t =>
    rw [hjob] at hrun
    cases f with
    | diagnostic d =>
      rw [guarded_of_diagnostic hjob, guarded_of_diagnostic (s := s.after out history id) hrun]
      simp [onState, after, Transcript.after, Transcript.write, String.append_assoc]
    | refusal r =>
      rw [guarded_of_refusal hjob, guarded_of_refusal (s := s.after out history id) hrun]
      rfl

/-- What the work on a line comes to: a text is checked, after the line has been remembered or not;
or it does another job; or it does no job at all, and then the trace plays no part. -/
inductive Turn (p : Palette) (act : Act Unit) (checks : Bool)
    (unchecked? : Option (Settings → Job Unit)) : Prop
  | check {job : Settings → Job Unit} {lines : List String} : checks = true → unchecked? = none →
    Checking job → (∀ s, act s = guarded p job { s with history := s.history ++ lines }) →
    Turn p act checks unchecked?
  | read {job : Settings → Job Unit} : checks = false → unchecked? = some job → Reading job →
    act = guarded p job → Turn p act checks unchecked?
  | idle : checks = false → unchecked? = none →
    (∀ out history g, Commutes (after out history g) act) → Turn p act checks unchecked?

/-- A job that checks a text, for a line that is not remembered. -/
theorem Turn.guarded {job : Settings → Job Unit} (h : Checking job) :
    Turn p (guarded p job) true none :=
  @Turn.check _ _ _ _ job [] rfl rfl h fun s => by rw [List.append_nil]

theorem load_turn (p : Palette) (files : Files) (path : String) :
    Turn p (load p files path) (Files.isPath path && (files path).toOption.isSome) none := by
  unfold load
  cases Files.isPath path with
  | false => exact .idle rfl rfl fun _ _ _ => .throw _
  | true =>
    cases files path with
    | ok text => exact .guarded (evaluate_checking p text path)
    | error f => exact .idle rfl rfl fun _ _ _ => writeLine_commutes _

theorem command_turn (p : Palette) (files : Files) {line : String} (hc : isCommand line = true) :
    Turn p (command p files line) (checks files line) (unchecked? p line) := by
  unfold command checks unchecked?
  obtain ⟨word, argument⟩ := splitCommand line
  simp only [hc, withArgument]
  cases ha : argument.isEmpty with
  | true =>
    simp only [Bool.not_true, Bool.false_and, Bool.false_or, if_true]
    -- without an argument no line is checked or read
    refine .idle rfl rfl fun out history g => ?_
    split
    · exact .bind (writeLine_commutes _) fun _ => .throw _
    · exact .bind (writeLine_commutes _) fun _ => .throw _
    all_goals try exact writeLine_commutes _
    · exact setStrategy_commutes _
    · exact toggleVerbose_commutes
    · exact .bind (writeLine_commutes _) fun _ => writeLine_commutes _
  | false =>
    split <;> simp only [String.reduceEq, decide_false, decide_true, Bool.not_false, Bool.not_true,
      Bool.false_and, Bool.true_and, Bool.and_false, Bool.and_self, Bool.false_or, Bool.or_false,
      Bool.or_true, Bool.or_self, Bool.false_eq_true, if_true, if_false]
    · exact .idle rfl rfl fun _ _ _ => .bind (writeLine_commutes _) fun _ => .throw _
    · exact .idle rfl rfl fun _ _ _ => .bind (writeLine_commutes _) fun _ => .throw _
    · exact .idle rfl rfl fun _ _ _ => writeLine_commutes _
    · exact .idle rfl rfl fun _ _ _ => writeLine_commutes _
    · exact .guarded (showType_checking p argument)
    · exact .guarded (showType_checking p argument)
    · exact .read rfl rfl (showReduction_reading p argument) rfl
    · exact .read rfl rfl (showReduction_reading p argument) rfl
    · exact .read rfl rfl (showTree_reading argument) rfl
    · exact .idle rfl rfl fun _ _ _ => setStrategy_commutes _
    · exact .idle rfl rfl fun _ _ _ => toggleVerbose_commutes
    · exact load_turn p files argument
    · rename_i hty ht hre hr hast _ _ hload
      simp only [eq_false hty, eq_false ht, eq_false hre, eq_false hr, eq_false hast,
        eq_false hload, decide_false, Bool.or_self, Bool.false_and, Bool.false_eq_true, if_false]
      exact .idle rfl rfl fun _ _ _ => .bind (writeLine_commutes _) fun _ => writeLine_commutes _

theorem feed_turn (p : Palette) (files : Files) (line : String) :
    Turn p (feed p files line) (checks files line) (unchecked? p line) := by
  cases hc : isCommand line with
  | true =>
    rw [show feed p files line = command p files line by simp [feed, hc]]
    exact command_turn p files hc
  | false =>
    have hread : unchecked? p line = none := by simp [unchecked?, hc]
    rw [hread]
    cases hb : (Text.strip line).isEmpty with
    | true =>
      rw [show checks files line = false by simp [checks, hc, hb]]
      exact .idle rfl rfl fun _ _ _ => by simpa [feed, hc, hb] using .pure _
    | false =>
      rw [show checks files line = true by simp [checks, hc, hb]]
      exact .check rfl rfl (evaluate_checking p line origin) fun s => by simp [feed, hc, hb]; rfl

/-- The output and the history only grow, and what is added does not depend on them. -/
theorem feed_commutes (p : Palette) (files : Files) (line out : String) (history : List String) :
    Commutes (after out history id) (feed p files line) := by
  cases feed_turn p files line with
  | check _ _ hjob hact =>
    intro s
    rw [hact, hact, ← guarded_commutes fun s => hjob.appends s out]
    simp [after]
  | read _ _ hjob hact =>
    rw [hact]
    exact guarded_commutes fun s => hjob s out id
  | idle _ _ h => exact h out history id

/-- A line that is checked does not see the trace. -/
theorem feed_clears (p : Palette) {files : Files} {line : String} (h : checks files line = true)
    (g : Settings) (tr : Trace) :
    feed p files line { settings := g, transcript := { trace := tr } } =
      feed p files line { settings := g } := by
  cases feed_turn p files line with
  | check _ _ hjob hact =>
    rw [hact, hact]
    unfold guarded EStateM.run
    rw [hjob.clears g {} tr]
  | read hc | idle hc => cases h.symm.trans hc

/-- A line that is not checked leaves the trace alone. -/
theorem feed_keeps_trace (p : Palette) {files : Files} {line : String}
    (h : checks files line = false) (tr : Trace) :
    Maintains (fun s => s.transcript.trace = tr) (feed p files line) := by
  cases feed_turn p files line with
  | check hc => cases h.symm.trans hc
  | read _ _ hjob hact =>
    intro s hs
    rw [hact, guarded_trace]
    exact Job.keeps_trace (hjob s.settings "") tr s.transcript hs
  | idle _ _ hact =>
    rintro s rfl
    have hsame : s.after "" [] (fun _ => s.transcript.trace) = s := by
      simp [after, Transcript.after]
    have hrun := hact "" [] (fun _ => s.transcript.trace) s
    rw [hsame] at hrun
    rw [hrun]
    cases feed p files line s <;> rfl

end

/-! ## Answers -/

/-- What a line does: what it prints, the settings it leaves, the lines it adds to the history, and
whether the session ends. -/
structure Answer where
  text : String
  settings : Settings
  remembered : List String
  stop : Option Stop
deriving DecidableEq

namespace Answer

/-- What the end of a run shows that has started with no output and no history. -/
def ofResult : EStateM.Result Stop Interactive Unit → Answer
  | .ok _ s => ⟨s.transcript.out, s.settings, s.history, none⟩
  | .error x s => ⟨s.transcript.out, s.settings, s.history, some x⟩

/-- The end of a run from `s` that gives the answer `a` and leaves the trace `tr`. -/
def onto (a : Answer) (s : Interactive) (tr : Trace) : EStateM.Result Stop Interactive Unit :=
  let s' : Interactive :=
    ⟨a.settings, s.history ++ a.remembered, ⟨s.transcript.out ++ a.text, tr⟩⟩
  match a.stop with
  | none => .ok () s'
  | some x => .error x s'

end Answer

/-- The session `s` without what has been printed and remembered. -/
def blank (s : Interactive) : Interactive :=
  { settings := s.settings, transcript := { trace := s.transcript.trace } }

/-- The answer to a line in the session `s`. -/
def answer (p : Palette) (files : Files) (line : String) (s : Interactive) : Answer :=
  .ofResult (feed p files line s.blank)

/-- The line does not have its text checked, and it ends in a diagnostic. -/
def FailsUnchecked (p : Palette) (g : Settings) (line : String) : Prop :=
  ∃ job d t, unchecked? p line = some job ∧ job g {} = .error (.diagnostic d) t

section

variable {p : Palette} {files : Files} {line : String} {s : Interactive}

theorem feed_eq_after (p : Palette) (files : Files) (line : String) (s : Interactive) :
    feed p files line s =
      onState (after s.transcript.out s.history id) (feed p files line s.blank) := by
  rw [← feed_commutes p files line s.transcript.out s.history]
  simp [after, blank, Transcript.after]

theorem feed_eq_onto (p : Palette) (files : Files) (line : String) (s : Interactive) :
    ∃ tr, feed p files line s = (answer p files line s).onto s tr := by
  unfold answer
  rw [feed_eq_after]
  cases feed p files line s.blank with
  | ok _ t => exact ⟨t.transcript.trace, rfl⟩
  | error x t => exact ⟨t.transcript.trace, rfl⟩

theorem Answer.ofResult_after (tr : Trace) (r : EStateM.Result Stop Interactive Unit) :
    ofResult (onState (after "" [] fun _ => tr) r) = ofResult r := by
  cases r <;> simp [onState, ofResult, after, Transcript.after]

/-- The answer to a line that does not have its text checked and ends in a diagnostic. -/
theorem answer_of_diagnostic {job : Settings → Job Unit} {d : Diagnostic} {t : Transcript}
    (hjob : Reading job) (hact : feed p files line = guarded p job)
    (h : job s.settings {} = .error (.diagnostic d) t) :
    answer p files line s =
      ⟨t.out ++ (d.report p s.transcript.trace ++ "\n"), s.settings, [], none⟩ := by
  have hrun := hjob s.settings "" (fun _ => s.transcript.trace) {}
  rw [h] at hrun
  unfold answer
  rw [hact, guarded_of_diagnostic hrun]
  simp [Answer.ofResult, blank, Transcript.after, Transcript.write]

/-- A line gives the answer of a fresh session, unless it reports an older trace. -/
theorem answer_eq_fresh (h : FailsUnchecked p s.settings line → s.transcript.trace.steps = #[]) :
    answer p files line s = answer p files line { settings := s.settings } := by
  cases feed_turn p files line with
  | check hc => exact congrArg Answer.ofResult (feed_clears p hc _ _)
  | @read job _ hread hjob hact =>
    have hrun := hjob s.settings "" (fun _ => s.transcript.trace) {}
    cases hfresh : job s.settings {} with
    | ok _ t =>
      rw [hfresh] at hrun
      unfold answer
      rw [hact, guarded_of_ok hrun, guarded_of_ok hfresh]
      simp [Answer.ofResult, blank, Transcript.after]
    | error f t =>
      cases f with
      | diagnostic d =>
        have hclear := h ⟨job, d, t, hread, hfresh⟩
        rw [answer_of_diagnostic hjob hact hfresh,
          answer_of_diagnostic (s := { settings := s.settings }) hjob hact hfresh,
          d.report_of_clear p hclear]
      | refusal r =>
        rw [hfresh] at hrun
        unfold answer
        rw [hact, guarded_of_refusal hrun, guarded_of_refusal hfresh]
        simp [Answer.ofResult, blank, Transcript.after]
  | idle _ _ hact =>
    have hrun := hact "" [] (fun _ => s.transcript.trace) { settings := s.settings }
    have hans := congrArg Answer.ofResult hrun
    rw [Answer.ofResult_after] at hans
    exact hans

/-- The older trace stands behind the report of a fresh session. -/
theorem answer_of_failsUnchecked (h : FailsUnchecked p s.settings line)
    (hs : s.transcript.trace.steps ≠ #[]) :
    ∃ report, (answer p files line { settings := s.settings }).text = report ++ "\n" ∧
      (answer p files line s).text = report ++ "\n" ++ s.transcript.trace.format p ++ "\n" := by
  obtain ⟨job, d, t, hread, hfresh⟩ := h
  cases feed_turn p files line with
  | check _ hnone | idle _ hnone => cases hnone.symm.trans hread
  | read _ hsome hjob hact =>
    obtain rfl := Option.some.inj (hread.symm.trans hsome)
    refine ⟨t.out ++ d.report p {}, ?_, ?_⟩
    · rw [answer_of_diagnostic (s := { settings := s.settings }) hjob hact hfresh,
        String.append_assoc]
    · rw [answer_of_diagnostic hjob hact hfresh, d.report_eq p hs]
      simp only [String.append_assoc]

end

/-! ## Sessions -/

/-- Takes lines, each after a prompt. -/
def feedEach (p : Palette) (files : Files) : List String → Act Unit
  | [] => return
  | line :: lines => do
    write (prompt p)
    feed p files line
    feedEach p files lines

/-- The trace that a line leaves in a fresh session. -/
def recorded (p : Palette) (files : Files) (g : Settings) (line : String) : Trace :=
  (endState (feed p files line { settings := g })).transcript.trace

/-- In a session that has started with the settings `g`, the last of the lines that was checked was
so in verbose mode and has left the trace `tr`, which is not empty. -/
inductive Recorded (p : Palette) (files : Files) (g : Settings) : List String → Trace → Prop
  | here {lines : List String} {line : String} {s : Interactive} :
    feedEach p files lines { settings := g } = .ok () s → s.settings.verbose = true →
    checks files line = true → (recorded p files s.settings line).steps ≠ #[] →
    Recorded p files g (lines ++ [line]) (recorded p files s.settings line)
  | before {lines : List String} {line : String} {tr : Trace} : Recorded p files g lines tr →
    checks files line = false → Recorded p files g (lines ++ [line]) tr

section

variable {p : Palette} {files : Files} {line : String} {lines : List String} {s s' : Interactive}

theorem feedEach_append (p : Palette) (files : Files) (lines lines' : List String) :
    feedEach p files (lines ++ lines') = (do feedEach p files lines; feedEach p files lines') := by
  induction lines with
  | nil => rfl
  | cons line lines ih =>
    rw [List.cons_append, feedEach, ih]
    simp only [feedEach, bind_assoc]

/-- The whole run goes on where some of its lines have led. -/
theorem feedAll_append (p : Palette) (files : Files) (lines rest : List String) :
    feedAll p files (lines ++ rest) = (do feedEach p files lines; feedAll p files rest) := by
  induction lines with
  | nil => rfl
  | cons line lines ih =>
    rw [List.cons_append, feedAll, ih]
    simp only [feedEach, bind_assoc]

/-- After a line that was checked, the trace is the one of that line. -/
theorem trace_of_checks (hc : checks files line = true) (h : feed p files line s = .ok () s') :
    s'.transcript.trace = recorded p files s.settings line := by
  rw [feed_eq_after, blank, feed_clears p hc] at h
  unfold recorded
  cases hf : feed p files line { settings := s.settings } with
  | ok _ t =>
    rw [hf] at h
    obtain ⟨-, rfl⟩ := EStateM.Result.ok.inj h
    rfl
  | error x t =>
    rw [hf] at h
    cases h

theorem trace_of_not_checks (hc : checks files line = false) (h : feed p files line s = .ok () s') :
    s'.transcript.trace = s.transcript.trace := by
  have hend := feed_keeps_trace p hc s.transcript.trace s rfl
  rwa [h] at hend

/-- One more line, and the trace after it. -/
theorem feedEach_concat (h : feedEach p files (lines ++ [line]) s = .ok () s') :
    ∃ s₁, feedEach p files lines s = .ok () s₁ ∧
      (checks files line = true → s'.transcript.trace = recorded p files s₁.settings line) ∧
      (checks files line = false → s'.transcript.trace = s₁.transcript.trace) := by
  rw [feedEach_append] at h
  obtain ⟨_, s₁, h₁, h⟩ := bind_ok.1 h
  obtain ⟨_, s₂, hwrite, h⟩ := bind_ok.1 h
  obtain ⟨-, rfl⟩ := EStateM.Result.ok.inj hwrite
  obtain ⟨_, s₃, hfeed, hend⟩ := bind_ok.1 h
  obtain ⟨-, rfl⟩ := pure_ok.1 hend
  refine ⟨s₁, h₁, fun hc => ?_, fun hc => ?_⟩
  · have htr := trace_of_checks hc hfeed
    exact htr
  · have htr := trace_of_not_checks hc hfeed
    exact htr

/-- Nothing is recorded unless the mode is verbose. -/
theorem verbose_of_recorded {g : Settings} (hc : checks files line = true)
    (h : (recorded p files g line).steps ≠ #[]) : g.verbose = true := by
  cases hg : g.verbose with
  | true => rfl
  | false =>
    cases feed_turn p files line with
    | check _ _ hjob hact =>
      refine absurd ?_ h
      unfold recorded
      rw [hact, guarded_trace]
      exact hjob.silent g hg {} rfl
    | read hr | idle hr => cases hc.symm.trans hr

/-- The trace that a session holds has been left by one of its lines, unless it is empty. -/
theorem recorded_of_steps {g : Settings} (h : feedEach p files lines { settings := g } = .ok () s)
    (hs : s.transcript.trace.steps ≠ #[]) : Recorded p files g lines s.transcript.trace := by
  induction lines using List.reverseRecOn generalizing s with
  | nil =>
    obtain ⟨-, rfl⟩ := pure_ok.1 h
    exact absurd rfl hs
  | append_singleton lines line ih =>
    obtain ⟨s₁, h₁, hchecked, hkept⟩ := feedEach_concat h
    cases hc : checks files line with
    | true =>
      rw [hchecked hc] at hs ⊢
      exact .here h₁ (verbose_of_recorded hc hs) hc hs
    | false =>
      rw [hkept hc] at hs ⊢
      exact .before (ih h₁ hs) hc

/-- The trace of the last line that was checked is the one that the session holds. -/
theorem Recorded.trace_eq {g : Settings} {tr : Trace} (h : Recorded p files g lines tr)
    (hrun : feedEach p files lines { settings := g } = .ok () s) :
    s.transcript.trace = tr ∧ tr.steps ≠ #[] := by
  induction h generalizing s with
  | here h _ hc hs =>
    obtain ⟨s₁, h₁, hchecked, -⟩ := feedEach_concat hrun
    obtain ⟨-, rfl⟩ := EStateM.Result.ok.inj (h.symm.trans h₁)
    exact ⟨hchecked hc, hs⟩
  | before _ hc ih =>
    obtain ⟨s₁, h₁, -, hkept⟩ := feedEach_concat hrun
    obtain ⟨htr, hs⟩ := ih h₁
    exact ⟨(hkept hc).trans htr, hs⟩

/-- A line that comes after others gives the answer of a fresh session with the same settings,
unless it reports the trace of the last line before it that was checked: it is then a line that is
not checked and that ends in a diagnostic, and the trace stands at the end of the report. -/
theorem feed_after {before : List String} {g : Settings}
    (h : feedEach p files before { settings := g } = .ok () s) (line : String) :
    (∀ rest, feedAll p files (before ++ rest) { settings := g } = feedAll p files rest s) ∧
    (∃ tr, feed p files line s = (answer p files line s).onto s tr) ∧
    (answer p files line s = answer p files line { settings := s.settings } ↔
      ¬ (FailsUnchecked p s.settings line ∧ ∃ tr, Recorded p files g before tr)) ∧
    ∀ tr, FailsUnchecked p s.settings line → Recorded p files g before tr →
      ∃ report, (answer p files line { settings := s.settings }).text = report ++ "\n" ∧
        (answer p files line s).text = report ++ "\n" ++ tr.format p ++ "\n" := by
  have hstale : ∀ tr, FailsUnchecked p s.settings line → Recorded p files g before tr →
      ∃ report, (answer p files line { settings := s.settings }).text = report ++ "\n" ∧
        (answer p files line s).text = report ++ "\n" ++ tr.format p ++ "\n" := by
    intro tr hfails htr
    obtain ⟨rfl, hsteps⟩ := htr.trace_eq h
    exact answer_of_failsUnchecked hfails hsteps
  refine ⟨fun rest => ?_, feed_eq_onto p files line s, ⟨?_, fun hnot => ?_⟩, hstale⟩
  · rw [feedAll_append]
    exact bind_of_ok _ h
  · rintro hsame ⟨hfails, tr, htr⟩
    obtain ⟨report, hfresh, hlater⟩ := hstale tr hfails htr
    rw [hsame, hfresh] at hlater
    -- the second text is longer
    have hlen := congrArg String.length hlater
    have hone : "\n".length = 1 := rfl
    simp only [String.length_append] at hlen
    omega
  · refine answer_eq_fresh fun hfails => ?_
    by_contra hsteps
    exact hnot ⟨hfails, _, recorded_of_steps h hsteps⟩

/-- The session after `5` in verbose mode. -/
def afterFive : Interactive :=
  endState (feedEach ⟨false⟩ (Files.ofList []) [":verbose", "5"] {})

theorem afterFive_eq :
    feedEach ⟨false⟩ (Files.ofList []) [":verbose", "5"] {} = .ok () afterFive := by
  have hrun : (feedEach ⟨false⟩ (Files.ofList []) [":verbose", "5"]).run' {} = some () := by
    decide +kernel
  obtain ⟨s, hs⟩ := run'_eq_some.1 hrun
  rw [afterFive, hs]
  rfl

/-- After `5` in verbose mode, a line that is checked gives the answer of a fresh session. -/
theorem feed_after_five :
    feedEach ⟨false⟩ (Files.ofList []) [":verbose", "5"] {} = .ok () afterFive ∧
    (answer ⟨false⟩ (Files.ofList []) ":type x" afterFive =
        answer ⟨false⟩ (Files.ofList []) ":type x" { settings := afterFive.settings } ↔
      ¬ (FailsUnchecked ⟨false⟩ afterFive.settings ":type x" ∧
        ∃ tr, Recorded ⟨false⟩ (Files.ofList []) {} [":verbose", "5"] tr)) :=
  ⟨afterFive_eq, (feed_after afterFive_eq ":type x").2.2.1⟩

/-- After `5` in verbose mode, the report on a text that cannot be read shows the trace of `5`. -/
theorem trace_reported_again :
    feedEach ⟨false⟩ (Files.ofList []) [":verbose", "5"] {} = .ok () afterFive ∧
    (answer ⟨false⟩ (Files.ofList []) ":ast (" { settings := afterFive.settings }).text =
      "✗ Error: Parse error at 1:2: Expected expression, got EOF\nat <repl>:1:2\n" ∧
    (answer ⟨false⟩ (Files.ofList []) ":ast (" afterFive).text =
      "✗ Error: Parse error at 1:2: Expected expression, got EOF\nat <repl>:1:2\n" ++
        "\nType Derivation Trace:\n\nStep 1: Inferring type of Literal: 5\n  at <repl>:1:1\n" ++
        "\nStep 2: Inferred Literal\n  at <repl>:1:1\n  result: Int\n" :=
  ⟨afterFive_eq, by decide +kernel, by decide +kernel⟩

end

end Interactive

end SystemFOmega
