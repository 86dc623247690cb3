import Scriptlet.Host
import Scriptlet.Proofs.Sequence

/-!
Reports. The command goes through the stages on its own, to print what it has after each of them.
Its report is still that of the run of the text, and with debugging only the standard output has
more in it, in front.
-/

namespace Scriptlet

/-- A source holds a text: an inline source its own, and a file the one of which it has the bytes in
UTF-8. -/
inductive Source.Holds : Source → String → Prop where
  | inline {text : String} : Holds (.inline text) text
  | file {name text : String} : Holds (.file name (some text.toUTF8)) text

/-- The report of an outcome: the value on standard output, or what is wrong on the error output. -/
def Report.ofOutcome : Except Diagnostic Value → Report
  | .ok v => ⟨v.render ++ "\n", "", 0⟩
  | .error d => ⟨"", d.render ++ "\n", 1⟩

/-- The report with a trace in front of the standard output. -/
def Report.after (trace : String) (report : Report) : Report :=
  { report with stdout := trace ++ report.stdout }

/-- What debugging shows of a text: nothing if it has no tokens, its tokens if they are no program,
and otherwise its tokens and then each statement on a line. The tokens stand under a heading, each
set in on a line, between two empty lines. -/
inductive Traced (text : String) : String → Prop where
  | untokenized {error : SyntaxError} : tokenize text = .error error → Traced text ""
  | unparsed {tokens : List Token} {error : SyntaxError} : tokenize text = .ok tokens →
      parse tokens = .error error →
      Traced text ("\nTokens: \n" ++ String.join (tokens.map ("  " ++ ·.render ++ "\n")) ++ "\n")
  | parsed {tokens : List Token} {program : List Expr} : tokenize text = .ok tokens →
      parse tokens = .ok program →
      Traced text ("\nTokens: \n" ++ String.join (tokens.map ("  " ++ ·.render ++ "\n")) ++ "\n" ++
        String.join (program.map (·.render ++ "\n")))

/-- A diagnostic reads as the error that stopped the stage it comes from. -/
inductive Quotes (text : String) (d : Diagnostic) : Prop where
  | syntaxError {error : SyntaxError} : read text = .error error → d.render = error.render →
      Quotes text d
  | typeError {program : List Expr} {error : TypeError} : read text = .ok program →
      interpret program = .error error → d.render = error.render → Quotes text d

variable {source : Source} {text trace : String} {debug : Bool} {d : Diagnostic}

theorem render_ofSyntaxError (error : SyntaxError) :
    (Diagnostic.ofSyntaxError error).render = error.render := by
  simp [Diagnostic.render, Diagnostic.excerpt, Diagnostic.ofSyntaxError, SyntaxError.render,
    String.append_assoc]

theorem render_ofTypeError (error : TypeError) :
    (Diagnostic.ofTypeError error).render = error.render := by
  simp [Diagnostic.render, Diagnostic.excerpt, Diagnostic.ofTypeError]

theorem quotes_of_run (h : run text = .error d) : Quotes text d := by
  cases hr : read text with
  | error error =>
    rw [run_of_refused hr] at h
    cases h
    exact .syntaxError hr (render_ofSyntaxError error)
  | ok program =>
    obtain ⟨error, hi, rfl⟩ := (run_eq_error hr).mp h
    exact .typeError hr hi (render_ofTypeError error)

namespace Host

theorem fromUTF8?_eq_some {bytes : ByteArray} :
    String.fromUTF8? bytes = some text ↔ bytes = text.toUTF8 := by
  constructor
  · intro h
    rw [String.fromUTF8?] at h
    split at h
    · cases h
      rfl
    · cases h
  · rintro rfl
    exact dif_pos text.isValidUTF8

/-- A file holds the text it is decoded to. -/
theorem holds_file {name : String} {bytes : Option ByteArray} :
    (Source.file name bytes).Holds text ↔ bytes.bind String.fromUTF8? = some text := by
  constructor
  · generalize hs : Source.file name bytes = source
    intro h
    cases h with
    | inline => cases hs
    | file =>
      cases hs
      exact fromUTF8?_eq_some.mpr rfl
  · intro h
    obtain ⟨content, rfl, hc⟩ := Option.bind_eq_some_iff.mp h
    rw [fromUTF8?_eq_some.mp hc]
    exact .file

theorem answer_of_holds (h : source.Holds text) : answer debug source = execute debug text := by
  cases source with
  | inline text' =>
    cases h
    rfl
  | file name bytes => simp only [answer, holds_file.mp h]

theorem answer_of_unreadable (h : ∀ text, ¬ source.Holds text) :
    ∃ name, answer debug source = unreadable name := by
  cases source with
  | inline text => exact (h text .inline).elim
  | file name bytes =>
    cases hb : bytes.bind String.fromUTF8? with
    | none => exact ⟨name, by simp only [answer, hb]⟩
    | some text => exact (h text (holds_file.mpr hb)).elim

theorem shown_empty : shown debug "" = "" := by
  cases debug <;> rfl

theorem shown_append {a b : String} : shown debug (a ++ b) = shown debug a ++ shown debug b := by
  cases debug <;> rfl

theorem tokenDump_eq (tokens : List Token) : tokenDump tokens =
    "\nTokens: \n" ++ String.join (tokens.map ("  " ++ ·.render ++ "\n")) ++ "\n" := by
  simp [tokenDump, lines, Function.comp_def]

theorem programDump_eq (program : List Expr) :
    programDump program = String.join (program.map (·.render ++ "\n")) := by
  simp [programDump, lines, Function.comp_def]

/-- The stages of the command are those of the run, and what is shown between them is in front. -/
theorem execute_traced (text : String) : ∃ trace, Traced text trace ∧
    ∀ debug, execute debug text = (Report.ofOutcome (run text)).after (shown debug trace) := by
  cases ht : tokenize text with
  | error error =>
    refine ⟨_, .untokenized ht, fun debug => ?_⟩
    rw [run_of_refused (read_of_untokenized ht)]
    simp [execute, ht, failure, Report.ofOutcome, Report.after, shown_empty]
  | ok tokens =>
    have hr := read_of_tokenize ht
    cases hp : parse tokens with
    | error error =>
      refine ⟨_, .unparsed ht hp, fun debug => ?_⟩
      rw [run_of_refused (hr.trans hp), ← tokenDump_eq]
      simp [execute, ht, hp, failure, Report.ofOutcome, Report.after]
    | ok program =>
      refine ⟨_, .parsed ht hp, fun debug => ?_⟩
      rw [run_of_read (hr.trans hp), ← tokenDump_eq, ← programDump_eq, shown_append]
      cases hi : interpret program <;>
        simp [execute, ht, hp, hi, failure, Except.mapError, Report.ofOutcome, Report.after,
          String.append_assoc]

/-- Without debugging the report is that of the run. -/
theorem execute_plain (text : String) : execute false text = .ofOutcome (run text) := by
  obtain ⟨trace, _, h⟩ := execute_traced text
  rw [h false]
  simp [shown, Report.after]

/-- With debugging a trace is in front of it. -/
theorem execute_debug (text : String) :
    ∃ trace, Traced text trace ∧ execute true text = (execute false text).after trace := by
  obtain ⟨trace, ht, h⟩ := execute_traced text
  exact ⟨trace, ht, by rw [execute_plain, h true, shown, if_pos rfl]⟩

/-- The command reports what the run of the text gives. A value is on standard output with status
zero, and what is wrong on the error output, in the words of the error itself. Debugging puts a
trace in front of the standard output and changes nothing else. A source that holds no text gives
no standard output and status one. -/
theorem answer_faithful (source : Source) (debug : Bool) :
    (∀ text, source.Holds text →
      ((answer debug source).status = 0 ↔ ∃ v, run text = .ok v) ∧
      (∀ v, run text = .ok v → answer false source = ⟨v.render ++ "\n", "", 0⟩) ∧
      (∀ d, run text = .error d →
        answer false source = ⟨"", d.render ++ "\n", 1⟩ ∧ Quotes text d) ∧
      ∃ trace, Traced text trace ∧ answer true source = (answer false source).after trace) ∧
    ((∀ text, ¬ source.Holds text) →
      (answer debug source).stdout = "" ∧ (answer debug source).status = 1) := by
  constructor
  · intro text h
    simp only [answer_of_holds h]
    refine ⟨?_, ?_, ?_, execute_debug text⟩
    · obtain ⟨trace, _, htrace⟩ := execute_traced text
      rw [htrace debug, Report.after]
      cases run text <;> simp [Report.ofOutcome]
    · intro v hv
      rw [execute_plain, hv, Report.ofOutcome]
    · intro d hd
      rw [execute_plain, hd, Report.ofOutcome]
      exact ⟨rfl, quotes_of_run hd⟩
  · intro h
    obtain ⟨name, hname⟩ := answer_of_unreadable h
    rw [hname]
    exact ⟨rfl, rfl⟩

/-- A program that fails in its second statement, in a file. -/
def negated : String :=
  "1;\n!x"

def negatedFile : Source :=
  .file "negated" (some negated.toUTF8)

/-- What debugging shows of it. -/
def negatedTrace : String :=
  "\nTokens: \n" ++
    "  Line 1: ^1^  Integer\n" ++
    "  Line 1: ^;^  SemiColon\n" ++
    "  Line 2: ^!^  Exclamation\n" ++
    "  Line 2: ^x^  Identifier\n" ++
    "  Line 2: ^^  Eof\n" ++
    "\n[1]\n(! [x])\n"

/-- A file that ends within a character. -/
def truncatedFile : Source :=
  .file "truncated" (some ⟨#[0x31, 0xc3]⟩)

theorem answer_faithful_negated :
    (answer true negatedFile).status = 1 ∧
      (answer true negatedFile).stderr = "TypeError: unknown expression on line 2\n" ∧
      Traced negated (answer true negatedFile).stdout ∧
      (answer true negatedFile).stdout = negatedTrace ∧
      (answer true truncatedFile).stdout = "" := by
  have hd : run negated =
      .error ⟨.typeError, "TypeError: unknown expression on line 2", 2, none, none⟩ := by
    decide +kernel
  have hrender : Diagnostic.render
      ⟨.typeError, "TypeError: unknown expression on line 2", 2, none, none⟩ ++ "\n" =
        "TypeError: unknown expression on line 2\n" := by
    decide +kernel
  have hbad : ∀ text, ¬ truncatedFile.Holds text := by
    intro text h
    have hnone : String.fromUTF8? ⟨#[0x31, 0xc3]⟩ = none := by decide +kernel
    have hsome : String.fromUTF8? ⟨#[0x31, 0xc3]⟩ = some text := holds_file.mp h
    rw [hnone] at hsome
    cases hsome
  obtain ⟨_, _, hfail, trace, ht, htrue⟩ := (answer_faithful negatedFile true).1 negated .file
  have hstdout : (answer true negatedFile).stdout = trace := by
    rw [htrue, (hfail _ hd).1, Report.after, String.append_empty]
  have hshown : (answer true negatedFile).stdout = negatedTrace := by
    decide +kernel
  rw [hstdout] at hshown
  rw [hstdout, htrue, (hfail _ hd).1]
  exact ⟨rfl, hrender, ht, hshown, ((answer_faithful truncatedFile true).2 hbad).1⟩

end Host

end Scriptlet
