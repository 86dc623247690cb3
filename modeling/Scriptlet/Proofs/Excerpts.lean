import Scriptlet.Proofs.Blame
import Scriptlet.Proofs.Carets
import Scriptlet.Proofs.Reports

/-!
The layout of a syntax error: the line, a caret under the column and a message, each on a row of its
own. A line that the scanner shows is one row of the text. A line put together from tokens is one
row unless a lexeme in it goes over the end of the line, since each lexeme is put there whole. The
caret is then below the last row of that lexeme, and not below the row it points at.
-/

namespace Scriptlet

open Token

/-- The rows of a text that is shown. -/
def rows (text : String) : List (List Char) :=
  text.toList.splitOn '\n'

/-- Some token of the text starts on the line and ends on a later one. -/
def Overruns (text : String) (line : Nat) : Prop :=
  ∃ tokens, tokenize text = .ok tokens ∧ ∃ t ∈ tokens, t.line = line ∧ '\n' ∈ t.lexeme.toList

variable {text : String} {tokens ts : List Token} {t : Token} {cs after : List Char} {kind : Kind}
  {line : Nat} {cause : SyntaxError.Cause} {e : SyntaxError}

theorem length_splitOn_newline (cs : List Char) :
    (cs.splitOn '\n').length = cs.count '\n' + 1 := by
  induction cs with
  | nil => simp
  | cons c cs ih =>
    rw [List.splitOn_cons_eq_if_modifyHead]
    by_cases hc : c = '\n'
    · subst hc
      simp [ih]
    · simp [hc, ih]

namespace Token

theorem mem_spaced {c : Char} (hc : c ≠ ' ') :
    c ∈ spaced ts ↔ ∃ t ∈ ts, c ∈ t.lexeme.toList := by
  induction ts with
  | nil => simp [spaced]
  | cons t ts ih =>
    by_cases hts : ts = []
    · subst hts
      simp [spaced]
    · rw [spaced_cons hts, List.mem_append, List.mem_cons, ih]
      simp [hc]

/-- A lexeme over several lines is a quoted one, so it ends in a quote. -/
theorem ends_of_newline (h : Munch kind cs after) (hn : '\n' ∈ cs) : Ends cs := by
  refine (munch_ends h).resolve_right ?_
  rintro ⟨_, c, rfl, _⟩
  obtain ⟨d, ds, hd, hb⟩ := munch_cons h
  obtain ⟨rfl, _⟩ := List.cons.inj hd
  obtain rfl := List.mem_singleton.mp hn
  simp [isBlank] at hb

theorem newline_of_lineText (h : '\n' ∈ (lineText ts line).toList) :
    ∃ t ∈ ts, t.line = line ∧ '\n' ∈ t.lexeme.toList := by
  rw [toList_lineText] at h
  have hs := (List.rdropWhile_prefix _ _).subset h
  obtain ⟨t, ht, hn⟩ := (mem_spaced (by decide)).mp hs
  obtain ⟨hmem, hline⟩ := List.mem_filter.mp ht
  exact ⟨t, hmem, by simpa using hline, hn⟩

theorem newline_lineText (ht : t ∈ ts) (he : Ends t.lexeme.toList)
    (hn : '\n' ∈ t.lexeme.toList) : '\n' ∈ (lineText ts t.line).toList := by
  obtain ⟨us, vs, rfl⟩ := List.append_of_mem ht
  have hshown := lexeme_at_column he (rfl : errorAt (us ++ t :: vs) us.length .invalidChar = _)
  rw [errorAt_split] at hshown
  exact List.mem_of_mem_drop (hshown.subset hn)

/-- The line put together for a line number has several rows exactly if a token that starts on the
line overruns it. -/
theorem newline_lineText_iff (h : tokenize text = .ok tokens) :
    '\n' ∈ (lineText tokens line).toList ↔ Overruns text line := by
  constructor
  · intro hn
    exact ⟨tokens, h, newline_of_lineText hn⟩
  · rintro ⟨tokens', h', t, ht, rfl, hn⟩
    obtain rfl : tokens' = tokens := Except.ok.inj (h'.symm.trans h)
    obtain ⟨pieces, gap, hc⟩ := cut_of_scan h
    rcases hc.munch_of_mem ht with ⟨_, hempty⟩ | ⟨after, hm⟩
    · simp [hempty] at hn
    · exact newline_lineText ht (ends_of_newline hm hn) hn

end Token

theorem Token.LocatedAt.newline_notMem {source : List Char} {position : Nat}
    (h : LocatedAt source position e) : '\n' ∉ e.sourceLine.toList := by
  rw [h.sourceLine]
  intro hn
  have hmem := (List.rdropWhile_prefix _ _).subset hn
  rcases List.mem_append.mp hmem with hb | hf
  · simpa using List.mem_rtakeWhile_imp hb
  · simpa using List.mem_takeWhile_imp hf

/-- The parser shows the line put together from the tokens. -/
theorem sourceLine_of_parse (h : tokenize text = .ok tokens) (hp : parse tokens = .error e) :
    e.sourceLine = lineText tokens e.line := by
  obtain ⟨us, t, vs, _, _, rfl, he, _⟩ := parse_error_at h hp
  rw [he, errorAt_split]

theorem newline_sourceLine_iff (h : read text = .error e) :
    '\n' ∈ e.sourceLine.toList ↔ Overruns text e.line := by
  rcases read_eq_error.mp h with ht | ⟨tokens, ht, hp⟩
  · obtain ⟨_, _, _, hl⟩ := fault_of_tokenize ht
    refine iff_of_false hl.newline_notMem ?_
    rintro ⟨tokens, hok, _⟩
    cases ht.symm.trans hok
  · rw [sourceLine_of_parse ht hp, newline_lineText_iff ht]

theorem expectation_of_read {what : String} (h : read text = .error e)
    (hc : e.cause = .expected what) : what ∈ expectations := by
  rcases read_eq_error.mp h with ht | ⟨tokens, ht, hp⟩
  · obtain ⟨_, _, hf, _⟩ := fault_of_tokenize ht
    have hm := hf.malformed
    rw [hc] at hm
    cases hm
  · have hcomplaint := complaint_of_parse hp
    rw [hc] at hcomplaint
    cases hcomplaint with
    | expected hw => exact hw
    | operand _ ho =>
      obtain ⟨_, hx⟩ | ⟨_, hx⟩ | ⟨_, hx⟩ | hx := operand_error ho <;> cases hx
      decide

theorem newline_notMem_text (h : ∀ what, cause = .expected what → what ∈ expectations) :
    '\n' ∉ cause.text.toList := by
  cases cause with
  | expected what =>
    have hall : ∀ w ∈ expectations, '\n' ∉ (SyntaxError.Cause.expected w).text.toList := by
      decide
    exact hall what (h what rfl)
  | _ => decide

theorem newline_notMem_message (h : read text = .error e) : '\n' ∉ e.message.toList := by
  have hc := newline_notMem_text fun what => expectation_of_read h
  have hl : '\n' ∉ (toString e.line).toList := by
    intro hn
    exact absurd ((digits_toString e.line).2 _ hn) (by decide)
  change '\n' ∉ ("Syntax Error: " ++ e.cause.text ++ " on line " ++ toString e.line).toList
  simp only [String.toList_append, List.mem_append, not_or]
  exact ⟨⟨⟨by decide, hc⟩, by decide⟩, hl⟩

/-- The rows of an error are those of its line, the caret's and the message. -/
theorem rows_render (h : '\n' ∉ e.message.toList) : rows e.render =
    rows e.sourceLine ++ [List.replicate e.column ' ' ++ ['^'], e.message.toList] := by
  have hcaret : '\n' ∉ List.replicate e.column ' ' ++ ['^'] := by simp
  have hrender : e.render.toList = e.sourceLine.toList ++ '\n' ::
      (List.replicate e.column ' ' ++ ['^'] ++ '\n' :: e.message.toList) := by
    simp [SyntaxError.render, Text.spaces]
  rw [rows, hrender, List.splitOn_append_cons_self,
    List.splitOn_append_cons_self_of_not_mem hcaret, List.splitOn_eq_singleton h]
  rfl

/-- A syntax error shows a line, a caret at the column on the row after it, and a message on the
last row. These are three rows, and the line one of them, exactly if no token that starts on the
line overruns it. -/
theorem syntax_error_rows (text : String) (d : Diagnostic) (h : run text = .error d)
    (hs : d.stage = .syntaxError) :
    ∃ line column, d.sourceLine = some line ∧ d.column = some column ∧
      rows d.render = rows line ++ [List.replicate column ' ' ++ ['^'], d.message.toList] ∧
      ('\n' ∈ line.toList ↔ Overruns text d.line) ∧
      ((rows d.render).length = 3 ↔ ¬ Overruns text d.line) := by
  cases hr : read text with
  | ok program =>
    obtain ⟨e, _, rfl⟩ := (run_eq_error hr).mp h
    cases hs
  | error e =>
    rw [run_of_refused hr] at h
    cases h
    have hrows := rows_render (newline_notMem_message hr)
    have hbroken := newline_sourceLine_iff hr
    rw [← render_ofSyntaxError] at hrows
    refine ⟨e.sourceLine, e.column, rfl, rfl, hrows, hbroken, ?_⟩
    rw [hrows, List.length_append, rows, length_splitOn_newline]
    show _ ↔ ¬ Overruns text e.line
    rw [← hbroken, ← List.count_eq_zero]
    simp

/-- A quote over two lines, and an error on a later line. -/
def resumed : String :=
  "\"a\nb\";\n1 2"

def resumedTokens : List Token :=
  [⟨.string, "\"a\nb\"", 1⟩, ⟨.semicolon, ";", 2⟩, ⟨.integer, "1", 3⟩, ⟨.integer, "2", 3⟩,
    ⟨.finish, "", 3⟩]

def resumedError : Diagnostic :=
  ⟨.syntaxError, "Syntax Error: 'expected ;' on line 3", 3, some 2, some "1 2"⟩

theorem syntax_error_rows_resumed :
    run resumed = .error resumedError ∧ Overruns resumed 1 ∧ ¬ Overruns resumed 3 ∧
      (rows resumedError.render).length = 3 := by
  have hrun : run resumed = .error resumedError := by decide +kernel
  have htokens : tokenize resumed = .ok resumedTokens := by decide +kernel
  have hthird : ¬ Overruns resumed 3 := by
    rintro ⟨tokens, ht, hover⟩
    obtain rfl := Except.ok.inj (ht.symm.trans htokens)
    revert hover
    decide
  obtain ⟨_, _, _, _, _, _, hthree⟩ := syntax_error_rows resumed resumedError hrun rfl
  exact ⟨hrun, ⟨resumedTokens, htokens, by decide⟩, hthird, hthree.mpr hthird⟩

/-- A quote over two lines, on the line of the error. -/
def severed : String :=
  "1 \"a\nb\""

def severedError : Diagnostic :=
  ⟨.syntaxError, "Syntax Error: 'expected ;' on line 1", 1, some 2, some "1 \"a\nb\""⟩

/-- The caret points at a quote on the first row, and is below the second. -/
theorem caret_below_second_row : run severed = .error severedError ∧
    rows severedError.render = ["1 \"a".toList, "b\"".toList, "  ^".toList,
      "Syntax Error: 'expected ;' on line 1".toList] := by
  decide +kernel

end Scriptlet
