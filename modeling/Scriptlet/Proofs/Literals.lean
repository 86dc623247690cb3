import Scriptlet.Proofs.Blame
import Scriptlet.Proofs.Cursor
import Scriptlet.Proofs.Nearest
import Scriptlet.Proofs.Sequence

/-!
Literals stand for what is written. The scanner lets through only lexemes that can be decoded: a
quoted text is the text between its quotes, digits are a number in decimal, and of a character's
quotes there remains to be seen only whether they enclose one character. So no refusal of a text's
tokens is about a malformed literal, but for a number too large and a character that is several.
-/

namespace Scriptlet

open Grammar Token

/-- The value of decimal digits, of which the last counts ones. -/
def Numeral.written (ds : List Char) : Nat :=
  Nat.ofDigits 10 (ds.reverse.map fun d => d.toNat - '0'.toNat)

namespace Token

variable {ds fs cs inner after : List Char} {quote c d : Char} {text : String} {t : Token}

theorem value_eq_written (ds : List Char) : Numeral.value ds = Numeral.written ds := by
  induction ds using List.reverseRecOn with
  | nil => rfl
  | append_singleton ds d ih =>
    rw [Numeral.value, Nat.ofDigitChars_append, Nat.ofDigitChars_cons, Nat.ofDigitChars_nil,
      ← Numeral.value, ih]
    simp [Numeral.written, Nat.ofDigits_cons, Nat.add_comm]

theorem splitSign_digit (h : d.isDigit = true) :
    Numeral.splitSign (d :: cs) = (false, d :: cs) := by
  unfold Numeral.splitSign
  split
  · rename_i hd
    cases hd
    simp at h
  · rename_i hd
    cases hd
    simp at h
  · rfl

theorem int64?_digits (h : Digits text.toList) :
    Numeral.int64? text = narrow? (Numeral.written text.toList) := by
  obtain ⟨d, cs, hcs⟩ := List.exists_cons_of_ne_nil h.1
  rw [hcs] at h ⊢
  have hs : Numeral.splitSign (d :: cs) = _ := splitSign_digit (h.2 d (by simp))
  have hn : Numeral.isNatural (d :: cs) = true := by
    simpa [Numeral.isNatural] using h.2
  simp [Numeral.int64?, hcs, hs, hn, value_eq_written]

theorem decimal?_digits (hd : Digits ds) (hf : Digits fs) :
    Numeral.decimal? (ds ++ '.' :: fs) = some ⟨Numeral.written (ds ++ fs), -fs.length⟩ := by
  have hpoint : Stops Char.isDigit ('.' :: fs) := by
    intro c hc
    cases hc
    rfl
  have hwhole : (ds ++ '.' :: fs).takeWhile Char.isDigit = ds := takeWhile_stops hd.2 hpoint
  have hrest : (ds ++ '.' :: fs).dropWhile Char.isDigit = '.' :: fs := by
    rw [← drop_takeWhile, hwhole, List.drop_left]
  have hfraction : fs.takeWhile Char.isDigit = fs := List.takeWhile_eq_self_iff.mpr hf.2
  have hnone : fs.dropWhile Char.isDigit = [] := List.dropWhile_eq_nil_iff.mpr hf.2
  simp [Numeral.decimal?, hwhole, hrest, Numeral.splitFraction, hfraction, hnone,
    Numeral.exponent?, hd.1, value_eq_written]

theorem ofText?_digits (hd : Digits ds) (hf : Digits fs) (ht : text.toList = ds ++ '.' :: fs) :
    Binary64.ofText? text =
      some (.ofDecimal false ⟨Numeral.written (ds ++ fs), -fs.length⟩) := by
  have hs : Numeral.splitSign (ds ++ '.' :: fs) = (false, ds ++ '.' :: fs) := by
    obtain ⟨d, cs, rfl⟩ := List.exists_cons_of_ne_nil hd.1
    exact splitSign_digit (hd.2 d (by simp))
  simp [Binary64.ofText?, ht, hs, decimal?_digits hd hf]

/-- Digits with a point are rounded to the double nearest to the fraction they write. -/
theorem roundsTo_ofDecimal (n : Nat) (hf : fs ≠ []) :
    Binary64.RoundsTo (n / 10 ^ fs.length) (.ofDecimal false ⟨n, -fs.length⟩) := by
  obtain ⟨k, hk⟩ := Nat.exists_eq_succ_of_ne_zero (List.length_pos_iff.mpr hf).ne'
  have hu : (Binary64.unit : ℚ) ≠ 0 := by exact_mod_cast Binary64.unit_pos.ne'
  have hpos : 0 < pow10 (k + 1) := Nat.pow_pos (by decide)
  have hpow : ((pow10 (k + 1) : Nat) : ℚ) = 10 ^ (k + 1) := Nat.cast_pow 10 (k + 1)
  -- The decimal is rounded in quanta, of which there are `unit` in a whole.
  have hq : (n : ℚ) / 10 ^ (k + 1) =
      (n * Binary64.unit : Nat) / (pow10 (k + 1) : Nat) / Binary64.unit := by
    rw [hpow, Nat.cast_mul, div_right_comm, mul_div_cancel_right₀ _ hu]
  rw [hk, hq]
  exact Binary64.roundsTo_round _ hpos

/-- The text stands between two quotes, and these can be taken off. -/
structure Encloses (quote : Char) (text : String) (inner : List Char) : Prop where
  closed : quote ∉ inner
  toList_eq : text.toList = quote :: (inner ++ [quote])
  unquoted : unquote quote text = String.ofList inner

theorem encloses (hq : quote ∉ inner) (ht : text.toList = quote :: (inner ++ [quote])) :
    Encloses quote text inner where
  closed := hq
  toList_eq := ht
  unquoted := String.toList_inj.mp (by rw [unquote_enclosed ht, String.toList_ofList])

/-- The lexeme of a literal's token has the form of its kind. -/
inductive Spelt : Kind → List Char → Prop where
  | string {inner : List Char} : '"' ∉ inner → Spelt .string ('"' :: (inner ++ ['"']))
  | integer {ds : List Char} : Digits ds → Spelt .integer ds
  | float {ds fs : List Char} : Digits ds → Digits fs → Spelt .float (ds ++ '.' :: fs)
  | char {inner : List Char} : inner ≠ [] → '\'' ∉ inner → Spelt .char ('\'' :: (inner ++ ['\'']))

/-- The kinds of tokens that hold a literal in their lexeme. -/
def Kind.isLiteral : Kind → Bool
  | .string | .integer | .float | .char => true
  | _ => false

theorem munch_spelt {kind : Kind} (h : Munch kind cs after) (hk : kind.isLiteral = true) :
    Spelt kind cs := by
  cases h with
  | @keyword word _ _ hw =>
    have hall : ∀ k ∈ keywords, k.2.isLiteral = false := by decide
    simp [hall (word, kind) hw] at hk
  | identifier => cases hk
  | integer hd => exact .integer hd
  | float hd hf => exact .float hd hf
  | string hc => exact .string hc
  | char hne hc => exact .char hne hc
  | @symbol _ _ _ hs =>
    have hall : ∀ s ∈ symbols, s.2.isLiteral = false := by decide
    simp [hall (cs, kind) hs] at hk
  | unknown => cases hk

theorem operand_string (hk : t.kind = .string) (h : Encloses '"' t.lexeme inner) :
    t.operand = .ok (.literal (.string (String.ofList inner)) t.line) := by
  simp [Token.operand, hk, h.unquoted]

theorem operand_integer (hk : t.kind = .integer) (h : Digits t.lexeme.toList) :
    (Numeral.written t.lexeme.toList < 2 ^ 63 → ∃ n : Int64,
      n.toInt = Numeral.written t.lexeme.toList ∧
        t.operand = .ok (.literal (.integer n) t.line)) ∧
      (2 ^ 63 ≤ Numeral.written t.lexeme.toList → t.operand = .error .integerTooLarge) := by
  constructor
  · intro hlt
    have hn : narrow? (Numeral.written t.lexeme.toList) = some _ := if_pos (by omega)
    refine ⟨_, narrow?_eq_some_iff.mp hn, ?_⟩
    simp only [Token.operand, hk, int64?_digits h, hn]
  · intro hle
    have hn : narrow? (Numeral.written t.lexeme.toList) = none := if_neg (by omega)
    simp only [Token.operand, hk, int64?_digits h, hn]

theorem operand_float (hk : t.kind = .float) (hd : Digits ds) (hf : Digits fs)
    (ht : t.lexeme.toList = ds ++ '.' :: fs) :
    t.operand = .ok (.literal
      (.float (.ofDecimal false ⟨Numeral.written (ds ++ fs), -fs.length⟩)) t.line) := by
  simp [Token.operand, hk, ofText?_digits hd hf ht]

theorem operand_char (hk : t.kind = .char) (h : Encloses '\'' t.lexeme [c]) :
    t.operand = .ok (.literal (.char c) t.line) := by
  simp [Token.operand, hk, h.unquoted]

theorem operand_chars (hk : t.kind = .char) (h : Encloses '\'' t.lexeme inner)
    (hl : 2 ≤ inner.length) : t.operand = .error .invalidChar := by
  obtain ⟨c, d, cs, rfl⟩ : ∃ c d cs, inner = c :: d :: cs := by
    match inner, hl with
    | c :: d :: cs, _ => exact ⟨c, d, cs, rfl⟩
  simp [Token.operand, hk, h.unquoted]

end Token

variable {tokens : List Token} {i : Nat} {t : Token} {e : Expr} {cause : SyntaxError.Cause}

/-- Asked for a single operand at a token, a session answers with an expression and goes on. -/
def Yields (tokens : List Token) (i : Nat) (e : Expr) : Prop :=
  (⟨tokens, i⟩ : Session).call .primary = (.ok (.single e), ⟨tokens, i + 1⟩)

/-- Asked for a single operand at a token, a session refuses the token and stays. -/
def Rejects (tokens : List Token) (i : Nat) (cause : SyntaxError.Cause) : Prop :=
  (⟨tokens, i⟩ : Session).call .primary = (.error (errorAt tokens i cause), ⟨tokens, i⟩)

theorem call_primary (h : tokens[i]? = some t) : (⟨tokens, i⟩ : Session).call .primary =
    match t.operand with
    | .ok e => (.ok (.single e), ⟨tokens, i + 1⟩)
    | .error cause => (.error (errorAt tokens i cause), ⟨tokens, i⟩) := by
  obtain ⟨hlt, hget⟩ := List.getElem?_eq_some_iff.mp h
  have hdrop : tokens.drop i = t :: tokens.drop (i + 1) := by
    rw [List.drop_eq_getElem_cons hlt, hget]
  have hi : tokens.length - (tokens.length - (i + 1) + 1) = i := by omega
  have hnext : tokens.length - (tokens.length - (i + 1)) = i + 1 := by omega
  cases ho : t.operand <;>
    simp [Session.call, Rule.reader, Reader.primary, Reader.token, Step.andThen, hdrop, ho,
      Except.mapError, Refusal.locate, hi, hnext]

theorem yields_of_operand (h : tokens[i]? = some t) (ho : t.operand = .ok e) :
    Yields tokens i e := by
  rw [Yields, call_primary h, ho]

theorem rejects_of_operand (h : tokens[i]? = some t) (ho : t.operand = .error cause) :
    Rejects tokens i cause := by
  rw [Rejects, call_primary h, ho]

theorem yields_not_rejects (h : Yields tokens i e) : ¬ Rejects tokens i cause := by
  intro hr
  have := h.symm.trans hr
  cases this

/-- What a literal's token is read as is what its lexeme says. -/
structure Decoded (tokens : List Token) (i : Nat) (t : Token) : Prop where
  string : t.kind = .string → ∃ inner, Encloses '"' t.lexeme inner ∧
    Yields tokens i (.literal (.string (String.ofList inner)) t.line)
  integer : t.kind = .integer → Digits t.lexeme.toList ∧
    (Numeral.written t.lexeme.toList < 2 ^ 63 → ∃ n : Int64,
      n.toInt = Numeral.written t.lexeme.toList ∧
        Yields tokens i (.literal (.integer n) t.line)) ∧
    (2 ^ 63 ≤ Numeral.written t.lexeme.toList → Rejects tokens i .integerTooLarge)
  float : t.kind = .float → ∃ ds fs x, Digits ds ∧ Digits fs ∧
    t.lexeme.toList = ds ++ '.' :: fs ∧
    Binary64.RoundsTo (Numeral.written (ds ++ fs) / 10 ^ fs.length) x ∧
    Yields tokens i (.literal (.float x) t.line)
  char : t.kind = .char → ∃ inner, inner ≠ [] ∧ Encloses '\'' t.lexeme inner ∧
    (∀ c, inner = [c] → Yields tokens i (.literal (.char c) t.line)) ∧
    (Rejects tokens i .invalidChar ↔ 2 ≤ inner.length)

/-- A lexeme that has the form of its kind can be decoded. -/
theorem decoded (h : tokens[i]? = some t)
    (hs : t.kind.isLiteral = true → Spelt t.kind t.lexeme.toList) : Decoded tokens i t where
  string := by
    intro hk
    rw [hk] at hs
    generalize ht : t.lexeme.toList = cs at hs
    cases hs rfl with
    | string hq =>
      exact ⟨_, encloses hq ht, yields_of_operand h (operand_string hk (encloses hq ht))⟩
  integer := by
    intro hk
    rw [hk] at hs
    have hd : Digits t.lexeme.toList := by
      generalize t.lexeme.toList = cs at hs
      cases hs rfl with
      | integer hd => exact hd
    obtain ⟨hsmall, hlarge⟩ := operand_integer hk hd
    refine ⟨hd, fun hlt => ?_, fun hle => rejects_of_operand h (hlarge hle)⟩
    obtain ⟨n, hn, ho⟩ := hsmall hlt
    exact ⟨n, hn, yields_of_operand h ho⟩
  float := by
    intro hk
    rw [hk] at hs
    generalize ht : t.lexeme.toList = cs at hs
    cases hs rfl with
    | float hd hf =>
      exact ⟨_, _, _, hd, hf, rfl, roundsTo_ofDecimal _ hf.1,
        yields_of_operand h (operand_float hk hd hf ht)⟩
  char := by
    intro hk
    rw [hk] at hs
    generalize ht : t.lexeme.toList = cs at hs
    cases hs rfl with
    | @char inner hne hq =>
      have henc := encloses hq ht
      have hone : ∀ c, inner = [c] → Yields tokens i (.literal (.char c) t.line) := by
        rintro c rfl
        exact yields_of_operand h (operand_char hk henc)
      refine ⟨inner, hne, henc, hone, ?_, fun hl => rejects_of_operand h (operand_chars hk henc hl)⟩
      intro hr
      by_contra hl
      have hpos := List.length_pos_iff.mpr hne
      obtain ⟨c, hc⟩ := List.length_eq_one_iff.mp (show inner.length = 1 by omega)
      exact yields_not_rejects (hone c hc) hr

/-- The causes for which the scanner cuts off no token. -/
def malformed : List SyntaxError.Cause :=
  [.invalidNumber, .unterminatedString, .unterminatedChar, .emptyChar]

/-- Of a text's tokens each literal is as the rules for its kind say. -/
theorem spelt_of_tokenize {text : String} (h : tokenize text = .ok tokens) (ht : t ∈ tokens) :
    t.kind.isLiteral = true → Spelt t.kind t.lexeme.toList := by
  intro hk
  obtain ⟨pieces, gap, hc⟩ := cut_of_scan h
  rcases hc.munch_of_mem ht with ⟨hf, _⟩ | ⟨after, hm⟩
  · rw [hf] at hk
    cases hk
  · exact munch_spelt hm hk

/-- Numbers with a point that the scanner lets through are never refused. -/
theorem complaint_not_malformed {text : String} (h : tokenize text = .ok tokens)
    (hc : Complaint tokens cause) : cause ∉ malformed := by
  cases hc with
  | expected hw => simp [malformed]
  | divisionByZero => decide
  | @operand t _ ht ho =>
    rcases operand_error ho with ⟨_, rfl⟩ | ⟨hk, rfl⟩ | ⟨_, rfl⟩ | rfl
    · decide
    · have hs := spelt_of_tokenize h ht
      rw [hk] at hs
      generalize hl : t.lexeme.toList = cs at hs
      cases hs rfl with
      | float hd hf => simp [operand_float hk hd hf hl] at ho
    · decide
    · decide

/-- An answer of a session is the answer to a call on its tokens. -/
theorem answer_of_mem_calls {s : Session} {rules : List Rule}
    {answer : Except SyntaxError Rule.Answer} (h : answer ∈ (s.calls rules).1) :
    ∃ (s' : Session) (rule : Rule), s'.tokens = s.tokens ∧ (s'.call rule).1 = answer := by
  induction rules generalizing s with
  | nil => cases h
  | cons rule rules ih =>
    rcases List.mem_cons.mp h with rfl | h
    · exact ⟨s, rule, rfl, rfl⟩
    · exact ih (s := (s.call rule).2) h

theorem complaint_of_calls {rules : List Rule} {error : SyntaxError}
    (h : .error error ∈ ((Session.start tokens).calls rules).1) :
    Complaint tokens error.cause := by
  obtain ⟨s, rule, htokens, ha⟩ := answer_of_mem_calls h
  obtain ⟨x, hx, rfl⟩ := Session.reader_of_call_error ha
  rw [Refusal.locate, errorAt_cause]
  rw [htokens] at hx
  exact (rule.blames _ x hx).mono (List.drop_subset _ _)

theorem expression_of_primary (h : Primary t e) : Expression [t] e :=
  .operand (.operand (.operand (.operand (.primary h))))

/-- A text that is one literal has the value of the literal. -/
theorem run_literal {text : String} {kind : Kind} {literal : Literal} {value : Value}
    (hm : Munch kind text.toList [])
    (ho : (⟨kind, text, 1⟩ : Token).operand = .ok (.literal literal 1))
    (hv : literal.value? = some value) : run text = .ok value := by
  have hs : Scans [] 1 (text.toList ++ []) [⟨kind, String.ofList text.toList, 1⟩] :=
    .token (by simpa using hm) .nil
  rw [List.append_nil, String.ofList_toList] at hs
  have ht : scan .start text.toList = _ := scan_end hs
  have hp : Program [⟨kind, text, 1⟩] [.literal literal 1] :=
    .last (expression_of_primary (primary_iff.mpr ho))
  have hr : read text = .ok [.literal literal 1] :=
    (read_of_tokenize ht).trans (parse_of_program hp rfl)
  rw [run_eq_ok hr]
  simp [interpret, Evaluator.interpret, Evaluator.continueWith, Expr.eval, hv]

theorem run_quoted (text : String) (h : '"' ∉ text.toList) :
    run ("\"" ++ text ++ "\"") = .ok (.string text) := by
  have ht : ("\"" ++ text ++ "\"").toList = '"' :: (text.toList ++ ['"']) := by simp
  have hm : Munch .string ("\"" ++ text ++ "\"").toList [] := ht ▸ .string h
  have ho := operand_string (t := ⟨.string, "\"" ++ text ++ "\"", 1⟩) rfl (encloses h ht)
  rw [String.ofList_toList] at ho
  exact run_literal hm ho rfl

theorem written_toString (n : Nat) : Numeral.written (toString n).toList = n := by
  rw [← value_eq_written, Nat.toString_eq_repr, Nat.toList_repr]
  exact Nat.ofDigitChars_ten_toDigits

theorem run_decimal (n : Nat) (h : n < 2 ^ 63) :
    ∃ w : Int64, w.toInt = n ∧ run (toString n) = .ok (.integer w) := by
  have hd := digits_toString n
  obtain ⟨hsmall, _⟩ := operand_integer (t := ⟨.integer, toString n, 1⟩) rfl hd
  simp only [written_toString] at hsmall
  obtain ⟨w, hw, ho⟩ := hsmall h
  exact ⟨w, hw, run_literal (.integer hd (by simp [Stops])) ho rfl⟩

/-- Every literal of a text is read as what is written, or refused as too large a number or more
than one character, and no session on the text's tokens ever refuses one as malformed. So a text in
quotes has itself as its value, and a number in decimal the number. -/
theorem literals_decoded :
    (∀ text tokens, tokenize text = .ok tokens →
      (∀ i t, tokens[i]? = some t → Decoded tokens i t) ∧
      (∀ error, parse tokens = .error error → error.cause ∉ malformed) ∧
      ∀ rules error, .error error ∈ ((Session.start tokens).calls rules).1 →
        error.cause ∉ malformed) ∧
    (∀ text : String, '"' ∉ text.toList → run ("\"" ++ text ++ "\"") = .ok (.string text)) ∧
    ∀ n : Nat, n < 2 ^ 63 → ∃ w : Int64, w.toInt = n ∧ run (toString n) = .ok (.integer w) := by
  refine ⟨?_, run_quoted, run_decimal⟩
  intro text tokens h
  refine ⟨?_, ?_, ?_⟩
  · intro i t ht
    exact decoded ht (spelt_of_tokenize h (List.mem_of_getElem? ht))
  · intro error he
    exact complaint_not_malformed h (complaint_of_parse he)
  · intro rules error he
    exact complaint_not_malformed h (complaint_of_calls he)

/-- A quote over two lines, a number with zeros in front, one beyond the largest number, and two
characters in one pair of quotes. -/
def enclosed : String :=
  "\"p\n'q\" 007 9223372036854775808 'éa'"

def enclosedTokens : List Token :=
  [⟨.string, "\"p\n'q\"", 1⟩, ⟨.integer, "007", 2⟩, ⟨.integer, "9223372036854775808", 2⟩,
    ⟨.char, "'éa'", 2⟩, ⟨.finish, "", 2⟩]

theorem literals_decoded_enclosed :
    tokenize enclosed = .ok enclosedTokens ∧
      (∃ inner, Encloses '"' "\"p\n'q\"" inner ∧
        Yields enclosedTokens 0 (.literal (.string (String.ofList inner)) 1)) ∧
      (∃ n : Int64, n.toInt = 7 ∧ Yields enclosedTokens 1 (.literal (.integer n) 2)) ∧
      Rejects enclosedTokens 2 .integerTooLarge ∧
      Rejects enclosedTokens 3 .invalidChar ∧
      (∃ error, parse enclosedTokens = .error error ∧ error.cause ∉ malformed) ∧
      run "\"p\n'q\"" = .ok (.string "p\n'q") ∧
      ∃ w : Int64, w.toInt = 9223372036854775807 ∧
        run "9223372036854775807" = .ok (.integer w) := by
  have ht : tokenize enclosed = .ok enclosedTokens := by decide +kernel
  have hp : parse enclosedTokens =
      .error ⟨.expected "expected ;", 2, 0, "007 9223372036854775808 'éa'"⟩ := by decide +kernel
  have hseven : Numeral.written "007".toList = 7 := by decide +kernel
  obtain ⟨hread, hquoted, hdecimal⟩ := literals_decoded
  obtain ⟨hdecoded, hrefused, _⟩ := hread _ _ ht
  have hsmall := ((hdecoded 1 _ rfl).integer rfl).2.1
  rw [hseven] at hsmall
  have hlarge := ((hdecoded 2 _ rfl).integer rfl).2.2 (by decide +kernel)
  obtain ⟨inner, _, henc, _, hchars⟩ := (hdecoded 3 _ rfl).char rfl
  have hlen : 4 = inner.length + 1 + 1 := by
    simpa using congrArg List.length henc.toList_eq
  exact ⟨ht, (hdecoded 0 _ rfl).string rfl, hsmall (by decide), hlarge, hchars.mpr (by omega),
    ⟨_, hp, hrefused _ hp⟩, hquoted "p\n'q" (by decide),
    hdecimal 9223372036854775807 (by decide)⟩

end Scriptlet
