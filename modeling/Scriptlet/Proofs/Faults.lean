import Scriptlet.Proofs.Scanning

/-!
Texts without tokens. The scan fails exactly where it comes to a malformed number or quote, and the
error is located at the character at fault, on the line of the text around it.
-/

namespace Scriptlet

namespace Token

/-- A malformed token at the start of a text, the cause, and how far from the start the character
at fault is. -/
inductive Malformed : SyntaxError.Cause → Nat → List Char → Prop where
  | secondPoint {ds us vs after : List Char} : Digits ds → (∀ c ∈ us, c.isDigit = true) →
      (∀ c ∈ vs, c.isDigit = true ∨ c = '.') → Stops (fun c => c.isDigit || c == '.') after →
      Malformed .invalidNumber (ds.length + 1 + us.length)
        (ds ++ '.' :: (us ++ '.' :: (vs ++ after)))
  | lastPoint {ds after : List Char} : Digits ds → Stops (fun c => c.isDigit || c == '.') after →
      Malformed .invalidNumber ds.length (ds ++ '.' :: after)
  | string {cs : List Char} : '"' ∉ cs → Malformed .unterminatedString 0 ('"' :: cs)
  | char {cs : List Char} : '\'' ∉ cs → Malformed .unterminatedChar 0 ('\'' :: cs)
  | emptyChar {cs : List Char} : Malformed .emptyChar 0 ('\'' :: '\'' :: cs)

variable {c : Char} {cs run xs us vs text rest : List Char} {flaw : Flaw}
  {cause : SyntaxError.Cause} {offset n : Nat}

theorem numberKind_second (hx : '.' ∉ xs) (hu : '.' ∉ us) :
    numberKind (xs ++ '.' :: (us ++ '.' :: vs)) =
      .error ⟨.invalidNumber, xs.length + 1 + us.length⟩ := by
  simp [numberKind, idxOf?_append_cons hx, idxOf?_append_cons hu]

theorem numberKind_last (hx : '.' ∉ xs) :
    numberKind (xs ++ ['.']) = .error ⟨.invalidNumber, xs.length⟩ := by
  simp [numberKind, idxOf?_append_cons hx]

theorem numberKind_error (h : numberKind run = .error flaw) :
    (∃ xs us vs, run = xs ++ '.' :: (us ++ '.' :: vs) ∧ '.' ∉ xs ∧ '.' ∉ us ∧
      flaw = ⟨.invalidNumber, xs.length + 1 + us.length⟩) ∨
      ∃ xs, run = xs ++ ['.'] ∧ '.' ∉ xs ∧ flaw = ⟨.invalidNumber, xs.length⟩ := by
  by_cases hr : '.' ∈ run
  · obtain ⟨xs, ys, rfl, hx⟩ := List.eq_append_cons_of_mem hr
    by_cases hy : '.' ∈ ys
    · obtain ⟨us, vs, rfl, hu⟩ := List.eq_append_cons_of_mem hy
      rw [numberKind_second hx hu] at h
      cases h
      exact Or.inl ⟨xs, us, vs, rfl, hx, hu, rfl⟩
    · by_cases hne : ys = []
      · subst hne
        rw [numberKind_last hx] at h
        cases h
        exact Or.inr ⟨xs, rfl, hx, rfl⟩
      · rw [numberKind_float hx hy hne] at h
        cases h
  · rw [numberKind_integer hr] at h
    cases h

theorem numberPart_cases (h : isNumberPart c = true) : c.isDigit = true ∨ c = '.' := by
  simpa [isNumberPart] using h

theorem munch_digit_error (hc : c.isDigit = true) (h : munch c cs = .error flaw) :
    Malformed flaw.cause flaw.offset (c :: cs) := by
  rw [munch_digit hc] at h
  have hp : ∀ d ∈ c :: cs.takeWhile isNumberPart, isNumberPart d = true := by
    rw [List.forall_mem_cons]
    exact ⟨by simp [isNumberPart, hc], fun d => List.mem_takeWhile_imp⟩
  have hs : Stops (fun c => c.isDigit || c == '.') (cs.dropWhile isNumberPart) := stops_dropWhile
  have hcs : c :: cs = c :: cs.takeWhile isNumberPart ++ cs.dropWhile isNumberPart := by
    simp
  have hne : ∀ {xs ys : List Char}, c :: cs.takeWhile isNumberPart = xs ++ '.' :: ys → xs ≠ [] := by
    rintro xs ys hrun rfl
    obtain ⟨rfl, _⟩ := List.cons.inj hrun
    simp at hc
  cases hk : numberKind (c :: cs.takeWhile isNumberPart) with
  | ok k => simp [hk, Except.map] at h
  | error flaw' =>
    rw [hk] at h
    cases h
    rcases numberKind_error hk with ⟨xs, us, vs, hrun, hx, hu, rfl⟩ | ⟨xs, hrun, hx, rfl⟩
    · rw [hcs, hrun]
      rw [hrun] at hp
      simp only [List.forall_mem_append, List.forall_mem_cons] at hp
      simpa using Malformed.secondPoint ⟨hne hrun, digits_of_run hp.1 hx⟩
        (digits_of_run hp.2.2.1 hu) (fun d hd => numberPart_cases (hp.2.2.2.2 d hd)) hs
    · rw [hcs, hrun]
      rw [hrun] at hp
      simpa using Malformed.lastPoint
        ⟨hne hrun, digits_of_run (List.forall_mem_append.mp hp).1 hx⟩ hs

theorem munch_string_error (h : munch '"' cs = .error flaw) :
    Malformed flaw.cause flaw.offset ('"' :: cs) := by
  rw [munch_string] at h
  split at h
  · rename_i hn
    cases h
    exact .string (List.idxOf?_eq_none_iff.mp hn)
  · cases h

theorem munch_char_error (h : munch '\'' cs = .error flaw) :
    Malformed flaw.cause flaw.offset ('\'' :: cs) := by
  rw [munch_char] at h
  split at h
  · rename_i hn
    cases h
    exact .char (List.idxOf?_eq_none_iff.mp hn)
  · rename_i hz
    cases h
    obtain ⟨xs, _, hx, ht⟩ := idxOf?_eq_some_take hz
    obtain rfl := List.length_eq_zero_iff.mp hx
    cases cs with
    | nil => simp at hz
    | cons d ds =>
      obtain rfl : d = '\'' := by simpa using ht
      exact .emptyChar
  · cases h

/-- A character that begins no word, number or quote is at least a token by itself. -/
theorem munch_lone_ne_error (hl : Lone c) : munch c cs ≠ .error flaw := by
  intro h
  cases hk : doubleKind? c with
  | none =>
    rw [munch_single hl (Or.inl hk)] at h
    cases h
  | some kind =>
    by_cases he : cs.head? = some '='
    · obtain ⟨ds, rfl⟩ := List.head?_eq_some_iff.mp he
      rw [munch_double hl hk] at h
      cases h
    · rw [munch_single hl (Or.inr he)] at h
      cases h

/-- Where the scanner cuts off nothing, a malformed token starts. -/
theorem munch_error (h : munch c cs = .error flaw) :
    Malformed flaw.cause flaw.offset (c :: cs) := by
  by_cases hd : c.isDigit = true
  · exact munch_digit_error hd h
  by_cases ha : c.isAlpha = true
  · rw [munch_letter ha] at h
    cases h
  by_cases hq : c = '"' ∨ c = '\''
  · rcases hq with rfl | rfl
    · exact munch_string_error h
    · exact munch_char_error h
  · exact (munch_lone_ne_error ⟨by simpa using ha, by simpa using hd, hq⟩ h).elim

theorem munch_number_error {run after : List Char} (hc : c.isDigit = true)
    (hr : ∀ d ∈ run, isNumberPart d = true) (hs : Stops isNumberPart after)
    (hk : numberKind (c :: run) = .error flaw) : munch c (run ++ after) = .error flaw := by
  rw [munch_digit hc, takeWhile_stops hr hs, hk]
  rfl

/-- The scanner cuts off nothing where a malformed token starts. -/
theorem munch_of_malformed (h : Malformed cause offset rest) :
    ∃ c cs, rest = c :: cs ∧ isBlank c = false ∧ munch c cs = .error ⟨cause, offset⟩ := by
  cases h with
  | @secondPoint ds us vs after hd hu hv hs =>
    have hnp : '.' ∉ us := fun hp => by simpa using hu '.' hp
    have hk : numberKind (ds ++ '.' :: (us ++ '.' :: vs)) = _ := numberKind_second hd.no_point hnp
    cases ds with
    | nil => exact (hd.1 rfl).elim
    | cons c ds =>
      have hc := hd.2 c (by simp)
      refine ⟨c, _, rfl, pattern_not_blank (.integer hd), ?_⟩
      have hrun : ∀ d ∈ ds ++ '.' :: (us ++ '.' :: vs), isNumberPart d = true := by
        simp only [List.forall_mem_append, List.forall_mem_cons]
        refine ⟨(List.forall_mem_cons.mp hd.numberPart).2, rfl, ?_, rfl, ?_⟩
        · intro d hd
          simp [isNumberPart, hu d hd]
        · intro d hd
          simpa [isNumberPart] using hv d hd
      simpa using munch_number_error hc hrun hs hk
  | @lastPoint ds after hd hs =>
    have hk := numberKind_last hd.no_point
    cases ds with
    | nil => exact (hd.1 rfl).elim
    | cons c ds =>
      have hc := hd.2 c (by simp)
      refine ⟨c, _, rfl, pattern_not_blank (.integer hd), ?_⟩
      have hrun : ∀ d ∈ ds ++ ['.'], isNumberPart d = true := by
        simp only [List.forall_mem_append, List.forall_mem_singleton]
        exact ⟨(List.forall_mem_cons.mp hd.numberPart).2, rfl⟩
      simpa using munch_number_error hc hrun hs hk
  | string hq =>
    refine ⟨_, _, rfl, rfl, ?_⟩
    rw [munch_string, List.idxOf?_eq_none_iff.mpr hq]
  | char hq =>
    refine ⟨_, _, rfl, rfl, ?_⟩
    rw [munch_char, List.idxOf?_eq_none_iff.mpr hq]
  | @emptyChar cs =>
    refine ⟨_, _, rfl, rfl, ?_⟩
    rw [munch_char, List.idxOf?_cons]
    rfl

/-- The character at fault is a point or a quote. -/
theorem malformed_character (h : Malformed cause offset rest) :
    ∃ c, (c = '.' ∨ c = '"' ∨ c = '\'') ∧ rest[offset]? = some c := by
  cases h with
  | @secondPoint ds us vs after =>
    have hlen : ds.length + 1 + us.length = (ds ++ '.' :: us).length := by
      simp only [List.length_append, List.length_cons]
      omega
    refine ⟨'.', by simp, ?_⟩
    rw [hlen, ← List.cons_append, ← List.append_assoc]
    simp
  | lastPoint => exact ⟨'.', by simp, by simp⟩
  | string => exact ⟨'"', by simp, rfl⟩
  | char => exact ⟨'\'', by simp, rfl⟩
  | emptyChar => exact ⟨'\'', by simp, rfl⟩

/-- What stands on the line of a position before it. -/
def lineBefore (text : List Char) (position : Nat) : List Char :=
  (text.take position).rtakeWhile (· != '\n')

/-- What stands on the line of a position from it on. -/
def lineFrom (text : List Char) (position : Nat) : List Char :=
  (text.drop position).takeWhile (· != '\n')

/-- The error is at a position of the text, and shows the line without the carriage returns at its
end. -/
structure LocatedAt (text : List Char) (position : Nat) (e : SyntaxError) : Prop where
  line : e.line = 1 + (text.take position).count '\n'
  column : e.column = (lineBefore text position).length
  sourceLine : e.sourceLine.toList =
    (lineBefore text position ++ lineFrom text position).rdropWhile (· == '\r')

theorem advance_before (xs : List Char) :
    (Place.start.advance xs).before.reverse = xs.rtakeWhile (· != '\n') := by
  induction xs using List.reverseRecOn with
  | nil => rfl
  | append_singleton xs c ih =>
    rw [advance_append]
    by_cases hc : c = '\n'
    · subst hc
      simp [Place.advance, Place.step]
    · simp [Place.advance, Place.step, hc] at ih ⊢
      exact ih

/-- The scanner's account of a place agrees with the position of the place in the text. -/
theorem locatedAt_error (text : List Char) (position : Nat) (cause : SyntaxError.Cause) :
    LocatedAt text position
      ((Place.start.advance (text.take position)).error (text.drop position) cause) where
  line := advance_line
  column := by
    rw [lineBefore, ← advance_before, List.length_reverse]
    rfl
  sourceLine := by
    rw [lineBefore, lineFrom, ← advance_before]
    exact String.toList_ofList

theorem rdropWhile_append_cons {p : Char → Bool} (hc : p c = false) :
    (xs ++ c :: us).rdropWhile p = xs ++ c :: us.rdropWhile p := by
  induction us using List.reverseRecOn with
  | nil => simp [hc]
  | append_singleton us d ih =>
    rw [← List.cons_append, ← List.append_assoc, List.rdropWhile_concat, List.rdropWhile_concat, ih]
    split <;> simp

end Token

open Token

/-- The scan of a text comes to a malformed token at a position, and the text before it has tokens
by itself. -/
structure Fault (text : List Char) (start offset : Nat) (cause : SyntaxError.Cause) : Prop where
  alone : ∃ tokens, tokenize (String.ofList (text.take start)) = .ok tokens
  reached : ∃ tokens, Scans (text.drop start) 1 (text.take start) tokens
  malformed : Malformed cause offset (text.drop start)

variable {text front rest : List Char} {position start offset : Nat} {cause : SyntaxError.Cause}
  {e : SyntaxError} {tokens : List Token}

/-- The character at a position stands in the line that is shown, if it is part of no line's end. -/
theorem Token.LocatedAt.character {c : Char} (h : LocatedAt text position e)
    (hc : text[position]? = some c) (hn : c ≠ '\n') (hr : c ≠ '\r') :
    e.column < e.sourceLine.length ∧ e.sourceLine.toList[e.column]? = some c := by
  obtain ⟨hlt, hget⟩ := List.getElem?_eq_some_iff.mp hc
  have hfrom : lineFrom text position =
      c :: (text.drop (position + 1)).takeWhile (· != '\n') := by
    rw [lineFrom, List.drop_eq_getElem_cons hlt, hget,
      List.takeWhile_cons_of_pos (by simpa using hn)]
  have hline := h.sourceLine
  rw [hfrom, rdropWhile_append_cons (by simpa using hr)] at hline
  rw [← String.length_toList, hline, h.column]
  simp

/-- Scanning up to a malformed token fails with the error at the fault. -/
theorem scan_fault (h : Fault text start offset cause) :
    scan .start text = .error ((Place.start.advance (text.take (start + offset))).error
      (text.drop (start + offset)) cause) := by
  obtain ⟨_, ⟨tokens, hs⟩, hm⟩ := h
  obtain ⟨c, cs, hrest, hb, hmunch⟩ := munch_of_malformed hm
  have hscan : scan .start (text.take start ++ text.drop start) = _ := scan_front hs rfl
  rw [List.take_append_drop] at hscan
  rw [hscan, List.take_add, advance_append, ← List.drop_drop, hrest, scan,
    if_neg (by simp [hb]), hmunch]
  rfl

theorem fault_of_scans (hs : Scans rest 1 front tokens) (hm : Malformed cause offset rest) :
    Fault (front ++ rest) front.length offset cause where
  alone := by
    have hfront : Scans [] 1 front tokens := scans_follow hs (by simp)
    rw [List.take_left, tokenize, String.toList_ofList]
    exact ⟨_, scan_end hfront⟩
  reached := by
    rw [List.take_left, List.drop_left]
    exact ⟨tokens, hs⟩
  malformed := by rwa [List.drop_left]

theorem exists_fault {text : String} (h : tokenize text = .error e) :
    ∃ start offset cause, Fault text.toList start offset cause := by
  obtain ⟨front, rest, tokens, htext, hs, rfl | ⟨c, cs, flaw, rfl, hb, hm⟩⟩ :=
    exists_scans 1 text.toList
  · rw [List.append_nil] at htext
    rw [tokenize, htext, scan_end hs] at h
    cases h
  · rw [htext]
    exact ⟨front.length, flaw.offset, flaw.cause, fault_of_scans hs (munch_error hm)⟩

/-- An error of the scanner has the cause and the place of some fault. -/
theorem fault_of_tokenize {text : String} (h : tokenize text = .error e) :
    ∃ start offset, Fault text.toList start offset e.cause ∧
      LocatedAt text.toList (start + offset) e := by
  obtain ⟨start, offset, cause, hf⟩ := exists_fault h
  obtain rfl := Except.error.inj (h.symm.trans (scan_fault hf))
  exact ⟨start, offset, hf, locatedAt_error text.toList (start + offset) cause⟩

/-- A text has no tokens exactly if its scan comes to a malformed token. The error then names the
cause and the position of the character at fault, which stands in the line shown at the column
given. -/
theorem tokenize_fails_iff_fault (text : String) :
    ((∃ e, tokenize text = .error e) ↔
      ∃ start offset cause, Fault text.toList start offset cause) ∧
      ∀ start offset cause, Fault text.toList start offset cause →
        ∃ e c, tokenize text = .error e ∧ e.cause = cause ∧
          LocatedAt text.toList (start + offset) e ∧
          (c = '.' ∨ c = '"' ∨ c = '\'') ∧ text.toList[start + offset]? = some c ∧
          e.column < e.sourceLine.length ∧ e.sourceLine.toList[e.column]? = some c := by
  refine ⟨⟨?_, ?_⟩, ?_⟩
  · rintro ⟨e, h⟩
    exact exists_fault h
  · rintro ⟨start, offset, cause, h⟩
    exact ⟨_, scan_fault h⟩
  · intro start offset cause h
    have hl := locatedAt_error text.toList (start + offset) cause
    obtain ⟨c, hc, hget⟩ := malformed_character h.malformed
    rw [List.getElem?_drop] at hget
    refine ⟨_, c, scan_fault h, rfl, hl, hc, hget, hl.character hget ?_ ?_⟩
    · rcases hc with rfl | rfl | rfl <;> decide
    · rcases hc with rfl | rfl | rfl <;> decide

/-- A quote over two lines, and a number with two points. -/
def twoPoints : String := "\"a\nβ\" + 1.2.3\r\nz"

theorem fault_twoPoints : Fault twoPoints.toList 8 3 .invalidNumber := by
  have hquote : ∀ after, Munch .string ('"' :: (['a', '\n', 'β'] ++ ['"'])) after :=
    fun after => .string (by decide)
  have hplus : ∀ after, Munch .plus ['+'] (' ' :: after) := by
    intro after
    refine .symbol (by decide) ?_
    rintro c kind hc hs
    cases hc
    obtain ⟨_, _, _, hd | hd⟩ := symbol_cases hs <;> cases hd
  have hblank : Blank [' '] := by
    intro c hc
    exact Or.inl (List.mem_singleton.mp hc)
  have hs : Scans ("1.2.3\r\nz".toList) 1
      ('"' :: (['a', '\n', 'β'] ++ ['"']) ++ ([' '] ++ (['+'] ++ ([' '] ++ [])))) _ :=
    .token (hquote _) (.blank hblank (.token (hplus _) (.blank hblank .nil)))
  have hm : Malformed .invalidNumber (['1'].length + 1 + ['2'].length)
      (['1'] ++ '.' :: (['2'] ++ '.' :: (['3'] ++ ['\r', '\n', 'z']))) :=
    .secondPoint ⟨by simp, by simp⟩ (by simp) (by simp) (by simp [Stops])
  exact fault_of_scans hs hm

theorem tokenize_fails_iff_fault_twoPoints :
    Fault twoPoints.toList 8 3 .invalidNumber ∧
      tokenize twoPoints = .error ⟨.invalidNumber, 2, 8, "β\" + 1.2.3"⟩ ∧
      LocatedAt twoPoints.toList 11 ⟨.invalidNumber, 2, 8, "β\" + 1.2.3"⟩ := by
  have he : tokenize twoPoints = .error ⟨.invalidNumber, 2, 8, "β\" + 1.2.3"⟩ := by
    decide +kernel
  obtain ⟨e, c, h, _, hl, _⟩ := (tokenize_fails_iff_fault twoPoints).2 8 3 _ fault_twoPoints
  rw [he] at h
  cases h
  exact ⟨fault_twoPoints, he, hl⟩

end Scriptlet
