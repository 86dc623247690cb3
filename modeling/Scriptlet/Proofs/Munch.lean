import Scriptlet.Proofs.Lexeme

/-!
What the scanner cuts off at a place is what the rules for tokens say, no more and no less.
-/

namespace Scriptlet.Token

variable {c : Char} {cs ls run after xs ys : List Char} {kind : Kind} {n : Nat} {p : Char → Bool}

theorem idxOf?_append_cons {q : Char} (h : q ∉ xs) :
    (xs ++ q :: ys).idxOf? q = some xs.length := by
  induction xs with
  | nil => simp [List.idxOf?_cons]
  | cons x xs ih =>
    rw [List.mem_cons, not_or] at h
    simp [List.idxOf?_cons, Ne.symm h.1, ih h.2]

/-- What is cut off up to the closing quote. -/
theorem idxOf?_eq_some_take {q : Char} (h : cs.idxOf? q = some n) :
    ∃ xs, q ∉ xs ∧ xs.length = n ∧ cs.take (n + 1) = xs ++ [q] := by
  have hq : q ∈ cs := List.isSome_idxOf?.mp (by simp [h])
  obtain ⟨xs, ys, rfl, hx⟩ := List.eq_append_cons_of_mem hq
  rw [idxOf?_append_cons hx] at h
  cases h
  exact ⟨xs, hx, rfl, by simp [List.take_append]⟩

theorem takeWhile_stops (hx : ∀ x ∈ xs, p x = true) (hs : Stops p ys) :
    (xs ++ ys).takeWhile p = xs := by
  rw [List.takeWhile_append_of_pos hx]
  cases ys with
  | nil => simp
  | cons y ys => simp [hs y rfl]

theorem stops_dropWhile : Stops p (xs.dropWhile p) := by
  intro c hc
  have h := List.head?_dropWhile_not p xs
  rw [hc] at h
  exact h

theorem take_takeWhile : xs.take (xs.takeWhile p).length = xs.takeWhile p :=
  (List.prefix_iff_eq_take.mp (List.takeWhile_prefix p)).symm

theorem drop_takeWhile : xs.drop (xs.takeWhile p).length = xs.dropWhile p := by
  have h : (xs.takeWhile p ++ xs.dropWhile p).drop (xs.takeWhile p).length = xs.dropWhile p :=
    List.drop_left
  rwa [List.takeWhile_append_dropWhile] at h

theorem numberKind_integer (h : '.' ∉ run) : numberKind run = .ok .integer := by
  rw [numberKind, List.idxOf?_eq_none_iff.mpr h]

theorem numberKind_float (hx : '.' ∉ xs) (hy : '.' ∉ ys) (hne : ys ≠ []) :
    numberKind (xs ++ '.' :: ys) = .ok .float := by
  simp [numberKind, idxOf?_append_cons hx, List.idxOf?_eq_none_iff.mpr hy, hne]

theorem numberKind_ok (h : numberKind run = .ok kind) :
    kind = .integer ∧ '.' ∉ run ∨
      kind = .float ∧ ∃ xs ys, run = xs ++ '.' :: ys ∧ '.' ∉ xs ∧ '.' ∉ ys ∧ ys ≠ [] := by
  by_cases hr : '.' ∈ run
  · right
    obtain ⟨xs, ys, rfl, hx⟩ := List.eq_append_cons_of_mem hr
    by_cases hy : '.' ∈ ys
    · obtain ⟨us, vs, rfl, hu⟩ := List.eq_append_cons_of_mem hy
      simp [numberKind, idxOf?_append_cons hx, idxOf?_append_cons hu] at h
    · by_cases hne : ys = []
      · subst hne
        simp [numberKind, idxOf?_append_cons hx] at h
      · rw [numberKind_float hx hy hne] at h
        cases h
        exact ⟨rfl, xs, ys, rfl, hx, hy, hne⟩
  · rw [numberKind_integer hr] at h
    cases h
    exact Or.inl ⟨rfl, hr⟩

theorem wordKind_keyword {word : String} (h : (word, kind) ∈ keywords) : wordKind word = kind := by
  have hall : ∀ k ∈ keywords, wordKind k.1 = k.2 := by decide
  exact hall _ h

theorem wordKind_identifier {word : String} (h : ∀ kind, (word, kind) ∉ keywords) :
    wordKind word = .identifier := by
  have hall : ∀ k ∈ keywords, word ≠ k.1 := by
    rintro k hk rfl
    exact h k.2 hk
  simp only [keywords, List.forall_mem_cons] at hall
  simp [wordKind, hall]

theorem symbolKind_symbol (h : ([c], kind) ∈ symbols) : symbolKind c = kind := by
  have hall : ∀ s ∈ symbols, s.1.length = 1 → symbolKind (s.1.headD ' ') = s.2 := by decide
  exact hall _ h rfl

theorem symbol_symbolKind (h : symbolKind c ≠ .unknown) : ([c], symbolKind c) ∈ symbols := by
  unfold symbolKind at h ⊢
  split at h
  case h_18 => exact (h rfl).elim
  all_goals decide

theorem symbolKind_ne_unknown (h : (c :: cs, kind) ∈ symbols) : symbolKind c ≠ .unknown := by
  have hall : ∀ s ∈ symbols, symbolKind (s.1.headD ' ') ≠ .unknown := by decide
  exact hall _ h

theorem doubleKind?_eq_some : doubleKind? c = some kind ↔ ([c, '='], kind) ∈ symbols := by
  constructor
  · intro h
    unfold doubleKind? at h
    split at h <;> cases h <;> decide
  · intro h
    have hall : ∀ s ∈ symbols, s.1.length = 2 → doubleKind? (s.1.headD ' ') = some s.2 := by decide
    exact hall _ h rfl

theorem munch_digit (hc : c.isDigit = true) :
    munch c cs = (numberKind (c :: cs.takeWhile isNumberPart)).map
      (·, (cs.takeWhile isNumberPart).length) := by
  simp [munch, hc]

theorem munch_letter (hc : c.isAlpha = true) :
    munch c cs = .ok (wordKind (String.ofList (c :: cs.takeWhile Char.isAlpha)),
      (cs.takeWhile Char.isAlpha).length) := by
  simp [munch, hc, letter_not_digit hc]

theorem munch_string : munch '"' cs = match cs.idxOf? '"' with
    | none => .error ⟨.unterminatedString, 0⟩
    | some n => .ok (.string, n + 1) :=
  rfl

theorem munch_char : munch '\'' cs = match cs.idxOf? '\'' with
    | none => .error ⟨.unterminatedChar, 0⟩
    | some 0 => .error ⟨.emptyChar, 0⟩
    | some n => .ok (.char, n + 1) :=
  rfl

/-- A character that begins no word, number or quote. -/
def Lone (c : Char) : Prop :=
  c.isAlpha = false ∧ c.isDigit = false ∧ ¬ (c = '"' ∨ c = '\'')

theorem munch_double (hc : Lone c) (hk : doubleKind? c = some kind) :
    munch c ('=' :: cs) = .ok (kind, 1) := by
  obtain ⟨ha, hd, hq⟩ := hc
  rw [not_or] at hq
  simp [munch, ha, hd, hq, hk]

theorem munch_single (hc : Lone c) (h : doubleKind? c = none ∨ cs.head? ≠ some '=') :
    munch c cs = .ok (symbolKind c, 0) := by
  obtain ⟨ha, hd, hq⟩ := hc
  rw [not_or] at hq
  cases hk : doubleKind? c with
  | none => simp [munch, ha, hd, hq, hk]
  | some kind => simp_all [munch]

theorem digits_of_run (hr : ∀ d ∈ run, isNumberPart d = true) (hn : '.' ∉ run) :
    ∀ d ∈ run, d.isDigit = true := by
  intro d hd
  have h := hr d hd
  simp only [isNumberPart, Bool.or_eq_true, beq_iff_eq] at h
  rcases h with h | rfl
  · exact h
  · exact (hn hd).elim

theorem munch_digit_ok (hc : c.isDigit = true) (h : munch c cs = .ok (kind, n)) :
    Munch kind (c :: cs.take n) (cs.drop n) := by
  rw [munch_digit hc] at h
  have hp : ∀ d ∈ c :: cs.takeWhile isNumberPart, isNumberPart d = true := by
    rw [List.forall_mem_cons]
    exact ⟨by simp [isNumberPart, hc], fun d => List.mem_takeWhile_imp⟩
  have hs : Stops (fun c => c.isDigit || c == '.') (cs.dropWhile isNumberPart) := stops_dropWhile
  cases hk : numberKind (c :: cs.takeWhile isNumberPart) with
  | error flaw => simp [hk, Except.map] at h
  | ok k =>
    rw [hk] at h
    cases h
    rw [take_takeWhile, drop_takeWhile]
    rcases numberKind_ok hk with ⟨rfl, hn⟩ | ⟨rfl, us, vs, hrun, hu, hv, hne⟩
    · exact .integer ⟨by simp, digits_of_run hp hn⟩ hs
    · rw [hrun, List.forall_mem_append, List.forall_mem_cons] at hp
      have hus : us ≠ [] := by
        rintro rfl
        obtain ⟨rfl, _⟩ := List.cons.inj hrun
        simp at hc
      rw [hrun]
      exact .float ⟨hus, digits_of_run hp.1 hu⟩ ⟨hne, digits_of_run hp.2.2 hv⟩ hs

theorem munch_letter_ok (hc : c.isAlpha = true) (h : munch c cs = .ok (kind, n)) :
    Munch kind (c :: cs.take n) (cs.drop n) := by
  rw [munch_letter hc] at h
  cases h
  rw [take_takeWhile, drop_takeWhile]
  have hl : Letters (c :: cs.takeWhile Char.isAlpha) := by
    refine ⟨by simp, ?_⟩
    rw [List.forall_mem_cons]
    exact ⟨hc, fun d => List.mem_takeWhile_imp⟩
  by_cases hk : ∃ kind, (String.ofList (c :: cs.takeWhile Char.isAlpha), kind) ∈ keywords
  · obtain ⟨kind, hk⟩ := hk
    rw [wordKind_keyword hk]
    have hm : Munch kind _ (cs.dropWhile Char.isAlpha) := .keyword hk stops_dropWhile
    rwa [String.toList_ofList] at hm
  · have hn : ∀ kind, (String.ofList (c :: cs.takeWhile Char.isAlpha), kind) ∉ keywords :=
      fun kind h => hk ⟨kind, h⟩
    rw [wordKind_identifier hn]
    exact .identifier hl hn stops_dropWhile

theorem munch_string_ok (h : munch '"' cs = .ok (kind, n)) :
    Munch kind ('"' :: cs.take n) (cs.drop n) := by
  rw [munch_string] at h
  split at h
  · cases h
  · rename_i m hm
    cases h
    obtain ⟨us, hu, _, ht⟩ := idxOf?_eq_some_take hm
    rw [ht]
    exact .string hu

theorem munch_char_ok (h : munch '\'' cs = .ok (kind, n)) :
    Munch kind ('\'' :: cs.take n) (cs.drop n) := by
  rw [munch_char] at h
  split at h
  · cases h
  · cases h
  · rename_i m hne hm
    cases h
    obtain ⟨us, hu, rfl, ht⟩ := idxOf?_eq_some_take hm
    rw [ht]
    refine .char ?_ hu
    rintro rfl
    exact hne rfl

/-- Of two characters that are one symbol the second is an equals sign. -/
theorem symbol_pair {d : Char} (h : ([c, d], kind) ∈ symbols) :
    d = '=' ∧ doubleKind? c = some kind := by
  obtain ⟨_, _, _, hn | hn⟩ := symbol_cases h
  · cases hn
  · cases hn
    exact ⟨rfl, doubleKind?_eq_some.mpr h⟩

theorem munch_lone_ok (hc : Lone c) (hb : isBlank c = false) (h : munch c cs = .ok (kind, n)) :
    Munch kind (c :: cs.take n) (cs.drop n) := by
  by_cases hd : ∃ kind, doubleKind? c = some kind ∧ cs.head? = some '='
  · obtain ⟨kind', hk, he⟩ := hd
    cases cs with
    | nil => cases he
    | cons d cs =>
      cases he
      rw [munch_double hc hk] at h
      cases h
      refine .symbol (doubleKind?_eq_some.mp hk) ?_
      intro d kind'' _ hs
      obtain ⟨_, _, _, hn | hn⟩ := symbol_cases hs <;> cases hn
  · have hs : doubleKind? c = none ∨ cs.head? ≠ some '=' := by
      cases hk : doubleKind? c with
      | none => exact Or.inl rfl
      | some kind' => exact Or.inr fun he => hd ⟨kind', hk, he⟩
    rw [munch_single hc hs] at h
    cases h
    by_cases hu : symbolKind c = .unknown
    · rw [hu]
      refine .unknown (by simpa [isBlank, and_assoc] using hb) ?_
      intro ds hp
      rcases pattern_cases hp with ⟨ha, _⟩ | ⟨hd, _⟩ | ⟨hq, _⟩ | ⟨_, hsym⟩
      · simp [hc.1] at ha
      · simp [hc.2.1] at hd
      · exact hc.2.2 hq
      · exact symbolKind_ne_unknown hsym hu
    · refine .symbol (symbol_symbolKind hu) ?_
      intro d kind' hh hsym
      obtain ⟨rfl, hk⟩ := symbol_pair hsym
      exact hd ⟨kind', hk, hh⟩

/-- What the scanner cuts off is a token of the rules. -/
theorem munch_ok (hb : isBlank c = false) (h : munch c cs = .ok (kind, n)) :
    Munch kind (c :: cs.take n) (cs.drop n) := by
  by_cases hd : c.isDigit = true
  · exact munch_digit_ok hd h
  · by_cases ha : c.isAlpha = true
    · exact munch_letter_ok ha h
    · by_cases hq : c = '"' ∨ c = '\''
      · rcases hq with rfl | rfl
        · exact munch_string_ok h
        · exact munch_char_ok h
      · exact munch_lone_ok ⟨by simpa using ha, by simpa using hd, hq⟩ hb h

theorem munch_letters (hl : Letters (c :: ls)) (hs : Stops Char.isAlpha after) :
    munch c (ls ++ after) = .ok (wordKind (String.ofList (c :: ls)), ls.length) := by
  obtain ⟨hc, hls⟩ := List.forall_mem_cons.mp hl.2
  rw [munch_letter hc, takeWhile_stops hls hs]

theorem munch_run (hc : c.isDigit = true) (hl : ∀ d ∈ ls, isNumberPart d = true)
    (hs : Stops isNumberPart after) (hk : numberKind (c :: ls) = .ok kind) :
    munch c (ls ++ after) = .ok (kind, ls.length) := by
  rw [munch_digit hc, takeWhile_stops hl hs, hk]
  rfl

theorem Digits.numberPart (h : Digits cs) : ∀ d ∈ cs, isNumberPart d = true := by
  intro d hd
  simp [isNumberPart, h.2 d hd]

theorem Digits.no_point (h : Digits cs) : '.' ∉ cs := by
  intro hp
  have := h.2 '.' hp
  simp at this

theorem lone_symbol (h : (c :: cs, kind) ∈ symbols) : Lone c := by
  obtain ⟨ha, hd, hq, _⟩ := symbol_cases h
  exact ⟨ha, hd, hq⟩

theorem lone_unknown (h : ∀ cs, ¬ Pattern (c :: cs)) : Lone c := by
  refine ⟨?_, ?_, ?_⟩
  · by_contra ha
    exact h [] (.word ⟨by simp, by simpa using ha⟩)
  · by_contra hd
    exact h [] (.integer ⟨by simp, by simpa using hd⟩)
  · intro hq
    exact h [] (.unclosed hq (by simp))

theorem munch_symbol (h : (c :: ls, kind) ∈ symbols)
    (hs : ∀ d kind', after.head? = some d → (c :: ls ++ [d], kind') ∉ symbols) :
    munch c (ls ++ after) = .ok (kind, ls.length) := by
  obtain ⟨_, _, _, rfl | rfl⟩ := symbol_cases h
  · have hn : doubleKind? c = none ∨ after.head? ≠ some '=' := by
      cases hk : doubleKind? c with
      | none => exact Or.inl rfl
      | some kind' => exact Or.inr fun he => hs '=' kind' he (doubleKind?_eq_some.mp hk)
    rw [List.nil_append, munch_single (lone_symbol h) hn, symbolKind_symbol h]
    rfl
  · exact munch_double (lone_symbol h) (doubleKind?_eq_some.mpr h)

theorem munch_unknown (h : ∀ cs, ¬ Pattern (c :: cs)) : munch c after = .ok (.unknown, 0) := by
  have hd : doubleKind? c = none := by
    rw [Option.eq_none_iff_forall_not_mem]
    intro kind hk
    exact h ['='] (.symbol (doubleKind?_eq_some.mp hk))
  have hs : symbolKind c = .unknown := by
    by_contra hu
    exact h [] (.symbol (symbol_symbolKind hu))
  rw [munch_single (lone_unknown h) (Or.inl hd), hs]

/-- The scanner cuts off every token of the rules whole. -/
theorem munch_of_rule (h : Munch kind (c :: ls) after) :
    munch c (ls ++ after) = .ok (kind, ls.length) := by
  generalize hx : c :: ls = xs at h
  cases h with
  | @keyword word _ _ hw hs =>
    have hl := letters_keyword hw
    rw [← hx] at hl
    rw [munch_letters hl hs, hx, String.ofList_toList, wordKind_keyword hw]
  | identifier hl hk hs =>
    subst hx
    rw [munch_letters hl hs, wordKind_identifier hk]
  | integer hd hs =>
    subst hx
    obtain ⟨hc, hls⟩ := List.forall_mem_cons.mp hd.numberPart
    exact munch_run (hd.2 c (by simp)) hls hs (numberKind_integer hd.no_point)
  | @float us vs _ hu hv hs =>
    cases us with
    | nil => exact (hu.1 rfl).elim
    | cons u us =>
      obtain ⟨rfl, rfl⟩ := List.cons.inj hx
      have hk : numberKind (c :: us ++ '.' :: vs) = .ok .float :=
        numberKind_float hu.no_point hv.no_point hv.1
      have hus := (List.forall_mem_cons.mp hu.numberPart).2
      have hvs : ∀ d ∈ '.' :: vs, isNumberPart d = true :=
        List.forall_mem_cons.mpr ⟨by simp [isNumberPart], hv.numberPart⟩
      exact munch_run (hu.2 c (by simp)) (List.forall_mem_append.mpr ⟨hus, hvs⟩) hs hk
  | string hc =>
    obtain ⟨rfl, rfl⟩ := List.cons.inj hx
    rw [munch_string, List.append_assoc, List.singleton_append, idxOf?_append_cons hc]
    simp
  | @char ds _ hne hc =>
    obtain ⟨rfl, rfl⟩ := List.cons.inj hx
    rw [munch_char, List.append_assoc, List.singleton_append, idxOf?_append_cons hc]
    cases ds with
    | nil => exact (hne rfl).elim
    | cons d ds => simp
  | symbol h hs =>
    subst hx
    exact munch_symbol h hs
  | unknown _ hn =>
    obtain ⟨rfl, rfl⟩ := List.cons.inj hx
    exact munch_unknown hn

theorem isBlank_iff : isBlank c = true ↔ c = ' ' ∨ c = '\r' ∨ c = '\n' := by
  simp [isBlank, or_assoc]

theorem pattern_ne_nil : ¬ Pattern [] := by
  intro h
  generalize hx : [] = xs at h
  cases h with
  | word h => exact h.1 hx.symm
  | integer h => exact h.1 hx.symm
  | number => simp at hx
  | quoted => cases hx
  | unclosed => cases hx
  | symbol h =>
    subst hx
    simp [symbols] at h

theorem pattern_not_blank (h : Pattern (c :: cs)) : isBlank c = false := by
  by_contra hb
  rw [Bool.not_eq_false, isBlank_iff] at hb
  rcases pattern_cases h with ⟨ha, _⟩ | ⟨hd, _⟩ | ⟨hq, _⟩ | ⟨_, hs⟩
  · rcases hb with rfl | rfl | rfl <;> simp at ha
  · rcases hb with rfl | rfl | rfl <;> simp at hd
  · rcases hb with rfl | rfl | rfl <;> simp at hq
  · rcases hb with rfl | rfl | rfl <;> exact symbolKind_ne_unknown hs rfl

/-- A token of the rules has a first character, and it is no blank. -/
theorem munch_cons (h : Munch kind cs after) : ∃ c ls, cs = c :: ls ∧ isBlank c = false := by
  have hp : Pattern cs ∨ ∃ c, cs = [c] ∧ isBlank c = false := by
    cases h with
    | keyword hw => exact Or.inl (.word (letters_keyword hw))
    | identifier hl => exact Or.inl (.word hl)
    | integer hd => exact Or.inl (.integer hd)
    | float hd hf => exact Or.inl (.number hd fun d h => Or.inl (hf.2 d h))
    | string hc => exact Or.inl (.quoted (Or.inl rfl) hc)
    | char _ hc => exact Or.inl (.quoted (Or.inr rfl) hc)
    | symbol h => exact Or.inl (.symbol h)
    | @unknown c _ hb => exact Or.inr ⟨c, rfl, by simpa [isBlank, and_assoc] using hb⟩
  rcases hp with hp | ⟨c, rfl, hb⟩
  · cases cs with
    | nil => exact (pattern_ne_nil hp).elim
    | cons c ls => exact ⟨c, ls, rfl, pattern_not_blank hp⟩
  · exact ⟨c, [], rfl, hb⟩

end Scriptlet.Token
