import Mathlib
import Scriptlet.Token.Scan

/-!
The spelling of tokens. The rules say which texts a token can have, apart from the scanner, and
each text cut off by the scanner is the longest at its place.
-/

namespace Scriptlet.Token

def keywords : List (String × Kind) :=
  [("let", .letWord), ("mut", .mutWord), ("while", .whileWord), ("if", .ifWord),
    ("true", .trueWord), ("false", .falseWord)]

def symbols : List (List Char × Kind) :=
  [([';'], .semicolon), ([':'], .colon), (['='], .assign), (['('], .leftParen),
    ([')'], .rightParen), (['{'], .leftBrace), (['}'], .rightBrace), ([','], .comma),
    (['.'], .dot), (['+'], .plus), (['-'], .minus), (['*'], .star), (['/'], .slash),
    (['%'], .percent), (['!'], .bang), (['>'], .greater), (['<'], .less),
    (['=', '='], .equal), (['!', '='], .notEqual), (['>', '='], .greaterEqual),
    (['<', '='], .lessEqual)]

/-- The text ends, or goes on with a character of which `p` does not hold. -/
def Stops (p : Char → Bool) (after : List Char) : Prop :=
  ∀ c, after.head? = some c → p c = false

def Letters (cs : List Char) : Prop :=
  cs ≠ [] ∧ ∀ c ∈ cs, c.isAlpha = true

def Digits (cs : List Char) : Prop :=
  cs ≠ [] ∧ ∀ c ∈ cs, c.isDigit = true

/-- What the rules for tokens match, malformed numbers and quotes that are not closed included. -/
inductive Pattern : List Char → Prop where
  | word {cs : List Char} : Letters cs → Pattern cs
  | integer {cs : List Char} : Digits cs → Pattern cs
  | number {cs run : List Char} : Digits cs → (∀ c ∈ run, c.isDigit = true ∨ c = '.') →
      Pattern (cs ++ '.' :: run)
  | quoted {q : Char} {cs : List Char} : q = '"' ∨ q = '\'' → q ∉ cs → Pattern (q :: (cs ++ [q]))
  | unclosed {q : Char} {cs : List Char} : q = '"' ∨ q = '\'' → q ∉ cs → Pattern (q :: cs)
  | symbol {cs : List Char} {kind : Kind} : (cs, kind) ∈ symbols → Pattern cs

/-- A token's kind and text before the text that follows. -/
inductive Munch : Kind → List Char → List Char → Prop where
  | keyword {word : String} {kind : Kind} {after : List Char} : (word, kind) ∈ keywords →
      Stops Char.isAlpha after → Munch kind word.toList after
  | identifier {cs after : List Char} : Letters cs →
      (∀ kind, (String.ofList cs, kind) ∉ keywords) → Stops Char.isAlpha after →
      Munch .identifier cs after
  | integer {cs after : List Char} : Digits cs → Stops (fun c => c.isDigit || c == '.') after →
      Munch .integer cs after
  | float {cs ds after : List Char} : Digits cs → Digits ds →
      Stops (fun c => c.isDigit || c == '.') after → Munch .float (cs ++ '.' :: ds) after
  | string {cs after : List Char} : '"' ∉ cs → Munch .string ('"' :: (cs ++ ['"'])) after
  | char {cs after : List Char} : cs ≠ [] → '\'' ∉ cs →
      Munch .char ('\'' :: (cs ++ ['\''])) after
  | symbol {cs after : List Char} {kind : Kind} : (cs, kind) ∈ symbols →
      (∀ c kind', after.head? = some c → (cs ++ [c], kind') ∉ symbols) → Munch kind cs after
  | unknown {c : Char} {after : List Char} : c ≠ ' ' ∧ c ≠ '\r' ∧ c ≠ '\n' →
      (∀ cs, ¬ Pattern (c :: cs)) → Munch .unknown [c] after

variable {c q : Char} {cs ds after : List Char} {kind : Kind}

theorem letter_ne_quote (h : c.isAlpha = true) : ¬ (c = '"' ∨ c = '\'') := by
  rintro (rfl | rfl) <;> simp at h

theorem digit_ne_quote (h : c.isDigit = true) : ¬ (c = '"' ∨ c = '\'') := by
  rintro (rfl | rfl) <;> simp at h

theorem letter_not_digit (h : c.isAlpha = true) : c.isDigit = false := by
  rw [Char.isAlpha, Char.isUpper, Char.isLower] at h
  simp only [Char.isDigit, Bool.and_eq_false_iff, decide_eq_false_iff_not]
  simp only [Bool.or_eq_true, Bool.and_eq_true, decide_eq_true_eq] at h
  right
  intro hd
  rcases h with ⟨h, _⟩ | ⟨h, _⟩
  · exact absurd (Nat.le_trans h hd) (by decide)
  · exact absurd (Nat.le_trans h hd) (by decide)

theorem digits_toString (n : Nat) : Digits (toString n).toList := by
  rw [Nat.toString_eq_repr, Nat.toList_repr]
  exact ⟨Nat.toDigits_ne_nil, fun _ => Nat.isDigit_of_mem_toDigits (by decide) (by decide)⟩

theorem symbol_cases (h : (c :: cs, kind) ∈ symbols) :
    c.isAlpha = false ∧ c.isDigit = false ∧ ¬ (c = '"' ∨ c = '\'') ∧ (cs = [] ∨ cs = ['=']) := by
  have hall : ∀ s ∈ symbols, (s.1.headD ' ').isAlpha = false ∧ (s.1.headD ' ').isDigit = false ∧
      ¬ (s.1.headD ' ' = '"' ∨ s.1.headD ' ' = '\'') ∧ (s.1.tail = [] ∨ s.1.tail = ['=']) := by
    decide
  exact hall _ h

/-- The first character of a match says what the others can be. -/
theorem pattern_cases (h : Pattern (c :: cs)) :
    (c.isAlpha = true ∧ ∀ d ∈ cs, d.isAlpha = true) ∨
      (c.isDigit = true ∧ ∀ d ∈ cs, d.isDigit = true ∨ d = '.') ∨
      ((c = '"' ∨ c = '\'') ∧ c ∉ cs.dropLast) ∨ ∃ kind, (c :: cs, kind) ∈ symbols := by
  generalize hx : c :: cs = xs at h
  cases h with
  | word h =>
    subst hx
    exact Or.inl (List.forall_mem_cons.mp h.2)
  | integer h =>
    subst hx
    obtain ⟨hc, hcs⟩ := List.forall_mem_cons.mp h.2
    exact Or.inr (Or.inl ⟨hc, fun d hd => Or.inl (hcs d hd)⟩)
  | @number ds run h hr =>
    cases ds with
    | nil => exact (h.1 rfl).elim
    | cons d ds =>
      obtain ⟨rfl, rfl⟩ := List.cons.inj hx
      obtain ⟨hc, hds⟩ := List.forall_mem_cons.mp h.2
      refine Or.inr (Or.inl ⟨hc, ?_⟩)
      intro d hd
      rcases List.mem_append.mp hd with hd | hd
      · exact Or.inl (hds d hd)
      · rcases List.mem_cons.mp hd with rfl | hd
        · exact Or.inr rfl
        · exact hr d hd
  | quoted hq hcs =>
    obtain ⟨rfl, rfl⟩ := List.cons.inj hx
    exact Or.inr (Or.inr (Or.inl ⟨hq, by simpa using hcs⟩))
  | unclosed hq hcs =>
    obtain ⟨rfl, rfl⟩ := List.cons.inj hx
    exact Or.inr (Or.inr (Or.inl ⟨hq, fun hd => hcs (List.mem_of_mem_dropLast hd)⟩))
  | symbol h =>
    subst hx
    exact Or.inr (Or.inr (Or.inr ⟨_, h⟩))

theorem pattern_letters (h : Pattern (c :: cs)) (hc : c.isAlpha = true) :
    ∀ d ∈ cs, d.isAlpha = true := by
  rcases pattern_cases h with ⟨_, h⟩ | ⟨hd, _⟩ | ⟨hq, _⟩ | ⟨_, hs⟩
  · exact h
  · simp [letter_not_digit hc] at hd
  · exact (letter_ne_quote hc hq).elim
  · simp [(symbol_cases hs).1] at hc

theorem pattern_digits (h : Pattern (c :: cs)) (hc : c.isDigit = true) :
    ∀ d ∈ cs, d.isDigit = true ∨ d = '.' := by
  rcases pattern_cases h with ⟨ha, _⟩ | ⟨_, h⟩ | ⟨hq, _⟩ | ⟨_, hs⟩
  · simp [letter_not_digit ha] at hc
  · exact h
  · exact (digit_ne_quote hc hq).elim
  · simp [(symbol_cases hs).2.1] at hc

theorem pattern_quote (h : Pattern (c :: cs)) (hc : c = '"' ∨ c = '\'') : c ∉ cs.dropLast := by
  rcases pattern_cases h with ⟨ha, _⟩ | ⟨hd, _⟩ | ⟨_, h⟩ | ⟨_, hs⟩
  · exact (letter_ne_quote ha hc).elim
  · exact (digit_ne_quote hd hc).elim
  · exact h
  · exact ((symbol_cases hs).2.2.1 hc).elim

theorem pattern_symbol (h : Pattern (c :: cs)) (hc : (c :: ds, kind) ∈ symbols) :
    ∃ kind', (c :: cs, kind') ∈ symbols := by
  obtain ⟨ha, hd, hq, _⟩ := symbol_cases hc
  rcases pattern_cases h with ⟨ha', _⟩ | ⟨hd', _⟩ | ⟨hq', _⟩ | h
  · simp [ha] at ha'
  · simp [hd] at hd'
  · exact (hq hq').elim
  · exact h

theorem prefix_longer {xs ys zs : List Char} (h : xs <+: ys ++ zs) (hlt : ys.length < xs.length) :
    ∃ d more, xs = ys ++ d :: more ∧ zs.head? = some d := by
  obtain ⟨rest, hr⟩ := h
  obtain ⟨more, rfl⟩ : ys <+: xs :=
    List.prefix_of_prefix_length_le ⟨zs, rfl⟩ ⟨rest, hr⟩ (Nat.le_of_lt hlt)
  cases more with
  | nil => simp at hlt
  | cons d more =>
    rw [List.append_assoc, List.append_cancel_left_eq] at hr
    exact ⟨d, more, rfl, by simp [← hr]⟩

theorem letters_keyword {word : String} (h : (word, kind) ∈ keywords) : Letters word.toList := by
  have hall : ∀ k ∈ keywords, Letters k.1.toList := by
    simp [keywords, Letters]
  exact hall _ h

theorem longest_letters {xs : List Char} (h : Letters cs) (hs : Stops Char.isAlpha after)
    (hx : xs <+: cs ++ after) (hp : Pattern xs) : xs.length ≤ cs.length := by
  by_contra hlt
  obtain ⟨d, more, rfl, hd⟩ := prefix_longer hx (Nat.lt_of_not_le hlt)
  cases cs with
  | nil => exact h.1 rfl
  | cons c cs =>
    have := pattern_letters hp (h.2 c (by simp)) d (by simp)
    simp [hs d hd] at this

theorem longest_digits {xs : List Char} (hc : ∃ d ds, cs = d :: ds ∧ d.isDigit = true)
    (hs : Stops (fun c => c.isDigit || c == '.') after) (hx : xs <+: cs ++ after)
    (hp : Pattern xs) : xs.length ≤ cs.length := by
  by_contra hlt
  obtain ⟨d, more, rfl, hd⟩ := prefix_longer hx (Nat.lt_of_not_le hlt)
  obtain ⟨c, ds, rfl, hc⟩ := hc
  have hn := pattern_digits hp hc d (by simp)
  have := hs d hd
  rcases hn with hn | rfl <;> simp_all

theorem longest_quoted {xs : List Char} (hq : q = '"' ∨ q = '\'')
    (hx : xs <+: q :: (cs ++ [q]) ++ after) (hp : Pattern xs) :
    xs.length ≤ (q :: (cs ++ [q])).length := by
  by_contra hlt
  obtain ⟨d, more, rfl, hd⟩ := prefix_longer hx (Nat.lt_of_not_le hlt)
  have hn : q ∉ (cs ++ [q] ++ d :: more).dropLast := pattern_quote hp hq
  rw [List.dropLast_append_of_ne_nil (by simp)] at hn
  simp at hn

theorem longest_symbol {xs : List Char} (h : (cs, kind) ∈ symbols)
    (hs : ∀ c kind', after.head? = some c → (cs ++ [c], kind') ∉ symbols)
    (hx : xs <+: cs ++ after) (hp : Pattern xs) : xs.length ≤ cs.length := by
  by_contra hlt
  obtain ⟨d, more, rfl, hd⟩ := prefix_longer hx (Nat.lt_of_not_le hlt)
  cases cs with
  | nil => simp [symbols] at h
  | cons c cs =>
    obtain ⟨kind', hk⟩ := pattern_symbol hp h
    obtain ⟨_, _, _, hn | hn⟩ := symbol_cases hk
    · simp at hn
    · obtain ⟨rfl, rfl, rfl⟩ : cs = [] ∧ d = '=' ∧ more = [] := by
        cases cs <;> simp_all
      exact hs '=' kind' hd hk

/-- No rule matches more at the place than what is cut off. -/
theorem munch_longest {xs : List Char} (h : Munch kind cs after) (hx : xs <+: cs ++ after)
    (hp : Pattern xs) : xs.length ≤ cs.length := by
  cases h with
  | keyword hw hs => exact longest_letters (letters_keyword hw) hs hx hp
  | identifier hl _ hs => exact longest_letters hl hs hx hp
  | integer hd hs =>
    obtain ⟨hne, hd⟩ := hd
    obtain ⟨d, ds, rfl⟩ := List.exists_cons_of_ne_nil hne
    exact longest_digits ⟨d, ds, rfl, hd d (by simp)⟩ hs hx hp
  | float hd _ hs =>
    obtain ⟨hne, hd⟩ := hd
    obtain ⟨d, ds, rfl⟩ := List.exists_cons_of_ne_nil hne
    exact longest_digits ⟨d, _, rfl, hd d (by simp)⟩ hs hx hp
  | string => exact longest_quoted (Or.inl rfl) hx hp
  | char => exact longest_quoted (Or.inr rfl) hx hp
  | symbol h hs => exact longest_symbol h hs hx hp
  | @unknown c after _ hn =>
    by_contra hlt
    obtain ⟨d, more, rfl, hd⟩ := prefix_longer hx (Nat.lt_of_not_le hlt)
    exact hn _ hp

end Scriptlet.Token
