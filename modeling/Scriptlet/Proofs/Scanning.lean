import Scriptlet.Proofs.Tokenization

/-!
Scanning the front of a text. The scanner cuts off tokens until the text ends or no token can be
cut off. What it has cut off stays the same if the text ends sooner, or goes on with a blank there.
-/

namespace Scriptlet

namespace Token

/-- From a line on, the scan of a text that goes on with `rest` cuts off some tokens before it
comes to `rest`. -/
inductive Scans (rest : List Char) : Nat → List Char → List Token → Prop where
  | nil {line : Nat} : Scans rest line [] []
  | blank {line : Nat} {gap text : List Char} {tokens : List Token} : Blank gap →
      Scans rest (line + gap.count '\n') text tokens → Scans rest line (gap ++ text) tokens
  | token {line : Nat} {kind : Kind} {lexeme text : List Char} {tokens : List Token} :
      Munch kind lexeme (text ++ rest) →
      Scans rest (line + lexeme.count '\n') text tokens →
      Scans rest line (lexeme ++ text) (⟨kind, String.ofList lexeme, line⟩ :: tokens)

variable {line n : Nat} {kind : Kind} {cs text rest after after' xs ys : List Char}
  {tokens : List Token} {place : Place}

theorem advance_append : place.advance (xs ++ ys) = (place.advance xs).advance ys :=
  List.foldl_append

theorem map_append {r : Except SyntaxError (List Token)} {us vs : List Token} :
    (r.map (vs ++ ·)).map (us ++ ·) = r.map (us ++ vs ++ ·) := by
  cases r with
  | error e => rfl
  | ok ts => simp [Except.map]

/-- What is cut off first, and then the scan of what follows. -/
theorem scan_front (h : Scans rest line text tokens) (hl : place.line = line) :
    scan place (text ++ rest) = (scan (place.advance text) rest).map (tokens ++ ·) := by
  induction h generalizing place with
  | nil =>
    simp only [List.nil_append, Place.advance, List.foldl_nil]
    cases scan place rest <;> rfl
  | blank hb _ ih =>
    rw [List.append_assoc, scan_blank hb, ih (by rw [advance_line, hl]), advance_append]
  | @token _ kind lexeme text tokens hm _ ih =>
    have hcons : ∀ r : Except SyntaxError (List Token), ∀ t : Token,
        r.map (t :: ·) = r.map ([t] ++ ·) := fun r t => rfl
    rw [List.append_assoc, scan_munch hm, ih (by rw [advance_line, hl]), advance_append, hl, hcons,
      map_append]
    rfl

theorem stops_follow {p : Char → Bool} (h : Stops p after)
    (hp : ∀ c, isBlank c = true → p c = false)
    (hf : ∀ c, after'.head? = some c → after.head? = some c ∨ isBlank c = true) :
    Stops p after' := by
  intro c hc
  rcases hf c hc with hc | hb
  · exact h c hc
  · exact hp c hb

theorem blank_not_letter (c : Char) (h : isBlank c = true) : c.isAlpha = false := by
  rcases isBlank_iff.mp h with rfl | rfl | rfl <;> rfl

theorem blank_not_numberPart (c : Char) (h : isBlank c = true) :
    (c.isDigit || c == '.') = false := by
  rcases isBlank_iff.mp h with rfl | rfl | rfl <;> rfl

/-- A token is cut off by its next character only, and a blank ends every token. -/
theorem munch_follow (h : Munch kind cs after)
    (hf : ∀ c, after'.head? = some c → after.head? = some c ∨ isBlank c = true) :
    Munch kind cs after' := by
  cases h with
  | keyword hw hs => exact .keyword hw (stops_follow hs blank_not_letter hf)
  | identifier hl hk hs => exact .identifier hl hk (stops_follow hs blank_not_letter hf)
  | integer hd hs => exact .integer hd (stops_follow hs blank_not_numberPart hf)
  | float hd he hs => exact .float hd he (stops_follow hs blank_not_numberPart hf)
  | string hc => exact .string hc
  | char hne hc => exact .char hne hc
  | symbol hsym hs =>
    refine .symbol hsym ?_
    intro c kind' hc
    rcases hf c hc with hc | hb
    · exact hs c kind' hc
    · intro hn
      have hall : ∀ s ∈ symbols, ∀ d ∈ s.1, isBlank d = false := by simp [symbols, isBlank]
      have := hall _ hn c (by simp)
      simp [hb] at this
  | unknown hb hn => exact .unknown hb hn

theorem head?_append_follow {rest' : List Char}
    (hf : ∀ c, rest'.head? = some c → rest.head? = some c ∨ isBlank c = true) :
    ∀ c, (text ++ rest').head? = some c → (text ++ rest).head? = some c ∨ isBlank c = true := by
  cases text with
  | nil => exact hf
  | cons d ds => exact fun c hc => Or.inl hc

theorem scans_follow {rest' : List Char} (h : Scans rest line text tokens)
    (hf : ∀ c, rest'.head? = some c → rest.head? = some c ∨ isBlank c = true) :
    Scans rest' line text tokens := by
  induction h with
  | nil => exact .nil
  | blank hb _ ih => exact .blank hb ih
  | token hm _ ih => exact .token (munch_follow hm (head?_append_follow hf)) ih

/-- No token can be cut off at the start of the text. -/
def Halts (rest : List Char) : Prop :=
  rest = [] ∨ ∃ c cs flaw, rest = c :: cs ∧ isBlank c = false ∧ munch c cs = .error flaw

/-- Every scan comes to a halt. -/
theorem exists_scans (line : Nat) (text : List Char) :
    ∃ front rest tokens, text = front ++ rest ∧ Scans rest line front tokens ∧ Halts rest := by
  -- A step takes the blanks and the token after them, so the induction is on what is left.
  induction hn : text.length using Nat.strong_induction_on generalizing line text with
  | _ n ih =>
    obtain ⟨gap, rest, rfl, hb, hs⟩ := exists_blank text
    cases rest with
    | nil => exact ⟨gap ++ [], [], [], by simp, .blank hb .nil, Or.inl rfl⟩
    | cons c cs =>
      cases hm : munch c cs with
      | error flaw =>
        exact ⟨gap ++ [], c :: cs, [], by simp, .blank hb .nil,
          Or.inr ⟨c, cs, flaw, rfl, hs c rfl, hm⟩⟩
      | ok token =>
        obtain ⟨kind, n⟩ := token
        have hrule := munch_ok (hs c rfl) hm
        have hlt : (cs.drop n).length < (gap ++ c :: cs).length := by
          simp only [List.length_drop, List.length_append, List.length_cons]
          omega
        obtain ⟨front, rest, tokens, hc, hscan, hh⟩ := ih _ (hn ▸ hlt)
          (line + gap.count '\n' + (c :: cs.take n).count '\n') (cs.drop n) rfl
        rw [hc] at hrule
        refine ⟨gap ++ (c :: cs.take n ++ front), rest, _, ?_, .blank hb (.token hrule hscan), hh⟩
        rw [List.append_assoc, List.append_assoc, ← hc, List.cons_append, List.take_append_drop]

end Token

open Token

variable {text : List Char} {tokens : List Token} {place : Place}

/-- The scan that comes to the end of the text has cut off all its tokens. -/
theorem scan_end (h : Scans [] place.line text tokens) :
    scan place text = .ok (tokens ++ [⟨.finish, "", place.line + text.count '\n'⟩]) := by
  have hs := scan_front h rfl
  rw [List.append_nil] at hs
  rw [hs, scan, advance_line]
  rfl

/-- The tokens of a text that has tokens, without the one of the end. -/
theorem scans_of_scan (h : scan place text = .ok tokens) :
    ∃ front, tokens = front ++ [⟨.finish, "", place.line + text.count '\n'⟩] ∧
      Scans [] place.line text front := by
  obtain ⟨front, rest, ts, rfl, hs, rfl | ⟨c, cs, flaw, rfl, hb, hm⟩⟩ :=
    exists_scans place.line text
  · rw [List.append_nil] at h ⊢
    rw [scan_end hs] at h
    cases h
    exact ⟨ts, rfl, hs⟩
  · rw [scan_front hs rfl, scan, if_neg (by simp [hb]), hm] at h
    cases h

end Scriptlet
