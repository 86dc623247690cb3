import Scriptlet.Proofs.Displacement

/-!
Texts one below the other. A newline ends every token before it and starts a line afresh, so that
two texts on lines of their own are cut into the tokens of the first and, further down, those of the
second. If the second has none, the error is its own, further down.
-/

namespace Scriptlet

open Token

/-- The tokens of a text, or the error that it has instead, some lines further down. -/
def Token.lowered (k : Nat) (result : Except SyntaxError (List Token)) :
    Except SyntaxError (List Token) :=
  (result.map (·.map (below k))).mapError (·.below k)

variable {k m : Nat} {text cs : List Char} {front : List Token} {place : Place} {a b : String}
  {result : Except SyntaxError (List Token)}

theorem lowered_lowered : lowered k (lowered m result) = lowered (m + k) result := by
  cases result with
  | error e => simp [lowered, Except.map, Except.mapError, SyntaxError.below, Nat.add_assoc]
  | ok tokens => simp [lowered, Except.map, Except.mapError, below, Nat.add_assoc]

theorem lowered_append : lowered k (result.map (front ++ ·)) =
    (lowered k result).map (front.map (below k) ++ ·) := by
  cases result with
  | error e => rfl
  | ok tokens => simp [lowered, Except.map, Except.mapError]

/-- What follows a newline is scanned as a text of its own, only further down. -/
theorem scan_newline : scan place ('\n' :: cs) = lowered place.line (scan .start cs) := by
  have hb : isBlank '\n' = true := rfl
  have hplace : place.step '\n' = Place.below place.line .start := by
    simp [Place.step, Place.below, Place.start, Nat.add_comm]
  rw [scan, if_pos hb, hplace, scan_below, lowered]

/-- A text that has tokens keeps them in front of a newline, since every token stops there. -/
theorem scan_stacked (h : Scans [] place.line text front) :
    scan place (text ++ '\n' :: cs) =
      (lowered (place.line + text.count '\n') (scan .start cs)).map (front ++ ·) := by
  have hf : Scans ('\n' :: cs) place.line text front := scans_follow h (by simp [isBlank])
  rw [scan_front hf rfl, scan_newline, advance_line]

theorem tokenize_stacked (h : Scans [] 1 a.toList front) :
    tokenize (a ++ "\n" ++ b) =
      (lowered (a.toList.count '\n' + 1) (tokenize b)).map (front ++ ·) := by
  have hjoin : (a ++ "\n" ++ b).toList = a.toList ++ '\n' :: b.toList := by simp
  rw [tokenize, tokenize, hjoin, Nat.add_comm]
  exact scan_stacked h

/-- A text below one that has tokens changes none of these, and is itself cut as it would be alone:
the same tokens, or the same error, as many lines further down as the text above has. -/
theorem tokenize_distributes (a b : String) (front : List Token) (finish : Token)
    (h : tokenize a = .ok (front ++ [finish])) :
    (∀ tokens, tokenize b = .ok tokens → tokenize (a ++ "\n" ++ b) =
      .ok (front ++ tokens.map (Token.below (a.toList.count '\n' + 1)))) ∧
    ∀ e, tokenize b = .error e →
      tokenize (a ++ "\n" ++ b) = .error (e.below (a.toList.count '\n' + 1)) := by
  obtain ⟨front', heq, hs⟩ := scans_of_scan h
  obtain ⟨rfl, _⟩ := List.append_inj' heq rfl
  constructor
  · intro tokens hb
    rw [tokenize_stacked hs, hb]
    rfl
  · intro e hb
    rw [tokenize_stacked hs, hb]
    rfl

/-- A quote over two lines, and a sign that would be half of another one before an equals sign. -/
def halfSign : String :=
  "'x\ny'\r!"

theorem tokenize_distributes_halfSign :
    tokenize halfSign = .ok [⟨.char, "'x\ny'", 1⟩, ⟨.bang, "!", 2⟩, ⟨.finish, "", 2⟩] ∧
      tokenize (halfSign ++ "\n" ++ "=\n5") = .ok [⟨.char, "'x\ny'", 1⟩, ⟨.bang, "!", 2⟩,
        ⟨.assign, "=", 3⟩, ⟨.integer, "5", 4⟩, ⟨.finish, "", 4⟩] ∧
      tokenize (halfSign ++ "\n" ++ "é 1.\r") = .error ⟨.invalidNumber, 3, 3, "é 1."⟩ := by
  have ha : tokenize halfSign =
      .ok ([⟨.char, "'x\ny'", 1⟩, ⟨.bang, "!", 2⟩] ++ [⟨.finish, "", 2⟩]) := by decide +kernel
  refine ⟨ha, ?_, ?_⟩
  · exact (tokenize_distributes _ _ _ _ ha).1
      [⟨.assign, "=", 1⟩, ⟨.integer, "5", 2⟩, ⟨.finish, "", 2⟩] (by decide +kernel)
  · exact (tokenize_distributes _ _ _ _ ha).2 ⟨.invalidNumber, 1, 3, "é 1."⟩ (by decide +kernel)

end Scriptlet
