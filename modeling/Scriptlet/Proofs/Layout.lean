import Scriptlet.Run
import Scriptlet.Proofs.Alike
import Scriptlet.Proofs.Refusal
import Scriptlet.Proofs.Scanning

/-!
Layout. Blanks part tokens and mean nothing else: the lexemes of a text, set out anew with other
blanks between them, are cut into the same tokens, on the lines where they now stand, and the new
text answers as the old one does, but for the line that a report names.
-/

namespace Scriptlet

namespace Token

/-- The lexemes of some tokens, each with a gap before it. The token of the end has no text, so the
last gap stands at the end. -/
def laidOut : List String → List Token → String
  | gap :: gaps, t :: tokens => gap ++ t.lexeme ++ laidOut gaps tokens
  | _, _ => ""

/-- A gap for every token, the one of the end included. Two lexemes are never set side by side. -/
structure Layout (gaps : List String) (tokens : List Token) : Prop where
  length : gaps.length = tokens.length
  blank : ∀ gap ∈ gaps, Blank gap.toList
  parted : ∀ gap ∈ gaps.tail.dropLast, gap ≠ ""

/-- The tokens on the lines where a layout that starts on a given line puts them. -/
def relined (line : Nat) : List String → List Token → List Token
  | gap :: gaps, t :: tokens =>
    { t with line := line + gap.toList.count '\n' } ::
      relined (line + gap.toList.count '\n' + t.lexeme.toList.count '\n') gaps tokens
  | _, _ => []

variable {line i : Nat} {text : List Char} {tokens : List Token} {pieces : List Piece}
  {last : List Char} {gap : String} {gaps : List String} {place : Place} {t : Token}

theorem toList_laidOut : (laidOut (gap :: gaps) (t :: tokens)).toList =
    gap.toList ++ (t.lexeme.toList ++ (laidOut gaps tokens).toList) := by
  simp [laidOut]

theorem Layout.tail (h : Layout (gap :: gaps) (t :: tokens)) : Layout gaps tokens where
  length := Nat.succ.inj h.length
  blank := (List.forall_mem_cons.mp h.blank).2
  parted := by
    intro g hg
    apply h.parted g
    cases gaps with
    | nil => cases hg
    | cons g' gaps =>
      cases gaps with
      | nil => cases hg
      | cons g'' gaps => exact List.mem_cons_of_mem g' hg

/-- After a lexeme the layout goes on with a blank, if it goes on at all. -/
theorem Layout.follow (h : Layout (gap :: gaps) (t :: tokens))
    (he : ∀ u, tokens = [u] → u.lexeme = "") :
    ∀ c, (laidOut gaps tokens).toList.head? = some c → isBlank c = true := by
  intro c hc
  obtain ⟨hlen, hblank, _⟩ := h.tail
  cases gaps with
  | nil => simp [laidOut] at hc
  | cons g gaps =>
    cases tokens with
    | nil => cases hlen
    | cons u tokens =>
      rw [toList_laidOut] at hc
      by_cases hg : g = ""
      · -- Only the last gap can be empty, and the token after it has no text.
        subst hg
        cases gaps with
        | cons g' gaps => exact (h.parted "" (by simp) rfl).elim
        | nil =>
          obtain rfl : tokens = [] := by simpa using hlen.symm
          simp [he u rfl, laidOut] at hc
      · obtain ⟨d, ds, hd⟩ := List.exists_cons_of_ne_nil (String.toList_eq_nil_iff.not.mpr hg)
        rw [hd] at hc
        cases hc
        exact isBlank_iff.mpr (hblank g (by simp) c (by simp [hd]))

/-- A token that stands last in a cut has no text. -/
theorem Cut.lexeme_last (h : Cut line text tokens pieces last) (ht : tokens = [t]) :
    t.lexeme = "" := by
  cases pieces with
  | nil =>
    rw [h.tokens_eq] at ht
    cases ht
    rfl
  | cons q pieces =>
    rw [h.tokens_eq] at ht
    simp at ht

/-- The lexemes of a cut are cut off again wherever a layout puts them. -/
theorem scan_laidOut (h : Cut line text tokens pieces last) (hl : Layout gaps tokens) :
    scan place (laidOut gaps tokens).toList = .ok (relined place.line gaps tokens) := by
  induction pieces generalizing line text tokens gaps place with
  | nil =>
    obtain rfl := h.tokens_eq
    obtain ⟨gap, rfl⟩ := List.length_eq_one_iff.mp hl.length
    have hb : Blank gap.toList := hl.blank gap (by simp)
    have hs : scan place (gap.toList ++ []) = _ := scan_blank hb
    rw [List.append_nil, scan, advance_line] at hs
    simpa [laidOut, relined] using hs
  | cons q pieces ih =>
    obtain ⟨tokens', rfl, ht⟩ := h.tail
    obtain ⟨gap, gaps, rfl⟩ := List.exists_cons_of_length_eq_add_one hl.length
    have hb : Blank gap.toList := hl.blank gap (by simp)
    have hm : Munch q.token.kind q.lexeme (laidOut gaps tokens').toList := by
      apply munch_follow (h.piece_rule [] q pieces rfl)
      intro c hc
      exact Or.inr (hl.follow (fun u => ht.lexeme_last) c hc)
    rw [toList_laidOut, scan_blank hb]
    refine (scan_munch hm).trans ?_
    rw [ih ht hl.tail]
    simp only [advance_line, Piece.lexeme, String.ofList_toList, Except.map, relined]

theorem map_alike {β : Type} {R : Nat → Nat → Prop} {us : List Token} {f : Token → β}
    (hf : ∀ t u, Alike R t u → f u = f t) (h : List.Forall₂ (Alike R) tokens us) :
    us.map f = tokens.map f := by
  induction h with
  | nil => rfl
  | cons ht _ ih => rw [List.map_cons, List.map_cons, hf _ _ ht, ih]

theorem alike_relined (h : gaps.length = tokens.length) :
    List.Forall₂ (Alike fun _ _ => True) tokens (relined line gaps tokens) := by
  induction tokens generalizing line gaps with
  | nil =>
    obtain rfl := List.length_eq_zero_iff.mp h
    exact .nil
  | cons t tokens ih =>
    obtain ⟨gap, gaps, rfl⟩ := List.exists_cons_of_length_eq_add_one h
    exact .cons ⟨rfl, rfl, trivial⟩ (ih (Nat.succ.inj h))

/-- Every token is on the line that the text before it ends on. -/
theorem line_relined (ht : (relined line gaps tokens)[i]? = some t) (hg : gaps[i]? = some gap) :
    t.line = line + (laidOut (gaps.take i) (tokens.take i) ++ gap).toList.count '\n' := by
  induction i generalizing line gaps tokens with
  | zero =>
    cases gaps with
    | nil => cases hg
    | cons g gaps =>
      cases hg
      cases tokens with
      | nil => cases ht
      | cons u tokens =>
        cases ht
        simp [laidOut]
  | succ i ih =>
    cases gaps with
    | nil => cases hg
    | cons g gaps =>
      cases tokens with
      | nil => cases ht
      | cons u tokens =>
        rw [ih ht hg]
        simp [laidOut]
        omega

end Token

/-- Reports of the same stage that differ in no more of their message than the line. -/
structure Diagnostic.Alike (d d' : Diagnostic) : Prop where
  stage : d.stage = d'.stage
  message : ∃ text, d.message = text ++ " on line " ++ toString d.line ∧
    d'.message = text ++ " on line " ++ toString d'.line

open Token

variable {a b : String} {tokens : List Token} {gaps : List String} {R : Nat → Nat → Prop}

theorem alike_ofSyntaxError {e e' : SyntaxError} (h : e.cause = e'.cause) :
    Diagnostic.Alike (.ofSyntaxError e) (.ofSyntaxError e') where
  stage := rfl
  message := ⟨"Syntax Error: " ++ e.cause.text, rfl, by rw [h]; rfl⟩

theorem alike_ofTypeError {x y : TypeError} (h : TypeError.Alike R x y) :
    Diagnostic.Alike (.ofTypeError x) (.ofTypeError y) where
  stage := rfl
  message := ⟨"TypeError: " ++ x.description, rfl, by rw [h.description_eq]; rfl⟩

/-- Texts that are read alike answer alike. -/
theorem run_alike (h : Matches (fun e e' => e.cause = e'.cause) (List.Forall₂ (Expr.Alike R))
    (read a) (read b)) : Matches Diagnostic.Alike Eq (run a) (run b) := by
  simp only [run]
  generalize read a = x at h
  generalize read b = y at h
  cases h with
  | error he => exact .error (alike_ofSyntaxError he)
  | @ok p q hp =>
    have hi := interpret_alike hp
    simp only
    generalize interpret p = x at hi
    generalize interpret q = y at hi
    cases hi with
    | error hx => exact .error (alike_ofTypeError hx)
    | ok hv => exact .ok hv

/-- Only the order of the lexemes counts. Set out with any blanks between them, they are the same
tokens on the lines where they stand, and the text has the same value or the same report, up to the
line. -/
theorem layout_irrelevant (text : String) (tokens : List Token) (gaps : List String)
    (h : tokenize text = .ok tokens) (hl : Layout gaps tokens) :
    (∃ tokens', tokenize (laidOut gaps tokens) = .ok tokens' ∧
      tokens'.map Token.kind = tokens.map Token.kind ∧
      tokens'.map Token.lexeme = tokens.map Token.lexeme ∧
      ∀ i t gap, tokens'[i]? = some t → gaps[i]? = some gap →
        t.line = 1 + (laidOut (gaps.take i) (tokens.take i) ++ gap).toList.count '\n') ∧
      Matches Diagnostic.Alike Eq (run text) (run (laidOut gaps tokens)) := by
  obtain ⟨pieces, last, hc⟩ := cut_of_scan h
  have ht : tokenize (laidOut gaps tokens) = .ok (relined 1 gaps tokens) := scan_laidOut hc hl
  have ha : List.Forall₂ (Token.Alike fun _ _ => True) tokens (relined 1 gaps tokens) :=
    alike_relined hl.length
  refine ⟨⟨_, ht, ?_, ?_, fun i t gap => line_relined⟩, ?_⟩
  · exact map_alike (fun _ _ hu => hu.kind.symm) ha
  · exact map_alike (fun _ _ hu => hu.lexeme.symm) ha
  · apply run_alike (R := fun _ _ => True)
    rw [read_of_tokenize h, read_of_tokenize ht]
    refine (parse_alike ha).imp ?_
    rintro _ _ ⟨i, cause, rfl, rfl⟩
    rw [errorAt_cause, errorAt_cause]

/-- The product of a quote over two lines and a number, without a blank. -/
def crowded : String := "\"a\nb\"*2"

def crowdedTokens : List Token :=
  [⟨.string, "\"a\nb\"", 1⟩, ⟨.star, "*", 2⟩, ⟨.integer, "2", 2⟩, ⟨.finish, "", 2⟩]

def spacing : List String := ["\n", " ", "\r\n", ""]

theorem layout_irrelevant_crowded :
    tokenize crowded = .ok crowdedTokens ∧ Layout spacing crowdedTokens ∧
      (∃ tokens, tokenize "\n\"a\nb\" *\r\n2" = .ok tokens ∧
        tokens.map Token.kind = crowdedTokens.map Token.kind) ∧
      ∃ d, run "\n\"a\nb\" *\r\n2" = .error d ∧
        Diagnostic.Alike
          ⟨.typeError, "TypeError: expected numeric type on line 2", 2, none, none⟩ d := by
  have ht : tokenize crowded = .ok crowdedTokens := by decide +kernel
  have hl : Layout spacing crowdedTokens := ⟨rfl, by simp [spacing, Blank], by simp [spacing]⟩
  have hd : run crowded = .error
      ⟨.typeError, "TypeError: expected numeric type on line 2", 2, none, none⟩ := by
    decide +kernel
  obtain ⟨⟨tokens, htokens, hkinds, _⟩, hrun⟩ :=
    layout_irrelevant crowded crowdedTokens spacing ht hl
  have htext : laidOut spacing crowdedTokens = "\n\"a\nb\" *\r\n2" := by decide +kernel
  rw [htext] at htokens hrun
  exact ⟨ht, hl, ⟨tokens, htokens, hkinds⟩, hrun.of_error hd⟩

end Scriptlet
