import Scriptlet.Proofs.Munch

/-!
The tokens of a text. Nothing of the text is lost: it is the tokens with blanks between them, each
token the longest at its place and marked with the line on which it starts.
-/

namespace Scriptlet

namespace Token

/-- A token with the blanks before it. -/
structure Piece where
  gap : List Char
  token : Token

namespace Piece

def lexeme (p : Piece) : List Char :=
  p.token.lexeme.toList

def text (p : Piece) : List Char :=
  p.gap ++ p.lexeme

end Piece

/-- The text of some pieces and the blanks that end it. -/
def joined (pieces : List Piece) (gap : List Char) : List Char :=
  pieces.flatMap Piece.text ++ gap

def Blank (gap : List Char) : Prop :=
  ∀ c ∈ gap, c = ' ' ∨ c = '\r' ∨ c = '\n'

/-- A text that starts on a given line is cut into pieces. -/
structure Cut (line : Nat) (text : List Char) (tokens : List Token) (pieces : List Piece)
    (gap : List Char) : Prop where
  text_eq : text = joined pieces gap
  tokens_eq : tokens = pieces.map Piece.token ++ [⟨.finish, "", line + text.count '\n'⟩]
  blank : Blank gap
  piece_blank : ∀ p ∈ pieces, Blank p.gap
  piece_line : ∀ pre p post, pieces = pre ++ p :: post →
    p.token.line = line + (joined pre p.gap).count '\n'
  piece_rule : ∀ pre p post, pieces = pre ++ p :: post →
    Munch p.token.kind p.lexeme (joined post gap)

variable {line : Nat} {text gap xs ys : List Char} {tokens : List Token} {q : Piece}
  {pieces : List Piece} {place : Place}

theorem joined_cons : joined (q :: pieces) gap = q.gap ++ (q.lexeme ++ joined pieces gap) := by
  simp [joined, Piece.text]

theorem cut_nil (h : Blank gap) : Cut line gap [⟨.finish, "", line + gap.count '\n'⟩] [] gap where
  text_eq := rfl
  tokens_eq := rfl
  blank := h
  piece_blank := by simp
  piece_line := by simp
  piece_rule := by simp

theorem Cut.cons (hb : Blank q.gap) (hl : q.token.line = line + q.gap.count '\n')
    (hm : Munch q.token.kind q.lexeme text)
    (h : Cut (line + q.text.count '\n') text tokens pieces gap) :
    Cut line (q.text ++ text) (q.token :: tokens) (q :: pieces) gap where
  text_eq := by
    rw [h.text_eq]
    simp [joined]
  tokens_eq := by
    rw [h.tokens_eq]
    simp [Nat.add_assoc]
  blank := h.blank
  piece_blank := List.forall_mem_cons.mpr ⟨hb, h.piece_blank⟩
  piece_line := by
    intro pre p post hp
    cases pre with
    | nil =>
      obtain ⟨rfl, rfl⟩ := List.cons.inj hp
      exact hl
    | cons r pre =>
      obtain ⟨rfl, hpieces⟩ := List.cons.inj hp
      rw [h.piece_line pre p post hpieces]
      simp [joined, Nat.add_assoc]
  piece_rule := by
    intro pre p post hp
    cases pre with
    | nil =>
      obtain ⟨rfl, rfl⟩ := List.cons.inj hp
      rwa [← h.text_eq]
    | cons r pre =>
      obtain ⟨rfl, hpieces⟩ := List.cons.inj hp
      exact h.piece_rule pre p post hpieces

theorem Cut.tail (h : Cut line text tokens (q :: pieces) gap) :
    ∃ tokens', tokens = q.token :: tokens' ∧
      Cut (line + q.text.count '\n') (joined pieces gap) tokens' pieces gap := by
  refine ⟨_, h.tokens_eq, ?_⟩
  have hc : text.count '\n' = q.text.count '\n' + (joined pieces gap).count '\n' := by
    rw [h.text_eq]
    simp [joined]
  refine ⟨rfl, ?_, h.blank, (List.forall_mem_cons.mp h.piece_blank).2, ?_, ?_⟩
  · rw [hc, Nat.add_assoc]
    rfl
  · rintro pre p post rfl
    rw [h.piece_line (q :: pre) p post rfl]
    simp [joined, Nat.add_assoc]
  · rintro pre p post rfl
    exact h.piece_rule (q :: pre) p post rfl

theorem Cut.head_line (h : Cut line text tokens (q :: pieces) gap) :
    q.token.line = line + q.gap.count '\n' := by
  rw [h.piece_line [] q pieces rfl]
  simp [joined]

theorem advance_line : (place.advance xs).line = place.line + xs.count '\n' := by
  induction xs generalizing place with
  | nil => rfl
  | cons c cs ih =>
    rw [Place.advance, List.foldl_cons]
    refine ih.trans ?_
    by_cases hc : c = '\n'
    · subst hc
      simp [Place.step]
      omega
    · simp [Place.step, hc, List.count_cons_of_ne]

theorem scan_blank (h : Blank xs) : scan place (xs ++ ys) = scan (place.advance xs) ys := by
  induction xs generalizing place with
  | nil => rfl
  | cons c cs ih =>
    obtain ⟨hc, hcs⟩ := List.forall_mem_cons.mp h
    rw [List.cons_append, scan, if_pos (isBlank_iff.mpr hc), ih hcs]
    rfl

theorem scan_munch {kind : Kind} (h : Munch kind xs ys) :
    scan place (xs ++ ys) =
      (scan (place.advance xs) ys).map (⟨kind, String.ofList xs, place.line⟩ :: ·) := by
  obtain ⟨c, ls, rfl, hb⟩ := munch_cons h
  rw [List.cons_append, scan, if_neg (by simp [hb]), munch_of_rule h]
  simp

theorem exists_munch {c : Char} (hb : isBlank c = false) (h : scan place (c :: xs) = .ok tokens) :
    ∃ kind ls after, c :: xs = ls ++ after ∧ Munch kind ls after := by
  rw [scan, if_neg (by simp [hb])] at h
  cases hm : munch c xs with
  | error flaw =>
    rw [hm] at h
    cases h
  | ok token =>
    obtain ⟨kind, n⟩ := token
    exact ⟨kind, c :: xs.take n, xs.drop n, by simp, munch_ok hb hm⟩

/-- The text splits into its first blanks and a text that is empty or starts with no blank. -/
theorem exists_blank (text : List Char) :
    ∃ gap rest, text = gap ++ rest ∧ Blank gap ∧ Stops isBlank rest := by
  refine ⟨text.takeWhile isBlank, text.dropWhile isBlank, ?_, ?_, stops_dropWhile⟩
  · exact List.takeWhile_append_dropWhile.symm
  · intro c hc
    exact isBlank_iff.mp (List.mem_takeWhile_imp hc)

theorem cut_of_scan (h : scan place text = .ok tokens) :
    ∃ pieces gap, Cut place.line text tokens pieces gap := by
  -- A step takes the blanks and the token after them, so the induction is on what is left.
  induction hn : text.length using Nat.strong_induction_on generalizing place text tokens with
  | _ n ih =>
    obtain ⟨gap, rest, rfl, hb, hs⟩ := exists_blank text
    rw [scan_blank hb] at h
    cases rest with
    | nil =>
      rw [scan] at h
      cases h
      refine ⟨[], gap, ?_⟩
      rw [List.append_nil, advance_line]
      exact cut_nil hb
    | cons c cs =>
      obtain ⟨kind, ls, after, hc, hm⟩ := exists_munch (hs c rfl) h
      rw [hc] at h hn ⊢
      rw [scan_munch hm] at h
      cases hr : scan ((place.advance gap).advance ls) after with
      | error e =>
        rw [hr] at h
        cases h
      | ok rest =>
        rw [hr] at h
        cases h
        have hlt : after.length < n := by
          obtain ⟨d, ds, rfl, _⟩ := munch_cons hm
          simp at hn
          omega
        obtain ⟨pieces, last, hcut⟩ := ih _ hlt hr rfl
        rw [advance_line, advance_line] at hcut
        let q : Piece := ⟨gap, ⟨kind, String.ofList ls, (place.advance gap).line⟩⟩
        have hq : q.text = gap ++ ls := by simp [Piece.text, Piece.lexeme, q]
        refine ⟨q :: pieces, last, ?_⟩
        rw [← List.append_assoc, ← hq]
        refine Cut.cons hb advance_line ?_ ?_
        · rwa [show q.lexeme = ls from String.toList_ofList]
        · rwa [hq, List.count_append, ← Nat.add_assoc]

theorem scan_of_cut (h : Cut place.line text tokens pieces gap) : scan place text = .ok tokens := by
  induction pieces generalizing place text tokens with
  | nil =>
    obtain rfl : text = gap := h.text_eq
    have hs : scan place (text ++ []) = _ := scan_blank h.blank
    rw [List.append_nil] at hs
    rw [hs, scan, advance_line, h.tokens_eq]
    rfl
  | cons q pieces ih =>
    obtain ⟨tokens', rfl, ht⟩ := h.tail
    have hb := h.piece_blank q (by simp)
    have hm := h.piece_rule [] q pieces rfl
    have hend : ((place.advance q.gap).advance q.lexeme).line =
        place.line + q.text.count '\n' := by
      simp [advance_line, Piece.text, Nat.add_assoc]
    rw [← hend] at ht
    rw [h.text_eq, joined_cons, scan_blank hb, scan_munch hm, ih ht, advance_line,
      ← h.head_line]
    simp [Except.map, Piece.lexeme]

theorem munch_kind {kind : Kind} (h : Munch kind xs ys) : kind ≠ .finish ∧ kind ≠ .newline := by
  cases h with
  | @keyword word _ _ hw =>
    have hall : ∀ k ∈ keywords, k.2 ≠ .finish ∧ k.2 ≠ .newline := by decide
    exact hall (word, kind) hw
  | @symbol _ _ _ hs =>
    have hall : ∀ s ∈ symbols, s.2 ≠ .finish ∧ s.2 ≠ .newline := by decide
    exact hall (xs, kind) hs
  | identifier => decide
  | integer => decide
  | float => decide
  | string => decide
  | char => decide
  | unknown => decide

/-- Every token but the one of the end is as the rules say. -/
theorem Cut.munch_of_mem {t : Token} (h : Cut line text tokens pieces gap) (ht : t ∈ tokens) :
    (t.kind = .finish ∧ t.lexeme = "") ∨ ∃ after, Munch t.kind t.lexeme.toList after := by
  rw [h.tokens_eq] at ht
  rcases List.mem_append.mp ht with ht | ht
  · obtain ⟨p, hp, rfl⟩ := List.mem_map.mp ht
    obtain ⟨pre, post, hpieces⟩ := List.append_of_mem hp
    exact Or.inr ⟨_, h.piece_rule pre p post hpieces⟩
  · rw [List.mem_singleton.mp ht]
    exact Or.inl ⟨rfl, rfl⟩

theorem Cut.ordered (h : Cut line text tokens pieces gap) :
    (tokens.map Token.line).Pairwise (· ≤ ·) ∧ ∀ t ∈ tokens, line ≤ t.line := by
  induction pieces generalizing line text tokens with
  | nil =>
    rw [h.tokens_eq]
    simp
  | cons q pieces ih =>
    obtain ⟨tokens', rfl, ht⟩ := h.tail
    obtain ⟨hs, hl⟩ := ih ht
    have hq := h.head_line
    have hle : q.gap.count '\n' ≤ q.text.count '\n' := by
      simp [Piece.text]
    rw [List.map_cons, List.pairwise_cons, List.forall_mem_map, List.forall_mem_cons]
    refine ⟨⟨?_, hs⟩, by omega, ?_⟩
    · intro t ht
      have := hl t ht
      omega
    · intro t ht
      have := hl t ht
      omega

/-- Only the last token is of the end, lines never decrease, and no rule matches more of the text
at the place of a token than the token's own text. -/
structure Maximal (tokens : List Token) (pieces : List Piece) (gap : List Char) : Prop where
  plain : ∀ p ∈ pieces, p.token.kind ≠ .finish ∧ p.token.kind ≠ .newline
  ordered : (tokens.map Token.line).Pairwise (· ≤ ·)
  longest : ∀ pre p post, pieces = pre ++ p :: post →
    ∀ xs, xs <+: p.lexeme ++ joined post gap → Pattern xs → xs.length ≤ p.lexeme.length

theorem Cut.maximal (h : Cut line text tokens pieces gap) : Maximal tokens pieces gap where
  plain := by
    intro p hp
    obtain ⟨pre, post, hpieces⟩ := List.append_of_mem hp
    exact munch_kind (h.piece_rule pre p post hpieces)
  ordered := h.ordered.1
  longest := by
    intro pre p post hpieces xs hx hp
    exact munch_longest (h.piece_rule pre p post hpieces) hx hp

end Token

open Token

/-- The tokens of a text are its only cut into longest tokens. -/
theorem tokenize_eq_ok_iff_cut (text : String) (tokens : List Token) :
    (tokenize text = .ok tokens ↔ ∃ pieces gap, Cut 1 text.toList tokens pieces gap) ∧
      ∀ pieces gap, Cut 1 text.toList tokens pieces gap → Maximal tokens pieces gap := by
  refine ⟨⟨?_, ?_⟩, fun pieces gap h => h.maximal⟩
  · intro h
    exact cut_of_scan h
  · rintro ⟨pieces, gap, h⟩
    have hs : scan .start text.toList = .ok tokens := scan_of_cut h
    exact hs

theorem tokenize_eq_ok_iff_cut_quoted :
    ∃ tokens pieces gap, tokens.map Token.line = [1, 2, 3, 3, 3] ∧
      Cut 1 "\"a\nb\" !=\n2.5@".toList tokens pieces gap ∧ Maximal tokens pieces gap := by
  have h := tokenize_eq_ok_iff_cut "\"a\nb\" !=\n2.5@"
    [⟨.string, "\"a\nb\"", 1⟩, ⟨.notEqual, "!=", 2⟩, ⟨.float, "2.5", 3⟩, ⟨.unknown, "@", 3⟩,
      ⟨.finish, "", 3⟩]
  obtain ⟨pieces, gap, hc⟩ := h.1.mp (by decide +kernel)
  exact ⟨_, pieces, gap, rfl, hc, h.2 pieces gap hc⟩

end Scriptlet
