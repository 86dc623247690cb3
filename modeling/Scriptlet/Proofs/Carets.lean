import Scriptlet.Proofs.RebuiltLines

/-!
Where a refused token is shown. The line of an error is put together from lexemes, and the column
points at the refused one in it. Where a text is laid out as such lines are, its lines and columns
are the true ones, which the scanner would give for the same place.
-/

namespace Scriptlet

open Grammar

namespace Token

/-- A character that is no token's start, and white. -/
def White (t : Token) : Prop :=
  t.kind = .unknown ∧ ∃ c, t.lexeme.toList = [c] ∧ Text.isWhiteSpace c = true

variable {c : Char} {cs after text gap xs ys : List Char} {kind : Kind} {line : Nat}
  {tokens us : List Token} {t : Token} {pieces pre post : List Piece} {p q : Piece}

theorem visible_not_white (h : 33 ≤ c.toNat ∧ c.toNat ≤ 126) : Text.isWhiteSpace c = false := by
  simp only [Text.isWhiteSpace, Bool.or_eq_false_iff, Bool.and_eq_false_iff, beq_eq_false_iff_ne,
    decide_eq_false_iff_not]
  omega

theorem letter_not_white (h : c.isAlpha = true) : Text.isWhiteSpace c = false := by
  apply visible_not_white
  simp only [Char.isAlpha, Char.isUpper, Char.isLower, Bool.or_eq_true, Bool.and_eq_true,
    decide_eq_true_eq] at h
  rcases h with ⟨hl, hu⟩ | ⟨hl, hu⟩
  · exact ⟨Nat.le_trans (by decide) hl, Nat.le_trans hu (by decide)⟩
  · exact ⟨Nat.le_trans (by decide) hl, Nat.le_trans hu (by decide)⟩

theorem digit_not_white (h : c.isDigit = true) : Text.isWhiteSpace c = false := by
  apply visible_not_white
  simp only [Char.isDigit, Bool.and_eq_true, decide_eq_true_eq] at h
  exact ⟨Nat.le_trans (by decide) h.1, Nat.le_trans h.2 (by decide)⟩

theorem ends_of_forall (hne : cs ≠ []) (hcs : ∀ c ∈ cs, Text.isWhiteSpace c = false) :
    Ends cs := by
  obtain ⟨ds, c, rfl⟩ := (List.eq_nil_or_concat' cs).resolve_left hne
  exact ⟨ds, c, rfl, hcs c (by simp)⟩

theorem ends_letters (h : Letters cs) : Ends cs :=
  ends_of_forall h.1 fun c hc => letter_not_white (h.2 c hc)

theorem ends_digits (h : Digits cs) : Ends cs :=
  ends_of_forall h.1 fun c hc => digit_not_white (h.2 c hc)

theorem ends_append (h : Ends ys) : Ends (xs ++ ys) := by
  obtain ⟨ds, c, rfl, hc⟩ := h
  exact ⟨xs ++ ds, c, by simp, hc⟩

/-- A lexeme ends in a character that is not white, unless it is a white one by itself. -/
theorem munch_ends (h : Munch kind cs after) :
    Ends cs ∨ kind = .unknown ∧ ∃ c, cs = [c] ∧ Text.isWhiteSpace c = true := by
  cases h with
  | keyword hw => exact Or.inl (ends_letters (letters_keyword hw))
  | identifier hl => exact Or.inl (ends_letters hl)
  | integer hd => exact Or.inl (ends_digits hd)
  | float _ hd =>
    left
    rw [List.append_cons]
    exact ends_append (ends_digits hd)
  | @string cs => exact Or.inl ⟨'"' :: cs, '"', rfl, rfl⟩
  | @char cs => exact Or.inl ⟨'\'' :: cs, '\'', rfl, rfl⟩
  | symbol hs =>
    have hall : ∀ s ∈ symbols, s.1 ≠ [] ∧ s.1.all (fun c => !Text.isWhiteSpace c) = true := by
      decide
    obtain ⟨hne, hcs⟩ := hall _ hs
    exact Or.inl (ends_of_forall hne (by simpa using hcs))
  | @unknown c =>
    cases hc : Text.isWhiteSpace c with
    | false => exact Or.inl ⟨[], c, rfl, hc⟩
    | true => exact Or.inr ⟨rfl, c, rfl, hc⟩

theorem Cut.ends (h : Cut line text tokens pieces gap) (ht : t ∈ tokens)
    (hk : t.kind ≠ .finish) : Ends t.lexeme.toList ∨ White t := by
  obtain ⟨after, hm⟩ := (h.munch_of_mem ht).resolve_left fun hf => hk hf.1
  exact munch_ends hm

/-- The characters that belong to tokens. -/
def weight (cs : List Char) : Nat :=
  cs.countP fun c => !isBlank c

theorem weight_append : weight (xs ++ ys) = weight xs + weight ys :=
  List.countP_append

theorem weight_blank (h : Blank gap) : weight gap = 0 := by
  rw [weight, List.countP_eq_zero]
  intro c hc
  simp [isBlank_iff.mpr (h c hc)]

theorem weight_gap (h : Blank gap) : weight (gap.rtakeWhile (· != '\n')) = 0 := by
  apply weight_blank
  intro c hc
  exact h c ((List.rtakeWhile_suffix _ _).subset hc)

theorem weight_pos (cs : List Char) (hb : isBlank c = false) : 0 < weight (c :: cs) := by
  rw [weight, List.countP_cons_of_pos (by simp [hb])]
  omega

/-- What stands before a token is known by the characters of tokens in it. -/
theorem prefix_unique {c d : Char} {xs' ys' : List Char} (h : xs ++ c :: xs' = ys ++ d :: ys')
    (hc : isBlank c = false) (hd : isBlank d = false) (hw : weight xs = weight ys) : xs = ys := by
  rcases List.append_eq_append_iff.mp h with ⟨zs, rfl, hz⟩ | ⟨zs, rfl, hz⟩
  · cases zs with
    | nil => simp
    | cons z zs =>
      obtain ⟨rfl, _⟩ := List.cons.inj hz
      have := weight_pos zs hc
      rw [weight_append] at hw
      omega
  · cases zs with
    | nil => simp
    | cons z zs =>
      obtain ⟨rfl, _⟩ := List.cons.inj hz
      have := weight_pos zs hd
      rw [weight_append] at hw
      omega

/-- What stands on the last line, if a text goes on with some more. -/
theorem rtakeWhile_append : (xs ++ ys).rtakeWhile (· != '\n') =
    if '\n' ∈ ys then ys.rtakeWhile (· != '\n') else xs.rtakeWhile (· != '\n') ++ ys := by
  induction ys using List.reverseRecOn with
  | nil => simp
  | append_singleton ys c ih =>
    rw [← List.append_assoc, List.rtakeWhile_concat, List.rtakeWhile_concat, ih]
    by_cases hc : c = '\n'
    · simp [hc]
    · by_cases hy : '\n' ∈ ys
      · simp [hc, hy]
      · simp [hc, hy, Ne.symm hc]

theorem joined_concat : joined (pre ++ [p]) gap = joined pre p.gap ++ p.lexeme ++ gap := by
  simp [joined, Piece.text]

theorem Cut.line_le (h : Cut line text tokens (pre ++ q :: post) gap) :
    ∀ p ∈ pre, p.token.line ≤ q.token.line := by
  intro p hp
  have hs := h.ordered.1
  rw [h.tokens_eq, List.map_append, List.map_append, List.map_append] at hs
  have hpre := (List.pairwise_append.mp (List.pairwise_append.mp hs).1).2.2
  exact hpre _ (List.mem_map_of_mem (List.mem_map_of_mem hp)) _ (by simp)

/-- Before a token its line holds the characters of the line's tokens up to it, if no lexeme goes
over a line. -/
theorem Cut.weight_line (h : Cut line text tokens (pre ++ q :: post) gap)
    (hone : ∀ p ∈ pre, '\n' ∉ p.lexeme) :
    weight ((joined pre q.gap).rtakeWhile (· != '\n')) =
      weight (followed (onLine (pre.map Piece.token) q.token.line)) := by
  induction pre using List.reverseRecOn generalizing q post with
  | nil => exact weight_gap (h.piece_blank q (by simp))
  | append_singleton pre r ih =>
    rw [List.append_assoc, List.singleton_append] at h
    have hb : Blank q.gap := h.piece_blank q (by simp)
    have hr : '\n' ∉ r.lexeme := hone r (by simp)
    have hline : q.token.line = r.token.line + q.gap.count '\n' := by
      have hq := h.piece_line (pre ++ [r]) q post (by simp)
      rw [h.piece_line pre r (q :: post) rfl, hq, joined_concat]
      simp [List.count_eq_zero_of_not_mem hr, Nat.add_assoc]
    rw [joined_concat, rtakeWhile_append, rtakeWhile_append, if_neg hr]
    by_cases hn : '\n' ∈ q.gap
    · -- The line starts in the gap, so that no token stands before on it.
      have hpos := List.count_pos_iff.mpr hn
      have hnone : onLine ((pre ++ [r]).map Piece.token) q.token.line = [] := by
        rw [onLine, List.filter_eq_nil_iff]
        intro t ht
        obtain ⟨p, hp, rfl⟩ := List.mem_map.mp ht
        have hle : p.token.line ≤ r.token.line := by
          rcases List.mem_append.mp hp with hp | hp
          · exact h.line_le p hp
          · rw [List.mem_singleton.mp hp]
        have hlt : p.token.line ≠ q.token.line := by omega
        simpa using hlt
      rw [if_pos hn, weight_gap hb, hnone]
      rfl
    · have hsame : q.token.line = r.token.line := by
        rw [hline, List.count_eq_zero_of_not_mem hn, Nat.add_zero]
      have hrest := ih h fun p hp => hone p (by simp [hp])
      rw [if_neg hn, weight_append, weight_append, weight_blank hb, hrest, hsame, List.map_append,
        List.map_singleton, onLine_concat, followed_concat, weight_append, weight_append]
      rfl

/-- The line of a text around a position. -/
def lineAround (text : List Char) (i : Nat) : List Char :=
  lineBefore text i ++ lineFrom text i

/-- No lexeme goes over a line, and every line is its lexemes with one space between two, the last
of them not white. -/
structure Tidy (text : List Char) (tokens : List Token) : Prop where
  oneLine : ∀ t ∈ tokens, '\n' ∉ t.lexeme.toList
  lines : ∀ i ≤ text.length,
    lineAround text i = spaced (onLine (body tokens) (1 + (text.take i).count '\n'))
  trimmed : ∀ i ≤ text.length, ∀ c ∈ (lineAround text i).getLast?, Text.isWhiteSpace c = false

/-- The token of an index starts at a position of the text. -/
def StartsAt (text : List Char) (tokens : List Token) (k i : Nat) : Prop :=
  ∃ pre q post gap, Cut 1 text tokens (pre ++ q :: post) gap ∧ pre.length = k ∧
    (joined pre q.gap).length = i

theorem rdropWhile_self {p : Char → Bool} (h : ∀ c ∈ cs.getLast?, p c = false) :
    cs.rdropWhile p = cs := by
  rw [List.rdropWhile_eq_self_iff]
  intro hne
  simp [h _ (List.getLast?_eq_some_getLast hne)]

theorem Cut.body_eq (h : Cut line text tokens pieces gap) :
    body tokens = pieces.map Piece.token := by
  have hend : Endless (pieces.map Piece.token) := by
    intro t ht
    obtain ⟨p, hp, rfl⟩ := List.mem_map.mp ht
    exact (h.maximal.plain p hp).1
  rw [h.tokens_eq, body_append hend, body_finish (by rfl), List.append_nil]

theorem Cut.text_split (h : Cut line text tokens (pre ++ q :: post) gap) :
    text = joined pre q.gap ++ (q.lexeme ++ joined post gap) := by
  rw [h.text_eq]
  simp [joined, Piece.text]

theorem Cut.position_le (h : Cut line text tokens (pre ++ q :: post) gap) :
    (joined pre q.gap).length ≤ text.length := by
  rw [h.text_split]
  simp

/-- The line of a token in a tidy text. -/
theorem Tidy.line_eq (h : Tidy text tokens) (hc : Cut 1 text tokens (pre ++ q :: post) gap) :
    lineAround text (joined pre q.gap).length =
      spaced (onLine ((pre ++ q :: post).map Piece.token) q.token.line) := by
  have htake : text.take (joined pre q.gap).length = joined pre q.gap := by
    rw [hc.text_split, List.take_left]
  rw [h.lines _ hc.position_le, htake, hc.body_eq, ← hc.piece_line pre q post rfl]

/-- In a tidy text nothing but the line's tokens and their spaces stands before a token. -/
theorem Tidy.lineBefore_eq (h : Tidy text tokens)
    (hc : Cut 1 text tokens (pre ++ q :: post) gap) :
    lineBefore text (joined pre q.gap).length =
      followed (onLine (pre.map Piece.token) q.token.line) := by
  obtain ⟨c, cs, hcs, hb⟩ := munch_cons (hc.piece_rule pre q post rfl)
  have hn : c ≠ '\n' := by
    rintro rfl
    cases hb
  have hbefore : lineBefore text (joined pre q.gap).length =
      (joined pre q.gap).rtakeWhile (· != '\n') := by
    rw [lineBefore, hc.text_split, List.take_left]
  have hfrom : lineFrom text (joined pre q.gap).length =
      c :: (cs ++ joined post gap).takeWhile (· != '\n') := by
    rw [lineFrom, hc.text_split, List.drop_left, hcs, List.cons_append,
      List.takeWhile_cons_of_pos (by simpa using hn)]
  have hsplit := h.line_eq hc
  rw [List.map_append, List.map_cons, onLine_split, spaced_split, ← Piece.lexeme, lineAround, hfrom,
    hcs, List.cons_append] at hsplit
  apply prefix_unique hsplit hb hb
  rw [hbefore]
  apply hc.weight_line
  intro p hp
  apply h.oneLine p.token
  rw [hc.tokens_eq]
  exact List.mem_append_left _ (List.mem_map_of_mem (by simp [hp]))

/-- In a tidy text the error of a token is where the token starts. -/
theorem locatedAt_of_tidy {k i : Nat} (cause : SyntaxError.Cause) (h : Tidy text tokens)
    (hs : StartsAt text tokens k i) :
    LocatedAt text i (errorAt tokens k cause) ∧
      (errorAt tokens k cause).sourceLine.toList = lineAround text i := by
  obtain ⟨pre, q, post, gap, hc, rfl, rfl⟩ := hs
  have htrim := h.trimmed _ hc.position_le
  have hne : onLine ((pre ++ q :: post).map Piece.token) q.token.line ≠ [] := by
    rw [List.map_append, List.map_cons, onLine_split]
    simp
  have hget : tokens[pre.length]? = some q.token := by
    rw [hc.tokens_eq]
    simp
  have hcolumn : column tokens pre.length q.token.line =
      width (onLine (pre.map Piece.token) q.token.line) := by
    rw [column, hc.tokens_eq]
    simp
  have hsource : (lineText tokens q.token.line).toList =
      lineAround text (joined pre q.gap).length := by
    rw [hc.tokens_eq, toList_lineText_concat rfl hne, ← h.line_eq hc]
    exact rdropWhile_self htrim
  rw [errorAt_eq hget]
  refine ⟨⟨?_, ?_, ?_⟩, hsource⟩
  · rw [hc.text_split, List.take_left]
    exact hc.piece_line pre q post rfl
  · rw [h.lineBefore_eq hc, length_followed]
    exact hcolumn
  · rw [← lineAround, rdropWhile_self]
    · exact hsource
    · intro c hmem
      have := htrim c hmem
      rw [beq_eq_false_iff_ne]
      rintro rfl
      cases this

theorem LocatedAt.unique {i : Nat} {error error' : SyntaxError} (h : LocatedAt text i error)
    (h' : LocatedAt text i error') (hc : error.cause = error'.cause) : error = error' := by
  obtain ⟨hl, hcol, hs⟩ := h
  obtain ⟨hl', hcol', hs'⟩ := h'
  cases error
  cases error'
  simp only [SyntaxError.mk.injEq]
  exact ⟨hc, hl.trans hl'.symm, hcol.trans hcol'.symm, String.toList_inj.mp (hs.trans hs'.symm)⟩

/-- A token of a text is the one of the end, which is the last, or belongs to a piece. -/
theorem Cut.split {vs : List Token} (h : Cut line text tokens pieces gap)
    (htokens : tokens = us ++ t :: vs) :
    vs = [] ∧ t = ⟨.finish, "", line + text.count '\n'⟩ ∨
      ∃ pre q post, pieces = pre ++ q :: post ∧ pre.map Piece.token = us ∧ q.token = t := by
  have hsplit := htokens.symm.trans h.tokens_eq
  rcases List.eq_nil_or_concat' vs with rfl | ⟨ws, w, rfl⟩
  · obtain ⟨_, hlast⟩ := List.append_inj' hsplit rfl
    exact Or.inl ⟨rfl, List.singleton_inj.mp hlast⟩
  · rw [← List.cons_append, ← List.append_assoc] at hsplit
    obtain ⟨hfront, _⟩ := List.append_inj' hsplit rfl
    obtain ⟨pre, rest, rfl, hpre, hrest⟩ := List.map_eq_append_iff.mp hfront.symm
    obtain ⟨q, post, rfl, hq, _⟩ := List.map_eq_cons_iff.mp hrest
    exact Or.inr ⟨pre, q, post, rfl, hpre, hq⟩

end Token

open Token

variable {us : List Token} {e : Expr} {es : List Expr}

/-- No phrase of the grammar has a place for a character that starts no token. -/
theorem introduces_known (h : Introduces us e) : ∀ t ∈ us, t.kind ≠ .unknown := by
  induction h with
  | operand hp => cases hp <;> simp_all
  | not ht _ ih => simp_all
  | @binary us vs t tier op left right _ hj _ ihl ihr =>
    have ht : t.kind ≠ .unknown := by
      intro hk
      rw [hk] at hj
      cases hj
    rw [List.forall_mem_append, List.forall_mem_cons]
    exact ⟨ihl, ht, ihr⟩
  | declare hs hm hn ha he _ hc ih => cases hm <;> cases ha <;> simp_all

theorem spans_known {spans : List (List Token)} (h : List.Forall₂ Introduces spans es) :
    ∀ span ∈ spans, ∀ t ∈ span, t.kind ≠ .unknown := by
  induction h with
  | nil => simp
  | cons hi _ ih => exact List.forall_mem_cons.mpr ⟨introduces_known hi, ih⟩

theorem program_known (h : Program us es) : ∀ t ∈ us, t.kind ≠ .unknown := by
  obtain ⟨spans, hi, _, hb⟩ := program_spans h
  intro t ht hk
  have hmem : t ∈ bare us := by simp [bare, ht, hk]
  rw [hb] at hmem
  obtain ⟨span, hspan, hts⟩ := List.mem_flatten.mp (List.mem_of_mem_filter hmem)
  exact spans_known hi span hspan t hts hk

/-- A text that has tokens is refused at one of them, and what stands before it can be completed. -/
theorem parse_error_at {text : String} {tokens : List Token} {error : SyntaxError}
    (ht : tokenize text = .ok tokens) (hp : parse tokens = .error error) :
    ∃ us t vs rest program, tokens = us ++ t :: vs ∧
      error = errorAt tokens us.length error.cause ∧ Program (us ++ rest) program := by
  obtain ⟨x, hx, rfl⟩ := parse_eq_error.mp hp
  obtain ⟨us, rest, program, hus, hprogram⟩ := Reader.viable_program tokens x hx
  have hclosed : Closed tokens := by
    obtain ⟨front, rfl, hs⟩ := scans_of_scan ht
    exact ⟨front, _, rfl, rfl, scans_endless hs⟩
  obtain ⟨t, vs, hhere⟩ :=
    refusal_token hclosed hus (endless_append.mp (endless_program hprogram)).1
  have hat : x.locate tokens = errorAt tokens us.length x.cause := by
    rw [Refusal.locate, hus, List.length_append, Nat.add_sub_cancel]
  rw [hhere] at hus
  refine ⟨us, t, vs, rest, program, hus, ?_, hprogram⟩
  rw [hat, errorAt_cause]

/-- An error of a text is at the token of an index, and at no other. Its line shows the token at its
column. At the end it is one place beyond its line, or at the start of an empty one that no other
token shares. For a tidy text it is the error that the scanner would give at the token's start. -/
structure PointsAt (text : List Char) (tokens : List Token) (error : SyntaxError) (k : Nat)
    (t : Token) : Prop where
  token : tokens[k]? = some t
  located : error = errorAt tokens k error.cause
  only : ∀ j u, tokens[j]? = some u → error = errorAt tokens j error.cause → j = k
  shown : t.kind ≠ .finish → ¬ White t →
    t.lexeme.toList <+: error.sourceLine.toList.drop error.column
  ending : t.kind = .finish →
    ((∀ j u, tokens[j]? = some u → u.line = t.line → j = k) ∧ error.column = 0 ∧
      error.sourceLine = "") ∨ error.column = error.sourceLine.length + 1
  faithful : t.kind ≠ .finish → Tidy text tokens →
    (∃ i, StartsAt text tokens k i) ∧ ∀ i, StartsAt text tokens k i →
      error = (Place.start.advance (text.take i)).error (text.drop i) error.cause ∧
        error.sourceLine.toList = lineAround text i ∧ error.column = (lineBefore text i).length

/-- A text that is refused is refused at one token, to which its error points. -/
theorem parse_error_points (text : String) (tokens : List Token) (error : SyntaxError)
    (ht : tokenize text = .ok tokens) (hp : parse tokens = .error error) :
    ∃ k t, PointsAt text.toList tokens error k t := by
  obtain ⟨us, t, vs, rest, program, rfl, hat, hprogram⟩ := parse_error_at ht hp
  obtain ⟨pieces, gap, hc⟩ := cut_of_scan ht
  have hget : (us ++ t :: vs)[us.length]? = some t := by simp
  have honly : ∀ j u, (us ++ t :: vs)[j]? = some u →
      error = errorAt (us ++ t :: vs) j error.cause → j = us.length :=
    fun j u hj hj' => errorAt_injective hj hget (hj'.symm.trans hat)
  rcases hc.split rfl with ⟨rfl, hz⟩ | ⟨pre, q, post, rfl, hpre, rfl⟩
  · have hk : t.kind = .finish := by rw [hz]
    refine ⟨us.length, t, hget, hat, honly, fun hn => (hn hk).elim, fun _ => ?_,
      fun hn => (hn hk).elim⟩
    refine errorAt_finish (by rw [hz]) ?_ hat
    -- No character that starts no token has been read, so that nothing is trimmed off the line.
    intro u hu
    have hmem : u ∈ us ++ rest := List.mem_append_left rest hu
    have hends := hc.ends (List.mem_append_left _ hu) (endless_program hprogram u hmem)
    exact hends.resolve_right fun hw => program_known hprogram u hmem hw.1
  · have hk : q.token.kind ≠ .finish := (hc.maximal.plain q (by simp)).1
    refine ⟨us.length, q.token, hget, hat, honly, fun _ hw => ?_, fun hf => (hk hf).elim, ?_⟩
    · exact lexeme_at_column ((hc.ends (by simp) hk).resolve_right hw) hat
    · intro _ htidy
      have hlen : pre.length = us.length := by rw [← hpre, List.length_map]
      refine ⟨⟨_, pre, q, post, gap, hc, hlen, rfl⟩, ?_⟩
      intro i hi
      obtain ⟨hl, hs⟩ := locatedAt_of_tidy error.cause htidy hi
      rw [← hat] at hl hs
      exact ⟨hl.unique (locatedAt_error _ _ _) rfl, hs, hl.column⟩

/-- Two tidy lines. The second is refused after its quote, of which a character takes two bytes. -/
def strayed : String :=
  "1 +\n\"é\" @ x"

def strayedTokens : List Token :=
  [⟨.integer, "1", 1⟩, ⟨.plus, "+", 1⟩, ⟨.string, "\"é\"", 2⟩, ⟨.unknown, "@", 2⟩,
    ⟨.identifier, "x", 2⟩, ⟨.finish, "", 2⟩]

theorem tidy_strayed : Tidy strayed.toList strayedTokens where
  oneLine := by decide
  lines := by decide +kernel
  trimmed := by
    have hlast : ∀ i ≤ strayed.toList.length, (lineAround strayed.toList i).getLast? = some '+' ∨
        (lineAround strayed.toList i).getLast? = some 'x' := by decide +kernel
    intro i hi c hc
    rcases hlast i hi with h | h
    · rw [h] at hc
      cases hc
      rfl
    · rw [h] at hc
      cases hc
      rfl

/-- The stray character is shown where it stands, and a sum without a second operand is refused one
place beyond its line. -/
theorem parse_error_points_strayed :
    tokenize strayed = .ok strayedTokens ∧ Tidy strayed.toList strayedTokens ∧
      parse strayedTokens = .error ⟨.expected "expected ;", 2, 4, "\"é\" @ x"⟩ ∧
      PointsAt strayed.toList strayedTokens ⟨.expected "expected ;", 2, 4, "\"é\" @ x"⟩ 3
        ⟨.unknown, "@", 2⟩ ∧
      PointsAt "1 +".toList [⟨.integer, "1", 1⟩, ⟨.plus, "+", 1⟩, ⟨.finish, "", 1⟩]
        ⟨.expected "unknown token", 1, 4, "1 +"⟩ 2 ⟨.finish, "", 1⟩ := by
  have ht : tokenize strayed = .ok strayedTokens := by decide +kernel
  have hp : parse strayedTokens = .error ⟨.expected "expected ;", 2, 4, "\"é\" @ x"⟩ := by
    decide +kernel
  refine ⟨ht, tidy_strayed, hp, ?_, ?_⟩
  · obtain ⟨k, t, h⟩ := parse_error_points _ _ _ ht hp
    have hk : 3 = k := h.only 3 _ rfl (by decide +kernel)
    subst hk
    cases h.token
    exact h
  · obtain ⟨k, t, h⟩ := parse_error_points "1 +"
      [⟨.integer, "1", 1⟩, ⟨.plus, "+", 1⟩, ⟨.finish, "", 1⟩]
      ⟨.expected "unknown token", 1, 4, "1 +"⟩ (by decide +kernel) (by decide +kernel)
    have hk : 2 = k := h.only 2 _ rfl (by decide +kernel)
    subst hk
    cases h.token
    exact h

end Scriptlet
