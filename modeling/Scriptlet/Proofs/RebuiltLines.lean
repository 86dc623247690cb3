import Scriptlet.Proofs.Lines

/-!
Lines put together from tokens. A token starts in such a line at the column of its error, and its
lexeme stands there whole, since only a white character can be trimmed off. No two tokens share a
line and a column.
-/

namespace Scriptlet

namespace Token

/-- The lexemes of some tokens, one space between two. -/
def spaced (ts : List Token) : List Char :=
  (" ".intercalate (ts.map lexeme)).toList

/-- The lexemes of some tokens, one space after each. -/
def followed (ts : List Token) : List Char :=
  ts.flatMap fun t => t.lexeme.toList ++ [' ']

/-- The lexemes of some tokens, one space before each. -/
def preceded (ts : List Token) : List Char :=
  ts.flatMap fun t => ' ' :: t.lexeme.toList

variable {ts us vs : List Token} {t z : Token} {i j line : Nat} {cause : SyntaxError.Cause}
  {error : SyntaxError}

theorem length_followed : (followed ts).length = width ts := by
  induction ts with
  | nil => rfl
  | cons t ts ih =>
    rw [followed, List.flatMap_cons, ← followed, List.length_append, ih, width, List.length_append,
      String.length_toList]
    rfl

theorem spaced_cons (h : ts ≠ []) : spaced (t :: ts) = t.lexeme.toList ++ ' ' :: spaced ts := by
  have hne : ts.map lexeme ≠ [] := by simpa using h
  rw [spaced, List.map_cons, String.intercalate_cons_of_ne_nil hne]
  simp [spaced]

/-- A token divides a line into what stands before it and what starts with it. -/
theorem spaced_split : spaced (us ++ t :: vs) = followed us ++ (t.lexeme.toList ++ preceded vs) := by
  induction us with
  | nil =>
    induction vs generalizing t with
    | nil => simp [spaced, followed, preceded]
    | cons v vs ih =>
      have hrest : spaced (v :: vs) = followed [] ++ (v.lexeme.toList ++ preceded vs) := ih
      rw [List.nil_append, spaced_cons (by simp), hrest]
      simp [followed, preceded]
  | cons u us ih =>
    rw [List.cons_append, spaced_cons (by simp), ih]
    simp [followed]

theorem followed_concat : followed (us ++ [t]) = followed us ++ (t.lexeme.toList ++ [' ']) := by
  simp [followed]

theorem followed_eq_spaced (h : us ≠ []) : followed us = spaced us ++ [' '] := by
  obtain ⟨vs, t, rfl⟩ := (List.eq_nil_or_concat' us).resolve_left h
  rw [spaced_split, followed_concat]
  simp [preceded]

theorem toList_lineText : (lineText ts line).toList =
    (spaced (onLine ts line)).rdropWhile Text.isWhiteSpace := by
  rw [lineText, Text.trimEnd, String.toList_ofList]
  rfl

theorem onLine_split : onLine (us ++ t :: vs) t.line =
    onLine us t.line ++ t :: onLine vs t.line := by
  simp [onLine]

theorem onLine_concat : onLine (us ++ [t]) t.line = onLine us t.line ++ [t] :=
  onLine_split

theorem exists_split {α : Type} {xs : List α} {x : α} (h : xs[i]? = some x) :
    ∃ ys zs, xs = ys ++ x :: zs ∧ ys.length = i := by
  obtain ⟨hlt, hget⟩ := List.getElem?_eq_some_iff.mp h
  refine ⟨xs.take i, xs.drop (i + 1), ?_, List.length_take_of_le hlt.le⟩
  rw [← hget, ← List.drop_eq_getElem_cons hlt, List.take_append_drop]

theorem errorAt_eq (h : ts[i]? = some t) :
    errorAt ts i cause = ⟨cause, t.line, column ts i t.line, lineText ts t.line⟩ := by
  obtain ⟨hlt, _⟩ := List.getElem?_eq_some_iff.mp h
  have hmin : min i (ts.length - 1) = i := by omega
  simp only [errorAt, hmin, h]

theorem column_split : column (us ++ t :: vs) us.length line = width (onLine us line) := by
  rw [column, List.take_left]

/-- The error of a token, by the tokens before it. -/
theorem errorAt_split : errorAt (us ++ t :: vs) us.length cause =
    ⟨cause, t.line, width (onLine us t.line), lineText (us ++ t :: vs) t.line⟩ := by
  rw [errorAt_eq (t := t) (by simp), column_split]

/-- Some character stands at the end, and it is not white. -/
def Ends (cs : List Char) : Prop :=
  ∃ ds c, cs = ds ++ [c] ∧ Text.isWhiteSpace c = false

/-- The lexeme of an error's token stands at the error's column. -/
theorem lexeme_at_column (h : Ends t.lexeme.toList)
    (he : error = errorAt (us ++ t :: vs) us.length cause) :
    t.lexeme.toList <+: error.sourceLine.toList.drop error.column := by
  obtain ⟨cs, c, hcs, hc⟩ := h
  rw [he, errorAt_split]
  show _ <+: (lineText (us ++ t :: vs) t.line).toList.drop (width (onLine us t.line))
  rw [toList_lineText, onLine_split, spaced_split, hcs, ← length_followed, List.append_assoc,
    ← List.append_assoc (followed _), List.singleton_append, rdropWhile_append_cons hc,
    List.append_assoc, List.drop_left]
  exact List.prefix_append_right_inj cs |>.mpr (List.prefix_append [c] _)

theorem spaced_concat (hne : us ≠ []) (hz : z.lexeme = "") :
    spaced (us ++ [z]) = spaced us ++ [' '] := by
  rw [spaced_split, followed_eq_spaced hne, hz]
  simp [preceded]

/-- The token of the end does not show in a line that has other tokens. -/
theorem toList_lineText_concat (hz : z.lexeme = "") (hne : onLine us line ≠ []) :
    (lineText (us ++ [z]) line).toList =
      (spaced (onLine us line)).rdropWhile Text.isWhiteSpace := by
  rw [toList_lineText]
  by_cases hl : z.line = line
  · subst hl
    rw [onLine_concat, spaced_concat hne hz]
    exact List.rdropWhile_concat_pos _ _ _ (by decide)
  · have hline : onLine (us ++ [z]) line = onLine us line := by simp [onLine, hl]
    rw [hline]

theorem lineText_alone (hz : z.lexeme = "") (h : onLine us z.line = []) :
    lineText (us ++ [z]) z.line = "" := by
  rw [← String.toList_eq_nil_iff, toList_lineText, onLine_concat, h]
  simp [spaced, hz]

theorem index_alone {u : Token} (h : onLine us z.line = []) (hj : (us ++ [z])[j]? = some u)
    (hu : u.line = z.line) : j = us.length := by
  obtain ⟨hlt, _⟩ := List.getElem?_eq_some_iff.mp hj
  rw [List.length_append, List.length_singleton] at hlt
  by_contra hne
  rw [List.getElem?_append_left (by omega)] at hj
  have hmem : u ∈ onLine us z.line := by simp [onLine, List.mem_of_getElem? hj, hu]
  rw [h] at hmem
  cases hmem

/-- The error at the end is one place beyond its line, if there is such a line. -/
theorem finish_column (hz : z.lexeme = "") (hs : ∀ t ∈ us, Ends t.lexeme.toList)
    (hne : onLine us z.line ≠ []) :
    width (onLine us z.line) = (lineText (us ++ [z]) z.line).length + 1 := by
  rw [← String.length_toList, toList_lineText_concat hz hne, ← length_followed]
  obtain ⟨vs, t, hvs⟩ := (List.eq_nil_or_concat' _).resolve_left hne
  have ht : t ∈ us := by
    have hmem : t ∈ onLine us z.line := by simp [hvs]
    exact List.mem_of_mem_filter hmem
  obtain ⟨cs, c, hcs, hc⟩ := hs t ht
  have hself : (spaced (onLine us z.line)).rdropWhile Text.isWhiteSpace =
      spaced (onLine us z.line) := by
    rw [hvs, spaced_split, hcs, List.append_assoc, ← List.append_assoc, List.singleton_append,
      rdropWhile_append_cons hc]
    rfl
  rw [hself, followed_eq_spaced hne]
  simp

/-- The error at the end has a line to itself, or is one place beyond its line. -/
theorem errorAt_finish (hz : z.lexeme = "") (hs : ∀ t ∈ us, Ends t.lexeme.toList)
    (he : error = errorAt (us ++ [z]) us.length cause) :
    ((∀ j u, (us ++ [z])[j]? = some u → u.line = z.line → j = us.length) ∧ error.column = 0 ∧
      error.sourceLine = "") ∨ error.column = error.sourceLine.length + 1 := by
  rw [he, errorAt_split]
  by_cases hne : onLine us z.line = []
  · refine Or.inl ⟨fun j u hj hu => index_alone hne hj hu, ?_, lineText_alone hz hne⟩
    exact congrArg width hne
  · exact Or.inr (finish_column hz hs hne)

theorem width_append : width (us ++ vs) = width us + width vs := by
  induction us with
  | nil => simp [width]
  | cons t us ih =>
    rw [List.cons_append, width, ih, width]
    omega

/-- From one token of a line to any later place the column grows. -/
theorem column_lt (h : ts[i]? = some t) (hij : i < j) :
    column ts i t.line < column ts j t.line := by
  obtain ⟨us, vs, rfl, rfl⟩ := exists_split h
  obtain ⟨k, rfl⟩ := Nat.exists_eq_add_of_lt hij
  have htake : (us ++ t :: vs).take (us.length + k + 1) = us ++ t :: vs.take k := by
    rw [Nat.add_assoc, List.take_length_add_append, List.take_succ_cons]
  rw [column_split, column, htake, onLine_split, width_append, width]
  omega

/-- A line and a column belong to one token at most. -/
theorem errorAt_injective {cause' : SyntaxError.Cause} {u : Token} (hi : ts[i]? = some t)
    (hj : ts[j]? = some u) (h : errorAt ts i cause = errorAt ts j cause') : i = j := by
  rw [errorAt_eq hi, errorAt_eq hj, SyntaxError.mk.injEq] at h
  obtain ⟨_, hline, hcolumn, _⟩ := h
  rcases lt_trichotomy i j with hlt | heq | hgt
  · have := column_lt hi hlt
    rw [← hline] at hcolumn
    omega
  · exact heq
  · have := column_lt hj hgt
    rw [hline] at hcolumn
    omega

end Token

end Scriptlet
