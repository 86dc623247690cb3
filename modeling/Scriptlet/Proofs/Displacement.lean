import Scriptlet.Proofs.Alike
import Scriptlet.Proofs.Scanning

/-!
A text further down. A text that starts some lines further down has the same tokens, programs and
errors, that many lines further down. Tokens on other lines do not show in an error.
-/

namespace Scriptlet

def Below (k m n : Nat) : Prop :=
  n = m + k

def SyntaxError.below (k : Nat) (e : SyntaxError) : SyntaxError :=
  { e with line := e.line + k }

namespace Place

def below (k : Nat) (p : Place) : Place :=
  { p with line := p.line + k }

variable {k : Nat} {p : Place} {c : Char} {cs after : List Char}

theorem step_below : (p.below k).step c = (p.step c).below k := by
  simp only [step, below]
  split
  · rw [Nat.add_right_comm]
  · rfl

theorem advance_below : (p.below k).advance cs = (p.advance cs).below k := by
  induction cs generalizing p with
  | nil => rfl
  | cons c cs ih =>
    rw [advance, List.foldl_cons, step_below]
    exact ih

end Place

namespace Token

def below (k : Nat) (t : Token) : Token :=
  { t with line := t.line + k }

variable {k line i : Nat} {cause : SyntaxError.Cause} {place : Place} {cs : List Char}
  {ts us pre : List Token}

theorem scan_below : scan (place.below k) cs =
    ((scan place cs).map (·.map (below k))).mapError (·.below k) := by
  fun_induction scan place cs with
  | case1 place => rw [scan]; rfl
  | case2 place c cs hb ih => rw [scan, if_pos hb, Place.step_below, ih]
  | case3 place c cs hb flaw hm text =>
    rw [scan, if_neg hb, hm]
    simp only [Place.advance_below]
    rfl
  | case4 place c cs hb kind n hm lexeme ih =>
    rw [scan, if_neg hb, hm]
    simp only [Place.advance_below, lexeme] at ih ⊢
    rw [ih]
    cases scan (place.advance (c :: cs.take n)) (cs.drop n) <;> rfl

theorem alike_below : List.Forall₂ (Alike (Below k)) ts (ts.map (below k)) := by
  rw [List.forall₂_map_right_iff, List.forall₂_same]
  exact fun t _ => ⟨rfl, rfl, rfl⟩

theorem onLine_below : onLine (ts.map (below k)) (line + k) = (onLine ts line).map (below k) := by
  rw [onLine, onLine, List.filter_map]
  congr 2
  funext t
  simp [below]

theorem width_below : width (ts.map (below k)) = width ts := by
  induction ts with
  | nil => rfl
  | cons t ts ih => rw [List.map_cons, width, width, ih]; rfl

theorem lineText_below : lineText (ts.map (below k)) (line + k) = lineText ts line := by
  rw [lineText, onLine_below, List.map_map]
  rfl

theorem column_below : column (ts.map (below k)) i (line + k) = column ts i line := by
  rw [column, ← List.map_take, onLine_below, width_below]
  rfl

theorem errorAt_below (h : ts ≠ []) :
    errorAt (ts.map (below k)) i cause = (errorAt ts i cause).below k := by
  have hlt : min i (ts.length - 1) < ts.length := by
    have := List.length_pos_iff.mpr h
    omega
  simp only [errorAt, List.length_map, List.getElem?_map, List.getElem?_eq_getElem hlt,
    Option.map_some]
  generalize ts[min i (ts.length - 1)] = t
  simp only [below, column_below, lineText_below, SyntaxError.below]

theorem onLine_append (h : ∀ t ∈ pre, t.line ≠ line) :
    onLine (pre ++ ts) line = onLine ts line := by
  have hpre : onLine pre line = [] := by simpa [onLine] using h
  rw [onLine, List.filter_append, ← onLine, hpre]
  rfl

/-- Tokens in front that share no line with the others do not change an error at one of these. -/
theorem errorAt_append (hd : ∀ t ∈ pre, ∀ u ∈ ts, t.line ≠ u.line) (h : ts ≠ []) :
    errorAt (pre ++ ts) (pre.length + i) cause = errorAt ts i cause := by
  have hpos := List.length_pos_iff.mpr h
  have hlt : min i (ts.length - 1) < ts.length := by omega
  have hmin : min (pre.length + i) ((pre ++ ts).length - 1) =
      pre.length + min i (ts.length - 1) := by
    rw [List.length_append]
    omega
  have hget : (pre ++ ts)[pre.length + min i (ts.length - 1)]? = ts[min i (ts.length - 1)]? := by
    rw [List.getElem?_append_right (Nat.le_add_right _ _), Nat.add_sub_cancel_left]
  simp only [errorAt, hmin, hget, List.getElem?_eq_getElem hlt]
  -- The error shows the tokens of its own line, and none of these is in front.
  have hne : ∀ t ∈ pre, t.line ≠ ts[min i (ts.length - 1)].line :=
    fun t ht => hd t ht _ (List.getElem_mem hlt)
  rw [column, List.take_length_add_append, lineText, onLine_append hne, onLine_append hne]
  rfl

end Token

end Scriptlet
