import Scriptlet.Run
import Scriptlet.Proofs.Refusal
import Scriptlet.Proofs.Stacking

/-!
Texts in sequence. A semicolon on a line of its own parts two texts: the first is read as it would
be alone, and the second as it would be that many lines further down. The whole fails where the
second cannot be read, then where the first fails, and last where the second does.
-/

namespace Scriptlet

open Grammar Token Reader

/-- The same report some lines further down, the line in its message included. -/
structure Diagnostic.Below (k : Nat) (d d' : Diagnostic) : Prop where
  stage : d'.stage = d.stage
  line : d'.line = d.line + k
  column : d'.column = d.column
  sourceLine : d'.sourceLine = d.sourceLine
  message : ∃ text, d.message = text ++ " on line " ++ toString d.line ∧
    d'.message = text ++ " on line " ++ toString (d.line + k)

variable {k line : Nat} {text rest cs : List Char} {front ts us : List Token} {t : Token}
  {p q : List Expr} {a b : String}

theorem below_ofSyntaxError {e : SyntaxError} :
    Diagnostic.Below k (.ofSyntaxError e) (.ofSyntaxError (e.below k)) where
  stage := rfl
  line := rfl
  column := rfl
  sourceLine := rfl
  message := ⟨"Syntax Error: " ++ e.cause.text, rfl, rfl⟩

theorem below_ofTypeError {x y : TypeError} (h : TypeError.Alike (Below k) x y) :
    Diagnostic.Below k (.ofTypeError x) (.ofTypeError y) where
  stage := rfl
  line := h.line_rel
  column := rfl
  sourceLine := rfl
  message := by
    refine ⟨"TypeError: " ++ x.description, rfl, ?_⟩
    have hl : y.line = x.line + k := h.line_rel
    simp only [Diagnostic.ofTypeError, TypeError.render, h.description_eq, hl]

theorem scans_endless (h : Scans rest line text front) : Endless front := by
  induction h with
  | nil => exact endless_nil
  | blank _ _ ih => exact ih
  | token hm _ ih => exact endless_cons.mpr ⟨(munch_kind hm).1, ih⟩

theorem scans_line_le (h : Scans rest line text front) :
    ∀ t ∈ front, t.line ≤ line + text.count '\n' := by
  induction h with
  | nil => simp
  | blank _ _ ih =>
    intro t ht
    have := ih t ht
    rw [List.count_append]
    omega
  | token _ _ ih =>
    intro t ht
    rw [List.count_append]
    rcases List.mem_cons.mp ht with rfl | ht
    · exact Nat.le_add_right _ _
    · have := ih t ht
      omega

/-- A semicolon on a line of its own is one token. -/
theorem scans_divider : Scans [] 1 ";".toList [⟨.semicolon, ";", 1⟩] := by
  have hc : munch ';' [] = .ok (.semicolon, 0) := rfl
  have hm : Munch .semicolon [';'] [] := munch_ok rfl hc
  exact .token hm .nil

theorem tokenize_sequence (h : Scans [] 1 a.toList front) :
    tokenize (a ++ "\n;\n" ++ b) = (lowered (a.toList.count '\n' + 2) (tokenize b)).map
      (front ++ [⟨.semicolon, ";", a.toList.count '\n' + 2⟩] ++ ·) := by
  have hjoin : a ++ "\n;\n" ++ b = a ++ "\n" ++ (";" ++ "\n" ++ b) := by
    rw [← String.toList_inj]
    simp
  rw [hjoin, tokenize_stacked h, tokenize_stacked scans_divider, lowered_append, lowered_lowered,
    map_append]
  simp [Token.below, Nat.add_comm 1]

theorem Step.map_map {α β γ : Type} {f : α → β} {g : β → γ} (s : Step α) :
    (s.map f).map g = s.map (g ∘ f) := by
  obtain ⟨outcome, rest⟩ := s
  cases outcome <;> rfl

/-- What has been read before a semicolon stays as it was, whatever follows. -/
theorem programRun_append (h : Program us p) (ht : t.kind = .semicolon) :
    programRun (us ++ t :: ts) = (programRun ts).map (p ++ ·) := by
  induction h with
  | nil =>
    rw [List.nil_append, programRun_semicolon ht]
    exact (map_id _).symm
  | semicolon hs _ ih =>
    rw [List.cons_append, programRun_semicolon hs]
    exact ih
  | @declaration us vs e es hd _ ih =>
    have hk : peek (us ++ (vs ++ t :: ts)) = .letWord := peek_declaration hd
    rw [List.append_assoc, programRun_item (by simp [hk]) (by simp [hk]) (item_declaration hd), ih,
      Step.map_map]
    rfl
  | @expression us vs s e es hx hs _ ih =>
    have hi : item.run (us ++ s :: (vs ++ t :: ts)) = ⟨.ok e, vs ++ t :: ts⟩ :=
      item_expression hx (by simpa [peek, hs] using not_joins_semicolon) (separator_semicolon hs)
    obtain ⟨_, hsemi, hf⟩ := peek_append (starts_expression hx) (s :: (vs ++ t :: ts))
    rw [List.append_assoc, List.cons_append, programRun_item hf hsemi hi, ih, Step.map_map]
    rfl
  | @last us e hx =>
    have hi : item.run (us ++ t :: ts) = ⟨.ok e, ts⟩ :=
      item_expression hx (by simpa [peek, ht] using not_joins_semicolon) (separator_semicolon ht)
    obtain ⟨_, hsemi, hf⟩ := peek_append (starts_expression hx) (t :: ts)
    rw [programRun_item hf hsemi hi]
    rfl

/-- A program in front of a semicolon, on lines of its own, is read before the rest and leaves its
errors where they are. -/
theorem parse_append (h : Program us p) (ht : t.kind = .semicolon) (hts : ts ≠ [])
    (hd : ∀ u ∈ us ++ [t], ∀ v ∈ ts, u.line ≠ v.line) :
    parse (us ++ [t] ++ ts) = (parse ts).map (p ++ ·) := by
  have hrun : programRun (us ++ [t] ++ ts) = (programRun ts).map (p ++ ·) := by
    rw [List.append_assoc]
    exact programRun_append h ht
  cases ho : (programRun ts).outcome with
  | ok q =>
    rw [parse_eq_ok.mpr ho, Except.map, parse_eq_ok, hrun, Step.map, ho]
    rfl
  | error x =>
    obtain ⟨vs, _, hvs, _⟩ := (local_program ts).error x ho
    rw [parse_eq_error.mpr ⟨x, ho, rfl⟩, Except.map, parse_eq_error]
    refine ⟨x, by rw [hrun, Step.map, ho]; rfl, ?_⟩
    -- The refused tokens are the last ones of both lists, so the index moves by what is in front.
    have hi : (us ++ [t] ++ ts).length - x.here.length =
        (us ++ [t]).length + (ts.length - x.here.length) := by
      have := congrArg List.length hvs
      simp only [List.length_append] at this ⊢
      omega
    rw [Refusal.locate, hi, errorAt_append hd hts, Refusal.locate]

/-- Tokens further down parse alike. -/
theorem parse_below (h : ts ≠ []) :
    Matches (fun e e' => e' = e.below k) (List.Forall₂ (Expr.Alike (Below k))) (parse ts)
      (parse (ts.map (Token.below k))) := by
  refine (parse_alike alike_below).imp ?_
  rintro _ _ ⟨i, cause, rfl, rfl⟩
  exact errorAt_below h

theorem read_eq_ok : read a = .ok p ↔ ∃ ts, tokenize a = .ok ts ∧ parse ts = .ok p := by
  rw [read]
  cases tokenize a <;> simp [bind, Except.bind]

theorem read_eq_error {e : SyntaxError} : read a = .error e ↔
    tokenize a = .error e ∨ ∃ ts, tokenize a = .ok ts ∧ parse ts = .error e := by
  rw [read]
  cases tokenize a <;> simp [bind, Except.bind]

theorem program_of_parse {z : Token} (hs : Scans [] line text front) (hz : z.kind = .finish)
    (h : parse (front ++ [z]) = .ok p) : Program front p := by
  have hprog := program_of_run (parse_eq_ok.mp h)
  rwa [body_append (scans_endless hs), body_finish (show peek [z] = .finish from hz),
    List.append_nil] at hprog

/-- A text that can be read has its tokens before the end derived by the grammar. -/
theorem program_of_read (h : read a = .ok p) :
    ∃ front, Scans [] 1 a.toList front ∧ Program front p := by
  obtain ⟨ts, ht, hp⟩ := read_eq_ok.mp h
  obtain ⟨front, rfl, hs⟩ := scans_of_scan ht
  exact ⟨front, hs, program_of_parse hs rfl hp⟩

/-- The lines of the first text and of the divider are not those of the second. -/
theorem lines_apart (hs : Scans [] 1 text front) (hu : scan .start cs = .ok us)
    (ht : t.line = text.count '\n' + 2) :
    ∀ u ∈ front ++ [t], ∀ v ∈ us.map (Token.below (text.count '\n' + 2)), u.line ≠ v.line := by
  obtain ⟨_, _, hcut⟩ := cut_of_scan hu
  intro u hmem v hv
  obtain ⟨w, hw, rfl⟩ := List.mem_map.mp hv
  have hstart : 1 ≤ w.line := hcut.ordered.2 w hw
  have hle : u.line ≤ text.count '\n' + 2 := by
    rcases List.mem_append.mp hmem with hf | hf
    · have := scans_line_le hs u hf
      omega
    · rw [List.mem_singleton.mp hf, ht]
  have hbelow : (Token.below (text.count '\n' + 2) w).line = w.line + (text.count '\n' + 2) := rfl
  omega

theorem read_sequence (ha : read a = .ok p) :
    Matches (fun e e' => e' = e.below (a.toList.count '\n' + 2))
      (fun q r => ∃ q', r = p ++ q' ∧
        List.Forall₂ (Expr.Alike (Below (a.toList.count '\n' + 2))) q q')
      (read b) (read (a ++ "\n;\n" ++ b)) := by
  obtain ⟨front, hs, hp⟩ := program_of_read ha
  rw [read, read, tokenize_sequence hs]
  cases hb : tokenize b with
  | error e => exact .error rfl
  | ok us =>
    have hne : us ≠ [] := by
      obtain ⟨_, rfl, _⟩ := scans_of_scan hb
      simp
    let divider : Token := ⟨.semicolon, ";", a.toList.count '\n' + 2⟩
    have hd : divider.line = a.toList.count '\n' + 2 := rfl
    have hparse := parse_append hp rfl (by simpa using hne) (lines_apart hs hb hd)
    simp only [lowered, Except.map, Except.mapError, bind, Except.bind]
    rw [hparse]
    have hm := parse_below (k := a.toList.count '\n' + 2) hne
    generalize parse us = x at hm
    generalize parse (us.map _) = y at hm
    cases hm with
    | ok hq => exact .ok ⟨_, rfl, hq⟩
    | error he => exact .error he

theorem continueWith_append {last : Value} {s : Evaluator} :
    (Evaluator.continueWith last (p ++ q) s).1 =
      (Evaluator.continueWith last p s).1 >>= fun v =>
        (Evaluator.continueWith v q (Evaluator.continueWith last p s).2).1 := by
  induction p generalizing last s with
  | nil => rfl
  | cons e p ih =>
    simp only [List.cons_append, Evaluator.continueWith]
    cases e.eval e.line with
    | error x => rfl
    | ok v => exact ih

/-- Only an empty program keeps the value before it. -/
theorem interpret_append :
    interpret (p ++ q) = interpret p >>= fun v => if q = [] then .ok v else interpret q := by
  refine continueWith_append.trans ?_
  cases q with
  | nil => rfl
  | cons e q => rfl

theorem interpret_after {v : Value} (hp : interpret p = .ok v) (hq : q ≠ []) :
    interpret (p ++ q) = interpret q := by
  rw [interpret_append, hp]
  exact if_neg hq

theorem ne_nil_of_alike {R : Nat → Nat → Prop} {q' : List Expr}
    (h : List.Forall₂ (Expr.Alike R) q q') (hq : q ≠ []) : q' ≠ [] := by
  cases h with
  | nil => exact (hq rfl).elim
  | cons => exact List.cons_ne_nil _ _

theorem run_of_read (h : read a = .ok p) : run a = (interpret p).mapError .ofTypeError := by
  rw [run, h]

theorem run_of_refused {e : SyntaxError} (h : read a = .error e) :
    run a = .error (.ofSyntaxError e) := by
  rw [run, h]

/-- The answer to two texts in a row, the second `k` lines below the first. -/
structure InSequence (k : Nat) (a b joined : String) : Prop where
  refused : ∀ e, read b = .error e → ∃ d d', run b = .error d ∧ d.stage = .syntaxError ∧
    run joined = .error d' ∧ d.Below k d'
  failed : ∀ q d, read b = .ok q → run a = .error d → d.stage = .typeError ∧ run joined = .error d
  empty : ∀ v, read b = .ok [] → run a = .ok v → run joined = .ok v
  value : ∀ q v w, read b = .ok q → q ≠ [] → run a = .ok v → run b = .ok w → run joined = .ok w
  raised : ∀ q v d, read b = .ok q → q ≠ [] → run a = .ok v → run b = .error d →
    d.stage = .typeError ∧ ∃ d', run joined = .error d' ∧ d.Below k d'

theorem mapError_eq_ok {ε ε' α : Type} {x : Except ε α} {f : ε → ε'} {v : α} :
    x.mapError f = .ok v ↔ x = .ok v := by
  cases x <;> simp [Except.mapError]

theorem mapError_eq_error {ε ε' α : Type} {x : Except ε α} {f : ε → ε'} {d : ε'} :
    x.mapError f = .error d ↔ ∃ e, x = .error e ∧ f e = d := by
  cases x <;> simp [Except.mapError]

theorem run_eq_ok {v : Value} (h : read a = .ok p) : run a = .ok v ↔ interpret p = .ok v := by
  rw [run_of_read h, mapError_eq_ok]

theorem run_eq_error {d : Diagnostic} (h : read a = .ok p) :
    run a = .error d ↔ ∃ x, interpret p = .error x ∧ .ofTypeError x = d := by
  rw [run_of_read h, mapError_eq_error]

/-- Where the first of two texts can be read, the two with a semicolon on a line of its own between
them answer as they would one after the other. -/
theorem run_in_sequence (a b : String) (p : List Expr) (ha : read a = .ok p) :
    InSequence (a.toList.count '\n' + 2) a b (a ++ "\n;\n" ++ b) where
  refused := by
    intro e hb
    obtain ⟨_, hj, rfl⟩ := (read_sequence ha).of_error hb
    exact ⟨_, _, run_of_refused hb, rfl, run_of_refused hj, below_ofSyntaxError⟩
  failed := by
    intro q d hb hd
    obtain ⟨x, hx, rfl⟩ := (run_eq_error ha).mp hd
    obtain ⟨_, hj, q', rfl, _⟩ := (read_sequence ha).of_ok hb
    refine ⟨rfl, (run_eq_error hj).mpr ⟨x, ?_, rfl⟩⟩
    rw [interpret_append, hx]
    rfl
  empty := by
    intro v hb hv
    obtain ⟨_, hj, q', rfl, hq⟩ := (read_sequence ha).of_ok hb
    cases hq
    rwa [run_eq_ok hj, List.append_nil, ← run_eq_ok ha]
  value := by
    intro q v w hb hne hv hw
    obtain ⟨_, hj, q', rfl, hq⟩ := (read_sequence ha).of_ok hb
    obtain ⟨_, hw', rfl⟩ := (interpret_alike hq).of_ok ((run_eq_ok hb).mp hw)
    rw [run_eq_ok hj, interpret_after ((run_eq_ok ha).mp hv) (ne_nil_of_alike hq hne), hw']
  raised := by
    intro q v d hb hne hv hd
    obtain ⟨x, hx, rfl⟩ := (run_eq_error hb).mp hd
    obtain ⟨_, hj, q', rfl, hq⟩ := (read_sequence ha).of_ok hb
    obtain ⟨y, hy, hxy⟩ := (interpret_alike hq).of_error hx
    refine ⟨rfl, _, (run_eq_error hj).mpr ⟨y, ?_, rfl⟩, below_ofTypeError hxy⟩
    rw [interpret_after ((run_eq_ok ha).mp hv) (ne_nil_of_alike hq hne), hy]

def quotedDeclaration : String := "let x = \"p\nq\";"

def remainderBelow : String := "4\n% 0"

theorem run_in_sequence_remainderBelow :
    ∃ d, run (quotedDeclaration ++ "\n;\n" ++ remainderBelow) = .error d ∧
      Diagnostic.Below 3
        ⟨.typeError, "TypeError: division by zero on line 2", 2, none, none⟩ d := by
  have ha : read quotedDeclaration =
      .ok [.declare "x" false none (.literal (.string "p\nq") 1) 1] := by decide +kernel
  have hb : read remainderBelow =
      .ok [.binary (.literal (.integer 4) 1) .mod (.literal (.integer 0) 2) 2] := by decide +kernel
  have hv : run quotedDeclaration = .ok (.string "p\nq") := (run_eq_ok ha).mpr rfl
  have hd := (run_eq_error hb).mpr ⟨.raised .divisionByZero 2, by decide +kernel, rfl⟩
  exact ((run_in_sequence _ _ _ ha).raised _ _ _ hb (by simp) hv hd).2

end Scriptlet
