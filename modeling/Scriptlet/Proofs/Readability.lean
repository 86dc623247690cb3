import Scriptlet.Proofs.Alike
import Scriptlet.Proofs.Lexeme

/-!
An expression's text can be read in one way only. Each kind of expression opens with characters of
its own, and what stands after an expression inside another one, a bracket or an operator between
blanks, cannot be taken for a part of it. So the text settles the expression, but for the lines.
-/

namespace Scriptlet

open Token

/-- The first place of a character cuts a text in one way. -/
theorem cut_unique {c : Char} {cs ds r r' : List Char} (hc : c ∉ cs) (hd : c ∉ ds)
    (h : cs ++ c :: r = ds ++ c :: r') : cs = ds ∧ r = r' := by
  induction cs generalizing ds with
  | nil =>
    cases ds with
    | nil => exact ⟨rfl, (List.cons.inj h).2⟩
    | cons d ds => exact absurd (List.cons.inj h).1 (List.ne_of_not_mem_cons hd)
  | cons x cs ih =>
    cases ds with
    | nil => exact absurd (List.cons.inj h).1.symm (List.ne_of_not_mem_cons hc)
    | cons d ds =>
      obtain ⟨rfl, ht⟩ := List.cons.inj h
      obtain ⟨rfl, hr⟩ := ih (List.not_mem_of_not_mem_cons hc) (List.not_mem_of_not_mem_cons hd) ht
      exact ⟨rfl, hr⟩

theorem Token.Letters.notMem {c : Char} {cs : List Char} (h : Letters cs)
    (hc : c.isAlpha = false) : c ∉ cs := by
  intro hm
  rw [h.2 c hm] at hc
  cases hc

theorem mem_toString_int {z : Int} {c : Char} (h : c ∈ (toString z).toList) :
    c = '-' ∨ c.isDigit = true := by
  cases z with
  | ofNat n => exact Or.inr ((digits_toString n).2 c h)
  | negSucc n =>
    have ht : (toString (Int.negSucc n)).toList = '-' :: (toString (n + 1)).toList := by
      exact String.toList_append
    rw [ht] at h
    rcases List.mem_cons.mp h with rfl | h
    · exact Or.inl rfl
    · exact Or.inr ((digits_toString (n + 1)).2 c h)

theorem not_letters_toString_int (z : Int) : ¬ Letters (toString z).toList := by
  rintro ⟨hne, hall⟩
  obtain ⟨c, hc⟩ := List.exists_mem_of_ne_nil _ hne
  have hl := hall c hc
  rcases mem_toString_int hc with rfl | hd
  · simp at hl
  · rw [letter_not_digit hl] at hd
    cases hd

namespace Operator

variable {op op' : Operator} {cs ds : List Char}

theorem space_notMem_symbol (op : Operator) : ' ' ∉ op.symbol.toList := by
  cases op <;> decide

theorem symbol_injective : Function.Injective symbol := by
  intro op op'
  cases op <;> cases op' <;> decide

theorem symbol_ne_assign (op : Operator) : op.symbol.toList ≠ ['='] := by
  cases op <;> decide

theorem symbol_cancel
    (h : op.symbol.toList ++ ' ' :: cs = op'.symbol.toList ++ ' ' :: ds) : op = op' ∧ cs = ds := by
  obtain ⟨hs, hr⟩ := cut_unique op.space_notMem_symbol op'.space_notMem_symbol h
  exact ⟨symbol_injective (String.toList_inj.mp hs), hr⟩

end Operator

namespace Expr

/-- A leaf and the text in its brackets. -/
inductive Leaf : Expr → String → Prop where
  | integer {n : Int64} {line : Nat} : Leaf (.literal (.integer n) line) (toString n.toInt)
  | bool {b : Bool} {line : Nat} :
      Leaf (.literal (.bool b) line) (if b then "true" else "false")
  | reference {name : String} {line : Nat} : Letters name.toList → name ≠ "true" →
      name ≠ "false" → Leaf (.reference name line) name

/-- Leaves are integers, truth values and references, and all names are words. -/
inductive Plain : Expr → Prop where
  | leaf {e : Expr} {label : String} : Leaf e label → Plain e
  | declare {name : String} {isMutable : Bool} {typeName : Option String} {initial : Expr}
      {line : Nat} : Letters name.toList → (∀ type ∈ typeName, Letters type.toList) →
      Plain initial → Plain (.declare name isMutable typeName initial line)
  | not {operand : Expr} {line : Nat} : Plain operand → Plain (.not operand line)
  | binary {left right : Expr} {op : Operator} {line : Nat} : Plain left → Plain right →
      Plain (.binary left op right line)

/-- What can stand after an expression in the text of one around it. -/
inductive Follows : List Char → Prop where
  | nil : Follows []
  | close {r : List Char} : Follows (')' :: r)
  | operator {op : Operator} {r : List Char} : Follows (' ' :: (op.symbol.toList ++ ' ' :: r))

def marker (isMutable : Bool) : List Char :=
  if isMutable then "mut".toList else []

def ascription : Option String → List Char
  | some type => ':' :: ' ' :: type.toList
  | none => []

variable {e e' initial operand left right : Expr} {op : Operator} {label label' name : String}
  {isMutable isMutable' : Bool} {typeName typeName' : Option String} {line : Nat}
  {cs ds r r' : List Char}

theorem toList_render_declare : (declare name isMutable typeName initial line).render.toList =
    marker isMutable ++ '[' :: (name.toList ++ ']' ::
      (ascription typeName ++ ' ' :: '=' :: ' ' :: initial.render.toList)) := by
  cases isMutable <;> cases typeName <;> simp [render, marker, ascription]

theorem toList_render_not :
    (not operand line).render.toList = '(' :: '!' :: ' ' :: (operand.render.toList ++ [')']) := by
  simp [render]

theorem toList_render_binary : (binary left op right line).render.toList =
    '(' :: (left.render.toList ++ ' ' ::
      (op.symbol.toList ++ ' ' :: (right.render.toList ++ [')']))) := by
  simp [render]

theorem Leaf.toList_render (h : Leaf e label) :
    e.render.toList = '[' :: (label.toList ++ [']']) := by
  cases h <;> simp [render, Literal.render]

theorem Leaf.notMem (h : Leaf e label) : ']' ∉ label.toList := by
  cases h with
  | integer =>
    intro hm
    have := mem_toString_int hm
    simp at this
  | @bool b _ => cases b <;> decide
  | reference hl _ _ => exact hl.notMem (by decide)

theorem letters_bool (b : Bool) : Letters (if b then "true" else "false").toList := by
  cases b <;> simp [Letters]

/-- The text of a leaf settles which leaf it is. -/
theorem Leaf.alike (h : Leaf e label) (h' : Leaf e' label') (hl : label = label') :
    Alike (fun _ _ => True) e e' := by
  cases h with
  | @integer n _ =>
    cases h' with
    | @integer n' _ =>
      have hn : n = n' := Int64.toInt_inj.mp (Int.repr_inj.mp hl)
      subst hn
      exact .literal trivial
    | @bool b _ => exact absurd (hl ▸ letters_bool b) (not_letters_toString_int _)
    | reference hw _ _ => exact absurd (hl ▸ hw) (not_letters_toString_int _)
  | @bool b _ =>
    cases h' with
    | integer => exact absurd (hl ▸ letters_bool b) (not_letters_toString_int _)
    | @bool b' _ =>
      have hb : b = b' := by
        revert hl
        cases b <;> cases b' <;> decide
      subst hb
      exact .literal trivial
    | reference _ ht hf => cases b <;> simp_all
  | reference hw ht hf =>
    cases h' with
    | integer => exact absurd (hl ▸ hw) (not_letters_toString_int _)
    | @bool b _ => cases b <;> simp_all
    | reference _ _ _ =>
      subst hl
      exact .reference trivial

theorem Leaf.cancel (h : Leaf e label) (h' : Leaf e' label')
    (heq : e.render.toList ++ r = e'.render.toList ++ r') :
    Alike (fun _ _ => True) e e' ∧ r = r' := by
  rw [h.toList_render, h'.toList_render] at heq
  simp only [List.cons_append, List.append_assoc, List.nil_append, List.cons.injEq,
    true_and] at heq
  obtain ⟨hl, hr⟩ := cut_unique h.notMem h'.notMem heq
  exact ⟨h.alike h' (String.toList_inj.mp hl), hr⟩

-- An operator may begin with an equals sign, but none is one: a second character comes before the
-- blank.
theorem Follows.ne_assign (h : Follows r) : r ≠ ascription typeName ++ ' ' :: '=' :: ' ' :: cs := by
  cases h with
  | nil => cases typeName <;> simp [ascription]
  | close => cases typeName <;> simp [ascription]
  | @operator op _ =>
    cases typeName with
    | some type => simp [ascription]
    | none =>
      intro heq
      have hs : ' ' ∉ ['='] := by decide
      exact op.symbol_ne_assign (cut_unique op.space_notMem_symbol hs (List.cons.inj heq).2).1

theorem marker_cancel (h : marker isMutable ++ '[' :: cs = marker isMutable' ++ '[' :: ds) :
    isMutable = isMutable' ∧ cs = ds := by
  revert h
  cases isMutable <;> cases isMutable' <;> simp [marker]

theorem ascription_cancel (h : ∀ type ∈ typeName, Letters type.toList)
    (h' : ∀ type ∈ typeName', Letters type.toList)
    (heq : ascription typeName ++ ' ' :: cs = ascription typeName' ++ ' ' :: ds) :
    typeName = typeName' ∧ cs = ds := by
  cases typeName with
  | none =>
    cases typeName' with
    | none => exact ⟨rfl, by simpa [ascription] using heq⟩
    | some type' => simp [ascription] at heq
  | some type =>
    cases typeName' with
    | none => simp [ascription] at heq
    | some type' =>
      simp only [ascription, List.cons_append, List.cons.injEq, true_and] at heq
      have hn := (h type rfl).notMem (c := ' ') (by decide)
      have hn' := (h' type' rfl).notMem (c := ' ') (by decide)
      obtain ⟨ht, hr⟩ := cut_unique hn hn' heq
      exact ⟨congrArg some (String.toList_inj.mp ht), hr⟩

/-- A leaf is no beginning of a declaration: the equals sign is not what follows a leaf. -/
theorem Leaf.ne_declare (h : Leaf e label) (hn : Letters name.toList) (hr : Follows r) :
    e.render.toList ++ r ≠ (declare name isMutable typeName initial line).render.toList ++ r' := by
  rw [h.toList_render, toList_render_declare]
  intro heq
  have hopen : marker false ++ '[' :: (label.toList ++ ']' :: r) = marker isMutable ++ '[' ::
      (name.toList ++ ']' :: (ascription typeName ++ ' ' :: '=' :: ' ' ::
        (initial.render.toList ++ r'))) := by
    simpa [marker] using heq
  obtain ⟨_, hbody⟩ := marker_cancel hopen
  obtain ⟨_, hrest⟩ := cut_unique h.notMem (hn.notMem (by decide)) hbody
  exact hr.ne_assign hrest

theorem declare_ne_cons {c : Char} (hb : '[' ≠ c) (hm : 'm' ≠ c) :
    (declare name isMutable typeName initial line).render.toList ++ r ≠ c :: cs := by
  rw [toList_render_declare]
  cases isMutable <;> simp [marker, hb, hm]

theorem render_ne_bang (e : Expr) : e.render.toList ++ r ≠ '!' :: cs := by
  cases e with
  | literal value line => simp [render]
  | reference name line => simp [render]
  | declare name isMutable typeName initial line => exact declare_ne_cons (by decide) (by decide)
  | not operand line => simp [toList_render_not]
  | binary left op right line => simp [toList_render_binary]

/-- Texts that agree up to what may follow are texts of one expression, followed by the same. -/
theorem render_cancel (h : Plain e) (h' : Plain e') (hr : Follows r) (hr' : Follows r')
    (heq : e.render.toList ++ r = e'.render.toList ++ r') :
    Alike (fun _ _ => True) e e' ∧ r = r' := by
  induction h generalizing e' r r' with
  | leaf hl =>
    cases h' with
    | leaf hl' => exact hl.cancel hl' heq
    | declare hn' _ _ => exact absurd heq (hl.ne_declare hn' hr)
    | not _ => simp [hl.toList_render, toList_render_not] at heq
    | binary _ _ => simp [hl.toList_render, toList_render_binary] at heq
  | declare hn ht _ ih =>
    cases h' with
    | leaf hl' => exact absurd heq.symm (hl'.ne_declare hn hr')
    | declare hn' ht' hi' =>
      simp only [toList_render_declare, List.append_assoc, List.cons_append] at heq
      obtain ⟨rfl, hbody⟩ := marker_cancel heq
      obtain ⟨hname, hrest⟩ := cut_unique (hn.notMem (by decide)) (hn'.notMem (by decide)) hbody
      obtain rfl := String.toList_inj.mp hname
      obtain ⟨rfl, hinitial⟩ := ascription_cancel ht ht' hrest
      obtain ⟨hi, rfl⟩ := ih hi' hr hr' (by simpa using hinitial)
      exact ⟨.declare hi trivial, rfl⟩
    | not _ =>
      rw [toList_render_not] at heq
      exact absurd heq (declare_ne_cons (by decide) (by decide))
    | binary _ _ =>
      rw [toList_render_binary] at heq
      exact absurd heq (declare_ne_cons (by decide) (by decide))
  | not _ ih =>
    cases h' with
    | leaf hl' => simp [hl'.toList_render, toList_render_not] at heq
    | declare _ _ _ =>
      rw [toList_render_not] at heq
      exact absurd heq.symm (declare_ne_cons (by decide) (by decide))
    | not ho' =>
      simp only [toList_render_not, List.cons_append, List.append_assoc, List.nil_append,
        List.cons.injEq, true_and] at heq
      obtain ⟨ho, hclose⟩ := ih ho' .close .close heq
      exact ⟨.not ho trivial, (List.cons.inj hclose).2⟩
    | @binary left' _ _ _ _ _ =>
      simp only [toList_render_not, toList_render_binary, List.cons_append, List.append_assoc,
        List.cons.injEq, true_and] at heq
      exact absurd heq.symm (render_ne_bang left')
  | @binary left _ _ _ _ _ ihl ihr =>
    cases h' with
    | leaf hl' => simp [hl'.toList_render, toList_render_binary] at heq
    | declare _ _ _ =>
      rw [toList_render_binary] at heq
      exact absurd heq.symm (declare_ne_cons (by decide) (by decide))
    | not _ =>
      simp only [toList_render_not, toList_render_binary, List.cons_append, List.append_assoc,
        List.cons.injEq, true_and] at heq
      exact absurd heq (render_ne_bang left)
    | binary hl' hr' =>
      simp only [toList_render_binary, List.cons_append, List.append_assoc, List.nil_append,
        List.cons.injEq, true_and] at heq
      obtain ⟨hleft, hop⟩ := ihl hl' .operator .operator heq
      obtain ⟨rfl, hrest⟩ := Operator.symbol_cancel (List.cons.inj hop).2
      obtain ⟨hright, hclose⟩ := ihr hr' .close .close hrest
      exact ⟨.binary hleft hright trivial, (List.cons.inj hclose).2⟩

theorem Alike.render_eq {R : Nat → Nat → Prop} (h : Alike R e e') : e.render = e'.render := by
  induction h with
  | literal _ => rfl
  | reference _ => rfl
  | declare _ _ ih => simp only [render, ih]
  | not _ _ ih => simp only [render, ih]
  | binary _ _ _ ihl ihr => simp only [render, ihl, ihr]

/-- The text of an expression tells all of it but the lines. -/
theorem render_unambiguous (h : Plain e) (h' : Plain e') :
    e.render = e'.render ↔ Alike (fun _ _ => True) e e' := by
  constructor
  · intro heq
    exact (render_cancel h h' .nil .nil (by rw [heq])).1
  · exact Alike.render_eq

/-- A declaration as the operand of an operator, with every part a declaration can have. -/
def nested (line : Nat) : Expr :=
  .binary
    (.declare "x" true (some "Int")
      (.binary (.reference "a" line) .equal (.not (.literal (.bool true) line) line) line) line)
    .sub (.literal (.integer (-5)) line) line

theorem plain_nested (line : Nat) : Plain (nested line) := by
  have hx : Letters "x".toList := by simp [Letters]
  have ha : Letters "a".toList := by simp [Letters]
  have ht : ∀ type ∈ some "Int", Letters type.toList := by
    rintro type ⟨⟩
    simp [Letters]
  refine .binary (.declare hx ht (.binary (.leaf (.reference ha ?_ ?_)) ?_)) (.leaf .integer)
  · decide
  · decide
  · exact .not (.leaf .bool)

theorem render_unambiguous_nested :
    Plain (nested 1) ∧ Plain (nested 7) ∧ nested 1 ≠ nested 7 ∧
      (nested 1).render = "(mut[x]: Int = ([a] == (! [true])) - [-5])" ∧
      Alike (fun _ _ => True) (nested 1) (nested 7) :=
  ⟨plain_nested 1, plain_nested 7, by decide, by decide +kernel,
    (render_unambiguous (plain_nested 1) (plain_nested 7)).mp (by decide +kernel)⟩

-- A reference by the name of a truth value would have that value's text.
example : (reference "true" 1).render = (literal (.bool true) 1).render := by decide

end Expr

end Scriptlet
