import Mathlib
import Scriptlet.Evaluator

/-!
Static types. An expression that has a value has the type of that value, and one that has a type
fails only where the arithmetic of integers has no result.
-/

namespace Scriptlet

inductive StaticType where
  | integer
  | float
  | string
  | boolean
deriving DecidableEq

def StaticType.Numeric (type : StaticType) : Prop :=
  type = .integer ∨ type = .float

def Value.type : Value → StaticType
  | integer _ => .integer
  | float _ => .float
  | string _ => .string
  | boolean _ => .boolean

namespace Operator

inductive Arithmetic : Operator → Prop where
  | add : Arithmetic .add
  | sub : Arithmetic .sub
  | mul : Arithmetic .mul
  | div : Arithmetic .div
  | mod : Arithmetic .mod

inductive Ordering : Operator → Prop where
  | greater : Ordering .greater
  | less : Ordering .less
  | greaterEqual : Ordering .greaterEqual
  | lessEqual : Ordering .lessEqual

inductive Equating : Operator → Prop where
  | equal : Equating .equal
  | notEqual : Equating .notEqual

/-- The types of two operands and of the result. -/
inductive HasType (op : Operator) : StaticType → StaticType → StaticType → Prop where
  | integers : op.Arithmetic → HasType op .integer .integer .integer
  | numbers {left right : StaticType} : op.Arithmetic → left.Numeric → right.Numeric →
      ¬ (left = .integer ∧ right = .integer) → HasType op left right .float
  | ordering {left right : StaticType} : op.Ordering → left.Numeric → right.Numeric →
      HasType op left right .boolean
  | equating {left right : StaticType} : op.Equating → HasType op left right .boolean

end Operator

/-- Truth values, characters, names and negations have no type. -/
inductive HasType : Expr → StaticType → Prop where
  | integer {n : Int64} {line : Nat} : HasType (.literal (.integer n) line) .integer
  | float {x : Binary64} {line : Nat} : HasType (.literal (.float x) line) .float
  | string {s : String} {line : Nat} : HasType (.literal (.string s) line) .string
  | declare {name : String} {isMutable : Bool} {typeName : Option String} {initial : Expr}
      {line : Nat} {type : StaticType} : HasType initial type →
      HasType (.declare name isMutable typeName initial line) type
  | binary {left right : Expr} {op : Operator} {line : Nat} {leftType rightType type : StaticType} :
      HasType left leftType → HasType right rightType → op.HasType leftType rightType type →
      HasType (.binary left op right line) type

/-- An expression fails at a line, and the cause lies in one of its nodes. -/
inductive RaisedAt (line : Nat) : Expr → Expr → TypeError → Prop where
  | literal {value : Literal} {l : Nat} : value.value? = none →
      RaisedAt line (.literal value l) (.literal value l) (.raised .unknownPrimary line)
  | reference {name : String} {l : Nat} :
      RaisedAt line (.reference name l) (.reference name l) (.raised .unknownExpression line)
  | not {operand : Expr} {l : Nat} :
      RaisedAt line (.not operand l) (.not operand l) (.raised .unknownExpression line)
  | declare {name : String} {isMutable : Bool} {typeName : Option String} {initial node : Expr}
      {l : Nat} {error : TypeError} : RaisedAt line initial node error →
      RaisedAt line (.declare name isMutable typeName initial l) node error
  | left {left right node : Expr} {op : Operator} {l : Nat} {error : TypeError} :
      RaisedAt line left node error →
      RaisedAt line (.binary left op right l) node (.operand error line)
  | right {left right node : Expr} {op : Operator} {l : Nat} {v : Value} {error : TypeError} :
      left.eval line = .ok v → RaisedAt line right node error →
      RaisedAt line (.binary left op right l) node (.operand error line)
  | apply {left right : Expr} {op : Operator} {l : Nat} {v w : Value} {cause : TypeError.Cause} :
      left.eval line = .ok v → right.eval line = .ok w → Value.binary op v w = .error cause →
      RaisedAt line (.binary left op right l) (.binary left op right l) (.raised cause line)

/-- The failures of operators on two integers. -/
inductive Undefined : Expr → TypeError.Cause → Prop where
  | overflow {left right : Expr} {op : Operator} {l : Nat} : op.Arithmetic →
      HasType left .integer → HasType right .integer →
      Undefined (.binary left op right l) .overflow
  | divisionByZero {left right : Expr} {op : Operator} {l : Nat} : op = .div ∨ op = .mod →
      HasType left .integer → HasType right .integer →
      Undefined (.binary left op right l) .divisionByZero

variable {line : Nat} {e node : Expr} {op : Operator} {left right type type' : StaticType}
  {v w u : Value} {cause : TypeError.Cause} {error : TypeError}

theorem numeric_iff : v.type.Numeric ↔ ∃ x, v.toFloat? = some x := by
  cases v <;> simp [Value.toFloat?, Value.type, StaticType.Numeric]

theorem isInteger_iff : v.isInteger = true ↔ v.type = .integer := by
  cases v <;> simp [Value.isInteger, Value.type]

theorem arithmetic_eq {x y : Binary64} {f : Binary64 → Binary64 → Binary64}
    (hv : v.toFloat? = some x) (hw : w.toFloat? = some y) (hf : op.arithmetic? = some f) :
    Value.arithmetic op v w =
      if (v.isInteger && w.isInteger) && op.divides && y.isZero then .error .divisionByZero
      else Value.ofResult (v.isInteger && w.isInteger) (f x y) := by
  simp only [Value.arithmetic, hv, hw, hf]

theorem ofResult_ok {integral : Bool} {x : Binary64} (h : Value.ofResult integral x = .ok u) :
    u.type = if integral then .integer else .float := by
  cases integral with
  | false =>
    cases h
    rfl
  | true =>
    cases hn : x.narrow with
    | error cause =>
      simp [Value.ofResult, hn, Except.map] at h
    | ok n =>
      simp only [Value.ofResult, hn, Except.map, if_true] at h
      cases h
      rfl

theorem ofResult_error {integral : Bool} {x : Binary64}
    (h : Value.ofResult integral x = .error cause) : integral = true ∧ cause = .overflow := by
  cases integral with
  | false => cases h
  | true =>
    refine ⟨rfl, ?_⟩
    cases hx : x.toInt64? with
    | none =>
      simp only [Value.ofResult, Binary64.narrow, hx, Except.map, if_true] at h
      cases h
      rfl
    | some n => simp [Value.ofResult, Binary64.narrow, hx, Except.map] at h

theorem arithmetic_defined (h : op.Arithmetic) : ∃ f, op.arithmetic? = some f := by
  cases h <;> exact ⟨_, rfl⟩

theorem ordering_defined (h : op.Ordering) : ∃ rel, op.ordering? = some rel := by
  cases h <;> exact ⟨_, rfl⟩

theorem divides_iff : op.divides = true ↔ op = .div ∨ op = .mod := by
  cases op <;> simp [Operator.divides]

theorem numeric_of_arithmetic_ok (h : Value.arithmetic op v w = .ok u) :
    v.type.Numeric ∧ w.type.Numeric := by
  rw [numeric_iff, numeric_iff]
  unfold Value.arithmetic at h
  split at h
  · exact ⟨⟨_, ‹_›⟩, ⟨_, ‹_›⟩⟩
  · cases h

theorem numeric_of_comparison_ok (h : Value.comparison op v w = .ok u) :
    v.type.Numeric ∧ w.type.Numeric := by
  rw [numeric_iff, numeric_iff]
  unfold Value.comparison at h
  split at h
  · exact ⟨⟨_, ‹_›⟩, ⟨_, ‹_›⟩⟩
  · cases h

theorem arithmetic_ok (ha : op.Arithmetic) (h : Value.arithmetic op v w = .ok u) :
    op.HasType v.type w.type u.type := by
  obtain ⟨hv, hw⟩ := numeric_of_arithmetic_ok h
  obtain ⟨x, hx⟩ := numeric_iff.mp hv
  obtain ⟨y, hy⟩ := numeric_iff.mp hw
  obtain ⟨f, hf⟩ := arithmetic_defined ha
  rw [arithmetic_eq hx hy hf] at h
  split at h
  · cases h
  · have hu := ofResult_ok h
    by_cases hi : v.type = .integer ∧ w.type = .integer
    · simp only [isInteger_iff.mpr hi.1, isInteger_iff.mpr hi.2, Bool.and_self, if_true] at hu
      rw [hi.1, hi.2, hu]
      exact .integers ha
    · rw [← isInteger_iff, ← isInteger_iff, ← Bool.and_eq_true] at hi
      rw [if_neg hi] at hu
      rw [hu]
      refine .numbers ha hv hw ?_
      rwa [← isInteger_iff, ← isInteger_iff, ← Bool.and_eq_true]

theorem comparison_ok (ho : op.Ordering) (h : Value.comparison op v w = .ok u) :
    op.HasType v.type w.type u.type := by
  obtain ⟨hv, hw⟩ := numeric_of_comparison_ok h
  obtain ⟨x, hx⟩ := numeric_iff.mp hv
  obtain ⟨y, hy⟩ := numeric_iff.mp hw
  obtain ⟨rel, hr⟩ := ordering_defined ho
  simp only [Value.comparison, hx, hy, hr] at h
  cases h
  exact .ordering ho hv hw

theorem equality_ok (he : op.Equating) (h : Value.equality op v w = .ok u) :
    op.HasType v.type w.type u.type := by
  have hu : u.type = .boolean := by
    cases he <;> cases h <;> rfl
  rw [hu]
  exact .equating he

theorem binary_arithmetic (h : op.Arithmetic) : Value.binary op v w = Value.arithmetic op v w := by
  cases h <;> rfl

theorem binary_ordering (h : op.Ordering) : Value.binary op v w = Value.comparison op v w := by
  cases h <;> rfl

theorem binary_equating (h : op.Equating) : Value.binary op v w = Value.equality op v w := by
  cases h <;> rfl

theorem operator_cases (op : Operator) : op.Arithmetic ∨ op.Ordering ∨ op.Equating := by
  cases op
  case equal => exact Or.inr (Or.inr .equal)
  case notEqual => exact Or.inr (Or.inr .notEqual)
  case greater => exact Or.inr (Or.inl .greater)
  case less => exact Or.inr (Or.inl .less)
  case greaterEqual => exact Or.inr (Or.inl .greaterEqual)
  case lessEqual => exact Or.inr (Or.inl .lessEqual)
  case add => exact Or.inl .add
  case sub => exact Or.inl .sub
  case mul => exact Or.inl .mul
  case div => exact Or.inl .div
  case mod => exact Or.inl .mod

/-- The value of an operator has the type that the operands' types give. -/
theorem binary_ok (h : Value.binary op v w = .ok u) : op.HasType v.type w.type u.type := by
  rcases operator_cases op with ha | ho | he
  · exact arithmetic_ok ha (binary_arithmetic ha ▸ h)
  · exact comparison_ok ho (binary_ordering ho ▸ h)
  · exact equality_ok he (binary_equating he ▸ h)

theorem arithmetic_error (ha : op.Arithmetic) (hv : v.type.Numeric) (hw : w.type.Numeric)
    (h : Value.arithmetic op v w = .error cause) :
    v.type = .integer ∧ w.type = .integer ∧
      (cause = .overflow ∨ cause = .divisionByZero ∧ (op = .div ∨ op = .mod)) := by
  obtain ⟨x, hx⟩ := numeric_iff.mp hv
  obtain ⟨y, hy⟩ := numeric_iff.mp hw
  obtain ⟨f, hf⟩ := arithmetic_defined ha
  rw [arithmetic_eq hx hy hf] at h
  split at h
  · rename_i hz
    cases h
    rw [Bool.and_eq_true, Bool.and_eq_true, Bool.and_eq_true, isInteger_iff, isInteger_iff,
      divides_iff] at hz
    exact ⟨hz.1.1.1, hz.1.1.2, Or.inr ⟨rfl, hz.1.2⟩⟩
  · obtain ⟨hi, hc⟩ := ofResult_error h
    rw [Bool.and_eq_true, isInteger_iff, isInteger_iff] at hi
    exact ⟨hi.1, hi.2, Or.inl hc⟩

theorem comparison_ne_error (ho : op.Ordering) (hv : v.type.Numeric) (hw : w.type.Numeric) :
    Value.comparison op v w ≠ .error cause := by
  obtain ⟨x, hx⟩ := numeric_iff.mp hv
  obtain ⟨y, hy⟩ := numeric_iff.mp hw
  obtain ⟨rel, hr⟩ := ordering_defined ho
  simp [Value.comparison, hx, hy, hr]

theorem equality_ne_error (he : op.Equating) : Value.equality op v w ≠ .error cause := by
  cases he <;> simp [Value.equality]

/-- An operator with operands of the right types fails only on two integers. -/
theorem binary_error (ht : op.HasType v.type w.type type) (h : Value.binary op v w = .error cause) :
    op.Arithmetic ∧ v.type = .integer ∧ w.type = .integer ∧
      (cause = .overflow ∨ cause = .divisionByZero ∧ (op = .div ∨ op = .mod)) := by
  generalize hl : v.type = left at ht
  generalize hr : w.type = right at ht
  cases ht with
  | integers ha =>
    have hn := arithmetic_error ha (Or.inl hl) (Or.inl hr) (binary_arithmetic ha ▸ h)
    exact ⟨ha, rfl, rfl, hn.2.2⟩
  | numbers ha hv hw =>
    subst hl hr
    exact ⟨ha, arithmetic_error ha hv hw (binary_arithmetic ha ▸ h)⟩
  | ordering ho hv hw =>
    subst hl hr
    exact (comparison_ne_error ho hv hw (binary_ordering ho ▸ h)).elim
  | equating he => exact (equality_ne_error he (binary_equating he ▸ h)).elim

theorem Operator.HasType.unique (h : op.HasType left right type)
    (h' : op.HasType left right type') : type = type' := by
  cases h with
  | integers ha =>
    cases h' with
    | integers => rfl
    | numbers _ _ _ hn => exact (hn ⟨rfl, rfl⟩).elim
    | ordering ho => cases ha <;> cases ho
    | equating he => cases ha <;> cases he
  | numbers ha _ _ hn =>
    cases h' with
    | integers => exact (hn ⟨rfl, rfl⟩).elim
    | numbers => rfl
    | ordering ho => cases ha <;> cases ho
    | equating he => cases ha <;> cases he
  | ordering ho =>
    cases h' with
    | integers ha => cases ha <;> cases ho
    | numbers ha => cases ha <;> cases ho
    | ordering => rfl
    | equating => rfl
  | equating he =>
    cases h' with
    | integers ha => cases ha <;> cases he
    | numbers ha => cases ha <;> cases he
    | ordering => rfl
    | equating => rfl

theorem HasType.unique (h : HasType e type) (h' : HasType e type') : type = type' := by
  induction h generalizing type' with
  | integer => cases h'; rfl
  | float => cases h'; rfl
  | string => cases h'; rfl
  | declare _ ih =>
    cases h' with
    | declare h' => exact ih h'
  | binary _ _ ho ihl ihr =>
    cases h' with
    | binary hl' hr' ho' =>
      obtain rfl := ihl hl'
      obtain rfl := ihr hr'
      exact ho.unique ho'

theorem eval_binary_ok {l r : Expr} {n : Nat} (h : (Expr.binary l op r n).eval line = .ok u) :
    ∃ v w, l.eval line = .ok v ∧ r.eval line = .ok w ∧ Value.binary op v w = .ok u := by
  rw [Expr.eval] at h
  cases hl : l.eval line with
  | error e => rw [hl] at h; cases h
  | ok v =>
    cases hr : r.eval line with
    | error e => rw [hl, hr] at h; cases h
    | ok w =>
      cases hb : Value.binary op v w with
      | error cause => simp [hl, hr, hb, TypeError.atLine, Except.mapError] at h
      | ok x =>
        simp only [hl, hr, hb, TypeError.atLine, Except.mapError] at h
        cases h
        exact ⟨v, w, rfl, rfl, hb⟩

/-- What an expression evaluates to is of its type. -/
theorem eval_ok_type (h : e.eval line = .ok u) : HasType e u.type := by
  induction e generalizing u with
  | literal value l =>
    cases value with
    | integer n => cases h; exact .integer
    | float x => cases h; exact .float
    | string s => cases h; exact .string
    | bool b => cases h
    | char c => cases h
  | reference name l => cases h
  | declare name isMutable typeName initial l ih => exact .declare (ih h)
  | not operand l => cases h
  | binary left op right l ihl ihr =>
    obtain ⟨v, w, hl, hr, hb⟩ := eval_binary_ok h
    exact .binary (ihl hl) (ihr hr) (binary_ok hb)

theorem eval_error_raisedAt (h : e.eval line = .error error) : ∃ node, RaisedAt line e node error := by
  induction e generalizing error with
  | literal value l =>
    cases hv : value.value? with
    | some v => simp [Expr.eval, hv] at h
    | none =>
      rw [Expr.eval, hv] at h
      cases h
      exact ⟨_, .literal hv⟩
  | reference name l => cases h; exact ⟨_, .reference⟩
  | declare name isMutable typeName initial l ih =>
    obtain ⟨node, hn⟩ := ih h
    exact ⟨node, .declare hn⟩
  | not operand l => cases h; exact ⟨_, .not⟩
  | binary left op right l ihl ihr =>
    rw [Expr.eval] at h
    cases hl : left.eval line with
    | error e =>
      rw [hl] at h
      cases h
      obtain ⟨node, hn⟩ := ihl hl
      exact ⟨node, .left hn⟩
    | ok v =>
      cases hr : right.eval line with
      | error e =>
        rw [hl, hr] at h
        cases h
        obtain ⟨node, hn⟩ := ihr hr
        exact ⟨node, .right hl hn⟩
      | ok w =>
        cases hb : Value.binary op v w with
        | error cause =>
          simp only [hl, hr, hb, TypeError.atLine, Except.mapError] at h
          cases h
          exact ⟨_, .apply hl hr hb⟩
        | ok x => simp [hl, hr, hb, TypeError.atLine, Except.mapError] at h

/-- Where an expression with a type fails, two integers have no result. -/
theorem raisedAt_undefined (h : RaisedAt line e node error) (ht : HasType e type) :
    Undefined node error.innermost := by
  induction h generalizing type with
  | literal hv => cases ht <;> cases hv
  | reference => cases ht
  | not => cases ht
  | declare _ ih =>
    cases ht with
    | declare ht => exact ih ht
  | left _ ih =>
    cases ht with
    | binary hl => exact ih hl
  | right _ _ ih =>
    cases ht with
    | binary _ hr => exact ih hr
  | apply hv hw hb =>
    cases ht with
    | binary hl hr ho =>
      obtain rfl := (eval_ok_type hv).unique hl
      obtain rfl := (eval_ok_type hw).unique hr
      obtain ⟨ha, hi, hj, hc⟩ := binary_error ho hb
      rw [hi] at hl
      rw [hj] at hr
      rcases hc with rfl | ⟨rfl, hd⟩
      · exact .overflow ha hl hr
      · exact .divisionByZero hd hl hr

/-- Evaluation respects types. A value is of the only type of its expression, an expression without
a type fails, and one with a type fails only for two integers without a result. -/
theorem eval_type_sound (s : Evaluator) (e : Expr) :
    {type | HasType e type}.Subsingleton ∧
      (∀ v, s.eval e = .ok v → HasType e v.type) ∧
      ((∀ type, ¬ HasType e type) → ∃ error, s.eval e = .error error) ∧
      ∀ type, HasType e type →
        (∃ v, s.eval e = .ok v ∧ v.type = type) ∨
          ∃ error node, s.eval e = .error error ∧ RaisedAt s.line e node error ∧
            Undefined node error.innermost := by
  refine ⟨fun _ h _ h' => h.unique h', fun v h => eval_ok_type h, ?_, ?_⟩
  · intro hn
    cases h : s.eval e with
    | ok v => exact (hn v.type (eval_ok_type h)).elim
    | error error => exact ⟨error, rfl⟩
  · intro type ht
    cases h : s.eval e with
    | ok v => exact Or.inl ⟨v, rfl, (eval_ok_type h).unique ht⟩
    | error error =>
      obtain ⟨node, hn⟩ := eval_error_raisedAt h
      exact Or.inr ⟨error, node, rfl, hn, raisedAt_undefined hn ht⟩

/-- One and the remainder of seven by zero, added. -/
def zeroRemainder : Expr :=
  .binary (.literal (.integer 1) 1) .add
    (.binary (.literal (.integer 7) 1) .mod (.literal (.integer 0) 1) 1) 1

theorem eval_type_sound_zeroRemainder :
    ∃ error node, Evaluator.start.eval zeroRemainder = .error error ∧
      RaisedAt 1 zeroRemainder node error ∧ Undefined node error.innermost := by
  have ht : HasType zeroRemainder .integer :=
    .binary .integer (.binary .integer .integer (.integers .mod)) (.integers .add)
  have he : Evaluator.start.eval zeroRemainder =
      .error (.operand (.raised .divisionByZero 1) 1) := by
    decide +kernel
  rcases (eval_type_sound .start zeroRemainder).2.2.2 .integer ht with ⟨v, hv, _⟩ | h
  · rw [he] at hv
    cases hv
  · exact h

end Scriptlet
