import Scriptlet.Proofs.Quotients

/-!
Comparing values. Numbers that are not NaN stand on one line, integers where their nearest doubles
do, and all six operators compare places on that line. Rounding never turns two integers around, so
that of two integers the smaller one is at most taken to be equal.
-/

namespace Scriptlet

/-- A number other than NaN. -/
structure Number where
  value : Value
  numeric : value.isNumeric = true
  proper : value ≠ .float .nan

/-- The operator on places of the line; arithmetic operators relate none. -/
def Operator.relates : Operator → ℤ → ℤ → Bool
  | .equal, i, j => i = j
  | .notEqual, i, j => i ≠ j
  | .less, i, j => i < j
  | .lessEqual, i, j => i ≤ j
  | .greater, i, j => j < i
  | .greaterEqual, i, j => j ≤ i
  | _, _, _ => false

def Operator.Relational (op : Operator) : Prop :=
  op.Ordering ∨ op.Equating

/-- The place of a value, which NaN and values that are no numbers do not have. -/
def Value.place? (v : Value) : Option ℤ :=
  v.toFloat?.bind Binary64.key?

/-- The operator comes to true. -/
def Holds (op : Operator) (v w : Value) : Prop :=
  Value.binary op v w = .ok (.boolean true)

/-- Both operators have a truth value, and one has the opposite of the other's. -/
def Opposite (op op' : Operator) (v w : Value) : Prop :=
  ∃ b, Value.binary op v w = .ok (.boolean b) ∧ Value.binary op' v w = .ok (.boolean !b)

/-- The three ways in which two numbers can stand to each other. -/
def Operator.strict : List Operator :=
  [.less, .equal, .greater]

/-- Two texts or two truth values that are the same. -/
inductive Same : Value → Value → Prop where
  | string {s : String} : Same (.string s) (.string s)
  | boolean {b : Bool} : Same (.boolean b) (.boolean b)

open Binary64 (rounded whole_ofInt)

variable {op : Operator} {v w : Value} {i j : ℤ} {a b : Int64}

theorem place?_integer (n : Int64) :
    (Value.integer n).place? = some (rounded n.toInt * Binary64.unit) := by
  rw [Value.place?, Value.toFloat?, Option.bind_some]
  exact Binary64.key?_whole (whole_ofInt (natAbs_toInt_le n))

theorem exists_place (x : Number) : ∃ i, x.value.place? = some i := by
  obtain ⟨v, hn, hp⟩ := x
  cases v with
  | integer n => exact ⟨_, place?_integer n⟩
  | float x =>
    cases x with
    | finite negative m => exact ⟨_, rfl⟩
    | infinite negative => exact ⟨_, rfl⟩
    | nan => exact (hp rfl).elim
  | string s => cases hn
  | boolean b => cases hn

/-- Ordering and equality are decided in two ways, but by the same places. -/
theorem binary_place (hop : op.Relational) (hv : v.place? = some i) (hw : w.place? = some j) :
    Value.binary op v w = .ok (.boolean (op.relates i j)) := by
  obtain ⟨x, hx, hi⟩ := Option.bind_eq_some_iff.mp hv
  obtain ⟨y, hy, hj⟩ := Option.bind_eq_some_iff.mp hw
  have hlt : x.lt y = decide (i < j) := by simp [Binary64.lt, Binary64.compare, hi, hj]
  have hgt : y.lt x = decide (j < i) := by simp [Binary64.lt, Binary64.compare, hi, hj]
  have hle : x.le y = decide (i ≤ j) := by simp [Binary64.le, Binary64.compare, hi, hj]
  have hge : y.le x = decide (j ≤ i) := by simp [Binary64.le, Binary64.compare, hi, hj]
  have heq : v.equals w = decide (i = j) := by
    simp only [Value.equals, hx, hy, Binary64.eq, Binary64.compare, hi, hj]
    rfl
  rcases hop with ho | he
  · rw [binary_ordering ho]
    cases ho <;>
      simp only [Value.comparison, hx, hy, Operator.ordering?, Operator.relates, hlt, hgt, hle, hge]
  · rw [binary_equating he]
    cases he <;> simp [Value.equality, Operator.relates, heq]

/-- Every operator compares the same places of two numbers. -/
theorem exists_places : ∃ place : Number → ℤ, ∀ op : Operator, op.Relational → ∀ x y : Number,
    Value.binary op x.value y.value = .ok (.boolean (op.relates (place x) (place y))) := by
  choose place hplace using exists_place
  exact ⟨place, fun op hop x y => binary_place hop (hplace x) (hplace y)⟩

theorem relates_mul {k : ℤ} (hk : 0 < k) : op.relates (i * k) (j * k) = op.relates i j := by
  cases op <;> simp [Operator.relates, hk, hk.ne']

/-- Two integers are compared as the doubles nearest to them. -/
theorem binary_rounded (hop : op.Relational) :
    Value.binary op (.integer a) (.integer b) =
      .ok (.boolean (op.relates (rounded a.toInt) (rounded b.toInt))) := by
  have hu : (0 : ℤ) < Binary64.unit := by exact_mod_cast Binary64.unit_pos
  rw [binary_place hop (place?_integer a) (place?_integer b), relates_mul hu]

/-- If the greater of two integers were rounded below the other, each would be nearer to the double
of the other one. -/
theorem rounded_mono (hi : i.natAbs ≤ pow2 63) (hj : j.natAbs ≤ pow2 63) (h : i ≤ j) :
    rounded i ≤ rounded j := by
  have ni := Binary64.nearestTo_ofInt hi
  have nj := Binary64.nearestTo_ofInt hj
  by_contra hlt
  have hlt' : (rounded j : ℚ) < rounded i := by exact_mod_cast not_le.mp hlt
  have hle : (i : ℚ) ≤ j := by exact_mod_cast h
  have hleft : (rounded i : ℚ) + rounded j ≤ 2 * i := by
    have := sq_le_sq.mpr (ni.least _ _ nj.value)
    nlinarith
  have hright : 2 * (j : ℚ) ≤ rounded i + rounded j := by
    have := sq_le_sq.mpr (nj.least _ _ ni.value)
    nlinarith
  have hij : (i : ℚ) = j := by linarith
  have hsame : i = j := by exact_mod_cast hij
  rw [hsame] at hlt
  exact hlt le_rfl

theorem Binary64.equal_comm (x y : Binary64) : x.eq y = y.eq x := by
  unfold Binary64.eq
  unfold Binary64.compare
  cases x.key? <;> cases y.key? <;> simp [eq_comm]

theorem equals_comm (v w : Value) : v.equals w = w.equals v := by
  unfold Value.equals
  cases v.toFloat? with
  | none => cases w.toFloat? <;> simp only [eq_comm]
  | some x =>
    cases w.toFloat? with
    | none => simp only [eq_comm]
    | some y => exact Binary64.equal_comm x y

theorem equals_iff_same (h : v.isNumeric = false ∨ w.isNumeric = false) :
    v.equals w = true ↔ Same v w := by
  have hstructural : v.equals w = decide (v = w) := by
    cases v <;> cases w <;> simp_all [Value.equals, Value.toFloat?, Value.isNumeric]
  rw [hstructural, decide_eq_true_iff]
  constructor
  · rintro rfl
    cases v with
    | integer n => simp [Value.isNumeric] at h
    | float x => simp [Value.isNumeric] at h
    | string s => exact .string
    | boolean b => exact .boolean
  · rintro (_ | _) <;> rfl

/-- One of three operators holds of two numbers, that of the order of their places. -/
theorem exists_strict (x y : Number) :
    ∃ op ∈ Operator.strict, ∀ op' ∈ Operator.strict,
      Value.binary op' x.value y.value = .ok (.boolean (op' = op)) := by
  obtain ⟨place, hplace⟩ := exists_places
  have hless := hplace .less (.inl .less) x y
  have hequal := hplace .equal (.inr .equal) x y
  have hgreater := hplace .greater (.inl .greater) x y
  simp only [Operator.strict, List.forall_mem_cons, hless, hequal, hgreater, Operator.relates]
  rcases lt_trichotomy (place x) (place y) with h | h | h
  · refine ⟨.less, by simp, ?_⟩
    simp [h, h.ne, h.not_gt]
  · refine ⟨.equal, by simp, ?_⟩
    simp [h]
  · refine ⟨.greater, by simp, ?_⟩
    simp [h, h.ne', h.not_gt]

theorem opposite_of_relates {op' : Operator} (hop : op.Relational) (hop' : op'.Relational)
    (h : ∀ i j, op'.relates i j = !op.relates i j) (x y : Number) :
    Opposite op op' x.value y.value := by
  obtain ⟨place, hplace⟩ := exists_places
  exact ⟨_, hplace op hop x y, by rw [hplace op' hop', h]⟩

theorem equal_equivalence : Equivalence fun x y : Number => Holds .equal x.value y.value := by
  obtain ⟨place, hplace⟩ := exists_places
  have h : ∀ x y : Number, Holds .equal x.value y.value ↔ place x = place y := by
    intro x y
    simp [Holds, hplace .equal (.inr .equal), Operator.relates]
  simp only [h]
  exact ⟨fun _ => rfl, Eq.symm, Eq.trans⟩

theorem less_trans (x y z : Number) (hxy : Holds .less x.value y.value)
    (hyz : Holds .less y.value z.value) : Holds .less x.value z.value := by
  obtain ⟨place, hplace⟩ := exists_places
  have h : ∀ x y : Number, Holds .less x.value y.value ↔ place x < place y := by
    intro x y
    simp [Holds, hplace .less (.inl .less), Operator.relates]
  rw [h] at hxy hyz ⊢
  exact hxy.trans hyz

theorem lt_of_less (h : Holds .less (.integer a) (.integer b)) : a.toInt < b.toInt := by
  rw [Holds, binary_rounded (.inl .less)] at h
  have hlt : rounded a.toInt < rounded b.toInt := by simpa [Operator.relates] using h
  by_contra hge
  have := rounded_mono (natAbs_toInt_le b) (natAbs_toInt_le a) (not_lt.mp hge)
  omega

theorem lessEqual_of_le (h : a.toInt ≤ b.toInt) : Holds .lessEqual (.integer a) (.integer b) := by
  rw [Holds, binary_rounded (.inl .lessEqual)]
  simp [Operator.relates, rounded_mono (natAbs_toInt_le a) (natAbs_toInt_le b) h]

/-- Integers up to 2^53 are doubles, so that they are compared as they are. -/
theorem binary_exact (ha : a.toInt.natAbs ≤ 2 ^ 53) (hb : b.toInt.natAbs ≤ 2 ^ 53)
    (hop : op.Relational) :
    Value.binary op (.integer a) (.integer b) = .ok (.boolean (op.relates a.toInt b.toInt)) := by
  rw [binary_rounded hop, Binary64.rounded_eq_self ha, Binary64.rounded_eq_self hb]

/-- All six operators agree with one order of the numbers other than NaN. It never contradicts the
order of the integers, and is that order up to 2^53. Of all values, two are equal or not equal
whichever comes first, and those that are no numbers are equal to themselves only. -/
theorem comparisons_consistent :
    (∀ x y : Number,
      (∃ op ∈ Operator.strict, ∀ op' ∈ Operator.strict,
        Value.binary op' x.value y.value = .ok (.boolean (op' = op))) ∧
      Opposite .lessEqual .greater x.value y.value ∧
      Opposite .greaterEqual .less x.value y.value) ∧
      Equivalence (fun x y : Number => Holds .equal x.value y.value) ∧
      (∀ x y z : Number, Holds .less x.value y.value → Holds .less y.value z.value →
        Holds .less x.value z.value) ∧
      (∀ a b : Int64,
        (Holds .less (.integer a) (.integer b) → a.toInt < b.toInt) ∧
        (a.toInt ≤ b.toInt → Holds .lessEqual (.integer a) (.integer b)) ∧
        (a.toInt.natAbs ≤ 2 ^ 53 → b.toInt.natAbs ≤ 2 ^ 53 → ∀ op : Operator, op.Relational →
          Value.binary op (.integer a) (.integer b) =
            .ok (.boolean (op.relates a.toInt b.toInt)))) ∧
      ∀ v w : Value, Opposite .notEqual .equal v w ∧
        Value.binary .equal v w = Value.binary .equal w v ∧
        (v.isNumeric = false ∨ w.isNumeric = false → (Holds .equal v w ↔ Same v w)) := by
  refine ⟨?_, equal_equivalence, less_trans, ?_, ?_⟩
  · intro x y
    refine ⟨exists_strict x y, ?_, ?_⟩
    · apply opposite_of_relates (.inl .lessEqual) (.inl .greater)
      simp [Operator.relates, ← decide_not]
    · apply opposite_of_relates (.inl .greaterEqual) (.inl .less)
      simp [Operator.relates, ← decide_not]
  · intro a b
    exact ⟨lt_of_less, lessEqual_of_le, fun ha hb op hop => binary_exact ha hb hop⟩
  · intro v w
    have hequal : ∀ v w, Value.binary .equal v w = .ok (.boolean (v.equals w)) := fun _ _ => rfl
    refine ⟨⟨!v.equals w, rfl, ?_⟩, ?_, ?_⟩
    · rw [hequal, Bool.not_not]
    · rw [hequal, hequal, equals_comm]
    · intro h
      rw [Holds, hequal, ← equals_iff_same h]
      simp

def leastNumber : Number :=
  ⟨.float (.infinite true), rfl, by decide⟩

/-- The first integer that is no double, which stands where the one before it does. -/
def collapsedNumber : Number :=
  ⟨.integer 9007199254740993, rfl, by decide⟩

def greatestNumber : Number :=
  ⟨.float (.infinite false), rfl, by decide⟩

theorem comparisons_consistent_collapsed :
    Holds .less leastNumber.value collapsedNumber.value ∧
      Holds .less collapsedNumber.value greatestNumber.value ∧
      Holds .less leastNumber.value greatestNumber.value ∧
      (Holds .less (.integer 9007199254740991) (.integer 9007199254740993) ∧
        (9007199254740991 : Int64).toInt < (9007199254740993 : Int64).toInt) ∧
      Holds .lessEqual (.integer 9007199254740992) (.integer 9007199254740993) ∧
      Value.binary .greaterEqual (.integer 9007199254740992) (.integer (-1)) =
        .ok (.boolean true) ∧
      ¬ Holds .equal (.float .nan) (.string "NaN") := by
  obtain ⟨_, _, htrans, hint, hany⟩ := comparisons_consistent
  have hlow : Holds .less leastNumber.value collapsedNumber.value := by
    unfold Holds
    decide +kernel
  have hhigh : Holds .less collapsedNumber.value greatestNumber.value := by
    unfold Holds
    decide +kernel
  have hless : Holds .less (.integer 9007199254740991) (.integer 9007199254740993) := by
    unfold Holds
    decide +kernel
  refine ⟨hlow, hhigh, htrans _ _ _ hlow hhigh, ⟨hless, (hint _ _).1 hless⟩,
    (hint _ _).2.1 (by decide), ?_, ?_⟩
  · exact (hint 9007199254740992 (-1)).2.2 (by decide) (by decide) .greaterEqual
      (.inl .greaterEqual)
  · rw [(hany (.float .nan) (.string "NaN")).2.2 (Or.inr rfl)]
    nofun

end Scriptlet
