import DartSdk.Lib.Binary64

/-!
# Convert/Json/Numeral — the number literals of JSON and the numbers they denote

A `Literal` is a tree of the grammar `'-'? ('0' | [1-9][0-9]*) ('.' [0-9]+)? ([eE] [+-]? [0-9]+)?`,
so there are no others.  `Literal.toNum` is what `num.parse` makes of it: the integer if there is
neither a fraction nor an exponent and it fits in 64 bits, otherwise the double nearest to the exact
value.

`parseNum` and `parseDouble` are `num.parse` and `double.parse` on the characters of literals;
`ofChars_chars` — reading back the characters of a literal gives the literal.
-/

namespace Json

open List

/-- A `num`: a 64-bit integer or a double. -/
inductive Num where
  | int (n : BitVec 64)
  | double (d : Double)

/-! ## Literals -/

instance neZero_ten : NeZero 10 := ⟨by decide⟩

/-- The integer part: a zero, or digits without a leading zero. -/
inductive IntPart where
  | zero
  | nonzero (head : Fin 10) (h : head ≠ 0) (tail : List (Fin 10))
  deriving DecidableEq

/-- The exponent part, with its letter and sign. -/
structure Exponent where
  /-- Written with `E`. -/
  upper : Bool
  /-- The sign, if there is one; `true` is `-`. -/
  sign : Option Bool
  head : Fin 10
  tail : List (Fin 10)
  deriving DecidableEq

/-- A number as the JSON grammar has it. -/
structure Literal where
  negative : Bool
  int : IntPart
  frac : Option (Fin 10 × List (Fin 10))
  exp : Option Exponent
  deriving DecidableEq

/-- The number written by the digits of `m` and then the digits `ds`. -/
def valueFrom (m : ℕ) : List (Fin 10) → ℕ
  | [] => m
  | d :: ds => valueFrom (10 * m + d) ds

/-- The number written by digits. -/
def valueOf (ds : List (Fin 10)) : ℕ := valueFrom 0 ds

theorem valueFrom_append (m : ℕ) (ds es : List (Fin 10)) :
    valueFrom m (ds ++ es) = valueFrom (valueFrom m ds) es := by
  induction ds generalizing m with
  | nil => rfl
  | cons d ds ih => exact ih _

/-- The digits of the integer part. -/
def IntPart.digits : IntPart → List (Fin 10)
  | zero => [0]
  | nonzero d _ ds => d :: ds

/-- The digits of the exponent. -/
def Exponent.digits (e : Exponent) : List (Fin 10) := e.head :: e.tail

/-- Whether the exponent has a minus sign. -/
def Exponent.isNegative (e : Exponent) : Bool := e.sign = some true

/-- The exponent as an integer. -/
def Exponent.value (e : Exponent) : ℤ :=
  if e.isNegative then -(valueOf e.digits) else valueOf e.digits

namespace Literal

variable (l : Literal)

/-- The digits after the point. -/
def fracDigits : List (Fin 10) := l.frac.elim [] fun f => f.1 :: f.2

/-- The digits before the exponent, without the point. -/
def mantissa : ℕ := valueOf (l.int.digits ++ l.fracDigits)

/-- The power of ten that the mantissa is multiplied with. -/
def scale : ℤ := l.exp.elim 0 Exponent.value - l.fracDigits.length

/-- The exact value, without the sign. -/
def magnitude : ℚ := l.mantissa * 10 ^ l.scale

/-- The double nearest to the exact value. -/
def toDouble : Double := Double.ofRat l.negative l.magnitude

/-- The value of the integer part, with the sign. -/
def intValue : ℤ := if l.negative then -(valueOf l.int.digits) else valueOf l.int.digits

/-- A literal that is read as an integer. -/
def IsInt : Prop := l.frac = none ∧ l.exp = none ∧ -2 ^ 63 ≤ l.intValue ∧ l.intValue < 2 ^ 63

instance : Decidable l.IsInt := inferInstanceAs (Decidable (_ ∧ _))

/-- **The number that a literal denotes.** -/
def toNum : Num :=
  if l.IsInt then .int (BitVec.ofInt 64 l.intValue) else .double l.toDouble

end Literal

/-- The character of a digit. -/
def digitChar (d : Fin 10) : ℕ := 0x30 + d

/-- The exponent part as text. -/
def Exponent.chars (e : Exponent) : List ℕ :=
  (if e.upper then 0x45 else 0x65) ::
    ((e.sign.elim [] fun s => [if s then 0x2d else 0x2b]) ++ e.digits.map digitChar)

/-- The fraction as text. -/
def Literal.fracChars (l : Literal) : List ℕ :=
  l.frac.elim [] fun f => 0x2e :: (f.1 :: f.2).map digitChar

/-- The exponent part as text, if there is one. -/
def Literal.expChars (l : Literal) : List ℕ := l.exp.elim [] Exponent.chars

/-- The literal as text. -/
def Literal.chars (l : Literal) : List ℕ :=
  (if l.negative then [0x2d] else []) ++ l.int.digits.map digitChar ++ l.fracChars ++ l.expChars

/-- The digit of a character. -/
def digitOf (c : ℕ) : Option (Fin 10) :=
  if h : 0x30 ≤ c ∧ c - 0x30 < 10 then some ⟨c - 0x30, h.2⟩ else none

/-- The digits that a text starts with, and what follows them. -/
def spanDigits : List ℕ → List (Fin 10) × List ℕ
  | [] => ([], [])
  | c :: s =>
    match digitOf c with
    | some d => (d :: (spanDigits s).1, (spanDigits s).2)
    | none => ([], c :: s)

/-- Reads the integer part. -/
def readInt (s : List ℕ) : Option (IntPart × List ℕ) :=
  match spanDigits s with
  | ([], _) => none
  | (d :: ds, rest) =>
    if h : d = 0 then if ds = [] then some (.zero, rest) else none else some (.nonzero d h ds, rest)

/-- Reads the fraction, if there is one. -/
def readFrac : List ℕ → Option (Option (Fin 10 × List (Fin 10)) × List ℕ)
  | 0x2e :: s =>
    match spanDigits s with
    | ([], _) => none
    | (d :: ds, rest) => some (some (d, ds), rest)
  | s => some (none, s)

/-- Reads the digits of the exponent. -/
def readExpDigits (upper : Bool) (sign : Option Bool) (s : List ℕ) :
    Option (Option Exponent × List ℕ) :=
  match spanDigits s with
  | ([], _) => none
  | (d :: ds, rest) => some (some ⟨upper, sign, d, ds⟩, rest)

/-- Reads the sign of the exponent, and its digits. -/
def readExpSign (upper : Bool) : List ℕ → Option (Option Exponent × List ℕ)
  | 0x2b :: s => readExpDigits upper (some false) s
  | 0x2d :: s => readExpDigits upper (some true) s
  | s => readExpDigits upper none s

/-- Reads the exponent part, if there is one. -/
def readExp : List ℕ → Option (Option Exponent × List ℕ)
  | 0x65 :: s => readExpSign false s
  | 0x45 :: s => readExpSign true s
  | s => some (none, s)

/-- Reads a literal after its sign. -/
def readUnsigned (negative : Bool) (s : List ℕ) : Option Literal := do
  let (int, s) ← readInt s
  let (frac, s) ← readFrac s
  let (exp, s) ← readExp s
  if s = [] then some ⟨negative, int, frac, exp⟩ else none

/-- The literal that a text is. -/
def Literal.ofChars : List ℕ → Option Literal
  | 0x2d :: s => readUnsigned true s
  | s => readUnsigned false s

/-- The text does not go on with a digit. -/
def EndsDigits (s : List ℕ) : Prop := ∀ c ∈ s.head?, digitOf c = none

theorem digitOf_digitChar (d : Fin 10) : digitOf (digitChar d) = some d := by
  unfold digitOf digitChar
  simp

theorem spanDigits_append {s : List ℕ} (hs : EndsDigits s) (ds : List (Fin 10)) :
    spanDigits (ds.map digitChar ++ s) = (ds, s) := by
  induction ds with
  | nil =>
    cases s with
    | nil => rfl
    | cons c s =>
      have hc : digitOf c = none := hs c rfl
      simp [spanDigits, hc]
  | cons d ds ih =>
    rw [map_cons, cons_append, spanDigits, digitOf_digitChar]
    simp [ih]

theorem endsDigits_nil : EndsDigits [] := by simp [EndsDigits]

theorem endsDigits_expChars (l : Literal) : EndsDigits l.expChars := by
  unfold EndsDigits Literal.expChars Exponent.chars
  cases l.exp with
  | none => simp
  | some e => cases hu : e.upper <;> simp [hu, digitOf]

theorem endsDigits_fracChars (l : Literal) : EndsDigits (l.fracChars ++ l.expChars) := by
  unfold Literal.fracChars
  cases l.frac with
  | none => exact endsDigits_expChars l
  | some f => simp [EndsDigits, digitOf]

theorem readInt_digits (i : IntPart) {s : List ℕ} (hs : EndsDigits s) :
    readInt (i.digits.map digitChar ++ s) = some (i, s) := by
  rw [readInt, spanDigits_append hs]
  cases i with
  | zero => rfl
  | nonzero d h ds => exact dif_neg h

theorem readExpDigits_chars (e : Exponent) :
    readExpDigits e.upper e.sign (e.digits.map digitChar) = some (some e, []) := by
  have hspan := spanDigits_append endsDigits_nil e.digits
  rw [append_nil] at hspan
  rw [readExpDigits, hspan]
  rfl

theorem readExpSign_chars (e : Exponent) :
    readExpSign e.upper ((e.sign.elim [] fun s => [if s then 0x2d else 0x2b]) ++
      e.digits.map digitChar) = some (some e, []) := by
  have hread := readExpDigits_chars e
  cases hsign : e.sign with
  | some s => cases s <;> simpa [readExpSign, hsign] using hread
  | none =>
    -- A digit is neither of the two signs.
    rw [hsign] at hread
    have hdigit : ∀ d : Fin 10, digitChar d ≠ 0x2b ∧ digitChar d ≠ 0x2d := by decide
    unfold readExpSign
    split
    · rename_i heq
      exact absurd (List.cons.inj heq).1 (hdigit e.head).1
    · rename_i heq
      exact absurd (List.cons.inj heq).1 (hdigit e.head).2
    · exact hread

theorem readExp_expChars (l : Literal) : readExp l.expChars = some (l.exp, []) := by
  unfold Literal.expChars
  cases l.exp with
  | none => rfl
  | some e =>
    have hread := readExpSign_chars e
    cases hu : e.upper <;> rw [hu] at hread <;>
      simpa [Exponent.chars, readExp, hu] using hread

theorem readFrac_fracChars (l : Literal) :
    readFrac (l.fracChars ++ l.expChars) = some (l.frac, l.expChars) := by
  unfold Literal.fracChars
  cases l.frac with
  | none =>
    unfold Literal.expChars Exponent.chars
    cases l.exp with
    | none => rfl
    | some e => cases hu : e.upper <;> simp [readFrac, hu]
  | some f =>
    have hspan := spanDigits_append (endsDigits_expChars l) (f.1 :: f.2)
    rw [map_cons, cons_append] at hspan
    simp [readFrac, hspan]

/-- **Reading back the characters of a literal gives the literal.** -/
theorem ofChars_chars (l : Literal) : Literal.ofChars l.chars = some l := by
  have hunsigned : readUnsigned l.negative
      (l.int.digits.map digitChar ++ (l.fracChars ++ l.expChars)) = some l := by
    simp [readUnsigned, readInt_digits l.int (endsDigits_fracChars l), readFrac_fracChars,
      readExp_expChars]
  unfold Literal.chars
  cases hneg : l.negative with
  | true =>
    rw [hneg] at hunsigned
    simpa [Literal.ofChars] using hunsigned
  | false =>
    rw [hneg] at hunsigned
    have hdigit : ∀ d : Fin 10, digitChar d ≠ 0x2d := by decide
    obtain ⟨d, ds, hds⟩ : ∃ d ds, l.int.digits = d :: ds := by
      cases l.int <;> exact ⟨_, _, rfl⟩
    rw [hds] at hunsigned ⊢
    simp only [Bool.false_eq_true, if_false, nil_append, append_assoc, map_cons,
      cons_append] at hunsigned ⊢
    unfold Literal.ofChars
    split
    · rename_i heq
      exact absurd (List.cons.inj heq).1 (hdigit d)
    · exact hunsigned

/-- `double.parse` on a literal; it throws on what is no number. -/
def parseDouble (s : List ℕ) : Option Double := (Literal.ofChars s).map Literal.toDouble

/-- `num.parse` on a literal. -/
def parseNum (s : List ℕ) : Option Num := (Literal.ofChars s).map Literal.toNum

theorem parseDouble_chars (l : Literal) : parseDouble l.chars = some l.toDouble := by
  rw [parseDouble, ofChars_chars, Option.map_some]

theorem parseNum_chars (l : Literal) : parseNum l.chars = some l.toNum := by
  rw [parseNum, ofChars_chars, Option.map_some]

end Json
