import Mathlib.Data.Int.Bitwise
import Mathlib.Tactic.Positivity
import ConstFlow.Constants.Arithmetic

/-! # Folding as arithmetic on the integers

Every operator on 32-bit words is described by what it does to the integers its operands
stand for: the exact result, brought back among the words by `wrap`, for sums, differences,
products, quotients and shifts to the left; a floor for the other shifts; one of the two's
complement bits at a time for the bitwise operators. A zero divisor is the only operand
that has no result.
-/
namespace ConstFlow

/-- The integer among the signed 32-bit words that is congruent to `n`. -/
def wrap (n : ℤ) : ℤ := n.bmod (2 ^ 32)

/-! ## What the operators do to integers -/

def Arithmetic.onIntegers (op : Arithmetic) (y z : ℤ) : ℤ :=
  match op with
  | add => wrap (y + z)
  | sub => wrap (y - z)
  | mul => wrap (y * z)
  | div => wrap (y.tdiv z)
  | rem => y - z * y.tdiv z

def Comparison.onIntegers (op : Comparison) (y z : ℤ) : Bool :=
  match op with
  | eq => y = z
  | ne => y ≠ z
  | lt => y < z
  | gt => z < y
  | le => y ≤ z
  | ge => z ≤ y

/-- A shift distance counts modulo 32, also a negative one. -/
def Shift.distance (z : ℤ) : ℕ := (z % 32).toNat

def Shift.onIntegers (op : Shift) (y z : ℤ) : ℤ :=
  match op with
  | left => wrap (y * 2 ^ distance z)
  | right => y.fdiv (2 ^ distance z)
  | unsignedRight => wrap ((y % 2 ^ 32).fdiv (2 ^ distance z))

def Bitwise.onBits (op : Bitwise) (b c : Bool) : Bool :=
  match op with
  | or => b || c
  | and => b && c
  | xor => b ^^ c

/-- `c` is what `op` makes of `y` and `z`, all of them integers. -/
def Operator.Gives (op : Operator) (y z c : ℤ) : Prop :=
  match op with
  | arithmetic op => c = op.onIntegers y z
  | comparison op => c = if op.onIntegers y z then 1 else 0
  | shift op => c = op.onIntegers y z
  | bitwise op => ∀ i < 32, c.testBit i = op.onBits (y.testBit i) (z.testBit i)

/-- The operations that may be at fault: a quotient or a remainder by zero. -/
def Operator.DividesByZero (op : Operator) (z : Int32) : Prop :=
  (op = .arithmetic .div ∨ op = .arithmetic .rem) ∧ z = 0

/-! ## Words as integers -/

theorem wrap_add_left (m n : ℤ) : wrap (wrap m + n) = wrap (m + n) := Int.bmod_add_bmod
theorem wrap_mul_left (m n : ℤ) : wrap (wrap m * n) = wrap (m * n) := Int.bmod_mul_bmod

theorem wrap_toInt (y : Int32) : wrap y.toInt = y.toInt := y.toInt_bmod

theorem toNat_eq_toInt_emod {w : ℕ} (x : BitVec w) : (x.toNat : ℤ) = x.toInt % (2 ^ w : ℕ) := by
  have hlt : (x.toNat : ℤ) < (2 ^ w : ℕ) := by exact_mod_cast x.isLt
  rw [BitVec.toInt_eq_toNat_bmod, Int.bmod_emod, Int.emod_eq_of_lt (by omega) hlt]

/-- The bits of a word are the bits of its integer in two's complement. -/
theorem testBit_toInt {w i : ℕ} (x : BitVec w) (hi : i < w) :
    x.toInt.testBit i = x.getLsbD i := by
  rw [BitVec.toInt_eq_msb_cond, BitVec.getLsbD]
  cases x.msb with
  | false => rfl
  | true =>
    have hlt : x.toNat < 2 ^ w := x.isLt
    have hneg : (x.toNat : ℤ) - (2 ^ w : ℕ) = Int.negSucc (2 ^ w - (x.toNat + 1)) := by omega
    have hbit := Nat.testBit_two_pow_sub_succ hlt i
    rw [if_pos rfl, hneg, Int.testBit, hbit, decide_eq_true hi, Bool.true_and, Bool.not_not]

/-! ## One family of operators at a time -/

theorem Arithmetic.fold_eq_error_iff (op : Arithmetic) (y z : Int32) (fault : EvalFault) :
    op.fold y z = .error fault ↔
      (op = div ∨ op = rem) ∧ z = 0 ∧ fault = .divideByZero (.arithmetic op) y := by
  cases op <;> by_cases hz : z = 0 <;> simp [Arithmetic.fold, hz, eq_comm]

theorem Arithmetic.toInt_of_fold {op : Arithmetic} {y z c : Int32} (h : op.fold y z = .ok c) :
    c.toInt = op.onIntegers y.toInt z.toInt := by
  cases op with
  | add => cases h; exact Int32.toInt_add y z
  | sub => cases h; exact Int32.toInt_sub y z
  | mul => cases h; exact Int32.toInt_mul y z
  | div =>
    rw [Arithmetic.fold] at h
    split at h <;> cases h
    exact Int32.toInt_div y z
  | rem =>
    rw [Arithmetic.fold] at h
    split at h <;> cases h
    rw [Int32.toInt_mod, Int.tmod_def, onIntegers]

theorem Comparison.holds_eq_onIntegers (op : Comparison) (y z : Int32) :
    op.holds y z = op.onIntegers y.toInt z.toInt := by
  cases op <;>
    simp [holds, onIntegers, Int32.toInt_inj, Int32.lt_iff_toInt_lt, Int32.le_iff_toInt_le]

/-- The distance of the shifts on signed words is a signed remainder, -/
theorem Shift.toNat_smod (z : Int32) : (z.toBitVec.smod 32).toNat = distance z.toInt := by
  have hsmod : (z.toBitVec.smod 32).toInt = z.toInt % 32 := by
    rw [BitVec.toInt_smod, Int.fmod_eq_emod_of_nonneg _ (by decide)]
    rfl
  have hnat := toNat_eq_toInt_emod (z.toBitVec.smod 32)
  rw [hsmod] at hnat
  unfold distance
  omega

/-- that of the shift on unsigned words an unsigned one. -/
theorem Shift.toNat_umod (z : Int32) : (z.toBitVec % 32).toNat = distance z.toInt := by
  have hmod : (z.toBitVec % 32).toNat = z.toBitVec.toNat % 32 := BitVec.toNat_umod
  have hnat : (z.toBitVec.toNat : ℤ) = z.toInt % (2 ^ 32 : ℕ) := toNat_eq_toInt_emod z.toBitVec
  unfold distance
  omega

theorem Shift.toInt_fold (op : Shift) (y z : Int32) :
    (op.fold y z).toInt = op.onIntegers y.toInt z.toInt := by
  cases op with
  | left =>
    have hfold : (y <<< z).toInt = wrap (y.toBitVec.toNat <<< (z.toBitVec.smod 32).toNat : ℕ) :=
      BitVec.toInt_shiftLeft
    have hword : y.toInt = wrap y.toBitVec.toNat := y.toBitVec.toInt_eq_toNat_bmod
    rw [toNat_smod, Nat.shiftLeft_eq] at hfold
    rw [fold, hfold, onIntegers, hword, wrap_mul_left, Nat.cast_mul, Nat.cast_pow, Nat.cast_ofNat]
  | right =>
    have hfold : (y >>> z).toInt = y.toInt >>> (z.toBitVec.smod 32).toNat :=
      BitVec.toInt_sshiftRight'
    rw [toNat_smod, Int.shiftRight_eq_div_pow] at hfold
    rw [fold, hfold, onIntegers, Nat.cast_pow, Nat.cast_ofNat,
      Int.fdiv_eq_ediv_of_nonneg _ (by positivity)]
  | unsignedRight =>
    have hfold : (y.toUInt32 >>> z.toUInt32).toInt32.toInt =
        wrap (y.toBitVec.toNat >>> (z.toBitVec % 32).toNat : ℕ) := by
      rw [← BitVec.toNat_ushiftRight]
      exact BitVec.toInt_eq_toNat_bmod _
    have hword : (y.toBitVec.toNat : ℤ) = y.toInt % 2 ^ 32 := toNat_eq_toInt_emod y.toBitVec
    rw [toNat_umod, Nat.shiftRight_eq_div_pow] at hfold
    rw [fold, hfold, onIntegers, ← hword, Int.natCast_ediv, Nat.cast_pow, Nat.cast_ofNat,
      Int.fdiv_eq_ediv_of_nonneg _ (by positivity)]

theorem Bitwise.testBit_fold (op : Bitwise) (y z : Int32) {i : ℕ} (hi : i < 32) :
    (op.fold y z).toInt.testBit i = op.onBits (y.toInt.testBit i) (z.toInt.testBit i) := by
  simp only [← Int32.toInt_toBitVec, testBit_toInt _ hi]
  cases op with
  | or => exact BitVec.getLsbD_or
  | and => exact BitVec.getLsbD_and
  | xor => exact BitVec.getLsbD_xor

/-! ## Every operator -/

theorem Operator.fold_eq_error_iff (op : Operator) (y z : Int32) (fault : EvalFault) :
    op.fold y z = .error fault ↔ op.DividesByZero z ∧ fault = .divideByZero op y := by
  cases op with
  | arithmetic op => simp [fold, Arithmetic.fold_eq_error_iff, DividesByZero, and_assoc]
  | comparison op => simp [fold, DividesByZero]
  | shift op => simp [fold, DividesByZero]
  | bitwise op => simp [fold, DividesByZero]

theorem Operator.gives_of_fold {op : Operator} {y z c : Int32} (h : op.fold y z = .ok c) :
    op.Gives y.toInt z.toInt c.toInt := by
  cases op with
  | arithmetic op => exact Arithmetic.toInt_of_fold h
  | comparison op =>
    cases h
    rw [Comparison.holds_eq_onIntegers, Gives]
    split <;> rfl
  | shift op =>
    cases h
    exact op.toInt_fold y z
  | bitwise op =>
    cases h
    exact fun i hi => op.testBit_fold y z hi

theorem Operator.exists_fold {op : Operator} {y z : Int32} (h : ¬ op.DividesByZero z) :
    ∃ c, op.fold y z = .ok c := by
  cases hfold : op.fold y z with
  | ok c => exact ⟨c, rfl⟩
  | error fault => exact absurd ((op.fold_eq_error_iff y z fault).mp hfold).1 h

/-! ## Laws between the operators -/

/-- Quotient and remainder put the dividend together again, the remainder staying below the
divisor and on the dividend's side of zero. -/
theorem Arithmetic.onIntegers_div_rem (y z : Int32) (hz : z ≠ 0) :
    wrap (div.onIntegers y.toInt z.toInt * z.toInt + rem.onIntegers y.toInt z.toInt) = y.toInt ∧
      |rem.onIntegers y.toInt z.toInt| < |z.toInt| ∧
      (rem.onIntegers y.toInt z.toInt = 0 ∨
        (rem.onIntegers y.toInt z.toInt).sign = y.toInt.sign) := by
  have hrem : rem.onIntegers y.toInt z.toInt = y.toInt.tmod z.toInt := (Int.tmod_def _ _).symm
  have hz' : z.toInt ≠ 0 := fun h => hz (Int32.toInt_inj.mp h)
  refine ⟨?_, ?_, ?_⟩
  · calc wrap (wrap (y.toInt.tdiv z.toInt) * z.toInt + (y.toInt - z.toInt * y.toInt.tdiv z.toInt))
        = wrap (y.toInt.tdiv z.toInt * z.toInt + (y.toInt - z.toInt * y.toInt.tdiv z.toInt)) := by
          rw [← wrap_add_left, wrap_mul_left, wrap_add_left]
      _ = wrap y.toInt := by rw [mul_comm, add_sub_cancel]
      _ = y.toInt := wrap_toInt y
  · rw [hrem, Int.abs_eq_natAbs, Int.abs_eq_natAbs, Int.natAbs_tmod]
    exact_mod_cast Nat.mod_lt _ (Int.natAbs_pos.mpr hz')
  · rw [hrem, Int.sign_tmod, ← Int.dvd_iff_tmod_eq_zero]
    by_cases hdvd : z.toInt ∣ y.toInt
    · exact .inl hdvd
    · exact .inr (if_neg hdvd)

/-- A sum carries where both operands have a bit. -/
theorem or_add_and {w : ℕ} (x y : BitVec w) : (x ||| y) + (x &&& y) = x + y := by
  have hx : (x &&& ~~~y) + (x &&& y) = x := by
    rw [BitVec.add_eq_or_of_and_eq_zero] <;> ext i <;> grind
  have hor : (x &&& ~~~y) + y = x ||| y := by
    rw [BitVec.add_eq_or_of_and_eq_zero] <;> ext i <;> grind
  calc (x ||| y) + (x &&& y) = ((x &&& ~~~y) + (x &&& y)) + y := by
        rw [← hor, BitVec.add_assoc, BitVec.add_comm y, ← BitVec.add_assoc]
    _ = x + y := by rw [hx]

/-- Exactly one operand has a bit where either has it and not both. -/
theorem or_sub_and {w : ℕ} (x y : BitVec w) : (x ||| y) - (x &&& y) = x ^^^ y := by
  have hor : (x ^^^ y) + (x &&& y) = x ||| y := by
    rw [BitVec.add_eq_or_of_and_eq_zero] <;> ext i <;> grind
  rw [← hor, BitVec.add_sub_cancel]

theorem Bitwise.wrap_or_add_and (y z : Int32) :
    wrap ((or.fold y z).toInt + (and.fold y z).toInt) = wrap (y.toInt + z.toInt) := by
  have hwords : (y ||| z) + (y &&& z) = y + z :=
    Int32.toBitVec_inj.mp (or_add_and y.toBitVec z.toBitVec)
  calc wrap ((y ||| z).toInt + (y &&& z).toInt) = ((y ||| z) + (y &&& z)).toInt :=
        (Int32.toInt_add _ _).symm
    _ = (y + z).toInt := by rw [hwords]
    _ = wrap (y.toInt + z.toInt) := Int32.toInt_add y z

theorem Bitwise.toInt_xor (y z : Int32) :
    (xor.fold y z).toInt = wrap ((or.fold y z).toInt - (and.fold y z).toInt) := by
  have hwords : (y ||| z) - (y &&& z) = y ^^^ z :=
    Int32.toBitVec_inj.mp (or_sub_and y.toBitVec z.toBitVec)
  calc (y ^^^ z).toInt = ((y ||| z) - (y &&& z)).toInt := by rw [hwords]
    _ = wrap ((y ||| z).toInt - (y &&& z).toInt) := Int32.toInt_sub _ _

/-! ## Folding is word arithmetic -/

/-- Folding is at fault exactly when it divides by zero, and the fault names the operator
and the dividend; every other operation gives the word that the integers prescribe.
Quotients fit remainders, and the bitwise operators fit addition. -/
theorem Operator.fold_is_word_arithmetic (y z : Int32) :
    (∀ (op : Operator) (fault : EvalFault), op.fold y z = .error fault ↔
      op.DividesByZero z ∧ fault = .divideByZero op y) ∧
    (∀ op : Operator, ¬ op.DividesByZero z →
      ∃ c, op.fold y z = .ok c ∧ op.Gives y.toInt z.toInt c.toInt) ∧
    (z ≠ 0 → ∃ q r, (arithmetic .div).fold y z = .ok q ∧ (arithmetic .rem).fold y z = .ok r ∧
      wrap (q.toInt * z.toInt + r.toInt) = y.toInt ∧
      |r.toInt| < |z.toInt| ∧ (r.toInt = 0 ∨ r.toInt.sign = y.toInt.sign)) ∧
    ∃ o a x, (bitwise .or).fold y z = .ok o ∧ (bitwise .and).fold y z = .ok a ∧
      (bitwise .xor).fold y z = .ok x ∧
      wrap (o.toInt + a.toInt) = wrap (y.toInt + z.toInt) ∧ x.toInt = wrap (o.toInt - a.toInt) := by
  refine ⟨fun op fault => op.fold_eq_error_iff y z fault, fun op hop => ?_, fun hz => ?_, ?_⟩
  · obtain ⟨c, hc⟩ := exists_fold (y := y) hop
    exact ⟨c, hc, gives_of_fold hc⟩
  · have hnot (op : Operator) : ¬ op.DividesByZero z := fun h => hz h.2
    obtain ⟨q, hq⟩ := exists_fold (y := y) (hnot (arithmetic .div))
    obtain ⟨r, hr⟩ := exists_fold (y := y) (hnot (arithmetic .rem))
    have hquotient : q.toInt = Arithmetic.div.onIntegers y.toInt z.toInt := gives_of_fold hq
    have hremainder : r.toInt = Arithmetic.rem.onIntegers y.toInt z.toInt := gives_of_fold hr
    have hlaws := Arithmetic.onIntegers_div_rem y z hz
    rw [← hquotient, ← hremainder] at hlaws
    exact ⟨q, r, hq, hr, hlaws⟩
  · exact ⟨_, _, _, rfl, rfl, rfl, Bitwise.wrap_or_add_and y z, Bitwise.toInt_xor y z⟩

/-- The one quotient of words that is no word. -/
example : (Operator.arithmetic .div).fold Int32.minValue (-1) = .ok Int32.minValue := by decide

end ConstFlow
