import Mathlib.Data.Nat.Bitwise
import MethodFlow.Word32

/-!
Machine words of 32 bits and the operators on them. Arithmetic on whole numbers that is brought into
the range of a word afterwards gives what the words give, so constants and words never come apart.
-/

namespace MethodFlow

namespace Word32

section Bits

variable {w : Nat}

/-- Taking off the bits that two words share leaves those that the first has alone. -/
theorem xor_and_self (x y : BitVec w) : x ^^^ (x &&& y) = x &&& ~~~ y := by
  ext i hi
  simp only [BitVec.getElem_xor, BitVec.getElem_and, BitVec.getElem_not]
  cases x[i] <;> cases y[i] <;> rfl

theorem ofInt_flip (n : Int) : BitVec.ofInt w (flip n) = ~~~ BitVec.ofInt w n := by
  have hone : BitVec.ofInt w 1 = 1#w := BitVec.ofInt_natCast w 1
  rw [flip, Int.sub_eq_add_neg, BitVec.ofInt_add, BitVec.ofInt_neg, BitVec.ofInt_neg, hone,
    BitVec.not_eq_neg_add, BitVec.sub_eq_add_neg]

/-- The bits of whole numbers are put together as those of words of any width, so none of them is
left out. -/
theorem ofInt_both (a b : Int) :
    BitVec.ofInt w (both a b) = BitVec.ofInt w a &&& BitVec.ofInt w b := by
  cases a with
  | ofNat m =>
    cases b with
    | ofNat n => exact BitVec.ofNat_and
    | negSucc n =>
      rw [BitVec.ofInt_negSucc_eq_not_ofNat]
      exact BitVec.ofNat_xor.trans ((congrArg _ BitVec.ofNat_and).trans (xor_and_self _ _))
  | negSucc m =>
    rw [BitVec.ofInt_negSucc_eq_not_ofNat]
    cases b with
    | ofNat n =>
      rw [BitVec.and_comm]
      exact BitVec.ofNat_xor.trans ((congrArg _ BitVec.ofNat_and).trans (xor_and_self _ _))
    | negSucc n =>
      rw [both, BitVec.ofInt_negSucc_eq_not_ofNat, BitVec.ofInt_negSucc_eq_not_ofNat,
        BitVec.ofNat_or, BitVec.not_or]

theorem ofInt_either (a b : Int) :
    BitVec.ofInt w (either a b) = BitVec.ofInt w a ||| BitVec.ofInt w b := by
  rw [either, ofInt_flip, ofInt_both, ofInt_flip, ofInt_flip, BitVec.not_and, BitVec.not_not,
    BitVec.not_not]

theorem ofInt_differ (a b : Int) :
    BitVec.ofInt w (differ a b) = BitVec.ofInt w a ^^^ BitVec.ofInt w b := by
  rw [differ, ofInt_both, ofInt_either, ofInt_flip, ofInt_both]
  ext i hi
  simp only [BitVec.getElem_xor, BitVec.getElem_and, BitVec.getElem_not, BitVec.getElem_or]
  cases (BitVec.ofInt w a)[i] <;> cases (BitVec.ofInt w b)[i] <;> rfl

end Bits

/-- Keeping the low bits of a number is taking it modulo a power of two. -/
theorem both_mask (n : Int) (k : Nat) : both n (2 ^ k - 1 : Nat) = n % (2 ^ k : Nat) := by
  cases n with
  | ofNat m => exact congrArg Int.ofNat (Nat.and_two_pow_sub_one_eq_mod m k)
  | negSucc m =>
    have hlt : m % 2 ^ k < 2 ^ k := Nat.mod_lt m (Nat.two_pow_pos k)
    -- the bits of a negative number are those of `m` turned over, up to the mask
    have hbits : (2 ^ k - 1) ^^^ ((2 ^ k - 1) &&& m) = 2 ^ k - (m % 2 ^ k + 1) := by
      apply Nat.eq_of_testBit_eq
      intro i
      rw [Nat.testBit_two_pow_sub_succ hlt, Nat.testBit_xor, Nat.testBit_and,
        Nat.testBit_two_pow_sub_one, Nat.testBit_mod_two_pow]
      cases decide (i < k) <;> cases m.testBit i <;> rfl
    have hboth : both (.negSucc m) (2 ^ k - 1 : Nat) = (2 ^ k - (m % 2 ^ k + 1) : Nat) :=
      congrArg Int.ofNat hbits
    rw [hboth, Int.negSucc_emod m (Int.natCast_pos.mpr (Nat.two_pow_pos k))]
    omega

/-- The highest of some bits is set in the upper half of the numbers that they denote. -/
theorem both_highest {n k : Nat} (h : n < 2 ^ (k + 1)) :
    both n (2 ^ k : Nat) ≠ 0 ↔ 2 ^ k ≤ n := by
  have hboth : both n (2 ^ k : Nat) = ((n.testBit k).toNat * 2 ^ k : Nat) :=
    congrArg Int.ofNat (Nat.and_two_pow n k)
  rw [hboth]
  cases hbit : n.testBit k with
  | true =>
    have hpos := Nat.two_pow_pos k
    refine iff_of_true (fun hzero => ?_) (Nat.ge_two_pow_of_testBit hbit)
    rw [Bool.toNat_true] at hzero
    omega
  | false =>
    refine iff_of_false (not_not_intro ?_) fun hle => ?_
    · rw [Bool.toNat_false, Nat.zero_mul]
      rfl
    · rw [Nat.testBit_of_two_pow_le_and_two_pow_add_one_gt hle h] at hbit
      cases hbit

theorem wrap_eq_bmod (n : Int) : wrap n = n.bmod (Nat.pow 2 32) := by
  have hlow : both n 0xFFFFFFFF = n % 2 ^ 32 := both_mask n 32
  obtain ⟨l, hl⟩ := Int.eq_ofNat_of_zero_le (Int.emod_nonneg n (by decide : (2 ^ 32 : Int) ≠ 0))
  have hlt : l < 2 ^ 32 := by omega
  have hsign : both l 0x80000000 ≠ 0 ↔ 2 ^ 31 ≤ l := both_highest hlt
  have hsize : ((Nat.pow 2 32 : Nat) : Int) = 2 ^ 32 := rfl
  rw [wrap, hlow, hl]
  simp only [hsign, Int.bmod_def, hsize, hl]
  split <;> split <;> omega

theorem quotient_eq_tdiv (a b : Int) : quotient a b = a.tdiv b := by
  have hpos (n : Nat) : ¬ Int.ofNat n < 0 := Int.not_lt.mpr (Int.natCast_nonneg n)
  cases a with
  | ofNat m =>
    cases b with
    | ofNat n =>
      rw [quotient, if_pos (propext (iff_of_false (hpos m) (hpos n)))]
      rfl
    | negSucc n =>
      rw [quotient, if_neg fun h => hpos m (h.mpr (Int.negSucc_lt_zero n))]
      rfl
  | negSucc m =>
    cases b with
    | ofNat n =>
      rw [quotient, if_neg fun h => hpos n (h.mp (Int.negSucc_lt_zero m))]
      rfl
    | negSucc n =>
      rw [quotient, if_pos (propext (iff_of_true (Int.negSucc_lt_zero m) (Int.negSucc_lt_zero n)))]
      rfl

theorem remainder_eq_tmod (a b : Int) : remainder a b = a.tmod b := by
  rw [remainder, quotient_eq_tdiv, Int.tmod_def, Int.mul_comm]

theorem distance_eq (n : Int) : distance n = (n % 32).toNat :=
  congrArg Int.toNat (both_mask n 5)

/-- Where a zero divides, nothing is known. -/
theorem apply_zero {op : BinOp} (h : op.isDivision = true) (a : Int) : apply op a 0 = .undef := by
  cases op <;> cases h <;> rfl

/-- Elsewhere the result of an operator on integers is brought into the range of a word. -/
theorem apply_operator {op : BinOp} {f : Int → Int → Int} (hf : operator? op = some f) {a b : Int}
    (h : ¬ (b = 0 ∧ op.isDivision = true)) : apply op a b = .const (wrap (f a b)) := by
  rw [apply, hf]
  exact if_neg h

end Word32

abbrev Word := BitVec 32

/-- The numbers that a signed word can hold: -2^31, ..., 2^31 - 1. -/
def Word32.Fits (n : Int) : Prop :=
  -0x80000000 ≤ n ∧ n < 0x80000000

instance (n : Int) : Decidable (Word32.Fits n) :=
  inferInstanceAs (Decidable (_ ∧ _))

namespace BinOp

/-- The operators that constant propagation has no rule for. -/
def isFree : BinOp → Bool
  | ushr | cmp | cmpl | cmpg => true
  | _ => false

end BinOp

namespace Word

/-- A comparison that holds is 1, one that fails is 0. -/
def ofBool (b : Bool) : Word :=
  if b then 1 else 0

/-- How far a word says to shift: its low five bits. -/
def distance (y : Word) : Nat :=
  y.toNat % 32

/-- The operators on words. A zero does not divide, and the operators that compare numbers of other
types give nothing. -/
def combine? (op : BinOp) (x y : Word) : Option Word :=
  match op with
  | .add => some (x + y)
  | .sub => some (x - y)
  | .mul => some (x * y)
  | .div => if y = 0 then none else some (x.sdiv y)
  | .rem => if y = 0 then none else some (x.srem y)
  | .shl => some (x <<< distance y)
  | .shr => some (x.sshiftRight (distance y))
  | .ushr => some (x >>> distance y)
  | .and => some (x &&& y)
  | .or => some (x ||| y)
  | .xor => some (x ^^^ y)
  | .eq => some (ofBool (x = y))
  | .ne => some (ofBool (x ≠ y))
  | .lt => some (ofBool (x.slt y))
  | .gt => some (ofBool (y.slt x))
  | .le => some (ofBool (x.sle y))
  | .ge => some (ofBool (y.sle x))
  | .cmp | .cmpl | .cmpg => none

/-- The word that a number denotes. -/
def ofInt (n : Int) : Word :=
  BitVec.ofInt 32 n

theorem toInt_ofInt (n : Int) : (ofInt n).toInt = Word32.wrap n :=
  (BitVec.toInt_ofInt n).trans (Word32.wrap_eq_bmod n).symm

theorem fits_toInt (x : Word) : Word32.Fits x.toInt :=
  ⟨BitVec.le_toInt x, BitVec.toInt_lt⟩

theorem wrap_toInt (x : Word) : Word32.wrap x.toInt = x.toInt := by
  rw [← toInt_ofInt, ofInt, BitVec.ofInt_toInt]

theorem toInt_eq_zero_iff {x : Word} : x.toInt = 0 ↔ x = 0 := by
  rw [← BitVec.toInt_inj]
  rfl

theorem toInt_eq_one_iff {x : Word} : x.toInt = 1 ↔ x = 1 := by
  rw [← BitVec.toInt_inj]
  rfl

/-- Reading a number as a word changes it exactly when no word can hold it. -/
theorem wrap_eq_self_iff {n : Int} : Word32.wrap n = n ↔ Word32.Fits n := by
  constructor
  · intro h
    rw [← h, ← toInt_ofInt]
    exact fits_toInt (ofInt n)
  · rintro ⟨hl, hu⟩
    have hsize : ((Nat.pow 2 32 : Nat) : Int) = 2 ^ 32 := by decide
    rw [Word32.wrap_eq_bmod]
    apply Int.bmod_eq_of_le <;> omega

theorem distance_toInt (y : Word) : Word32.distance y.toInt = distance y := by
  rw [Word32.distance_eq, distance]
  have h := BitVec.toInt_eq_toNat_cond y
  split at h <;> omega

theorem toInt_ofBool (b : Bool) : (ofBool b).toInt = Word32.wrap (Word32.truth b) := by
  cases b <;> rfl

theorem toInt_shiftLeft (x : Word) (k : Nat) :
    (x <<< k).toInt = Word32.wrap (x.toInt <<< k) := by
  rw [BitVec.toInt_shiftLeft, Nat.shiftLeft_eq, Int.natCast_mul, Int.shiftLeft_eq',
    BitVec.toInt_eq_toNat_bmod, Word32.wrap_eq_bmod]
  exact Int.bmod_mul_bmod.symm

theorem ofInt_sub (a b : Int) : ofInt (a - b) = ofInt a - ofInt b := by
  simp only [ofInt, Int.sub_eq_add_neg, BitVec.ofInt_add, BitVec.ofInt_neg, BitVec.sub_eq_add_neg]

/-- An operator on whole numbers whose low bits are those of an operator on words. -/
theorem wrap_bits {f : Int → Int → Int} {g : Word → Word → Word}
    (h : ∀ a b, ofInt (f a b) = g (ofInt a) (ofInt b)) (x y : Word) :
    Word32.wrap (f x.toInt y.toInt) = (g x y).toInt := by
  rw [← toInt_ofInt, h, ofInt, ofInt, BitVec.ofInt_toInt, BitVec.ofInt_toInt]

/-- What an operator on numbers gives, brought into the range of a word, is its result on words. -/
theorem wrap_operator {op : BinOp} {f : Int → Int → Int} (hf : Word32.operator? op = some f)
    {x y z : Word} (hz : combine? op x y = some z) :
    Word32.wrap (f x.toInt y.toInt) = z.toInt := by
  cases op <;> cases hf
  -- low bits do not determine quotients, so division goes by signed values
  case div =>
    obtain ⟨-, hsome⟩ := Option.ite_none_left_eq_some.mp hz
    cases hsome
    rw [Word32.quotient_eq_tdiv, Word32.wrap_eq_bmod]
    exact (BitVec.toInt_sdiv x y).symm
  case rem =>
    obtain ⟨-, hsome⟩ := Option.ite_none_left_eq_some.mp hz
    cases hsome
    rw [Word32.remainder_eq_tmod, ← BitVec.toInt_srem, wrap_toInt]
  all_goals cases hz
  case add => exact wrap_bits (fun a b => BitVec.ofInt_add a b) x y
  case sub => exact wrap_bits ofInt_sub x y
  case mul => exact wrap_bits (fun a b => BitVec.ofInt_mul a b) x y
  case and => exact wrap_bits Word32.ofInt_both x y
  case or => exact wrap_bits Word32.ofInt_either x y
  case xor => exact wrap_bits Word32.ofInt_differ x y
  case shl =>
    show Word32.wrap (x.toInt <<< Word32.distance y.toInt) = _
    rw [distance_toInt, toInt_shiftLeft]
  case shr =>
    show Word32.wrap (x.toInt >>> Word32.distance y.toInt) = _
    rw [distance_toInt, ← BitVec.toInt_sshiftRight, wrap_toInt]
  case eq => simp only [toInt_ofBool, BitVec.toInt_inj]
  case ne => simp only [toInt_ofBool, ne_eq, BitVec.toInt_inj]
  case lt => rw [toInt_ofBool, BitVec.slt_eq_decide]
  case gt => rw [toInt_ofBool, BitVec.slt_eq_decide]
  case le => rw [toInt_ofBool, BitVec.sle_eq_decide]
  case ge => rw [toInt_ofBool, BitVec.sle_eq_decide]

theorem combine?_zero {op : BinOp} (h : op.isDivision = true) (x : Word) :
    combine? op x 0 = none := by
  cases op <;> cases h <;> rfl

/-- Where an operator on words gives nothing and does not divide, there is no rule for it. -/
theorem isFree_of_combine?_eq_none {op : BinOp} {x y : Word} (h : combine? op x y = none)
    (hd : op.isDivision = false) : op.isFree = true := by
  cases op <;> first | rfl | cases h | cases hd

/-- Where constant propagation has no rule for an operator, it gives up. -/
theorem apply_free {op : BinOp} (h : op.isFree = true) (a b : Int) :
    Word32.apply op a b = .nac := by
  cases op <;> cases h <;> rfl

/-- The constant that stands for an operator on constants is its result on words. -/
theorem apply_toInt {op : BinOp} (h : op.isFree = false) {x y z : Word}
    (hz : combine? op x y = some z) : Word32.apply op x.toInt y.toInt = .const z.toInt := by
  obtain ⟨f, hf⟩ : ∃ f, Word32.operator? op = some f := by
    cases op <;> first | exact ⟨_, rfl⟩ | cases h
  have hdivides : ¬ (y.toInt = 0 ∧ op.isDivision = true) := fun ⟨hzero, hd⟩ => by
    rw [toInt_eq_zero_iff.mp hzero, combine?_zero hd] at hz
    cases hz
  rw [Word32.apply_operator hf hdivides, wrap_operator hf hz]

/-- About an operator on constants that gives no word nothing is known: a zero divides. -/
theorem apply_eq_undef {op : BinOp} (h : op.isFree = false) {x y : Word}
    (hn : combine? op x y = none) : Word32.apply op x.toInt y.toInt = .undef := by
  have hd : op.isDivision = true := by
    by_contra hd
    rw [isFree_of_combine?_eq_none hn (Bool.eq_false_iff.mpr hd)] at h
    cases h
  have hzero : y = 0 := by
    by_contra hy
    cases op <;> cases hd <;> cases (if_neg hy).symm.trans hn
  rw [hzero]
  exact Word32.apply_zero hd x.toInt

end Word

end MethodFlow
