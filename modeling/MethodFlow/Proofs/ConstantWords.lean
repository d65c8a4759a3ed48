import MethodFlow.ConstProp
import MethodFlow.Proofs.Words

/-!
Constant propagation computes as a machine with words of 32 bits does: what it knows about an
expression is what an evaluation on words gives, operator by operator.
-/

namespace MethodFlow

/-- What is known about a word: nothing yet, which word it is, or that it may vary. -/
inductive KnownWord
  | undef
  | word (x : Word)
  | nac
  deriving DecidableEq

namespace KnownWord

/-- What is known about the number that a word stands for. -/
def value : KnownWord → Value
  | undef => .undef
  | word x => .const x.toInt
  | nac => .nac

/-- What is known about the word that a number denotes. -/
def ofValue : Value → KnownWord
  | .undef => undef
  | .const n => word (Word.ofInt n)
  | .nac => nac

/-- An operator on two known words gives a word, and nothing when a zero divides. Where an operand
is no known word, or there is no rule for the operator, the result may vary. -/
def combine (op : BinOp) : KnownWord → KnownWord → KnownWord
  | word x, word y => if op.isFree then nac else (Word.combine? op x y).elim undef word
  | _, _ => nac

/-- Evaluates an expression on words, from what is known about its variables. -/
def ofExpr (known : Var → KnownWord) : Expr → KnownWord
  | .var v => if v.holdsInt then known v else nac
  | .int n => word (Word.ofInt n)
  | .bin op a b => combine op (ofExpr known a) (ofExpr known b)
  | _ => nac

theorem value_ofValue {x : Value} (h : ∀ n, x = .const n → Word32.Fits n) :
    (ofValue x).value = x := by
  cases x with
  | undef => rfl
  | const n => rw [ofValue, value, Word.toInt_ofInt, Word.wrap_eq_self_iff.mpr (h n rfl)]
  | nac => rfl

theorem fits_of_value {x : KnownWord} {n : Int} (h : x.value = .const n) : Word32.Fits n := by
  cases x with
  | word x =>
    cases h
    exact Word.fits_toInt x
  | _ => cases h

/-- An operator on two words, and on the numbers that they stand for. -/
theorem value_combine (op : BinOp) (x y : Word) :
    (combine op (word x) (word y)).value = Word32.apply op x.toInt y.toInt := by
  rw [combine]
  cases hfree : op.isFree with
  | true => rw [if_pos rfl, value, Word.apply_free hfree]
  | false =>
    rw [if_neg Bool.false_ne_true]
    cases hz : Word.combine? op x y with
    | some z => rw [Option.elim_some, value, Word.apply_toInt hfree hz]
    | none => rw [Option.elim_none, value, Word.apply_eq_undef hfree hz]

end KnownWord

namespace ConstProp

open KnownWord

variable {f : ConstMap}

/-- What is known about an operation when words are known about its operands. -/
theorem evaluate_bin_eq_value {op : BinOp} {a b : Expr} {x y : KnownWord}
    (ha : evaluate f a = x.value) (hb : evaluate f b = y.value) :
    evaluate f (.bin op a b) = (combine op x y).value := by
  rw [evaluate, ha, hb]
  cases x with
  | word x =>
    cases y with
    | word y => exact (value_combine op x y).symm
    | _ => rfl
  | _ => cases y <;> rfl

theorem evaluate_eq_value {known : Var → KnownWord} (h : ∀ v, f.get v = (known v).value) :
    ∀ e, evaluate f e = (ofExpr known e).value
  | .var v => by
    rw [evaluate, ofExpr]
    split
    · exact h v
    · rfl
  | .int n => by rw [evaluate, ofExpr, value, Word.toInt_ofInt]
  | .bin op a b => evaluate_bin_eq_value (evaluate_eq_value h a) (evaluate_eq_value h b)
  | .str _ | .null | .neg _ | .new _ | .newArray _ _ | .cast _ _ | .field _ _ | .static _ _
  | .element _ _ | .call _ _ _ => rfl

/-- When the constants of variables are numbers that words can hold, so are those of expressions,
and of every expression there is known what the evaluation on words gives. -/
theorem evaluate_eq_words (hf : ∀ v n, f.get v = .const n → Word32.Fits n) (e : Expr) :
    evaluate f e = (ofExpr (fun v => ofValue (f.get v)) e).value ∧
      ∀ n, evaluate f e = .const n → Word32.Fits n := by
  have h : evaluate f e = (ofExpr (fun v => ofValue (f.get v)) e).value :=
    evaluate_eq_value (fun v => (value_ofValue (hf v)).symm) e
  exact ⟨h, fun n hn => fits_of_value (h.symm.trans hn)⟩

/-- The least number divided by -1 is itself, without a remainder. -/
example : combine .div (word (.ofInt (-2 ^ 31))) (word (.ofInt (-1))) = word (.ofInt (-2 ^ 31)) ∧
    combine .rem (word (.ofInt (-2 ^ 31))) (word (.ofInt (-1))) = word 0 := by decide

/-- What is known when `x` is the least number of a word and `y` is -1. -/
def extremes : ConstMap :=
  .ofList [(⟨"x", .prim .int⟩, .const (-0x80000000)), (⟨"y", .prim .int⟩, .const (-1))]

/-- The quotient of both, shifted by a distance and added to a literal that are too large. -/
def shiftedQuotient : Expr :=
  .bin .add (.bin .shr (.bin .div (.var ⟨"x", .prim .int⟩) (.var ⟨"y", .prim .int⟩)) (.int 33))
    (.int 0xFFFFFFFF)

theorem evaluate_eq_words_extremes : (∀ v n, extremes.get v = .const n → Word32.Fits n) ∧
    (ofExpr (fun v => ofValue (extremes.get v)) shiftedQuotient).value = .const (-1073741825) ∧
    Word32.Fits (-1073741825) := by
  have hf : ∀ v n, extremes.get v = .const n → Word32.Fits n := by
    intro v n h
    simp only [extremes, ConstMap.ofList, List.foldl_cons, List.foldl_nil, ConstMap.get_set,
      ConstMap.get_empty] at h
    split at h
    · cases h
      decide
    · split at h
      · cases h
        decide
      · cases h
  obtain ⟨hvalue, hfits⟩ := evaluate_eq_words hf shiftedQuotient
  have hconst : evaluate extremes shiftedQuotient = .const (-1073741825) := by decide
  exact ⟨hf, hvalue.symm.trans hconst, hfits _ hconst⟩

end ConstProp

end MethodFlow
