import Mathlib.Logic.Function.Iterate
import MethodFlow.Proofs.ConcreteRun

/-!
A machine that runs methods. What it computes on words is fixed; calls, allocations, casts and
accesses to fields and elements are events, which a world answers as it likes.
-/

namespace MethodFlow

inductive Action
  | call (receiver : Receiver) (method : String)
  | new (ty : Ty)
  | newArray (elem : Ty)
  | cast (ty : Ty)
  | getField (name : String)
  | getStatic (owner name : String)
  | getElement
  | putField (name : String)
  | putStatic (owner name : String)
  | putElement

structure Event (ω : Type) where
  action : Action
  values : List (Datum ω)

/-- What a method runs in: data that are no words, the operators on them, and an answer to each
event, which may hang on all events before it; where there is no answer an exception is thrown.
Only divisions may fail. -/
structure World (ω : Type) where
  text : String → Datum ω
  null : Datum ω
  negate : ω → Datum ω
  operate : BinOp → Datum ω → Datum ω → Option (Datum ω)
  operate_isSome : ∀ op d d', op.isDivision = false → (operate op d d').isSome = true
  respond : List (Event ω) → Option (Datum ω)

/-- Why a run stops in the middle of a statement. -/
inductive Stop
  /-- A variable is read that has not been assigned. -/
  | unassigned
  /-- An exception is thrown. -/
  | thrown
  deriving DecidableEq

/-- A computation that goes on from the events so far, the last of them first. -/
abbrev Effect (ω α : Type) :=
  ExceptT Stop (StateM (List (Event ω))) α

variable {ω : Type} (w : World ω) (μ : Memory ω)

namespace World

def binary (op : BinOp) : Datum ω → Datum ω → Option (Datum ω)
  | .word x, .word y =>
    match Word.combine? op x y with
    | some z => some (.word z)
    | none => if op.isDivision then none else w.operate op (.word x) (.word y)
  | d, d' => w.operate op d d'

def negation : Datum ω → Datum ω
  | .word x => .word (-x)
  | .other x => w.negate x

end World

def orStop (s : Stop) : Option (Datum ω) → Effect ω (Datum ω)
  | some d => pure d
  | none => throw s

def read (v : Var) : Effect ω (Datum ω) :=
  orStop .unassigned (μ v)

/-- Adds an event and takes the world's answer. -/
def observe (a : Action) (values : List (Datum ω)) : Effect ω (Datum ω) := do
  let es ← get
  set (⟨a, values⟩ :: es)
  orStop .thrown (w.respond (⟨a, values⟩ :: es))

mutual

def eval : Expr → Effect ω (Datum ω)
  | .var v => read μ v
  | .int n => pure (.word (Word.ofInt n))
  | .str s => pure (w.text s)
  | .null => pure w.null
  | .bin op a b => do orStop .thrown (w.binary op (← eval a) (← eval b))
  | .neg e => do return w.negation (← eval e)
  | .new t => observe w (.new t) []
  | .newArray t n => do observe w (.newArray t) [← eval n]
  | .cast t e => do observe w (.cast t) [← eval e]
  | .field b f => do observe w (.getField f) [← eval b]
  | .static c f => observe w (.getStatic c f) []
  | .element b i => do observe w .getElement [← eval b, ← eval i]
  | .call r f args => do
    let objects ← r.vars.mapM (read μ)
    observe w (.call r f) (objects ++ (← evalAll args))

def evalAll : List Expr → Effect ω (List (Datum ω))
  | [] => pure []
  | e :: r => do return (← eval e) :: (← evalAll r)

end

/-- Writes the value of an expression to a place, whose parts are evaluated first. What is written
to a variable is given back. -/
def write (e : Expr) : Place → Effect ω (Option (Var × Datum ω))
  | .var v => do return some (v, ← eval w μ e)
  | .field b f => do
    let _ ← observe w (.putField f) [← eval w μ b, ← eval w μ e]
    return none
  | .static c f => do
    let _ ← observe w (.putStatic c f) [← eval w μ e]
    return none
  | .element b i => do
    let _ ← observe w .putElement [← eval w μ b, ← eval w μ i, ← eval w μ e]
    return none

/-- How a run ends: it returns, stops within a statement, or jumps where there is no statement. -/
inductive Ending (ω : Type)
  | returned (value : Option (Datum ω))
  | stopped (s : Stop)
  | lost

inductive Control (ω : Type)
  | running (index : Nat)
  | ended (e : Ending ω)

def jump : Target → Control ω
  | .stmt i => .running i
  | _ => .ended .lost

/-- A comparison that holds is 1. -/
def Datum.holds : Datum ω → Bool
  | .word x => x = 1
  | .other _ => false

/-- The target of the first case with the value of the selector, or else the default. -/
def Datum.choose (cases : List (Int × Target)) (default : Target) : Datum ω → Target
  | .word x => ((cases.find? fun c => c.1 = x.toInt).map Prod.snd).getD default
  | .other _ => default

/-- Executes statement `i`: where the run goes on, and what is written to a variable. -/
def execute (i : Nat) : Instr Target → Effect ω (Control ω × Option (Var × Datum ω))
  | .assign p e => do return (.running (i + 1), ← write w μ e p)
  | .call (some p) e => do return (.running (i + 1), ← write w μ e p)
  | .call none e => do
    let _ ← eval w μ e
    return (.running (i + 1), none)
  | .branch c t => do return (if (← eval w μ c).holds then jump t else .running (i + 1), none)
  | .goto t => return (jump t, none)
  | .switch v ks ts d => do return (jump ((← read μ v).choose (ks.zip ts) d), none)
  | .ret none => return (.ended (.returned none), none)
  | .ret (some e) => do return (.ended (.returned (some (← eval w μ e))), none)
  | .nop => return (.running (i + 1), none)

/-- The memory after a change. -/
def Memory.change : Option (Var × Datum ω) → Memory ω
  | some (v, d) => μ.set v d
  | none => μ

/-- Where a run stands; the events and the visited statements are listed from the last one back to
the first. -/
structure Machine (ω : Type) where
  control : Control ω
  memory : Memory ω
  events : List (Event ω)
  trail : List Nat

namespace Machine

/-- The machine after what has come of executing statement `i`. -/
def after (c : Machine ω) (i : Nat) :
    Except Stop (Control ω × Option (Var × Datum ω)) × List (Event ω) → Machine ω
  | (.ok (k, change), es) => ⟨k, c.memory.change change, es, i :: c.trail⟩
  | (.error stop, es) => ⟨.ended (.stopped stop), c.memory, es, i :: c.trail⟩

/-- One step of a run: a run that leaves the body at its end returns, and one that has ended stays
as it is. -/
def step (m : Method) (c : Machine ω) : Machine ω :=
  match c.control with
  | .ended _ => c
  | .running i =>
    match m.instr? i with
    | none => { c with control := .ended (.returned none) }
    | some s => c.after i (execute w c.memory i s c.events)

/-- A run starts with its parameters assigned. -/
def start (m : Method) (args : Var → Datum ω) : Machine ω :=
  ⟨.running 0, fun v => if v ∈ m.params then some (args v) else none, [], []⟩

/-- The run of a method after `k` steps. -/
def run (m : Method) (args : Var → Datum ω) (k : Nat) : Machine ω :=
  (step w m)^[k] (start m args)

/-- What can be seen of a run: where it stands or how it ended, and what it has done. -/
def seen (c : Machine ω) : Control ω × List (Event ω) × List Nat :=
  (c.control, c.events, c.trail)

variable {w} {m : Method} {c : Machine ω} {i : Nat}

theorem step_of_ended {e : Ending ω} (h : c.control = .ended e) : c.step w m = c := by
  unfold step
  rw [h]

theorem step_of_end (h : c.control = .running i) (hi : m.instr? i = none) :
    c.step w m = { c with control := .ended (.returned none) } := by
  unfold step
  rw [h]
  dsimp only
  rw [hi]

theorem step_of_instr {s : Instr Target} (h : c.control = .running i) (hi : m.instr? i = some s) :
    c.step w m = c.after i (execute w c.memory i s c.events) := by
  unfold step
  rw [h]
  dsimp only
  rw [hi]

theorem run_succ (m : Method) (args : Var → Datum ω) (k : Nat) :
    run w m args (k + 1) = (run w m args k).step w m :=
  Function.iterate_succ_apply' _ _ _

end Machine

section Evaluation

namespace Effect

variable {α β : Type} {es es' : List (Event ω)}

theorem bind_apply (x : Effect ω α) (f : α → Effect ω β) (es : List (Event ω)) :
    (x >>= f) es = match x es with
      | (.ok a, es') => f a es'
      | (.error s, es') => (.error s, es') := by
  simp only [bind, ExceptT.bind, ExceptT.mk, StateT.bind]
  cases h : x es with
  | mk r es' => cases r <;> rfl

theorem bind_eq_ok {x : Effect ω α} {f : α → Effect ω β} {b : β} :
    (x >>= f) es = (.ok b, es') ↔ ∃ a es₁, x es = (.ok a, es₁) ∧ f a es₁ = (.ok b, es') := by
  rw [bind_apply]
  cases h : x es with
  | mk r es₁ =>
    cases r with
    | error s =>
      constructor
      · intro h
        cases h
      · rintro ⟨_, _, h, _⟩
        cases h
    | ok a =>
      constructor
      · intro h
        exact ⟨a, es₁, rfl, h⟩
      · rintro ⟨_, _, h, hf⟩
        cases h
        exact hf

@[simp] theorem pure_eq_ok {a b : α} :
    (pure a : Effect ω α) es = (.ok b, es') ↔ a = b ∧ es = es' := by
  change (Except.ok a, es) = _ ↔ _
  simp

theorem bind_pure_eq_ok {x : Effect ω α} {f : α → β} {b : β} :
    (x >>= fun a => pure (f a)) es = (.ok b, es') ↔ ∃ a, x es = (.ok a, es') ∧ f a = b := by
  rw [bind_eq_ok]
  constructor
  · rintro ⟨a, _, hx, h⟩
    obtain ⟨hb, rfl⟩ := pure_eq_ok.mp h
    exact ⟨a, hx, hb⟩
  · rintro ⟨a, hx, hb⟩
    exact ⟨a, es', hx, pure_eq_ok.mpr ⟨hb, rfl⟩⟩

theorem orStop_eq_ok {s : Stop} {o : Option (Datum ω)} {d : Datum ω} :
    orStop s o es = (.ok d, es') ↔ o = some d ∧ es = es' := by
  cases o with
  | none =>
    change (Except.error s, es) = _ ↔ _
    simp
  | some x => simp [orStop]

end Effect

variable {w μ}

theorem Evaluates.of_open {e : Expr} (h : e.isOpen = true)
    (hr : ∀ a ∈ e.operands, ∃ d, Evaluates μ a d) (d : Datum ω) : Evaluates μ e d := by
  classical
  exact .anything h (fun a => if ha : ∃ d, Evaluates μ a d then ha.choose else d) (fun a ha => by
    rw [dif_pos (hr a ha)]
    exact (hr a ha).choose_spec) d

theorem Evaluates.of_operand {e a : Expr} (h : e.isOpen = true) (ho : e.operands = [a])
    (ha : ∃ d, Evaluates μ a d) (d : Datum ω) : Evaluates μ e d := by
  refine .of_open h (fun b hb => ?_) d
  rw [ho] at hb
  exact List.mem_singleton.mp hb ▸ ha

/-- What an operator gives is one of the values that it can evaluate to. -/
theorem World.binary_evaluates {op : BinOp} {a b : Expr} {d d' r : Datum ω}
    (ha : Evaluates μ a d) (hb : Evaluates μ b d') (h : w.binary op d d' = some r) :
    Evaluates μ (.bin op a b) r := by
  unfold World.binary at h
  split at h
  · split at h
    · rename_i hz
      cases h
      exact .words ha hb hz
    · rename_i hn
      split at h
      · cases h
      · rename_i hd
        have hfree := Word.isFree_of_combine?_eq_none hn (Bool.eq_false_iff.mpr hd)
        exact .mixed ha hb (Or.inl hfree) r
  · rename_i hne
    refine .mixed ha hb (Or.inr fun x y hxy => ?_) r
    exact hne x y hxy.1 hxy.2

mutual

/-- What the machine evaluates an expression to is one of the values that it can evaluate to. -/
theorem eval_evaluates : ∀ (e : Expr) {es es' : List (Event ω)} {d : Datum ω},
    eval w μ e es = (.ok d, es') → Evaluates μ e d
  | .var v, _, _, _, h => .var (Effect.orStop_eq_ok.mp h).1
  | .int n, _, _, _, h => by
    rw [eval] at h
    obtain ⟨rfl, _⟩ := Effect.pure_eq_ok.mp h
    exact .int n
  | .str _, _, _, d, _ => .of_open rfl (by simp [Expr.operands]) d
  | .null, _, _, d, _ => .of_open rfl (by simp [Expr.operands]) d
  | .new _, _, _, d, _ => .of_open rfl (by simp [Expr.operands]) d
  | .static _ _, _, _, d, _ => .of_open rfl (by simp [Expr.operands]) d
  | .bin op a b, _, _, _, h => by
    rw [eval] at h
    obtain ⟨x, _, hx, h⟩ := Effect.bind_eq_ok.mp h
    obtain ⟨y, _, hy, h⟩ := Effect.bind_eq_ok.mp h
    exact World.binary_evaluates (eval_evaluates a hx) (eval_evaluates b hy)
      (Effect.orStop_eq_ok.mp h).1
  | .neg e, _, _, d, h => by
    rw [eval] at h
    obtain ⟨x, _, hx, h⟩ := Effect.bind_eq_ok.mp h
    exact .of_operand rfl rfl ⟨x, eval_evaluates e hx⟩ d
  | .newArray _ e, _, _, d, h => by
    rw [eval] at h
    obtain ⟨x, _, hx, h⟩ := Effect.bind_eq_ok.mp h
    exact .of_operand rfl rfl ⟨x, eval_evaluates e hx⟩ d
  | .cast _ e, _, _, d, h => by
    rw [eval] at h
    obtain ⟨x, _, hx, h⟩ := Effect.bind_eq_ok.mp h
    exact .of_operand rfl rfl ⟨x, eval_evaluates e hx⟩ d
  | .field e _, _, _, d, h => by
    rw [eval] at h
    obtain ⟨x, _, hx, h⟩ := Effect.bind_eq_ok.mp h
    exact .of_operand rfl rfl ⟨x, eval_evaluates e hx⟩ d
  | .element b i, _, _, d, h => by
    rw [eval] at h
    obtain ⟨x, _, hx, h⟩ := Effect.bind_eq_ok.mp h
    obtain ⟨y, _, hy, h⟩ := Effect.bind_eq_ok.mp h
    exact .of_open rfl (by
      simpa [Expr.operands] using ⟨⟨x, eval_evaluates b hx⟩, ⟨y, eval_evaluates i hy⟩⟩) d
  | .call r _ args, _, _, d, h => by
    rw [eval] at h
    obtain ⟨xs, _, hxs, h⟩ := Effect.bind_eq_ok.mp h
    obtain ⟨ys, _, hys, h⟩ := Effect.bind_eq_ok.mp h
    refine .of_open rfl (fun a ha => ?_) d
    rcases List.mem_append.mp ha with ha | ha
    · cases r with
      | none => cases ha
      | object _ => cases ha
      | var v =>
        obtain rfl : a = .var v := by simpa [Receiver.vars] using ha
        obtain ⟨y, _, hy, _⟩ := Effect.bind_eq_ok.mp hxs
        exact ⟨y, .var (Effect.orStop_eq_ok.mp hy).1⟩
    · exact evalAll_evaluates args hys a ha

theorem evalAll_evaluates : ∀ (args : List Expr) {es es' : List (Event ω)} {ds : List (Datum ω)},
    evalAll w μ args es = (.ok ds, es') → ∀ a ∈ args, ∃ d, Evaluates μ a d
  | [], _, _, _, _, _, h => by cases h
  | e :: r, _, _, _, h, a, ha => by
    rw [evalAll] at h
    obtain ⟨x, _, hx, h⟩ := Effect.bind_eq_ok.mp h
    obtain ⟨xs, _, hxs, _⟩ := Effect.bind_eq_ok.mp h
    rcases List.mem_cons.mp ha with ha | ha
    · exact ha ▸ ⟨x, eval_evaluates e hx⟩
    · exact evalAll_evaluates r hxs a ha

end

end Evaluation

end MethodFlow
