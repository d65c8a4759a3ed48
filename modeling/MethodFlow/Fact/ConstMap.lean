import MethodFlow.OrderedMap
import MethodFlow.Expr
import MethodFlow.Fact.Basic
import MethodFlow.Value

/-!
Facts of constant propagation: what is known about each variable. The view of a fact is `get`,
and a variable that is not listed is one about which nothing is known.
-/

namespace MethodFlow

/-- A map from variables to what is known about them, which lists only what is known. -/
structure ConstMap where
  map : OrderedMap Var Value
  known : ∀ v, map.find? v ≠ some .undef

namespace ConstMap

def empty : ConstMap := ⟨∅, by simp⟩

instance : EmptyCollection ConstMap := ⟨empty⟩

/-- What a fact lists for a variable. -/
def find? (f : ConstMap) (v : Var) : Option Value :=
  f.map.find? v

def get (f : ConstMap) (v : Var) : Value :=
  (f.find? v).getD .undef

def contains (f : ConstMap) (v : Var) : Bool :=
  f.map.contains v

def remove (f : ConstMap) (v : Var) : ConstMap :=
  ⟨f.map.erase v, fun w => by
    rw [OrderedMap.find?_erase]
    split
    · simp
    · exact f.known w⟩

/-- Records what is known about a variable; a variable about which nothing is known is removed. -/
def set (f : ConstMap) (v : Var) (x : Value) : ConstMap :=
  if h : x = .undef then f.remove v
  else ⟨f.map.insert v x, fun w => by
    rw [OrderedMap.find?_insert]
    split
    · simpa using h
    · exact f.known w⟩

/-- `set`, and whether it changed the fact. -/
def update (f : ConstMap) (v : Var) (x : Value) : ConstMap × Bool :=
  (f.set v x, f.get v != x)

/-- The fact that results from recording pairs one after the other. -/
def ofList (es : List (Var × Value)) : ConstMap :=
  es.foldl (fun f e => f.set e.1 e.2) ∅

/-- The fact that results from recording the entries of a map in their order. -/
def ofMap (m : OrderedMap Var Value) : ConstMap :=
  ofList m.entries

/-- Meets everything that `source` lists into `target`. -/
def merge (source target : ConstMap) : ConstMap :=
  source.map.entries.foldl (fun f e => f.set e.1 (e.2.meet (f.get e.1))) target

def same (a b : ConstMap) : Bool :=
  a.map.same b.map

def render (f : ConstMap) : Except Text.Overlong String := do
  let entries ← f.map.entries.mapM fun e => return e.1.name ++ "=" ++ (← e.2.render)
  return "\x7b" ++ ", ".intercalate entries ++ "\x7d"

instance : Fact ConstMap := ⟨same, render⟩

@[simp] theorem get_empty (v : Var) : (∅ : ConstMap).get v = .undef := rfl

@[simp] theorem get_remove (f : ConstMap) (v w : Var) :
    (f.remove v).get w = if v = w then .undef else f.get w := by
  simp only [get, find?, remove, OrderedMap.find?_erase]
  split <;> rfl

@[simp] theorem get_set (f : ConstMap) (v w : Var) (x : Value) :
    (f.set v x).get w = if v = w then x else f.get w := by
  unfold set
  split
  · rename_i h
    simp [h]
  · simp only [get, find?, OrderedMap.find?_insert]
    split <;> rfl

/-- A listed variable is one about which something is known. -/
theorem find?_eq (f : ConstMap) (v : Var) :
    f.find? v = if f.get v = .undef then none else some (f.get v) := by
  have h := f.known v
  unfold get find?
  cases hv : f.map.find? v with
  | none => simp
  | some x =>
    rw [hv] at h
    have : ¬ x = .undef := fun hx => h (by rw [hx])
    simp [this]

/-- Two facts are the same exactly when the same is known about every variable. -/
theorem same_iff {a b : ConstMap} : a.same b = true ↔ ∀ v, a.get v = b.get v := by
  rw [same, OrderedMap.same_iff]
  constructor
  · intro h v
    rw [get, get, find?, find?, h]
  · intro h v
    rw [← find?, ← find?, find?_eq, find?_eq, h]

end ConstMap

end MethodFlow
