import MethodFlow.Proofs.JoinProblem

/-!
Facts that are kept in registers and changed there. A register names a cell; an operation writes
over the cell of its register or gives the register a new cell. No two registers ever name one cell,
so what is done to a register is not seen through another one, and what an operation answers about a
change is what a comparison of the facts before and after it would say.
-/

namespace MethodFlow

theorem ConstMap.same_set {f : ConstMap} {v : Var} {x : Value} :
    (f.set v x).same f = true ↔ f.get v = x := by
  rw [same_iff]
  constructor
  · intro h
    have hv := h v
    rw [get_set, if_pos rfl] at hv
    exact hv.symm
  · rintro rfl w
    rw [get_set]
    split
    · rename_i hw
      rw [hw]
    · rfl

namespace VarSet

variable {s t : VarSet} {v : Var}

theorem same_add : (s.add v).same s = true ↔ v ∈ s := by
  simp only [same_iff, mem_add, or_iff_right_iff_imp]
  exact forall_eq

theorem same_remove : (s.remove v).same s = true ↔ v ∉ s := by
  simp only [same_iff, mem_remove, and_iff_left_iff_imp]
  exact ⟨fun h hv => h v hv rfl, fun h w hw he => h (he ▸ hw)⟩

theorem same_union : (s.union t).same s = true ↔ ∀ v ∈ t, v ∈ s := by
  simp only [same_iff, mem_union, or_iff_left_iff_imp]

end VarSet

namespace Registers

/-- A fact of either kind. -/
inductive AnyFact
  | map (f : ConstMap)
  | set (s : VarSet)

inductive Answer
  | done
  /-- Whether the register now holds another fact. -/
  | changed (c : Bool)
  /-- What was listed for a variable that was taken out. -/
  | taken (x : Option Value)
  /-- A register holds no fact, or one of the other kind. -/
  | failed

namespace AnyFact

/-- Facts of different kinds are never the same. -/
def same : AnyFact → AnyFact → Bool
  | map f, map g => f.same g
  | set s, set t => s.same t
  | _, _ => false

def update (v : Var) (x : Value) : AnyFact → Option (AnyFact × Answer)
  | map f => some (map (f.update v x).1, .changed (f.update v x).2)
  | set _ => none

def add (v : Var) : AnyFact → Option (AnyFact × Answer)
  | map _ => none
  | set s => some (set (s.insert v).1, .changed (s.insert v).2)

def remove (v : Var) : AnyFact → Option (AnyFact × Answer)
  | map f => some (map (f.remove v), .taken (f.find? v))
  | set s => some (set (s.erase v).1, .changed (s.erase v).2)

def meetInto : AnyFact → AnyFact → Option (AnyFact × Answer)
  | map source, map target => some (map (source.merge target), .done)
  | _, _ => none

def unionInto : AnyFact → AnyFact → Option (AnyFact × Answer)
  | set source, set target =>
    some (set (target.absorb source).1, .changed (target.absorb source).2)
  | _, _ => none

def writeOver : AnyFact → AnyFact → Option (AnyFact × Answer)
  | map new, map old =>
    some (map (Fact.overwrite old new).1, .changed (Fact.overwrite old new).2)
  | set new, set old =>
    some (set (Fact.overwrite old new).1, .changed (Fact.overwrite old new).2)
  | _, _ => none

end AnyFact

/-- What can be done with registers; the first register of each is the one that it changes. -/
inductive Operation
  | newMap (r : String) (pairs : List (Var × Value))
  | newSet (r : String) (elems : List Var)
  | update (r : String) (v : Var) (x : Value)
  | add (r : String) (v : Var)
  | remove (r : String) (v : Var)
  | meetInto (r source : String)
  | union (r source : String)
  | copy (r source : String)
  | copyFrom (r source : String)

def Operation.register : Operation → String
  | newMap r _ | newSet r _ | update r _ _ | add r _ | remove r _ | meetInto r _ | union r _
  | copy r _ | copyFrom r _ => r

end Registers

/-- The cells that were ever made, and which of them each register names. -/
structure Registers where
  cells : List Registers.AnyFact
  place : String → Option Nat

namespace Registers

def find? (s : Registers) (r : String) : Option AnyFact :=
  (s.place r).bind fun i => s.cells[i]?

/-- Gives a register a new cell. -/
def create (s : Registers) (r : String) (x : AnyFact) : Registers :=
  ⟨s.cells ++ [x], fun q => if q = r then some s.cells.length else s.place q⟩

/-- Writes over the cell of a register, for every register that names it. -/
def write (s : Registers) (r : String) (x : AnyFact) : Registers :=
  { s with cells := (s.place r).elim s.cells fun i => s.cells.set i x }

def reading (s : Registers) (r : String) (k : AnyFact → Registers × Answer) : Registers × Answer :=
  (s.find? r).elim (s, .failed) k

/-- Changes the fact of a register where it is. -/
def change (s : Registers) (r : String) (g : AnyFact → Option (AnyFact × Answer)) :
    Registers × Answer :=
  match (s.find? r).bind g with
  | some (x, a) => (s.write r x, a)
  | none => (s, .failed)

/-- Puts a new cell into the place of that of a register, if its fact changes. -/
def replace (s : Registers) (r : String) (g : AnyFact → Option (AnyFact × Answer)) :
    Registers × Answer :=
  match (s.find? r).bind g with
  | some (x, .changed true) => (s.create r x, .changed true)
  | some (_, a) => (s, a)
  | none => (s, .failed)

def perform (s : Registers) : Operation → Registers × Answer
  | .newMap r pairs => (s.create r (.map (.ofMap (.ofList pairs))), .done)
  | .newSet r elems => (s.create r (.set (.ofList elems)), .done)
  | .update r v x => s.change r (AnyFact.update v x)
  | .add r v => s.change r (AnyFact.add v)
  | .remove r v => s.change r (AnyFact.remove v)
  | .meetInto r source => s.reading source fun x => s.change r x.meetInto
  | .union r source => s.reading source fun x => s.change r x.unionInto
  | .copy r source => s.reading source fun x => (s.create r x, .done)
  | .copyFrom r source => s.reading source fun x => s.replace r x.writeOver

def performAll (s : Registers) (ops : List Operation) : Registers :=
  ops.foldl (fun s op => (s.perform op).1) s

/-- The registers after some operations, of which none was there before. -/
def after (ops : List Operation) : Registers :=
  performAll ⟨[], fun _ => none⟩ ops

/-- Each register has a cell of its own. -/
structure Separate (s : Registers) : Prop where
  inside : ∀ {r i}, s.place r = some i → i < s.cells.length
  apart : ∀ {q r i}, s.place q = some i → s.place r = some i → q = r

/-- What an operation can do to the cells and names: nothing, or a new cell for its register, or
another fact in the cell of its register. -/
inductive Moves (s : Registers) (r : String) : Registers → Prop
  | kept : Moves s r s
  | created (x : AnyFact) : Moves s r (s.create r x)
  | written (x : AnyFact) : Moves s r (s.write r x)

variable {s s' : Registers} {q r : String} {x y : AnyFact} {g : AnyFact → Option (AnyFact × Answer)}

theorem find?_eq_some : s.find? r = some x ↔ ∃ i, s.place r = some i ∧ s.cells[i]? = some x :=
  Option.bind_eq_some_iff

theorem find?_create (hs : s.Separate) :
    (s.create r x).find? q = if q = r then some x else s.find? q := by
  unfold find? create
  by_cases hq : q = r
  · simp [hq]
  · simp only [hq, if_false]
    cases hi : s.place q with
    | none => rfl
    | some i => exact List.getElem?_append_left (hs.inside hi)

theorem find?_write_self (hs : s.Separate) (hr : s.find? r = some y) :
    (s.write r x).find? r = some x := by
  obtain ⟨i, hi, _⟩ := find?_eq_some.mp hr
  simp [find?, write, hi, hs.inside hi]

theorem find?_write_of_ne (hs : s.Separate) (hq : q ≠ r) : (s.write r x).find? q = s.find? q := by
  unfold find? write
  cases hj : s.place q with
  | none => rfl
  | some j =>
    cases hi : s.place r with
    | none => rfl
    | some i =>
      have hne : i ≠ j := fun he => hq (hs.apart hj (he ▸ hi))
      exact List.getElem?_set_ne hne

theorem Separate.create (hs : s.Separate) : (s.create r x).Separate := by
  have hnew : ∀ {q i}, (s.create r x).place q = some i →
      q = r ∧ i = s.cells.length ∨ s.place q = some i ∧ i < s.cells.length := by
    intro q i h
    by_cases hq : q = r
    · simp only [Registers.create, hq, if_true] at h
      exact Or.inl ⟨hq, (Option.some.inj h).symm⟩
    · simp only [Registers.create, hq, if_false] at h
      exact Or.inr ⟨h, hs.inside h⟩
  constructor
  · intro q i h
    have hlen : (s.create r x).cells.length = s.cells.length + 1 := List.length_append
    rcases hnew h with ⟨_, hi⟩ | ⟨_, hi⟩ <;> omega
  · intro p q i hp hq
    rcases hnew hp with ⟨rfl, hi⟩ | ⟨hp, hi⟩ <;> rcases hnew hq with ⟨rfl, hj⟩ | ⟨hq, hj⟩
    · rfl
    · omega
    · omega
    · exact hs.apart hp hq

theorem Separate.write (hs : s.Separate) : (s.write r x).Separate := by
  refine ⟨fun {q i} h => ?_, hs.apart⟩
  have hlen : (s.write r x).cells.length = s.cells.length := by
    unfold Registers.write
    cases s.place r <;> simp
  exact hlen ▸ hs.inside h

namespace Moves

theorem separate (hs : s.Separate) (h : s.Moves r s') : s'.Separate := by
  cases h with
  | kept => exact hs
  | created x => exact hs.create
  | written x => exact hs.write

theorem find?_of_ne (hs : s.Separate) (h : s.Moves r s') (hq : q ≠ r) :
    s'.find? q = s.find? q := by
  cases h with
  | kept => rfl
  | created x => rw [find?_create hs, if_neg hq]
  | written x => exact find?_write_of_ne hs hq

end Moves

theorem moves_reading {k : AnyFact → Registers × Answer} (h : ∀ x, s.Moves r (k x).1) :
    s.Moves r (s.reading q k).1 := by
  unfold reading
  cases s.find? q with
  | none => exact .kept
  | some x => exact h x

theorem moves_change : s.Moves r (s.change r g).1 := by
  unfold change
  split
  · exact .written _
  · exact .kept

theorem moves_replace : s.Moves r (s.replace r g).1 := by
  unfold replace
  split
  · exact .created _
  · exact .kept
  · exact .kept

theorem perform_moves (s : Registers) (op : Operation) :
    s.Moves op.register (s.perform op).1 := by
  cases op with
  | newMap r pairs => exact .created _
  | newSet r elems => exact .created _
  | update r v x => exact moves_change
  | add r v => exact moves_change
  | remove r v => exact moves_change
  | meetInto r source => exact moves_reading fun x => moves_change
  | union r source => exact moves_reading fun x => moves_change
  | copy r source => exact moves_reading fun x => .created x
  | copyFrom r source => exact moves_reading fun x => moves_replace

theorem Separate.performAll (hs : s.Separate) (ops : List Operation) :
    (s.performAll ops).Separate := by
  induction ops generalizing s with
  | nil => exact hs
  | cons op ops ih => exact ih ((perform_moves s op).separate hs)

/-- Operations on other registers leave the fact of a register as it is. -/
theorem find?_performAll (hs : s.Separate) {ops : List Operation}
    (hops : ∀ op ∈ ops, op.register ≠ r) : (s.performAll ops).find? r = s.find? r := by
  induction ops generalizing s with
  | nil => rfl
  | cons op ops ih =>
    obtain ⟨hop, hops⟩ := List.forall_mem_cons.mp hops
    have hmoves := perform_moves s op
    exact (ih (hmoves.separate hs) hops).trans (hmoves.find?_of_ne hs (Ne.symm hop))

theorem after_separate (ops : List Operation) : (after ops).Separate := by
  refine Separate.performAll ⟨?_, ?_⟩ ops
  · intro r i h
    cases h
  · intro q r i h
    cases h

namespace AnyFact

theorem same_self (x : AnyFact) : x.same x = true := by
  cases x with
  | map f => exact ConstMap.same_iff.mpr fun _ => rfl
  | set s => exact VarSet.same_iff.mpr fun _ => Iff.rfl

/-- What an operation answers about a change is what a comparison would say. -/
def Tells (g : AnyFact → Option (AnyFact × Answer)) : Prop :=
  ∀ x y c, g x = some (y, .changed c) → (c = true ↔ y.same x = false)

theorem iff_false_of {b c : Bool} {p : Prop} (hc : c = true ↔ ¬p) (hb : b = true ↔ p) :
    c = true ↔ b = false := by
  rw [hc, ← hb, Bool.not_eq_true]

theorem update_tells (v : Var) (x : Value) : Tells (update v x) := by
  intro a y c h
  cases a with
  | map f =>
    cases h
    exact iff_false_of bne_iff_ne ConstMap.same_set
  | set s => cases h

theorem add_tells (v : Var) : Tells (add v) := by
  intro a y c h
  cases a with
  | map f => cases h
  | set s =>
    cases h
    exact iff_false_of decide_eq_true_iff VarSet.same_add

theorem remove_tells (v : Var) : Tells (remove v) := by
  intro a y c h
  cases a with
  | map f => cases h
  | set s =>
    cases h
    exact iff_false_of (decide_eq_true_iff.trans not_not.symm) VarSet.same_remove

theorem unionInto_tells (x : AnyFact) : Tells x.unionInto := by
  intro a y c h
  cases x <;> cases a <;> cases h
  rename_i t s
  have hany : (s.absorb t).2 = true ↔ ¬∀ v ∈ t, v ∈ s := by
    simp [VarSet.absorb, VarSet.mem_def]
  exact iff_false_of hany VarSet.same_union

/-- Whether a fact changes when another is written over it is what a comparison would say. -/
theorem overwrite_tells {F α : Type} [Fact F] {view : F → α}
    (h : ∀ {a b : F}, Fact.same a b = true ↔ view a = view b) (old new : F) :
    (Fact.overwrite old new).2 = true ↔ Fact.same (Fact.overwrite old new).1 old = false :=
  iff_false_of ((Fact.overwrite_changed h old new).trans ne_comm)
    (h.trans (Eq.congr_left (Fact.view_overwrite h old new)))

theorem writeOver_tells (x : AnyFact) : Tells x.writeOver := by
  intro a y c h
  cases x <;> cases a <;> cases h
  · exact overwrite_tells ConstMap.same_iff_get _ _
  · exact overwrite_tells VarSet.same_iff_members _ _

/-- A fact that was written over another is like the one that was written. -/
theorem writeOver_same {x a y : AnyFact} {c : Answer} (h : x.writeOver a = some (y, c)) :
    y.same x = true := by
  cases x <;> cases a <;> cases h
  · exact ConstMap.same_iff_get.mpr (Fact.view_overwrite ConstMap.same_iff_get _ _)
  · exact VarSet.same_iff_members.mpr (Fact.view_overwrite VarSet.same_iff_members _ _)

theorem writeOver_kept {x a y : AnyFact} (h : x.writeOver a = some (y, .changed false)) :
    y = a := by
  cases x <;> cases a <;> simp only [writeOver, reduceCtorEq, Option.some.injEq, Prod.mk.injEq,
    Answer.changed.injEq] at h
  · exact h.1 ▸ congrArg map (Fact.overwrite_unchanged h.2)
  · exact h.1 ▸ congrArg set (Fact.overwrite_unchanged h.2)

end AnyFact

/-- The operations that say whether they changed a fact, on registers with facts that they are
for. -/
inductive Reports (s : Registers) : Operation → Prop
  | update {r : String} {f : ConstMap} (v : Var) (x : Value) (h : s.find? r = some (.map f)) :
      Reports s (.update r v x)
  | add {r : String} {t : VarSet} (v : Var) (h : s.find? r = some (.set t)) : Reports s (.add r v)
  | remove {r : String} {t : VarSet} (v : Var) (h : s.find? r = some (.set t)) :
      Reports s (.remove r v)
  | union {r source : String} {t u : VarSet} (h : s.find? r = some (.set t))
      (hs : s.find? source = some (.set u)) : Reports s (.union r source)
  | copyMap {r source : String} {f g : ConstMap} (h : s.find? r = some (.map f))
      (hs : s.find? source = some (.map g)) : Reports s (.copyFrom r source)
  | copySet {r source : String} {t u : VarSet} (h : s.find? r = some (.set t))
      (hs : s.find? source = some (.set u)) : Reports s (.copyFrom r source)

/-- What an operation says about a change of its register is what a comparison of the facts before
and after it says. -/
def Reported (s : Registers) (op : Operation) : Prop :=
  ∃ x y c, s.find? op.register = some x ∧ (s.perform op).2 = .changed c ∧
    (s.perform op).1.find? op.register = some y ∧ (c = true ↔ y.same x = false)

theorem reading_of_eq {k : AnyFact → Registers × Answer} (h : s.find? r = some x) :
    s.reading r k = k x := by
  rw [reading, h, Option.elim_some]

theorem change_answers {c : Bool} (hs : s.Separate) (hx : s.find? r = some x)
    (hy : g x = some (y, .changed c)) :
    (s.change r g).2 = .changed c ∧ (s.change r g).1.find? r = some y := by
  have hchange : s.change r g = (s.write r y, .changed c) := by
    simp [change, hx, hy]
  rw [hchange]
  exact ⟨rfl, find?_write_self hs hx⟩

theorem copyFrom_answers {source : String} {a : AnyFact} {c : Bool} (hs : s.Separate)
    (ha : s.find? r = some a) (hx : s.find? source = some x)
    (hy : x.writeOver a = some (y, .changed c)) :
    (s.perform (.copyFrom r source)).2 = .changed c ∧
      (s.perform (.copyFrom r source)).1.find? r = some y := by
  have hreplace : s.perform (.copyFrom r source) = s.replace r x.writeOver := reading_of_eq hx
  rw [hreplace]
  cases c with
  | true =>
    have hnew : s.replace r x.writeOver = (s.create r y, .changed true) := by
      simp [replace, ha, hy]
    rw [hnew]
    exact ⟨rfl, (find?_create hs).trans (if_pos rfl)⟩
  | false =>
    have hold : s.replace r x.writeOver = (s, .changed false) := by
      simp [replace, ha, hy]
    rw [hold, AnyFact.writeOver_kept hy]
    exact ⟨rfl, ha⟩

theorem Reports.exists_writeOver {source : String} (h : s.Reports (.copyFrom r source)) :
    ∃ a x y c, s.find? r = some a ∧ s.find? source = some x ∧
      x.writeOver a = some (y, .changed c) := by
  cases h with
  | copyMap h hsource => exact ⟨_, _, _, _, h, hsource, rfl⟩
  | copySet h hsource => exact ⟨_, _, _, _, h, hsource, rfl⟩

theorem Reports.reported {op : Operation} (hs : s.Separate) (h : s.Reports op) :
    s.Reported op := by
  cases h with
  | update v x h =>
    obtain ⟨ha, hf⟩ := change_answers hs h (g := AnyFact.update v x) rfl
    exact ⟨_, _, _, h, ha, hf, AnyFact.update_tells v x _ _ _ rfl⟩
  | add v h =>
    obtain ⟨ha, hf⟩ := change_answers hs h (g := AnyFact.add v) rfl
    exact ⟨_, _, _, h, ha, hf, AnyFact.add_tells v _ _ _ rfl⟩
  | remove v h =>
    obtain ⟨ha, hf⟩ := change_answers hs h (g := AnyFact.remove v) rfl
    exact ⟨_, _, _, h, ha, hf, AnyFact.remove_tells v _ _ _ rfl⟩
  | @union r source t u h hsource =>
    have hperform : s.perform (.union r source) = s.change r (AnyFact.set u).unionInto :=
      reading_of_eq hsource
    obtain ⟨ha, hf⟩ := change_answers hs h (g := (AnyFact.set u).unionInto) rfl
    exact ⟨_, _, _, h, hperform ▸ ha, hperform ▸ hf, AnyFact.unionInto_tells (.set u) _ _ _ rfl⟩
  | @copyMap r source f g h hsource =>
    obtain ⟨ha, hf⟩ := copyFrom_answers hs h hsource rfl
    exact ⟨_, _, _, h, ha, hf, AnyFact.writeOver_tells (.map g) _ _ _ rfl⟩
  | @copySet r source t u h hsource =>
    obtain ⟨ha, hf⟩ := copyFrom_answers hs h hsource rfl
    exact ⟨_, _, _, h, ha, hf, AnyFact.writeOver_tells (.set u) _ _ _ rfl⟩

/-- The facts in registers are represented as they should be, compare as they should, and operations
on them tell what they change and change nothing else. -/
structure Exact (s : Registers) : Prop where
  keys : ∀ r f, s.find? r = some (.map f) →
    (f.map.entries.map Prod.fst).Nodup ∧ ∀ e ∈ f.map.entries, e.2 ≠ .undef
  elems : ∀ r t, s.find? r = some (.set t) → t.elems.Nodup
  same_map : ∀ q r f g, s.find? q = some (.map f) → s.find? r = some (.map g) →
    (f.same g = true ↔ ∀ v, f.get v = g.get v)
  same_set : ∀ q r t u, s.find? q = some (.set t) → s.find? r = some (.set u) →
    (t.same u = true ↔ ∀ v, v ∈ t ↔ v ∈ u)
  reports : ∀ op, s.Reports op → s.Reported op
  copy : ∀ r source x, s.find? source = some x →
    (s.perform (.copy r source)).1.find? r = some x
  copyFrom : ∀ r source, s.Reports (.copyFrom r source) → ∃ x y,
    (s.perform (.copyFrom r source)).1.find? source = some x ∧
      (s.perform (.copyFrom r source)).1.find? r = some y ∧ y.same x = true
  apart : ∀ r ops, (∀ op ∈ ops, op.register ≠ r) → (s.performAll ops).find? r = s.find? r

theorem copyFrom_same {source : String} (hs : s.Separate) (h : s.Reports (.copyFrom r source)) :
    ∃ x y, (s.perform (.copyFrom r source)).1.find? source = some x ∧
      (s.perform (.copyFrom r source)).1.find? r = some y ∧ y.same x = true := by
  obtain ⟨a, x, y, c, ha, hx, hy⟩ := h.exists_writeOver
  obtain ⟨_, hf⟩ := copyFrom_answers hs ha hx hy
  by_cases hr : source = r
  · exact ⟨y, y, hr ▸ hf, hf, y.same_self⟩
  · have hsource := (perform_moves s (.copyFrom r source)).find?_of_ne hs hr
    exact ⟨x, y, hsource.trans hx, hf, AnyFact.writeOver_same hy⟩

/-- However facts are made and changed, they keep their representation and say exactly what
changes. -/
theorem after_exact (ops : List Operation) : (after ops).Exact where
  keys r f _ := ⟨f.map.nodup_keys, fun e he hx => f.known e.1 (by
    rw [OrderedMap.find?_eq_some_iff, ← hx]
    exact he)⟩
  elems r t _ := t.nodup
  same_map q r f g _ _ := ConstMap.same_iff
  same_set q r t u _ _ := VarSet.same_iff
  reports op h := h.reported (after_separate ops)
  copy r source x h := by
    have hcopy : (after ops).perform (.copy r source) = ((after ops).create r x, .done) :=
      reading_of_eq h
    rw [hcopy, find?_create (after_separate ops), if_pos rfl]
  copyFrom r source h := copyFrom_same (after_separate ops) h
  apart r later h := find?_performAll (after_separate ops) h

/-- A register that is copied from another and then changed, beside the other one. -/
theorem after_exact_copied :
    let x : Var := ⟨"x", .prim .int⟩
    let s := after [.newMap "a" [(x, .const 1)], .newMap "b" []]
    let f : ConstMap := .ofList [(x, .const 1)]
    s.Exact ∧ s.find? "a" = some (.map f) ∧ s.Reports (.copyFrom "b" "a") ∧
      (∃ a b, (s.perform (.copyFrom "b" "a")).1.find? "a" = some a ∧
        (s.perform (.copyFrom "b" "a")).1.find? "b" = some b ∧ b.same a = true) ∧
      (s.performAll [.copyFrom "b" "a", .update "b" x .nac]).find? "a" = some (.map f) := by
  intro x s f
  have hs : s.Exact := after_exact _
  have ha : s.find? "a" = some (.map f) := rfl
  have hr : s.Reports (.copyFrom "b" "a") := .copyMap (f := ∅) rfl ha
  refine ⟨hs, ha, hr, hs.copyFrom "b" "a" hr, ?_⟩
  exact (hs.apart "a" _ (by decide)).trans ha

end Registers

end MethodFlow
