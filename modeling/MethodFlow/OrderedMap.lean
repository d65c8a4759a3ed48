/-!
Finite maps that remember the order in which their keys came in. The view of a map is `find?`;
its listed order is `entries`.
-/

namespace MethodFlow

/-- A finite map listed in the order in which its keys were first put in. -/
structure OrderedMap (κ ν : Type) where
  entries : List (κ × ν)
  nodup_keys : (entries.map Prod.fst).Nodup

namespace OrderedMap

section

variable {κ ν : Type}

def empty : OrderedMap κ ν := ⟨[], List.nodup_nil⟩

instance : EmptyCollection (OrderedMap κ ν) := ⟨empty⟩

instance : Inhabited (OrderedMap κ ν) := ⟨empty⟩

def keys (m : OrderedMap κ ν) : List κ :=
  m.entries.map Prod.fst

def size (m : OrderedMap κ ν) : Nat :=
  m.entries.length

/-- The same keys in the same order, with every value changed by `f`. -/
def mapValues {μ : Type} (f : ν → μ) (m : OrderedMap κ ν) : OrderedMap κ μ :=
  ⟨m.entries.map fun e => (e.1, f e.2), by
    simpa [List.map_map, Function.comp_def] using m.nodup_keys⟩

theorem nodup_filter {p : κ × ν → Bool} {es : List (κ × ν)} (h : (es.map Prod.fst).Nodup) :
    ((es.filter p).map Prod.fst).Nodup :=
  h.sublist (List.filter_sublist.map _)

end

variable {κ ν : Type} [DecidableEq κ]

/-- The value beside the first occurrence of `k`. -/
def lookup (k : κ) : List (κ × ν) → Option ν
  | [] => none
  | e :: r => if e.1 = k then some e.2 else lookup k r

/-- Sets `k` to `v` where it stands, or at the end when it is new. -/
def put (k : κ) (v : ν) : List (κ × ν) → List (κ × ν)
  | [] => [(k, v)]
  | e :: r => if e.1 = k then (k, v) :: r else e :: put k v r

theorem keys_put (k : κ) (v : ν) (es : List (κ × ν)) :
    (put k v es).map Prod.fst =
      if k ∈ es.map Prod.fst then es.map Prod.fst else es.map Prod.fst ++ [k] := by
  induction es with
  | nil => simp [put]
  | cons e r ih =>
    by_cases h : e.1 = k
    · simp [put, h]
    · have hk : ¬ k = e.1 := fun he => h he.symm
      simp only [put, h, if_false, List.map_cons, List.mem_cons, hk, false_or, ih]
      split <;> simp

theorem nodup_put {k : κ} {v : ν} {es : List (κ × ν)} (h : (es.map Prod.fst).Nodup) :
    ((put k v es).map Prod.fst).Nodup := by
  rw [keys_put]
  split
  · exact h
  · rename_i hk
    rw [List.nodup_append]
    refine ⟨h, by simp, ?_⟩
    intro a ha b hb hab
    rw [List.mem_singleton] at hb
    exact hk (hb ▸ hab ▸ ha)

theorem lookup_put (k j : κ) (v : ν) (es : List (κ × ν)) :
    lookup j (put k v es) = if k = j then some v else lookup j es := by
  induction es with
  | nil => rfl
  | cons e r ih => by_cases he : e.1 = k <;> by_cases hj : k = j <;> simp_all [put, lookup]

theorem lookup_eq_none_iff {k : κ} {es : List (κ × ν)} :
    lookup k es = none ↔ k ∉ es.map Prod.fst := by
  induction es with
  | nil => simp [lookup]
  | cons e r ih => by_cases he : e.1 = k <;> simp_all [lookup, eq_comm]

theorem lookup_eq_some_iff {k : κ} {v : ν} {es : List (κ × ν)}
    (h : (es.map Prod.fst).Nodup) : lookup k es = some v ↔ (k, v) ∈ es := by
  induction es with
  | nil => simp [lookup]
  | cons e r ih =>
    obtain ⟨i, w⟩ := e
    obtain ⟨hi, hr⟩ := List.nodup_cons.mp h
    by_cases hk : i = k
    · subst hk
      have : ∀ x, (i, x) ∉ r := fun x hx => hi (List.mem_map.mpr ⟨(i, x), hx, rfl⟩)
      simp [lookup, this, eq_comm]
    · have hk' : ¬ k = i := fun he => hk he.symm
      simp [lookup, hk, hk', ih hr]

def find? (m : OrderedMap κ ν) (k : κ) : Option ν :=
  lookup k m.entries

def contains (m : OrderedMap κ ν) (k : κ) : Bool :=
  (m.find? k).isSome

/-- A key that is already there keeps its place. -/
def insert (m : OrderedMap κ ν) (k : κ) (v : ν) : OrderedMap κ ν :=
  ⟨put k v m.entries, nodup_put m.nodup_keys⟩

def erase (m : OrderedMap κ ν) (k : κ) : OrderedMap κ ν :=
  ⟨m.entries.filter fun e => e.1 ≠ k, nodup_filter m.nodup_keys⟩

/-- Later pairs overwrite earlier ones, which keep their places. -/
def ofList (es : List (κ × ν)) : OrderedMap κ ν :=
  es.foldl (fun m e => m.insert e.1 e.2) ∅

/-- The map that gives each of some keys the value of a function there. -/
def tabulate (ks : List κ) (f : κ → ν) : OrderedMap κ ν :=
  ofList (ks.map fun k => (k, f k))

/-- Whether two maps give every key the same value; order does not count. -/
def same [DecidableEq ν] (a b : OrderedMap κ ν) : Bool :=
  a.size == b.size && a.entries.all fun e => b.find? e.1 == some e.2

@[simp] theorem find?_empty (k : κ) : (∅ : OrderedMap κ ν).find? k = none := rfl

@[simp] theorem find?_insert (m : OrderedMap κ ν) (k j : κ) (v : ν) :
    (m.insert k v).find? j = if k = j then some v else m.find? j :=
  lookup_put k j v m.entries

theorem find?_foldl_insert (f : κ → ν) (ks : List κ) (m : OrderedMap κ ν) (k : κ) :
    ((ks.map fun j => (j, f j)).foldl (fun m e => m.insert e.1 e.2) m).find? k =
      if k ∈ ks then some (f k) else m.find? k := by
  induction ks generalizing m with
  | nil => simp
  | cons j ks ih =>
    rw [List.map_cons, List.foldl_cons, ih, find?_insert]
    by_cases hm : k ∈ ks
    · simp [hm]
    · by_cases hj : j = k
      · subst hj
        simp [hm]
      · have hk : ¬ k = j := fun h => hj h.symm
        simp [hm, hj, hk]

@[simp] theorem find?_tabulate (ks : List κ) (f : κ → ν) (k : κ) :
    (tabulate ks f).find? k = if k ∈ ks then some (f k) else none :=
  find?_foldl_insert f ks ∅ k

@[simp] theorem find?_erase (m : OrderedMap κ ν) (k j : κ) :
    (m.erase k).find? j = if k = j then none else m.find? j := by
  simp only [find?, erase]
  induction m.entries with
  | nil => simp [lookup]
  | cons e r ih => by_cases he : e.1 = k <;> by_cases hj : k = j <;> simp_all [lookup]

theorem find?_eq_none_iff {m : OrderedMap κ ν} {k : κ} : m.find? k = none ↔ k ∉ m.keys :=
  lookup_eq_none_iff

theorem find?_eq_some_iff {m : OrderedMap κ ν} {k : κ} {v : ν} :
    m.find? k = some v ↔ (k, v) ∈ m.entries :=
  lookup_eq_some_iff m.nodup_keys

/-- Two maps are the same exactly when they agree on every key. -/
theorem same_iff [DecidableEq ν] {a b : OrderedMap κ ν} :
    a.same b = true ↔ ∀ k, a.find? k = b.find? k := by
  simp only [same, size, Bool.and_eq_true, beq_iff_eq, List.all_eq_true]
  constructor
  · rintro ⟨hl, ha⟩ k
    have hsub : ∀ {k v}, a.find? k = some v → b.find? k = some v := fun h =>
      ha _ (find?_eq_some_iff.mp h)
    have hmem : ∀ {k v}, b.find? k = some v → k ∈ b.keys := fun h =>
      List.mem_map_of_mem (f := Prod.fst) (find?_eq_some_iff.mp h)
    cases hk : a.find? k with
    | some v => exact (hsub hk).symm
    | none =>
      cases hb : b.find? k with
      | none => rfl
      | some v =>
        exfalso
        have hss : k :: a.keys ⊆ b.keys := by
          intro j hj
          rcases List.mem_cons.mp hj with rfl | hj
          · exact hmem hb
          · cases hf : a.find? j with
            | none => exact absurd hj (find?_eq_none_iff.mp hf)
            | some w => exact hmem (hsub hf)
        have hnd : (k :: a.keys).Nodup :=
          List.nodup_cons.mpr ⟨find?_eq_none_iff.mp hk, a.nodup_keys⟩
        have := List.Nodup.length_le_of_subset hnd hss
        simp [keys] at this
        omega
  · intro h
    refine ⟨?_, fun e he => (h e.1).symm.trans (find?_eq_some_iff.mpr he)⟩
    have hmem : ∀ {k}, k ∈ a.keys ↔ k ∈ b.keys := fun {k} => by
      rw [← Decidable.not_iff_not, ← find?_eq_none_iff, ← find?_eq_none_iff, h]
    have h₁ := List.Nodup.length_le_of_subset a.nodup_keys fun _ hk => hmem.mp hk
    have h₂ := List.Nodup.length_le_of_subset b.nodup_keys fun _ hk => hmem.mpr hk
    simp only [keys, List.length_map] at h₁ h₂
    omega

end OrderedMap

end MethodFlow
