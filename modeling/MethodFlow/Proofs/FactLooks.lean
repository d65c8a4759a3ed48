import MethodFlow.Proofs.GraphShape
import MethodFlow.Proofs.JoinProblem

/-!
What stands in a table of facts: one look at a side of a node, what a visit to a node leaves there,
and everything that comes to a node from its neighbours.
-/

namespace MethodFlow

namespace FactTable

variable {F : Type}

/-- The fact on a side of a node, or `d` where there is none. -/
def look (t : FactTable F) (d : F) (s : Side) (n : Node) : F :=
  ((t.side s).find? n).getD d

/-- The table after a visit that left facts on both sides of a node. -/
def record (t : FactTable F) (n : Node) (input output : F) : FactTable F :=
  ⟨t.inputs.insert n input, t.outputs.insert n output, t.visits + 1⟩

/-- Every node of a graph has a fact on either side. -/
def Covers (t : FactTable F) (g : Cfg) : Prop :=
  ∀ s n, g.has n = true → ∃ f, t.fact s n = .ok f

variable {t : FactTable F} {d : F} {s : Side} {n k : Node} {i o : F}

theorem fact_eq_ok {f : F} : t.fact s n = .ok f ↔ (t.side s).find? n = some f := by
  unfold fact
  cases (t.side s).find? n <;> simp

theorem look_of_fact {f : F} (h : t.fact s n = .ok f) : t.look d s n = f := by
  simp [look, fact_eq_ok.mp h]

theorem Covers.fact {g : Cfg} (h : t.Covers g) (hn : g.has n = true) (d : F) (s : Side) :
    t.fact s n = .ok (t.look d s n) := by
  obtain ⟨f, hf⟩ := h s n hn
  rw [hf, look_of_fact hf]

theorem look_record_of_ne (h : k ≠ n) : (t.record n i o).look d s k = t.look d s k := by
  have hne : ¬ n = k := fun he => h he.symm
  cases s <;> simp [look, side, record, hne]

@[simp] theorem look_record_input : (t.record n i o).look d .input n = i := by
  simp [look, side, record]

@[simp] theorem look_record_output : (t.record n i o).look d .output n = o := by
  simp [look, side, record]

theorem Covers.record {g : Cfg} (h : t.Covers g) : (t.record n i o).Covers g := by
  intro s k hk
  by_cases he : k = n
  · subst he
    cases s with
    | input => exact ⟨i, fact_eq_ok.mpr (by simp [side, FactTable.record])⟩
    | output => exact ⟨o, fact_eq_ok.mpr (by simp [side, FactTable.record])⟩
  · obtain ⟨f, hf⟩ := h s k hk
    have hne : ¬ n = k := fun hn => he hn.symm
    refine ⟨f, fact_eq_ok.mpr ?_⟩
    have hf := fact_eq_ok.mp hf
    cases s <;> simpa [side, FactTable.record, hne] using hf

theorem side_init (ns : List Node) (f : Node → F) (s : Side) (n : Node) :
    ((init ns f).side s).find? n = if n ∈ ns then some (f n) else none := by
  cases s <;> exact OrderedMap.find?_tabulate ns f n

theorem look_init (ns : List Node) (f : Node → F) (d : F) (s : Side) (n : Node) :
    (init ns f).look d s n = if n ∈ ns then f n else d := by
  rw [look, side_init]
  split <;> rfl

/-- A table that starts with a fact at one of its nodes, and with the default elsewhere. -/
theorem look_init_at {ns : List Node} (hk : k ∈ ns) (x : F) (s : Side) (n : Node) :
    (init ns fun n => if n = k then x else d).look d s n = if n = k then x else d := by
  rw [look_init]
  by_cases hn : n ∈ ns
  · rw [if_pos hn]
  · have hne : n ≠ k := by
      rintro rfl
      exact hn hk
    rw [if_neg hn, if_neg hne]

theorem init_covers (g : Cfg) (f : Node → F) : (init g.nodes f).Covers g := by
  intro s n hn
  refine ⟨f n, fact_eq_ok.mpr ?_⟩
  rw [side_init, if_pos (Cfg.mem_nodes.mpr hn)]

end FactTable

namespace Problem

variable {F α : Type} (p : Problem F)

/-- What stands on one side of some nodes, merged. -/
def merged (t : FactTable F) (s : Side) (ns : List Node) : F :=
  (ns.map (t.look p.initial s)).foldl (fun acc f => p.merge f acc) p.initial

theorem gather_eq {g : Cfg} {t : FactTable F} (ht : t.Covers g) (s : Side) {ns : List Node}
    (hns : ∀ n ∈ ns, g.has n = true) : p.gather t s ns = .ok (p.merged t s ns) := by
  unfold gather merged
  generalize p.initial = d at *
  suffices h : ∀ acc, ns.foldlM (fun acc n => return p.merge (← t.fact s n) acc) acc =
      (.ok ((ns.map (t.look d s)).foldl (fun acc f => p.merge f acc) acc) : Except Fault F) from
    h d
  induction ns with
  | nil => exact fun _ => rfl
  | cons n ns ih =>
    intro acc
    rw [List.foldlM_cons, ht.fact (hns n List.mem_cons_self) d s, List.map_cons, List.foldl_cons]
    exact ih (fun k hk => hns k (List.mem_cons_of_mem n hk)) _

theorem merged_congr {t t' : FactTable F} {s : Side} {ns : List Node}
    (h : ∀ n ∈ ns, t'.look p.initial s n = t.look p.initial s n) :
    p.merged t' s ns = p.merged t s ns := by
  unfold merged
  rw [List.map_congr_left h]

variable {p} [Fact F] [SemilatticeSup α] [OrderBot α] {view : F → α}

/-- What comes to a node is the least upper bound of what its neighbours pass on. -/
theorem Joining.merged_le_iff (h : p.Joining view) {t : FactTable F} {s : Side} {ns : List Node}
    {x : α} : view (p.merged t s ns) ≤ x ↔ ∀ n ∈ ns, view (t.look p.initial s n) ≤ x := by
  unfold merged
  rw [foldl_merge_le_iff h.merge, h.initial, List.forall_mem_map]
  simp

theorem Joining.le_merged (h : p.Joining view) {t : FactTable F} {s : Side} {ns : List Node}
    {n : Node} (hn : n ∈ ns) : view (t.look p.initial s n) ≤ view (p.merged t s ns) :=
  h.merged_le_iff.mp (le_refl _) n hn

end Problem

end MethodFlow
