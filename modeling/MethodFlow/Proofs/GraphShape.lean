import MethodFlow.Cfg
import MethodFlow.Proofs.Attempt

/-!
The graph of a method: it can be built exactly when every jump leads to a statement of the method,
its edges are those along which control leaves a statement, and nothing leads back to its entry.
-/

namespace MethodFlow

/-- The places that a statement may jump to. -/
def Instr.jumps {τ : Type} : Instr τ → List τ
  | .branch _ t | .goto t => [t]
  | .switch _ ks ts d => (ks.zip ts).map Prod.snd ++ [d]
  | .assign _ _ | .call _ _ | .ret _ | .nop => []

namespace Target

/-- A jump to one of `size` statements. -/
def Inside (size : Nat) (t : Target) : Prop :=
  ∃ j, t = .stmt j ∧ j < size

/-- The node that a resolved jump leads to. -/
def goal (t : Target) : Node :=
  t.node?.getD .exit

theorem inside_iff {size : Nat} {t : Target} :
    t.Inside size ↔ t.node? = some t.goal ∧ Cfg.isNode size t.goal = true := by
  cases t with
  | unresolved => simp [Inside, node?]
  | stmt j => simp [Inside, node?, goal, Cfg.isNode]
  | foreign k => simp [Inside, node?, goal, Cfg.isNode]

instance (size : Nat) : (t : Target) → Decidable (t.Inside size)
  | .unresolved => isFalse fun ⟨_, h, _⟩ => by cases h
  | .stmt j => decidable_of_iff (j < size) ⟨fun h => ⟨j, rfl, h⟩, fun ⟨_, rfl, h⟩ => h⟩
  | .foreign _ => isFalse fun ⟨_, h, _⟩ => by cases h

theorem Inside.goal_ne_entry {size : Nat} {t : Target} (h : t.Inside size) : t.goal ≠ .entry := by
  obtain ⟨j, rfl, _⟩ := h
  simp [goal, node?]

end Target

/-- Every jump of a method leads to one of its own statements. -/
def Method.Resolved (m : Method) : Prop :=
  ∀ i s, m.instr? i = some s → ∀ t ∈ s.jumps, t.Inside m.size

theorem Method.resolved_iff (m : Method) :
    m.Resolved ↔ ∀ s ∈ m.body.zipIdx, ∀ t ∈ s.1.instr.jumps, t.Inside m.size := by
  constructor
  · intro h s hs
    have hi : m.body[s.2]? = some s.1 := List.mem_zipIdx_iff_getElem?.mp hs
    exact h s.2 s.1.instr (by simp [instr?, hi])
  · intro h i s hs
    obtain ⟨x, hx, rfl⟩ := Option.map_eq_some_iff.mp hs
    exact h (x, i) (List.mem_zipIdx_iff_getElem?.mpr hx)

instance (m : Method) : Decidable m.Resolved :=
  decidable_of_iff _ m.resolved_iff.symm

theorem Method.lt_size_of_instr? {m : Method} {i : Nat} {s : Instr Target}
    (h : m.instr? i = some s) : i < m.size := by
  obtain ⟨x, hx, _⟩ := Option.map_eq_some_iff.mp h
  exact (List.getElem?_eq_some_iff.mp hx).1

theorem Node.instr_stmt {m : Method} {i : Nat} {s : Instr Target} (h : m.instr? i = some s) :
    (Node.stmt i).instr m = s := by
  rw [instr, h, Option.getD_some]

/-- What runs at a node is nothing or a statement of the method. -/
theorem Node.instr_cases (m : Method) (n : Node) :
    n.instr m = .nop ∨ ∃ s ∈ m.body, n.instr m = s.instr := by
  cases n with
  | stmt i =>
    cases hi : m.body[i]? with
    | none => exact .inl (by simp [instr, Method.instr?, hi])
    | some s => exact .inr ⟨s, List.mem_of_getElem? hi, by simp [instr, Method.instr?, hi]⟩
  | _ => exact .inl rfl

namespace Cfg

/-- The edges along which control leaves statement `i` when its jumps are resolved. -/
def exits (size i : Nat) : Instr Target → List Edge
  | .goto t => [⟨.goto, .stmt i, t.goal, none⟩]
  | .branch _ t => [⟨.ifTrue, .stmt i, t.goal, none⟩, ⟨.ifFalse, .stmt i, next size i, none⟩]
  | .switch _ ks ts d =>
    (ks.zip ts).map (fun c => ⟨.switchCase, .stmt i, c.2.goal, some c.1⟩) ++
      [⟨.switchDefault, .stmt i, d.goal, none⟩]
  | .ret _ => [⟨.ret, .stmt i, .exit, none⟩]
  | .assign _ _ | .call _ _ | .nop => [⟨.fallThrough, .stmt i, next size i, none⟩]

theorem resolve_eq_ok {i : Nat} {slot : Slot} {t : Target} {n : Node} :
    resolve i slot t = .ok n ↔ t.node? = some t.goal ∧ n = t.goal := by
  unfold resolve Target.goal
  cases t.node? with
  | none => simp
  | some k => simp [eq_comm]

theorem resolveCases_eq_ok {i : Nat} {cs : List (Int × Target)} {xs : List (Int × Node)} :
    resolveCases i cs = .ok xs ↔
      (∀ c ∈ cs, c.2.node? = some c.2.goal) ∧ xs = cs.map fun c => (c.1, c.2.goal) := by
  refine Attempt.mapM_eq_ok_map fun c x => ?_
  rw [Attempt.bind_eq_ok]
  constructor
  · rintro ⟨n, hn, h⟩
    obtain ⟨ht, rfl⟩ := resolve_eq_ok.mp hn
    cases h
    exact ⟨ht, rfl⟩
  · rintro ⟨ht, rfl⟩
    exact ⟨c.2.goal, resolve_eq_ok.mpr ⟨ht, rfl⟩, rfl⟩

section Growth

theorem inStep_foldl_add {size : Nat} {t : EdgeTable} (h : t.InStep size) (es : List Edge) :
    (es.foldl (fun t e => (t.add e).1) t).InStep size := by
  induction es generalizing t with
  | nil => exact h
  | cons e es ih => exact ih (h.add e)

/-- The graph with more edges, each added as far as it can be. -/
def addEdges (g : Cfg) (es : List Edge) : Cfg :=
  ⟨es.foldl (fun t e => (t.add e).1) g.toEdgeTable, g.size, inStep_foldl_add g.inStep es⟩

theorem addEdges_append (g : Cfg) (es es' : List Edge) :
    g.addEdges (es ++ es') = (g.addEdges es).addEdges es' := by
  simp only [addEdges, List.foldl_append]

theorem edges_addEdges (g : Cfg) (es : List Edge) : (g.addEdges es).edges = g.edges ++ es := by
  have key : ∀ t : EdgeTable, (es.foldl (fun t e => (t.add e).1) t).edges = t.edges ++ es := by
    induction es with
    | nil => exact fun t => (List.append_nil _).symm
    | cons e es ih =>
      intro t
      rw [List.foldl_cons, ih, EdgeTable.edges_add, List.append_assoc, List.singleton_append]
  exact key g.toEdgeTable

/-- A step adds some edges to every graph over `size` statements, where a condition holds; else it
fails. -/
def Adds (size : Nat) (x : Growth Unit) (P : Prop) (es : List Edge) : Prop :=
  ∀ g g' : Cfg, g.size = size → (x.run g = .ok ((), g') ↔ P ∧ g' = g.addEdges es)

variable {size : Nat} {x y : Growth Unit} {P Q : Prop} {es es' : List Edge} {e : Edge}

theorem Adds.congr (h : Adds size x P es) (hP : P ↔ Q) : Adds size x Q es :=
  fun g g' hg => (h g g' hg).trans (and_congr_left fun _ => hP)

theorem adds_grow (e : Edge) (hs : isNode size e.source = true) :
    Adds size (grow e) (isNode size e.target = true) [e] := by
  intro g g' hg
  have hadd : (g.addEdge e).2 = .ok () ↔ isNode size e.target = true := by
    subst hg
    exact g.inStep.add_eq_ok_iff.trans (and_iff_right hs)
  have hrun : (grow e).run g = (g.addEdge e).2 >>= fun u => .ok (u, (g.addEdge e).1) := by
    change (liftM (g.addEdge e).2 >>= fun _ => set (g.addEdge e).1 : Growth Unit).run g = _
    cases (g.addEdge e).2 <;> rfl
  rw [hrun, Attempt.bind_eq_ok, ← hadd]
  constructor
  · rintro ⟨_, hok, h⟩
    cases h
    exact ⟨hok, rfl⟩
  · rintro ⟨hok, rfl⟩
    exact ⟨(), hok, rfl⟩

theorem adds_pure : Adds size (pure ()) True [] := by
  intro g g' _
  rw [true_and, eq_comm (a := g')]
  constructor
  · rintro h
    cases h
    rfl
  · rintro rfl
    rfl

theorem Adds.bind (hx : Adds size x P es) (hy : Adds size y Q es') :
    Adds size (x >>= fun _ => y) (P ∧ Q) (es ++ es') := by
  intro g g' hg
  have hrun : (x >>= fun _ => y).run g = x.run g >>= fun r => y.run r.2 := rfl
  rw [hrun, Attempt.bind_eq_ok, addEdges_append]
  constructor
  · rintro ⟨⟨_, g₁⟩, h₁, h₂⟩
    obtain ⟨hP, rfl⟩ := (hx g g₁ hg).mp h₁
    obtain ⟨hQ, rfl⟩ := (hy (g.addEdges es) g' hg).mp h₂
    exact ⟨⟨hP, hQ⟩, rfl⟩
  · rintro ⟨⟨hP, hQ⟩, rfl⟩
    refine ⟨((), g.addEdges es), (hx g _ hg).mpr ⟨hP, rfl⟩, ?_⟩
    exact (hy (g.addEdges es) _ hg).mpr ⟨hQ, rfl⟩

/-- What is looked up before, without the graph. -/
theorem Adds.behind {α : Type} {r : Except Fault α} {a : α} {f : α → Growth Unit}
    (hr : ∀ b, r = .ok b ↔ P ∧ b = a) (hf : Adds size (f a) Q es) :
    Adds size (liftM r >>= f) (P ∧ Q) es := by
  intro g g' hg
  have hrun : (liftM r >>= f).run g = r >>= fun b => (f b).run g := by
    cases r <;> rfl
  rw [hrun, Attempt.bind_eq_ok, and_assoc, ← hf g g' hg]
  constructor
  · rintro ⟨b, hb, h⟩
    obtain ⟨hP, rfl⟩ := (hr b).mp hb
    exact ⟨hP, h⟩
  · rintro ⟨hP, h⟩
    exact ⟨a, (hr a).mpr ⟨hP, rfl⟩, h⟩

theorem adds_forM {α : Type} {f : α → Growth Unit} {R : α → Prop} {out : α → List Edge}
    (xs : List α) (h : ∀ a ∈ xs, Adds size (f a) (R a) (out a)) :
    Adds size (xs.forM f) (∀ a ∈ xs, R a) (xs.flatMap out) := by
  induction xs with
  | nil => exact adds_pure.congr (iff_of_true trivial (List.forall_mem_nil R))
  | cons a xs ih =>
    obtain ⟨ha, hxs⟩ := List.forall_mem_cons.mp h
    exact (ha.bind (ih hxs)).congr List.forall_mem_cons.symm

/-- A jump gets its edge exactly when it leads to a statement of the method. -/
theorem adds_jump (i : Nat) (slot : Slot) (t : Target) (edge : Node → Edge)
    (hs : ∀ n, isNode size (edge n).source = true) (ht : ∀ n, (edge n).target = n) :
    Adds size (do grow (edge (← resolve i slot t))) (t.Inside size) [edge t.goal] := by
  refine (Adds.behind (fun _ => resolve_eq_ok) (adds_grow _ (hs t.goal))).congr ?_
  rw [ht, Target.inside_iff]

end Growth

/-- The node of an index, which is the exit behind the last statement. -/
def place (size i : Nat) : Node :=
  if i < size then .stmt i else .exit

theorem isNode_place (size i : Nat) : isNode size (place size i) = true := by
  unfold place
  split
  · rename_i h
    exact decide_eq_true h
  · rfl

theorem place_ne_entry (size i : Nat) : place size i ≠ .entry := by
  unfold place
  split <;> simp

theorem next_eq_place (size i : Nat) : next size i = place size (i + 1) := rfl

theorem entryEdge_target (size : Nat) : (entryEdge size).target = place size 0 := by
  unfold entryEdge place
  by_cases hz : size = 0
  · simp [hz]
  · simp [hz, Nat.pos_of_ne_zero hz]

/-- The edges of a statement can be added exactly when its jumps are resolved. -/
theorem adds_leave {size i : Nat} (hi : i < size) (s : Instr Target) :
    Adds size (leave size i s) (∀ t ∈ s.jumps, t.Inside size) (exits size i s) := by
  have hs : isNode size (.stmt i) = true := decide_eq_true hi
  have hnext : isNode size (next size i) = true := isNode_place size (i + 1)
  cases s with
  | goto t =>
    exact (adds_jump i .target t _ (fun _ => hs) fun _ => rfl).congr List.forall_mem_singleton.symm
  | branch c t =>
    have hgrow (n : Node) := adds_grow ⟨.ifTrue, .stmt i, n, none⟩ hs
    have hskip := adds_grow ⟨.ifFalse, .stmt i, next size i, none⟩ hs
    refine (Adds.behind (fun _ => resolve_eq_ok) ((hgrow t.goal).bind hskip)).congr ?_
    rw [Instr.jumps, List.forall_mem_singleton, Target.inside_iff, and_iff_left hnext]
  | switch v ks ts d =>
    have hcases := adds_forM ((ks.zip ts).map fun c => (c.1, c.2.goal)) fun c _ =>
      adds_grow ⟨.switchCase, .stmt i, c.2, some c.1⟩ hs
    have hdefault := adds_jump i .default d (fun n => ⟨.switchDefault, .stmt i, n, none⟩)
      (fun _ => hs) fun _ => rfl
    have hexits : exits size i (.switch v ks ts d) = (((ks.zip ts).map fun c =>
        (c.1, c.2.goal)).flatMap fun c => [⟨.switchCase, .stmt i, c.2, some c.1⟩]) ++
          [⟨.switchDefault, .stmt i, d.goal, none⟩] := by
      rw [exits, ← List.map_eq_flatMap, List.map_map]
      rfl
    rw [leave, hexits]
    -- the cases are resolved before the first of their edges is added
    refine (Adds.behind (fun _ => resolveCases_eq_ok) (hcases.bind hdefault)).congr ?_
    rw [Instr.jumps, List.forall_mem_append, List.forall_mem_map, List.forall_mem_singleton,
      List.forall_mem_map, ← and_assoc]
    refine and_congr_left fun _ => ?_
    constructor
    · rintro ⟨hnode, hin⟩ c hc
      exact Target.inside_iff.mpr ⟨hnode c hc, hin c hc⟩
    · intro h
      exact ⟨fun c hc => (Target.inside_iff.mp (h c hc)).1,
        fun c hc => (Target.inside_iff.mp (h c hc)).2⟩
  | ret e => exact (adds_grow _ hs).congr (iff_of_true rfl (List.forall_mem_nil _))
  | assign p e => exact (adds_grow _ hs).congr (iff_of_true hnext (List.forall_mem_nil _))
  | call p e => exact (adds_grow _ hs).congr (iff_of_true hnext (List.forall_mem_nil _))
  | nop => exact (adds_grow _ hs).congr (iff_of_true hnext (List.forall_mem_nil _))

/-- The graph of a method whose jumps are resolved. -/
def graphOf (m : Method) : Cfg :=
  (blank m.size).addEdges (entryEdge m.size ::
    (m.body.zipIdx.map fun s => exits m.size s.2 s.1.instr).flatten)

theorem edges_graphOf (m : Method) : (graphOf m).edges = entryEdge m.size ::
    (m.body.zipIdx.map fun s => exits m.size s.2 s.1.instr).flatten :=
  edges_addEdges _ _

/-- A graph can be built exactly when every jump of the method is resolved. -/
theorem build_eq_ok {m : Method} {g : Cfg} :
    build m = .ok g ↔ m.Resolved ∧ g = graphOf m := by
  have hentry : isNode m.size (entryEdge m.size).target = true := by
    rw [entryEdge_target]
    exact isNode_place m.size 0
  have hlt (s : Stmt × Nat) (hs : s ∈ m.body.zipIdx) : s.2 < m.size :=
    List.snd_lt_of_mem_zipIdx hs
  have hstmts := adds_forM m.body.zipIdx fun s hs => adds_leave (hlt s hs) s.1.instr
  have hgrowth := (adds_grow (entryEdge m.size) rfl).bind hstmts (blank m.size) g rfl
  rw [and_iff_right hentry, ← m.resolved_iff] at hgrowth
  rw [build, Attempt.bind_eq_ok]
  refine Iff.trans ?_ hgrowth
  constructor
  · rintro ⟨⟨_, g'⟩, h, hg⟩
    cases hg
    exact h
  · intro h
    exact ⟨((), g), h, rfl⟩

theorem mem_nodes {g : Cfg} {n : Node} : n ∈ g.nodes ↔ g.has n = true :=
  mem_nodesOf

theorem outEdges_eq {g : Cfg} {n : Node} (h : g.has n = true) :
    g.outEdges n = g.edges.filter fun e => e.source = n := by
  rw [has] at h
  rw [outEdges, g.inStep.outs n, if_pos h, Option.getD_some]

theorem inEdges_eq {g : Cfg} {n : Node} (h : g.has n = true) :
    g.inEdges n = g.edges.filter fun e => e.target = n ∧ g.has e.source := by
  rw [has] at h
  rw [inEdges, g.inStep.ins n, if_pos h, Option.getD_some]
  rfl

theorem outEdges_eq_nil {g : Cfg} {n : Node} (h : ¬ g.has n = true) : g.outEdges n = [] := by
  rw [has] at h
  rw [outEdges, g.inStep.outs n, if_neg h, Option.getD_none]

theorem inEdges_eq_nil {g : Cfg} {n : Node} (h : ¬ g.has n = true) : g.inEdges n = [] := by
  rw [has] at h
  rw [inEdges, g.inStep.ins n, if_neg h, Option.getD_none]

theorem mem_outEdges {g : Cfg} {n : Node} {e : Edge} :
    e ∈ g.outEdges n ↔ g.has n = true ∧ e ∈ g.edges ∧ e.source = n := by
  by_cases h : g.has n = true
  · simp [outEdges_eq h, h]
  · simp [outEdges_eq_nil h, h]

theorem mem_inEdges {g : Cfg} {n : Node} {e : Edge} : e ∈ g.inEdges n ↔
    g.has n = true ∧ e ∈ g.edges ∧ e.target = n ∧ g.has e.source = true := by
  by_cases h : g.has n = true
  · simp [inEdges_eq h, h]
  · simp [inEdges_eq_nil h, h]

theorem mem_succs {g : Cfg} {k n : Node} :
    n ∈ g.succs k ↔ g.has k = true ∧ ∃ e ∈ g.edges, e.source = k ∧ e.target = n := by
  simp only [succs, List.mem_eraseDups, List.mem_map, mem_outEdges, and_assoc, exists_and_left]

/-- Predecessors mirror successors, apart from edges that end outside the graph. -/
theorem mem_preds {g : Cfg} {k n : Node} : k ∈ g.preds n ↔ g.has n = true ∧ n ∈ g.succs k := by
  simp only [preds, List.mem_eraseDups, List.mem_map, mem_inEdges, mem_succs]
  constructor
  · rintro ⟨e, ⟨hn, he, ht, hk⟩, rfl⟩
    exact ⟨hn, hk, e, he, rfl, ht⟩
  · rintro ⟨hn, hk, e, he, rfl, ht⟩
    exact ⟨e, ⟨hn, he, ht, hk⟩, rfl⟩

theorem has_of_mem_preds {g : Cfg} {k n : Node} (h : k ∈ g.preds n) : g.has k = true :=
  (mem_succs.mp (mem_preds.mp h).2).1

theorem exits_source {size i : Nat} {s : Instr Target} {e : Edge} (h : e ∈ exits size i s) :
    e.source = .stmt i := by
  cases s with
  | switch v ks ts d =>
    rcases List.mem_append.mp h with h | h
    · obtain ⟨c, _, rfl⟩ := List.mem_map.mp h
      rfl
    · rw [List.mem_singleton.mp h]
  | branch c t =>
    rcases List.mem_cons.mp h with rfl | h
    · rfl
    · rw [List.mem_singleton.mp h]
  | goto t => rw [List.mem_singleton.mp h]
  | ret e => rw [List.mem_singleton.mp h]
  | assign p e => rw [List.mem_singleton.mp h]
  | call p e => rw [List.mem_singleton.mp h]
  | nop => rw [List.mem_singleton.mp h]

/-- A jump leads where a jump of the statement does, or on to the next statement or the exit. -/
theorem exits_target {size i : Nat} {s : Instr Target} {e : Edge} (h : e ∈ exits size i s) :
    (∃ t ∈ s.jumps, e.target = t.goal) ∨ e.target = next size i ∨ e.target = .exit := by
  cases s with
  | switch v ks ts d =>
    rcases List.mem_append.mp h with h | h
    · obtain ⟨c, hc, rfl⟩ := List.mem_map.mp h
      exact Or.inl ⟨c.2, List.mem_append_left _ (List.mem_map_of_mem hc), rfl⟩
    · rw [List.mem_singleton.mp h]
      exact Or.inl ⟨d, List.mem_append_right _ (List.mem_singleton_self d), rfl⟩
  | branch c t =>
    rcases List.mem_cons.mp h with rfl | h
    · exact Or.inl ⟨t, List.mem_singleton_self t, rfl⟩
    · rw [List.mem_singleton.mp h]
      exact Or.inr (Or.inl rfl)
  | goto t =>
    rw [List.mem_singleton.mp h]
    exact Or.inl ⟨t, List.mem_singleton_self t, rfl⟩
  | ret e =>
    rw [List.mem_singleton.mp h]
    exact Or.inr (Or.inr rfl)
  | assign p e =>
    rw [List.mem_singleton.mp h]
    exact Or.inr (Or.inl rfl)
  | call p e =>
    rw [List.mem_singleton.mp h]
    exact Or.inr (Or.inl rfl)
  | nop =>
    rw [List.mem_singleton.mp h]
    exact Or.inr (Or.inl rfl)

theorem mem_graphOf {m : Method} {e : Edge} :
    e ∈ (graphOf m).edges ↔
      e = entryEdge m.size ∨ ∃ i s, m.instr? i = some s ∧ e ∈ exits m.size i s := by
  simp only [edges_graphOf, List.mem_cons, List.mem_flatten, List.mem_map, exists_exists_and_eq_and]
  refine or_congr Iff.rfl ⟨?_, ?_⟩
  · rintro ⟨x, hx, he⟩
    have hi : m.body[x.2]? = some x.1 := List.mem_zipIdx_iff_getElem?.mp hx
    exact ⟨x.2, x.1.instr, by simp [Method.instr?, hi], he⟩
  · rintro ⟨i, s, hs, he⟩
    obtain ⟨x, hx, rfl⟩ := Option.map_eq_some_iff.mp hs
    exact ⟨(x, i), List.mem_zipIdx_iff_getElem?.mpr hx, he⟩

theorem place_of_instr? {m : Method} {i : Nat} {s : Instr Target} (h : m.instr? i = some s) :
    place m.size i = .stmt i :=
  if_pos (Method.lt_size_of_instr? h)

theorem has_stmt {m : Method} {i : Nat} {s : Instr Target} (h : m.instr? i = some s) :
    (graphOf m).has (.stmt i) = true :=
  decide_eq_true (Method.lt_size_of_instr? h)

/-- The edges along which control leaves the statements of a list whose first index is `k`. -/
def exitsFrom (size k : Nat) (xs : List Stmt) : List Edge :=
  ((xs.zipIdx k).map fun s => exits size s.2 s.1.instr).flatten

theorem exitsFrom_append (size k : Nat) (xs ys : List Stmt) :
    exitsFrom size k (xs ++ ys) = exitsFrom size k xs ++ exitsFrom size (k + xs.length) ys := by
  rw [exitsFrom, List.zipIdx_append, List.map_append, List.flatten_append]
  rfl

/-- No edge leaves a statement of the list whose index is not one of theirs. -/
theorem exitsFrom_filter_eq_nil {size k i : Nat} {xs : List Stmt}
    (h : i < k ∨ k + xs.length ≤ i) :
    (exitsFrom size k xs).filter (fun e => e.source = .stmt i) = [] := by
  rw [List.filter_eq_nil_iff]
  intro e he
  obtain ⟨es, hes, he⟩ := List.mem_flatten.mp he
  obtain ⟨s, hs, rfl⟩ := List.mem_map.mp hes
  have hrange := List.mem_zipIdx hs
  rw [exits_source he, decide_eq_true_eq, Node.stmt.injEq]
  omega

/-- The edges from a statement are those along which control leaves it, in the same order. -/
theorem outEdges_stmt {m : Method} {i : Nat} {s : Instr Target} (hs : m.instr? i = some s) :
    (graphOf m).outEdges (.stmt i) = exits m.size i s := by
  obtain ⟨x, hx, rfl⟩ := Option.map_eq_some_iff.mp hs
  obtain ⟨hi, rfl⟩ := List.getElem?_eq_some_iff.mp hx
  have hself : (exits m.size i m.body[i].instr).filter (fun e => e.source = .stmt i) =
      exits m.size i m.body[i].instr := by
    rw [List.filter_eq_self]
    exact fun e he => decide_eq_true (exits_source he)
  have hbody : exitsFrom m.size 0 m.body = exitsFrom m.size 0 (m.body.take i) ++
      (exits m.size i m.body[i].instr ++ exitsFrom m.size (i + 1) (m.body.drop (i + 1))) := by
    conv_lhs => rw [← List.take_append_drop i m.body, List.drop_eq_getElem_cons hi]
    rw [exitsFrom_append, List.length_take_of_le (Nat.le_of_lt hi), Nat.zero_add]
    rfl
  have hentry : ¬ (entryEdge m.size).source = .stmt i := fun h => by cases h
  have hsplit : (graphOf m).outEdges (.stmt i) =
      (exitsFrom m.size 0 m.body).filter (fun e => e.source = .stmt i) := by
    rw [outEdges_eq (has_stmt hs), edges_graphOf]
    exact List.filter_cons_of_neg (by rwa [decide_eq_true_eq])
  rw [hsplit, hbody, List.filter_append, List.filter_append, hself,
    exitsFrom_filter_eq_nil (Or.inl (Nat.lt_succ_self i)),
    exitsFrom_filter_eq_nil (Or.inr (by rw [List.length_take]; omega)), List.nil_append,
    List.append_nil]

theorem mem_outEdges_stmt {m : Method} {i : Nat} {s : Instr Target} (hs : m.instr? i = some s)
    {e : Edge} : e ∈ (graphOf m).outEdges (.stmt i) ↔ e ∈ exits m.size i s := by
  rw [outEdges_stmt hs]

theorem mem_succs_stmt {m : Method} {i : Nat} {s : Instr Target} (hs : m.instr? i = some s)
    {n : Node} : n ∈ (graphOf m).succs (.stmt i) ↔ ∃ e ∈ exits m.size i s, e.target = n := by
  rw [succs, List.mem_eraseDups, List.mem_map]
  exact exists_congr fun e => and_congr_left fun _ => mem_outEdges_stmt hs

theorem mem_succs_entry (m : Method) : place m.size 0 ∈ (graphOf m).succs .entry :=
  mem_succs.mpr ⟨rfl, entryEdge m.size, mem_graphOf.mpr (Or.inl rfl), rfl, entryEdge_target m.size⟩

/-- No edge leaves the exit. -/
theorem succs_exit (m : Method) (k : Node) : k ∉ (graphOf m).succs .exit := by
  intro hk
  obtain ⟨-, e, he, hs, _⟩ := mem_succs.mp hk
  rcases mem_graphOf.mp he with rfl | ⟨i, s, _, hx⟩
  · cases hs
  · rw [exits_source hx] at hs
    cases hs

/-- Edges lead to nodes, and none of them to the entry. -/
structure Closed (g : Cfg) : Prop where
  target : ∀ {k n}, n ∈ g.succs k → g.has n = true
  entry : ∀ {k}, .entry ∉ g.succs k

theorem graphOf_closed {m : Method} (h : m.Resolved) : (graphOf m).Closed := by
  have key : ∀ e ∈ (graphOf m).edges,
      (graphOf m).has e.target = true ∧ e.target ≠ .entry := by
    intro e he
    rcases mem_graphOf.mp he with rfl | ⟨i, s, hs, hx⟩
    · rw [entryEdge_target]
      exact ⟨isNode_place m.size 0, place_ne_entry m.size 0⟩
    · rcases exits_target hx with ⟨t, ht, he⟩ | he | he
      · have hin := h i s hs t ht
        rw [he]
        exact ⟨(Target.inside_iff.mp hin).2, hin.goal_ne_entry⟩
      · rw [he, next_eq_place]
        exact ⟨isNode_place m.size (i + 1), place_ne_entry m.size (i + 1)⟩
      · rw [he]
        exact ⟨rfl, by simp⟩
  constructor
  · intro k n hn
    obtain ⟨-, e, he, _, rfl⟩ := mem_succs.mp hn
    exact (key e he).1
  · intro k hn
    obtain ⟨-, e, he, _, ht⟩ := mem_succs.mp hn
    exact (key e he).2 ht

end Cfg

end MethodFlow
