import CLangProject.SingleList

/-!
# Graphs as adjacency lists

`graph_adj_list.c` keeps one list of edges for each vertex. A node of such a list points to an
`edge_data`, which is allocated on its own. An undirected edge is two entries, one in the list of
each of its ends.

`Require` is the guard of every call, and it is written the wrong way round: `Require(vertex1 >=
graph->number_of_vertices)` raises `Precondition_Failed` for exactly the vertices that the graph
has. What follows for a build with `Require` is `guards_ok_iff`. In a build without it, `Reps` says
which entries the lists have, and each call has one lemma over it.

A call has no result if it indexes `edge_list` outside the graph, besides the cases in which a call
of `list.c` has none.
-/

namespace CLangProject.GraphAdjList

open List Option Function
open CircList (Node)
open SingleList (Exc IsList)

/-! ## The model -/

inductive GraphType where
  | directed | undirected
deriving Repr, DecidableEq

structure EdgeData where
  weight : Int16
  vertexNumber : Nat
deriving Repr, DecidableEq

/-- `__equal_vertex`, for a key that only has a vertex. -/
def equalVertex (v : Nat) (e : EdgeData) : Bool := v == e.vertexNumber

theorem equalVertex_iff {v : Nat} {e : EdgeData} : equalVertex v e = true ↔ e.vertexNumber = v := by
  rw [equalVertex, beq_iff_eq, eq_comm]

def unusedWeight : Int16 := Int16.maxValue

/-- A `struct graph_descriptor`, with the memory of the lists and of their edges. -/
structure Graph where
  type : GraphType
  numberOfVertices : Nat
  edgeList : Nat → Option Nat
  nodes : Cells (Node Nat)
  data : Cells EdgeData

def Graph.empty (numberOfVertices : Nat) (type : GraphType) : Graph :=
  ⟨type, numberOfVertices, fun _ => none, fun _ => none, fun _ => none⟩

/-- `graph->edge_list[v]`, inside the table only. -/
def Graph.list (g : Graph) (v : Nat) : Option (Option Nat) :=
  if v < g.numberOfVertices then some (g.edgeList v) else none

def Graph.setList (g : Graph) (v : Nat) (p : Option Nat) (m : Cells (Node Nat)) : Graph :=
  { g with edgeList := update g.edgeList v p, nodes := m }

/-- `sizeof(List_T)` -/
def pointerSize : Nat := 8

/-- The answers of the allocator are whether it finds memory. If the size of the table exceeds
`size_t`, the table is too short. -/
def newGraph (header table : Bool) (numberOfVertices : Nat) (type : GraphType) :
    Option (Except Exc Graph) :=
  if !header || !table then some (.error .memoryFailed)
  else if numberOfVertices * pointerSize < 2 ^ 64 then some (.ok (.empty numberOfVertices type))
  else none

/-- The answers to the two requests of `__edge_append`, for an `edge_data` and for a node. -/
structure Answers where
  data : Option Nat
  node : Option Nat
deriving Repr, DecidableEq

/-- `__edge_append` for the list of `v`. A failure of `List_append` is caught and not raised again.
-/
def edgeAppend (fuel : Nat) (g : Graph) (v vertexNumber : Nat) (weight : Int16) (ans : Answers) :
    Option (Except Exc Unit × Graph) := do
  let list ← g.list v
  match ans.data with
  | none => some (.error .memoryFailed, g)
  | some d =>
    let g := { g with data := ← g.data.alloc d ⟨weight, vertexNumber⟩ }
    match ← SingleList.append fuel g.nodes list ans.node d with
    | (.ok list, m) => some (.ok (), g.setList v list m)
    | (.error .memoryFailed, m) => some (.ok (), { g with nodes := m, data := ← g.data.free d })
    | (.error e, m) => some (.error e, { g with nodes := m })

/-- `Require(exp)` in front of the rest of a call. -/
def require {α : Type} (checks : Bool) (exp : Prop) [Decidable exp] (g : Graph)
    (rest : Option (Except Exc α × Graph)) :
    Option (Except Exc α × Graph) :=
  if checks ∧ ¬ exp then some (.error .preconditionFailed, g) else rest

def addEdge (checks : Bool) (fuel : Nat) (g : Graph) (vertex1 vertex2 : Nat) (weight : Int16)
    (ans1 ans2 : Answers) :
    Option (Except Exc Unit × Graph) :=
  require checks (g.numberOfVertices ≤ vertex1) g <|
  require checks (g.numberOfVertices ≤ vertex2) g <|
  require checks (0 < weight) g <|
  require checks (weight < unusedWeight) g <| do
    match ← edgeAppend fuel g vertex1 vertex2 weight ans1 with
    | (.error e, g) => some (.error e, g)
    | (.ok (), g) =>
      if g.type = .undirected then edgeAppend fuel g vertex2 vertex1 weight ans2
      else some (.ok (), g)

/-- `List_find_key` in the list of `v`, for `vertexNumber`. -/
def findVertex (checks : Bool) (fuel : Nat) (g : Graph) (v vertexNumber : Nat) :
    Option (Except Exc (Option Nat)) := do
  SingleList.findKey checks fuel g.nodes (← g.list v) fun d =>
    (g.data d).map (equalVertex vertexNumber)

/-- The first entry for `vertexNumber` is taken out of the list of `v`. -/
def deleteEntry (checks : Bool) (fuel : Nat) (g : Graph) (v vertexNumber : Nat) :
    Option (Except Exc Bool × Graph) := do
  match ← findVertex checks fuel g v vertexNumber with
  | .error e => some (.error e, g)
  | .ok none => some (.ok false, g)
  | .ok (some pNode) =>
    match ← SingleList.deleteNode checks fuel g.nodes (← g.list v) pNode with
    | (.error e, m) => some (.error e, { g with nodes := m })
    | (.ok list, m) => some (.ok true, g.setList v list m)

def deleteEdge (checks : Bool) (fuel : Nat) (g : Graph) (vertex1 vertex2 : Nat) :
    Option (Except Exc Bool × Graph) :=
  require checks (g.numberOfVertices ≤ vertex1) g <|
  require checks (g.numberOfVertices ≤ vertex2) g <| do
    match ← deleteEntry checks fuel g vertex1 vertex2 with
    | (.ok true, g) => if g.type = .undirected then deleteEntry checks fuel g vertex2 vertex1 else
        some (.ok true, g)
    | (r, g) => some (r, g)

def isAdjacent (checks : Bool) (fuel : Nat) (g : Graph) (vertex1 vertex2 : Nat) :
    Option (Except Exc Bool × Graph) :=
  require checks (g.numberOfVertices ≤ vertex1) g <|
  require checks (g.numberOfVertices ≤ vertex2) g <| do
    match ← findVertex checks fuel g vertex1 vertex2 with
    | .error e => some (.error e, g)
    | .ok node => some (.ok node.isSome, g)

/-- The loop of `Graph_size`, over the lists of the first vertices. -/
def countEntries (fuel : Nat) (g : Graph) : (i : Nat) → Option Nat
  | 0 => some 0
  | i + 1 => do some ((← countEntries fuel g i) + (← SingleList.length g.nodes fuel (← g.list i)))

/-- The numbers of vertices and of edges. -/
def size (fuel : Nat) (g : Graph) : Option (Nat × Nat) := do
  let edges ← countEntries fuel g g.numberOfVertices
  some (g.numberOfVertices, if g.type = .undirected then edges / 2 else edges)

def edgeIterator (checks : Bool) (g : Graph) (vertexNumber : Nat) (lastReturn : Option Nat) :
    Option (Except Exc (Option Nat) × Graph) :=
  require checks (g.numberOfVertices ≤ vertexNumber) g <| do
    some (.ok (← SingleList.iterator g.nodes (← g.list vertexNumber) lastReturn), g)

/-- What the iterator returns for a vertex until it returns NULL, in a build without `Require`. -/
def enumerate (g : Graph) (v : Nat) : (fuel : Nat) → (lastReturn : Option Nat) →
    Option (List EdgeData)
  | 0, _ => none
  | fuel + 1, lastReturn => do
    match (← edgeIterator false g v lastReturn).1 with
    | .ok none => some []
    | .ok (some i) =>
      some ((← g.data (← CircList.data g.nodes i)) :: (← enumerate g v fuel (some i)))
    | .error _ => none

/-! ## A build with `Require` -/

inductive Call where
  | addEdge (vertex1 vertex2 : Nat) (weight : Int16) (ans1 ans2 : Answers)
  | deleteEdge (vertex1 vertex2 : Nat)
  | isAdjacent (vertex1 vertex2 : Nat)
  | edgeIterator (vertexNumber : Nat) (lastReturn : Option Nat)
deriving Repr, DecidableEq

inductive Answer where
  | done
  | bool (b : Bool)
  | edge (p : Option Nat)
deriving Repr, DecidableEq

def exec (checks : Bool) (fuel : Nat) (g : Graph) : Call → Option (Except Exc Answer × Graph)
  | .addEdge v1 v2 w ans1 ans2 => (addEdge checks fuel g v1 v2 w ans1 ans2).map fun r =>
    (r.1.map fun _ => .done, r.2)
  | .deleteEdge v1 v2 => (deleteEdge checks fuel g v1 v2).map fun r => (r.1.map .bool, r.2)
  | .isAdjacent v1 v2 => (isAdjacent checks fuel g v1 v2).map fun r => (r.1.map .bool, r.2)
  | .edgeIterator v last => (edgeIterator checks g v last).map fun r => (r.1.map .edge, r.2)

/-- The vertices a call is about. -/
def Call.vertices : Call → List Nat
  | .addEdge v1 v2 _ _ _ => [v1, v2]
  | .deleteEdge v1 v2 => [v1, v2]
  | .isAdjacent v1 v2 => [v1, v2]
  | .edgeIterator v _ => [v]

/-- What the guards are for: the call raises `Precondition_Failed` if a vertex is none of the graph,
and otherwise it is carried out. -/
def GuardsOk (g : Graph) (c : Call) : Prop :=
  ((∃ g', Ends (exec true · g c) (.error .preconditionFailed, g')) ↔
      ∃ v ∈ c.vertices, g.numberOfVertices ≤ v) ∧
    ((∀ v ∈ c.vertices, v < g.numberOfVertices) → ∃ ans g', Ends (exec true · g c) (.ok ans, g'))

/-- The weight is one that `Graph_add_edge` takes. -/
def Call.WeightOk : Call → Prop
  | .addEdge _ _ w _ _ => 0 < w ∧ w < unusedWeight
  | _ => True

instance : (c : Call) → Decidable c.WeightOk
  | .addEdge _ _ w _ _ => inferInstanceAs (Decidable (0 < w ∧ w < unusedWeight))
  | .deleteEdge .. => inferInstanceAs (Decidable True)
  | .isAdjacent .. => inferInstanceAs (Decidable True)
  | .edgeIterator .. => inferInstanceAs (Decidable True)

variable {g : Graph} {c : Call}

theorem list_eq_none {v : Nat} (h : g.numberOfVertices ≤ v) : g.list v = none :=
  if_neg (Nat.not_lt.2 h)

/-- A vertex of the graph makes the call raise `Precondition_Failed`. -/
theorem exec_inside (h : ∃ v ∈ c.vertices, v < g.numberOfVertices) (fuel : Nat) :
    exec true fuel g c = some (.error .preconditionFailed, g) := by
  obtain ⟨v, hv, hlt⟩ := h
  have hguard : ∀ {α : Type} {v1 v2 : Nat} (r : Option (Except Exc α × Graph)), v = v1 ∨ v = v2 →
      require true (g.numberOfVertices ≤ v1) g (require true (g.numberOfVertices ≤ v2) g r) =
        some (.error .preconditionFailed, g) := by
    intro α v1 v2 r hv
    by_cases h1 : g.numberOfVertices ≤ v1
    · have h2 : ¬ g.numberOfVertices ≤ v2 := by
        rcases hv with rfl | rfl <;> omega
      simp [require, h1, h2]
    · simp [require, h1]
  cases c with
  | addEdge v1 v2 w ans1 ans2 =>
    rw [exec, addEdge, hguard _ (by simpa [Call.vertices] using hv)]
    rfl
  | deleteEdge v1 v2 =>
    rw [exec, deleteEdge, hguard _ (by simpa [Call.vertices] using hv)]
    rfl
  | isAdjacent v1 v2 =>
    rw [exec, isAdjacent, hguard _ (by simpa [Call.vertices] using hv)]
    rfl
  | edgeIterator v' last =>
    obtain rfl : v = v' := by simpa [Call.vertices] using hv
    simp [exec, edgeIterator, require, hlt, Except.map]

/-- If no vertex is one of the graph, the call indexes `edge_list` outside the graph. -/
theorem exec_outside (h : ∀ v ∈ c.vertices, g.numberOfVertices ≤ v) (hw : c.WeightOk) (fuel : Nat) :
    exec true fuel g c = none := by
  cases c with
  | addEdge v1 v2 w ans1 ans2 =>
    obtain ⟨h1, h2⟩ : g.numberOfVertices ≤ v1 ∧ g.numberOfVertices ≤ v2 := by
      simpa [Call.vertices] using h
    simp [exec, addEdge, require, h1, h2, hw.1, hw.2, edgeAppend, list_eq_none h1]
  | deleteEdge v1 v2 =>
    obtain ⟨h1, h2⟩ : g.numberOfVertices ≤ v1 ∧ g.numberOfVertices ≤ v2 := by
      simpa [Call.vertices] using h
    simp [exec, deleteEdge, require, h1, h2, deleteEntry, findVertex, list_eq_none h1]
  | isAdjacent v1 v2 =>
    obtain ⟨h1, h2⟩ : g.numberOfVertices ≤ v1 ∧ g.numberOfVertices ≤ v2 := by
      simpa [Call.vertices] using h
    simp [exec, isAdjacent, require, h1, h2, findVertex, list_eq_none h1]
  | edgeIterator v last =>
    have h1 : g.numberOfVertices ≤ v := by simpa [Call.vertices] using h
    simp [exec, edgeIterator, require, h1, list_eq_none h1]

/-- **The guards of a graph.** They do what they are for only if one vertex is one of the graph and
another one is not: then the call raises `Precondition_Failed`, for the vertex that it should
accept. -/
theorem guards_ok_iff (g : Graph) {c : Call} (hw : c.WeightOk) : GuardsOk g c ↔
    (∃ v ∈ c.vertices, v < g.numberOfVertices) ∧ ∃ v ∈ c.vertices, g.numberOfVertices ≤ v := by
  by_cases hin : ∃ v ∈ c.vertices, v < g.numberOfVertices
  · have hraise : Ends (exec true · g c) (.error .preconditionFailed, g) := .of_eq (exec_inside hin)
    constructor
    · rintro ⟨hiff, -⟩
      exact ⟨hin, hiff.1 ⟨g, hraise⟩⟩
    · rintro ⟨-, v, hv, hle⟩
      exact ⟨⟨fun _ => ⟨v, hv, hle⟩, fun _ => ⟨g, hraise⟩⟩, fun hall =>
        absurd (hall v hv) (Nat.not_lt.2 hle)⟩
  · have hout : ∀ v ∈ c.vertices, g.numberOfVertices ≤ v := fun v hv => Nat.not_lt.1 fun hlt =>
      hin ⟨v, hv, hlt⟩
    refine iff_of_false (fun hok => ?_) fun h => hin h.1
    obtain ⟨v, hv⟩ : ∃ v, v ∈ c.vertices := by
      cases c <;> exact ⟨_, mem_cons_self⟩
    obtain ⟨g', bound, hends⟩ := hok.1.2 ⟨v, hv, hout v hv⟩
    cases (exec_outside hout hw bound).symm.trans (hends bound (Nat.le_refl _))

/-- One of two vertices is outside. -/
theorem guards_ok_one_outside : GuardsOk (.empty 1 .directed) (.isAdjacent 0 1) :=
  (guards_ok_iff (.empty 1 .directed) (by decide)).2 ⟨⟨0, by decide, by decide⟩,
    1, by decide, by decide⟩

/-- The first edge of a graph with two vertices is refused. -/
theorem guards_refuse_first_edge :
    newGraph true true 2 .undirected = some (.ok (.empty 2 .undirected)) ∧
      ¬ GuardsOk (.empty 2 .undirected) (.addEdge 0 1 1 ⟨some 0, some 0⟩ ⟨some 1, some 1⟩) := by
  refine ⟨rfl, fun hok => ?_⟩
  obtain ⟨v, hv, hle⟩ := hok.1.1 ⟨_, .of_eq fun fuel => rfl⟩
  rcases mem_pair.1 hv with rfl | rfl
  · exact absurd hle (by decide)
  · exact absurd hle (by decide)

/-! ## The entries of the lists -/

/-- The lists of the graph have the nodes `cells` and the entries `adj`. -/
structure Holds (g : Graph) (cells : Nat → List Nat) (adj : Nat → List EdgeData) : Prop where
  list : ∀ v, v < g.numberOfVertices → ∃ ds, IsList g.nodes (g.edgeList v) (cells v) ds ∧
      ds.map g.data = (adj v).map some
  apart : ∀ u v, u < g.numberOfVertices → v < g.numberOfVertices → u ≠ v →
      List.Disjoint (cells u) (cells v)

/-- The lists of the graph have the entries `adj`. -/
def Reps (g : Graph) (adj : Nat → List EdgeData) : Prop := ∃ cells, Holds g cells adj

variable {adj : Nat → List EdgeData} {cells : Nat → List Nat} {u v : Nat}

theorem reps_empty (n : Nat) (type : GraphType) : Reps (.empty n type) fun _ => [] :=
  ⟨fun _ => [], fun _ _ => ⟨[], .nil, rfl⟩, fun _ _ _ _ _ => disjoint_nil_left _⟩

theorem list_eq (h : v < g.numberOfVertices) : g.list v = some (g.edgeList v) := if_pos h

theorem Holds.mem_live (h : Holds g cells adj) {a : Nat} (hv : v < g.numberOfVertices)
    (ha : a ∈ cells v) : g.nodes a ≠ none := by
  obtain ⟨ds, hlist, -⟩ := h.list v hv
  exact hlist.ne_none ha

variable {D : Cells EdgeData} {l ds : List Nat} {es : List EdgeData}

/-- The entries stay when only dead cells change. -/
theorem map_data_congr (hD : ∀ d, g.data d ≠ none → D d = g.data d)
    (hes : ds.map g.data = es.map some) :
    ds.map D = es.map some := by
  rw [← hes]
  refine map_congr_left fun d hd => hD d fun hnone => ?_
  have hmem : g.data d ∈ es.map some := hes ▸ mem_map_of_mem hd
  rw [hnone] at hmem
  simp at hmem

variable {p : Option Nat} {ans : Answers}

/-- Another list for the vertex `v`, made of its old nodes and of new ones. -/
theorem Holds.change (h : Holds g cells adj) (hv : v < g.numberOfVertices) {m : Cells (Node Nat)}
    (hlist : IsList m p l ds) (hes : ds.map D = es.map some)
    (hl : ∀ b ∈ l, b ∈ cells v ∨ g.nodes b = none)
    (hm : ∀ b, b ∉ cells v → g.nodes b ≠ none → m b = g.nodes b)
    (hD : ∀ d, g.data d ≠ none → D d = g.data d) :
    Holds ({ g with data := D }.setList v p m) (update cells v l) (update adj v es) := by
  have hout : ∀ w, w < g.numberOfVertices → w ≠ v → ∀ b ∈ cells w, b ∉ cells v :=
    fun w hw hwv b hb hbv =>
    h.apart w v hw hv hwv hb hbv
  have hnew : ∀ w, w < g.numberOfVertices → w ≠ v → List.Disjoint l (cells w) := by
    intro w hw hwv b hb hbw
    rcases hl b hb with hb | hb
    · exact hout w hw hwv b hbw hb
    · exact h.mem_live hw hbw hb
  constructor
  · intro w hw
    by_cases hwv : w = v
    · subst hwv
      refine ⟨ds, ?_, ?_⟩
      · change IsList m (update g.edgeList w p w) (update cells w l w) ds
        rw [update_self, update_self]
        exact hlist
      · rw [update_self]
        exact hes
    · obtain ⟨ds', hlist', hes'⟩ := h.list w hw
      refine ⟨ds', ?_, ?_⟩
      · change IsList m (update g.edgeList v p w) (update cells v l w) ds'
        rw [update_of_ne hwv, update_of_ne hwv]
        exact hlist'.congr fun b hb => hm b (hout w hw hwv b hb) (h.mem_live hw hb)
      · rw [update_of_ne hwv]
        exact map_data_congr hD hes'
  · intro w w' hw hw' hne
    by_cases hwv : w = v
    · subst hwv
      rw [update_self, update_of_ne (Ne.symm hne)]
      exact hnew w' hw' (Ne.symm hne)
    · rw [update_of_ne hwv]
      by_cases hwv' : w' = v
      · subst hwv'
        rw [update_self]
        exact fun b hb hbl => hnew w hw hwv hbl hb
      · rw [update_of_ne hwv']
        exact h.apart w w' hw hw' hne

/-! ## Appending -/

/-- The answers are free addresses. -/
structure Possible (g : Graph) (ans : Answers) : Prop where
  data : ∀ d, ans.data = some d → g.data d = none
  node : ∀ a, ans.node = some a → g.nodes a = none

/-- Both requests have been granted. -/
def Answers.Granted (ans : Answers) : Prop := ans.data ≠ none ∧ ans.node ≠ none

instance (ans : Answers) : Decidable ans.Granted := inferInstanceAs (Decidable (_ ∧ _))

/-- The first request fails and the call raises `Memory_Failed`, or the second one fails and this is
caught. -/
theorem edgeAppend_not_granted (hv : v < g.numberOfVertices) (hpos : Possible g ans)
    (hans : ¬ ans.Granted) (u : Nat) (w : Int16) (fuel : Nat) :
    edgeAppend fuel g v u w ans = some (if ans.data = none then .error .memoryFailed else .ok (),
    g) := by
  obtain ⟨data, node⟩ := ans
  cases data with
  | none => simp [edgeAppend, list_eq hv]
  | some d =>
    obtain rfl : node = none := by simpa [Answers.Granted] using hans
    have hd : g.data d = none := hpos.data d rfl
    have hback : update g.data d none = g.data := by rw [← hd, update_eq_self]
    simp [edgeAppend, list_eq hv, Cells.alloc_eq hd, SingleList.append, SingleList.allocateNode,
      Cells.free, hback]

/-- One more entry in the list of `v`. -/
def addEntry (v u : Nat) (w : Int16) (adj : Nat → List EdgeData) : Nat → List EdgeData :=
  update adj v (adj v ++ [⟨w, u⟩])

theorem addEntry_apply (v u : Nat) (w : Int16) (adj : Nat → List EdgeData) (x : Nat) :
    addEntry v u w adj x = adj x ++ if v = x then [⟨w, u⟩] else [] := by
  by_cases hx : v = x
  · rw [if_pos hx, addEntry, hx, update_self]
  · rw [if_neg hx, addEntry, update_of_ne (Ne.symm hx), append_nil]

/-- Nothing but the entries has changed. -/
structure Graph.Like (g g' : Graph) : Prop where
  type : g'.type = g.type
  vertices : g'.numberOfVertices = g.numberOfVertices

theorem Reps.ends_edgeAppend (h : Reps g adj) (hv : v < g.numberOfVertices) (hpos : Possible g ans)
    (hans : ans.Granted) (u : Nat) (w : Int16) :
    ∃ g', Ends (edgeAppend · g v u w ans) (.ok (), g') ∧ Reps g' (addEntry v u w adj) ∧
      g.Like g' := by
  obtain ⟨cells, h⟩ := h
  obtain ⟨ds, hlist, hes⟩ := h.list v hv
  obtain ⟨data, node⟩ := ans
  obtain ⟨d, rfl⟩ := ne_none_iff_exists'.1 hans.1
  obtain ⟨a, rfl⟩ := ne_none_iff_exists'.1 hans.2
  have hd : g.data d = none := hpos.data d rfl
  have ha : g.nodes a = none := hpos.node a rfl
  obtain ⟨p, m, ⟨bound, hbound⟩, happend, hsame⟩ := hlist.ends_append ha d
  have hD : ∀ d', g.data d' ≠ none → update g.data d (some ⟨w, u⟩) d' = g.data d' := fun d' hd' =>
    update_of_ne (fun heq : d' = d => hd' (heq ▸ hd)) ..
  refine ⟨_, ⟨bound, fun fuel hfuel => ?_⟩,
    ⟨_, h.change (D := update g.data d (some ⟨w, u⟩)) hv happend ?_ ?_ ?_ hD⟩,
    rfl, rfl⟩
  · simp only [edgeAppend, list_eq hv, Cells.alloc_eq hd, hbound fuel hfuel,
      bind_eq_bind, bind_some]
  · rw [map_append, map_append, map_data_congr hD hes, map_singleton, map_singleton, update_self]
  · intro b hb
    rcases mem_append.1 hb with hb | hb
    · exact .inl hb
    · exact .inr (mem_singleton.1 hb ▸ ha)
  · exact fun b hb hlive => hsame b hb fun heq => hlive (heq ▸ ha)

/-! ## Searching and deleting -/

/-- The search in the list of `v`, with the place in the list. -/
theorem Holds.ends_findVertex (h : Holds g cells adj) (hv : v < g.numberOfVertices) (u : Nat) :
    (Ends (findVertex false · g v u) (.ok none) ∧ ∀ e ∈ adj v, equalVertex u e = false) ∨
      ∃ a l1 l2 ds1 d ds2 es1 e es2, Ends (findVertex false · g v u) (.ok (some a)) ∧
        cells v = l1 ++ a :: l2 ∧ IsList g.nodes (g.edgeList v) (l1 ++ a :: l2) (ds1 ++ d :: ds2) ∧
        l1.length = ds1.length ∧ adj v = es1 ++ e :: es2 ∧
        (ds1 ++ ds2).map g.data = (es1 ++ es2).map some ∧ (∀ e' ∈ es1, equalVertex u e' = false) ∧
        equalVertex u e = true := by
  obtain ⟨ds, hlist, hes⟩ := h.list v hv
  -- the comparison reads the `edge_data` a node points to
  have hgo : ∀ d e, g.data d = some e → ((g.data d).map (equalVertex u)).getD false = equalVertex u
      e := fun d e hd => by
    rw [hd]
    rfl
  have hlive : ∀ d ∈ ds, (g.data d).map (equalVertex u) =
      some (((g.data d).map (equalVertex u)).getD false) := by
    intro d hd
    have hmem : g.data d ∈ (adj v).map some := hes ▸ mem_map_of_mem hd
    obtain ⟨e, -, he⟩ := mem_map.1 hmem
    rw [← he]
    rfl
  obtain ⟨res, hends, hres⟩ := hlist.ends_findKey hlive
  have hfind : Ends (findVertex false · g v u) (.ok res) := by
    simpa only [findVertex, list_eq hv, bind_eq_bind, bind_some] using hends
  cases res with
  | none =>
    refine .inl ⟨hfind, fun e he => ?_⟩
    have hmem : some e ∈ ds.map g.data := hes ▸ mem_map_of_mem he
    obtain ⟨d, hd, hde⟩ := mem_map.1 hmem
    rw [← hgo d e hde]
    exact hres d hd
  | some a =>
    obtain ⟨l1, l2, ds1, d, ds2, hl, rfl, hlen, hno, hyes⟩ := hres
    rw [map_append, map_cons] at hes
    obtain ⟨es1, rest, hadj, hes1, hrest⟩ := map_eq_append_iff.1 hes.symm
    obtain ⟨e, es2, rfl, hde, hes2⟩ := map_eq_cons_iff.1 hrest
    refine .inr ⟨a, l1, l2, ds1, d, ds2, es1, e, es2, hfind, hl, hl ▸ hlist, hlen, hadj, ?_,
      fun e' he' => ?_, ?_⟩
    · rw [map_append, map_append, hes1, hes2]
    · have hmem : some e' ∈ ds1.map g.data := hes1 ▸ mem_map_of_mem he'
      obtain ⟨d', hd', hde'⟩ := mem_map.1 hmem
      rw [← hgo d' e' hde']
      exact hno d' hd'
    · rw [← hgo d e hde.symm]
      exact hyes

theorem Reps.ends_isAdjacent (h : Reps g adj) (hu : u < g.numberOfVertices) (v : Nat) :
    Ends (isAdjacent false · g u v) (.ok ((adj u).any (equalVertex v)), g) := by
  obtain ⟨cells, h⟩ := h
  have hcall : ∀ fuel res, findVertex false fuel g u v = some (.ok res) →
      isAdjacent false fuel g u v = some (.ok res.isSome, g) :=
    fun fuel res hres => by simp [isAdjacent, require, hres]
  rcases h.ends_findVertex hu v with ⟨⟨bound, hb⟩, hno⟩ | ⟨a, _, _, _, _, _, es1, e, es2,
    ⟨bound, hb⟩, -, -, -, hadj, -, -, hyes⟩
  · refine ⟨bound, fun fuel hfuel => (hcall fuel none (hb fuel hfuel)).trans ?_⟩
    rw [any_eq_false.2 fun e he => by simp [hno e he]]
    rfl
  · refine ⟨bound, fun fuel hfuel => (hcall fuel _ (hb fuel hfuel)).trans ?_⟩
    rw [any_eq_true.2 ⟨e, by simp [hadj], hyes⟩]
    rfl

/-- The first entry for `u` is taken out of the list of `v`. -/
def eraseEntry (v u : Nat) (adj : Nat → List EdgeData) : Nat → List EdgeData :=
  update adj v ((adj v).eraseP (equalVertex u))

theorem eraseEntry_apply (v u : Nat) (adj : Nat → List EdgeData) (x : Nat) :
    eraseEntry v u adj x = if v = x then (adj x).eraseP (equalVertex u) else adj x := by
  by_cases hx : v = x
  · rw [if_pos hx, eraseEntry, hx, update_self]
  · rw [if_neg hx, eraseEntry, update_of_ne (Ne.symm hx)]

theorem Reps.ends_deleteEntry (h : Reps g adj) (hv : v < g.numberOfVertices) (u : Nat) :
    ∃ g', Ends (deleteEntry false · g v u) (.ok ((adj v).any (equalVertex u)), g') ∧
      Reps g' (eraseEntry v u adj) ∧
      g.Like g' := by
  obtain ⟨cells, h⟩ := h
  rcases h.ends_findVertex hv u with
    ⟨⟨bound, hb⟩, hno⟩ | ⟨a, l1, l2, ds1, d, ds2, es1, e, es2, ⟨bound, hb⟩, hl, hlist, hlen, hadj,
    hes, hno, hyes⟩
  · have hsame : eraseEntry v u adj = adj := by
      rw [eraseEntry, eraseP_of_forall_not fun e he => by simp [hno e he], update_eq_self]
    refine ⟨g, ⟨bound, fun fuel hfuel => ?_⟩, by rw [hsame]; exact ⟨cells, h⟩, rfl, rfl⟩
    rw [any_eq_false.2 fun e he => by simp [hno e he]]
    simp only [deleteEntry, hb fuel hfuel, bind_eq_bind, bind_some]
  · obtain ⟨p, m, ⟨bound', hb'⟩, hdel, hsame⟩ := hlist.ends_deleteNode false hlen
    have herase : (adj v).eraseP (equalVertex u) = es1 ++ es2 := by
      rw [hadj, eraseP_append_right _ fun e he => by simp [hno e he], eraseP_cons_of_pos hyes]
    have hsub : ∀ b ∈ l1 ++ l2, b ∈ cells v := fun b hb => by
      rw [hl]
      rcases mem_append.1 hb with hb | hb <;> simp [hb]
    have hchange := h.change hv hdel hes (fun b hb => .inl (hsub b hb)) (fun b hb _ =>
      hsame b (hl ▸ hb)) fun _ _ => rfl
    rw [← herase] at hchange
    refine ⟨g.setList v p m, ⟨max bound bound', fun fuel hfuel => ?_⟩, ⟨_, hchange⟩, rfl, rfl⟩
    rw [any_eq_true.2 ⟨e, by simp [hadj], hyes⟩]
    simp only [deleteEntry, hb fuel (le_trans (le_max_left ..) hfuel),
      hb' fuel (le_trans (le_max_right ..) hfuel), list_eq hv, bind_eq_bind, bind_some]

/-! ## Reading the graph -/

theorem ends_enumerate_from {last : Option Nat} (hv : v < g.numberOfVertices)
    (hlist : IsList g.nodes p l ds) (hes : ds.map g.data = es.map some)
    (hlast : SingleList.iterator g.nodes (g.edgeList v) last = some p) :
    Ends (enumerate g v · last) es := by
  have hnext : edgeIterator false g v last = some (.ok p, g) := by
    simp [edgeIterator, require, list_eq hv, hlast]
  induction l generalizing p ds es last with
  | nil =>
    obtain rfl : p = none := hlist.path
    obtain rfl : ds = [] := length_eq_zero_iff.1 hlist.length_eq.symm
    obtain rfl : es = [] := by simpa using hes.symm
    exact .of_succ fun fuel => by simp [enumerate, hnext]
  | cons a l ih =>
    obtain ⟨d, ds, rfl⟩ := hlist.exists_cons
    obtain ⟨rfl, ⟨q, ha, hq⟩, -⟩ := IsList.cons_iff.1 hlist
    obtain ⟨e, es, rfl, hde, hes⟩ := map_eq_cons_iff.1 hes.symm
    have hlast' : SingleList.iterator g.nodes (g.edgeList v) (some a) = some q := by
      simp [SingleList.iterator, CircList.next, ha]
    have hnext' : edgeIterator false g v (some a) = some (.ok q, g) := by
      simp [edgeIterator, require, list_eq hv, hlast']
    refine ((ih hq hes.symm hlast' hnext').map (e :: ·)).step fun fuel => ?_
    simp [enumerate, hnext, CircList.data, ha, ← hde, map_eq_bind]

theorem Reps.ends_enumerate (h : Reps g adj) (hv : v < g.numberOfVertices) :
    Ends (enumerate g v · none) (adj v) := by
  obtain ⟨cells, h⟩ := h
  obtain ⟨ds, hlist, hes⟩ := h.list v hv
  exact ends_enumerate_from hv hlist hes rfl

theorem Reps.ends_countEntries (h : Reps g adj) {i : Nat} (hi : i ≤ g.numberOfVertices) :
    Ends (countEntries · g i) (((List.range i).map fun v => (adj v).length).sum) := by
  induction i with
  | zero => exact .of_eq fun fuel => rfl
  | succ i ih =>
    obtain ⟨cells, h⟩ := h
    obtain ⟨ds, hlist, hes⟩ := h.list i hi
    have hlen : ds.length = (adj i).length := by simpa using congrArg List.length hes
    rw [range_succ, map_append, sum_append, map_singleton, sum_singleton, ← hlen]
    obtain ⟨bound, hb⟩ := ih (Nat.le_of_lt hi)
    obtain ⟨bound', hb'⟩ := hlist.ends_length
    refine ⟨max bound bound', fun fuel hfuel => ?_⟩
    simp only [countEntries, hb fuel (le_trans (le_max_left ..) hfuel),
      hb' fuel (le_trans (le_max_right ..) hfuel), list_eq hi, bind_eq_bind, bind_some]

end CLangProject.GraphAdjList
