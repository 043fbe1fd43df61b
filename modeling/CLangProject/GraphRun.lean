import CLangProject.GraphAdjList

/-!
# Runs of graph calls, in a build without `Require`

Two results over the entries of the lists. `Refines`: if no request for memory fails, a graph is a
weighted multigraph. Its edges stand in the order in which they have been added, and the list of a
vertex can be read off from them (`entriesOf`). Deletion removes the first match of each of two
lists, and with this order both are of the same edge.

`Mirrors`: with failures, an undirected graph stays symmetric as long as no call adds one half of an
edge only. `Graph_add_edge` makes four requests; that for the first `edge_data` raises
`Memory_Failed` before anything is changed, but every other failure leaves the other half in its
list, unless this half fails as well.
-/

namespace CLangProject.GraphAdjList

open List Option Function

variable {g g' : Graph} {adj : Nat → List EdgeData} {u v : Nat} {w : Int16} {ans1 ans2 : Answers}

/-! ## One call -/

/-- What a call of a run may be. The answers of the allocator are free addresses at the time of the
request. -/
def Allowed (g : Graph) : Call → Prop
  | .addEdge v1 v2 w ans1 ans2 => v1 < g.numberOfVertices ∧ v2 < g.numberOfVertices ∧
      Possible g ans1 ∧ (g.type = .undirected → ∀ fuel r g', edgeAppend fuel g v1 v2 w ans1 =
      some (r, g') → Possible g' ans2)
  | .deleteEdge v1 v2 => v1 < g.numberOfVertices ∧ v2 < g.numberOfVertices
  | .isAdjacent v1 v2 => v1 < g.numberOfVertices ∧ v2 < g.numberOfVertices
  | .edgeIterator _ _ => False

/-- How `__edge_append` ends. -/
def outcome (ans : Answers) : Except SingleList.Exc Unit :=
  if ans.data = none then .error .memoryFailed else .ok ()

/-- The entries after `__edge_append`. -/
def addIf (ans : Answers) (v u : Nat) (w : Int16) (adj : Nat → List EdgeData) :
    Nat → List EdgeData :=
  if ans.Granted then addEntry v u w adj else adj

theorem Reps.ends_edgeAppend_outcome (h : Reps g adj) {ans : Answers} (hv : v < g.numberOfVertices)
    (hpos : Possible g ans) (u : Nat) (w : Int16) :
    ∃ g', Ends (edgeAppend · g v u w ans) (outcome ans, g') ∧ Reps g' (addIf ans v u w adj) ∧
    g.Like g' := by
  by_cases hans : ans.Granted
  · obtain ⟨g', hends, hreps, hlike⟩ := h.ends_edgeAppend hv hpos hans u w
    rw [outcome, if_neg hans.1, addIf, if_pos hans]
    exact ⟨g', hends, hreps, hlike⟩
  · rw [addIf, if_neg hans]
    exact ⟨g, .of_eq (edgeAppend_not_granted hv hpos hans u w), h, rfl, rfl⟩

/-- The entries after `Graph_add_edge`. -/
def added (type : GraphType) (u v : Nat) (w : Int16) (ans1 ans2 : Answers)
    (adj : Nat → List EdgeData) : Nat → List EdgeData :=
  if ans1.data = none then adj
  else if type = .undirected then addIf ans2 v u w (addIf ans1 u v w adj)
  else addIf ans1 u v w adj

theorem Reps.ends_addEdge (h : Reps g adj) (hall : Allowed g (.addEdge u v w ans1 ans2)) :
    ∃ r g', Ends (addEdge false · g u v w ans1 ans2) (r, g') ∧
      Reps g' (added g.type u v w ans1 ans2 adj) ∧ g.Like g' ∧
        (r = .ok () ↔ ans1.data ≠ none ∧ (g.type = .undirected → ans2.data ≠ none)) := by
  obtain ⟨hu, hv, hpos1, hpos2⟩ := hall
  obtain ⟨g1, ⟨bound, hb⟩, hreps1, hlike⟩ := h.ends_edgeAppend_outcome hu hpos1 v w
  by_cases hdata : ans1.data = none
  · refine ⟨.error .memoryFailed, g, .of_eq fun fuel => ?_, by rw [added, if_pos hdata]; exact h,
      ⟨rfl, rfl⟩, ?_⟩
    · have hnot : ¬ ans1.Granted := fun hans => hans.1 hdata
      simp [addEdge, require, edgeAppend_not_granted hu hpos1 hnot, hdata]
    · simp [hdata]
  · have hok : outcome ans1 = .ok () := if_neg hdata
    rw [hok] at hb
    by_cases htype : g.type = .undirected
    · have hposs := hpos2 htype bound _ _ (hb bound (Nat.le_refl _))
      obtain ⟨g2, ⟨bound', hb'⟩, hreps2, hlike'⟩ :=
        hreps1.ends_edgeAppend_outcome (hlike.vertices ▸ hv) hposs u w
      refine ⟨outcome ans2, g2, ⟨max bound bound', fun fuel hfuel => ?_⟩, ?_,
        ⟨hlike'.type.trans hlike.type, ?_⟩, ?_⟩
      · have h1 := hb fuel (le_trans (le_max_left ..) hfuel)
        have h2 := hb' fuel (le_trans (le_max_right ..) hfuel)
        simp only [addEdge, require, Bool.false_eq_true, false_and, if_false, h1,
          bind_eq_bind, bind_some, hlike.type, htype, if_true, h2]
      · rw [added, if_neg hdata, if_pos htype]
        exact hreps2
      · exact hlike'.vertices.trans hlike.vertices
      · by_cases hdata2 : ans2.data = none <;> simp [outcome, hdata, hdata2, htype]
    · refine ⟨.ok (), g1, ⟨bound, fun fuel hfuel => ?_⟩, ?_, hlike, by simp [hdata, htype]⟩
      · simp only [addEdge, require, Bool.false_eq_true, false_and, if_false, hb fuel hfuel,
          bind_eq_bind, bind_some, hlike.type, htype]
      · rw [added, if_neg hdata, if_neg htype]
        exact hreps1

/-- The entries after `Graph_delete_edge`, and the value it returns. -/
def deleted (type : GraphType) (u v : Nat) (adj : Nat → List EdgeData) :
    Bool × (Nat → List EdgeData) :=
  if (adj u).any (equalVertex v) then
    if type = .undirected then ((eraseEntry u v adj v).any (equalVertex u),
      eraseEntry v u (eraseEntry u v adj))
    else (true, eraseEntry u v adj)
  else (false, adj)

theorem Reps.ends_deleteEdge (h : Reps g adj) (hu : u < g.numberOfVertices)
    (hv : v < g.numberOfVertices) :
    ∃ g', Ends (deleteEdge false · g u v) (.ok (deleted g.type u v adj).1, g') ∧
      Reps g' (deleted g.type u v adj).2 ∧ g.Like g' := by
  obtain ⟨g1, ⟨bound, hb⟩, hreps1, hlike⟩ := h.ends_deleteEntry hu v
  by_cases hany : (adj u).any (equalVertex v) = true
  · rw [hany] at hb
    by_cases htype : g.type = .undirected
    · obtain ⟨g2, ⟨bound', hb'⟩, hreps2, hlike'⟩ := hreps1.ends_deleteEntry (hlike.vertices ▸ hv) u
      rw [deleted, if_pos hany, if_pos htype]
      refine ⟨g2, ⟨max bound bound', fun fuel hfuel => ?_⟩, hreps2, hlike'.type.trans hlike.type,
        hlike'.vertices.trans hlike.vertices⟩
      simp only [deleteEdge, require, Bool.false_eq_true, false_and, if_false,
        hb fuel (le_trans (le_max_left ..) hfuel), hb' fuel (le_trans (le_max_right ..) hfuel),
          bind_eq_bind, bind_some, hlike.type, htype, if_true]
    · rw [deleted, if_pos hany, if_neg htype]
      refine ⟨g1, ⟨bound, fun fuel hfuel => ?_⟩, hreps1, hlike⟩
      simp only [deleteEdge, require, Bool.false_eq_true, false_and, if_false,
        hb fuel hfuel, bind_eq_bind, bind_some, hlike.type, htype]
  · have hfalse : (adj u).any (equalVertex v) = false := by simpa using hany
    have hsame : eraseEntry u v adj = adj := by
      rw [eraseEntry, eraseP_of_forall_not fun e he => any_eq_false.1 hfalse e he, update_eq_self]
    rw [hfalse] at hb
    rw [deleted, if_neg hany]
    refine ⟨g1, ⟨bound, fun fuel hfuel => ?_⟩, hsame ▸ hreps1, hlike⟩
    simp only [deleteEdge, require, Bool.false_eq_true, false_and, if_false, hb fuel hfuel,
      bind_eq_bind, bind_some]

/-! ## A weighted multigraph -/

structure Edge where
  source : Nat
  target : Nat
  weight : Int16
deriving Repr, DecidableEq

/-- The edges, in the order in which they have been added. -/
abbrev Multigraph := List Edge

/-- The edge leads from `u` to `v`. -/
def Edge.Joins (type : GraphType) (u v : Nat) (e : Edge) : Prop :=
  (e.source = u ∧ e.target = v) ∨ (type = .undirected ∧ e.source = v ∧ e.target = u)

instance (type : GraphType) (u v : Nat) (e : Edge) : Decidable (e.Joins type u v) :=
  inferInstanceAs (Decidable (_ ∨ _))

/-- The entries of the edge in the list of `x`. A loop of an undirected graph has two. -/
def Edge.entriesAt (type : GraphType) (x : Nat) (e : Edge) : List EdgeData :=
  (if e.source = x then [⟨e.weight, e.target⟩] else []) ++
    if type = .undirected ∧ e.target = x then [⟨e.weight, e.source⟩] else []

/-- The entries in the list of `x`. -/
def entriesOf (type : GraphType) (E : Multigraph) (x : Nat) : List EdgeData :=
  E.flatMap (Edge.entriesAt type x)

variable {type : GraphType} {E E1 E2 : Multigraph} {e : Edge} {x : Nat}

theorem entriesOf_append : entriesOf type (E1 ++ E2) x = entriesOf type E1 x ++ entriesOf type E2
    x := flatMap_append

theorem entriesOf_cons : entriesOf type (e :: E) x = e.entriesAt type x ++ entriesOf type E x :=
  flatMap_cons

theorem any_entriesAt : ((e.entriesAt type u).any (equalVertex v) = true) ↔ e.Joins type u v := by
  have hite : ∀ (c : Prop) [Decidable c] (d : EdgeData),
      ((if c then [d] else []).any (equalVertex v) = true) ↔ c ∧ d.vertexNumber = v := by
    intro c _ d
    by_cases hc : c <;> simp [hc, equalVertex_iff]
  rw [Edge.entriesAt, any_append, Bool.or_eq_true, hite, hite, Edge.Joins, and_assoc]
  exact or_congr_right (and_congr_right fun _ => and_comm)

theorem any_entriesOf : ((entriesOf type E u).any (equalVertex v) = true) ↔
    ∃ e ∈ E, e.Joins type u v := by
  rw [entriesOf, any_flatMap, List.any_eq_true]
  exact exists_congr fun e => and_congr_right fun _ => any_entriesAt

/-- The first entry for `v` in the list of `u` comes after the edges that do not lead from `u` to
`v`. -/
theorem eraseP_entriesOf {d : EdgeData} {ds : List EdgeData} (hno : ∀ e ∈ E1, ¬ e.Joins type u v)
    (hd : equalVertex v d = true) :
    (entriesOf type E1 u ++ d :: ds).eraseP (equalVertex v) = entriesOf type E1 u ++ ds := by
  have hnone : ∀ d ∈ entriesOf type E1 u, ¬ equalVertex v d = true := by
    intro d hd hv
    obtain ⟨e, he, hj⟩ := any_entriesOf.1 (List.any_eq_true.2 ⟨d, hd, hv⟩)
    exact hno e he hj
  rw [eraseP_append_right _ hnone, eraseP_cons_of_pos hd]

/-- Adding an edge adds its entries. -/
theorem added_entriesOf (u v : Nat) (w : Int16) (hans1 : ans1.Granted)
    (hans2 : type = .undirected → ans2.Granted) :
    added type u v w ans1 ans2 (entriesOf type E) = entriesOf type (E ++ [⟨u, v, w⟩]) := by
  have hnew : ∀ x, entriesOf type (E ++ [⟨u, v, w⟩]) x = entriesOf type E x ++ Edge.entriesAt type x
      ⟨u, v, w⟩ := fun x => by
    rw [entriesOf_append, entriesOf_cons, entriesOf, entriesOf, flatMap_nil, append_nil]
  funext x
  rw [hnew, added, if_neg hans1.1]
  by_cases htype : type = .undirected
  · rw [if_pos htype, addIf, if_pos (hans2 htype), addIf, if_pos hans1, addEntry_apply,
      addEntry_apply, append_assoc]
    simp only [Edge.entriesAt, htype, true_and]
  · rw [if_neg htype, addIf, if_pos hans1, addEntry_apply]
    simp only [Edge.entriesAt, htype, false_and, if_false, append_nil]

theorem Edge.joins_comm (htype : type = .undirected) : e.Joins type u v ↔ e.Joins type v u := by
  simp only [Edge.Joins, htype, true_and]
  exact or_comm

/-- The entries before and after the edge `e` is taken out. -/
theorem entriesOf_split (E1 E2 : Multigraph) (e : Edge) (x : Nat) :
    entriesOf type (E1 ++ e :: E2) x = entriesOf type E1 x ++
      (e.entriesAt type x ++ entriesOf type E2 x) := by rw [entriesOf_append, entriesOf_cons]

/-- A loop of an undirected graph has both entries in one list. -/
theorem erase_loop (E2 : Multigraph) (htype : type = .undirected) (hs : e.source = u)
    (ht : e.target = u) (hno : ∀ e ∈ E1, ¬ e.Joins type u u) :
    (eraseEntry u u (entriesOf type (E1 ++ e :: E2)) u).any (equalVertex u) = true ∧
      eraseEntry u u (eraseEntry u u (entriesOf type (E1 ++ e :: E2))) = entriesOf type
        (E1 ++ E2) := by
  have hd : equalVertex u ⟨e.weight, u⟩ = true := equalVertex_iff.2 rfl
  have hself : entriesOf type (E1 ++ e :: E2) u = entriesOf type E1 u ++ ⟨e.weight, u⟩ :: ⟨e.weight,
      u⟩ :: entriesOf type E2 u := by
    simp [entriesOf_split, Edge.entriesAt, htype, hs, ht]
  constructor
  · rw [eraseEntry_apply, if_pos rfl, hself, eraseP_entriesOf hno hd]
    simp [hd]
  · funext x
    rw [eraseEntry_apply, eraseEntry_apply]
    by_cases hx : u = x
    · rw [if_pos hx, if_pos hx, ← hx, hself, eraseP_entriesOf hno hd, eraseP_entriesOf hno hd,
        entriesOf_append]
    · have hnil : e.entriesAt type x = [] := by simp [Edge.entriesAt, hs, ht, hx]
      rw [if_neg hx, if_neg hx, entriesOf_split, hnil, nil_append, entriesOf_append]

/-- An edge between two vertices of an undirected graph has one entry in the list of each. -/
theorem erase_both (E2 : Multigraph) (htype : type = .undirected) (huv : u ≠ v)
    (he : e.Joins type u v) (hno : ∀ e ∈ E1, ¬ e.Joins type u v) :
    (eraseEntry u v (entriesOf type (E1 ++ e :: E2)) v).any (equalVertex u) = true ∧
      eraseEntry v u (eraseEntry u v (entriesOf type (E1 ++ e :: E2))) = entriesOf type
        (E1 ++ E2) := by
  have hno' : ∀ e ∈ E1, ¬ e.Joins type v u := fun e he hj => hno e he ((Edge.joins_comm htype).2 hj)
  obtain ⟨hu, hv⟩ : e.entriesAt type u = [⟨e.weight, v⟩] ∧
    e.entriesAt type v = [⟨e.weight, u⟩] := by
    rcases he with ⟨hs, ht⟩ | ⟨-, hs, ht⟩ <;> simp [Edge.entriesAt, htype, hs, ht, huv, Ne.symm huv]
  have hx : ∀ x, u ≠ x → v ≠ x → e.entriesAt type x = [] := fun x hux hvx => by
    rcases he with ⟨hs, ht⟩ | ⟨-, hs, ht⟩ <;> simp [Edge.entriesAt, hs, ht, hux, hvx]
  constructor
  · rw [eraseEntry_apply, if_neg huv]
    exact any_entriesOf.2 ⟨e, by simp, (Edge.joins_comm htype).1 he⟩
  · funext x
    rw [eraseEntry_apply, eraseEntry_apply, entriesOf_split, entriesOf_append]
    by_cases hux : u = x
    · subst hux
      rw [if_neg (Ne.symm huv), if_pos rfl, hu]
      exact eraseP_entriesOf hno (equalVertex_iff.2 rfl)
    · rw [if_neg hux]
      by_cases hvx : v = x
      · subst hvx
        rw [if_pos rfl, hv]
        exact eraseP_entriesOf hno' (equalVertex_iff.2 rfl)
      · rw [if_neg hvx, hx x hux hvx, nil_append]

theorem erase_directed (htype : type ≠ .undirected) (hs : e.source = u) (ht : e.target = v)
    (hno : ∀ e ∈ E1, ¬ e.Joins type u v) :
    eraseEntry u v (entriesOf type (E1 ++ e :: E2)) = entriesOf type (E1 ++ E2) := by
  funext x
  rw [eraseEntry_apply, entriesOf_split, entriesOf_append, Edge.entriesAt,
    if_neg fun h : type = .undirected ∧ _ => htype h.1, append_nil, hs, ht]
  by_cases hux : u = x
  · subst hux
    rw [if_pos rfl, if_pos rfl]
    exact eraseP_entriesOf hno (equalVertex_iff.2 rfl)
  · rw [if_neg hux, if_neg hux, nil_append]

/-- Deleting takes out the first edge from `u` to `v`, and nothing else. -/
theorem deleted_entriesOf (hno : ∀ e ∈ E1, ¬ e.Joins type u v) (he : e.Joins type u v) :
    deleted type u v (entriesOf type (E1 ++ e :: E2)) = (true, entriesOf type (E1 ++ E2)) := by
  rw [deleted, if_pos (any_entriesOf.2 ⟨e, by simp, he⟩)]
  by_cases htype : type = .undirected
  · rw [if_pos htype]
    by_cases huv : u = v
    · subst huv
      obtain ⟨hs, ht⟩ : e.source = u ∧ e.target = u := he.elim id And.right
      obtain ⟨hany, herase⟩ := erase_loop E2 htype hs ht hno
      rw [hany, herase]
    · obtain ⟨hany, herase⟩ := erase_both E2 htype huv he hno
      rw [hany, herase]
  · obtain ⟨hs, ht⟩ : e.source = u ∧ e.target = v := he.resolve_right fun h => htype h.1
    rw [if_neg htype, erase_directed htype hs ht hno]

theorem deleted_entriesOf_none (hno : ∀ e ∈ E, ¬ e.Joins type u v) :
    deleted type u v (entriesOf type E) = (false, entriesOf type E) := by
  refine if_neg fun hany => ?_
  obtain ⟨e, he, hj⟩ := any_entriesOf.1 hany
  exact hno e he hj

/-! ## The number of edges -/

theorem sum_range_ite {a n : Nat} (h : a < n) :
    ((List.range n).map fun x => if a = x then 1 else 0).sum = 1 := by
  induction n with
  | zero => omega
  | succ n ih =>
    rw [range_succ, map_append, sum_append, map_singleton, sum_singleton]
    by_cases ha : a = n
    · have hzero : ((List.range n).map fun x => if a = x then 1 else 0) =
          (List.range n).map fun _ => 0 :=
        map_congr_left fun x hx => if_neg fun heq => by
          have := mem_range.1 hx
          omega
      rw [if_pos ha, hzero]
      simp
    · rw [if_neg ha, ih (by omega)]

/-- The number of entries of one edge. -/
def GraphType.entriesPerEdge : GraphType → Nat
  | .directed => 1
  | .undirected => 2

/-- Each edge has its entries in the lists of the graph. -/
theorem sum_length_entriesOf {n : Nat} (hE : ∀ e ∈ E, e.source < n ∧ e.target < n) :
    ((List.range n).map fun x => (entriesOf type E x).length).sum = type.entriesPerEdge *
    E.length := by
  induction E with
  | nil => simp [entriesOf]
  | cons e E ih =>
    obtain ⟨⟨hs, ht⟩, hE⟩ := forall_mem_cons.1 hE
    have hlen : ∀ x, (entriesOf type (e :: E) x).length =
        ((if e.source = x then 1 else 0) + if type = .undirected ∧ e.target = x then 1 else 0) +
        (entriesOf type E x).length := by
      intro x
      rw [entriesOf_cons, length_append, Edge.entriesAt, length_append, apply_ite List.length,
        apply_ite List.length]
      rfl
    simp only [hlen, sum_map_add, ih hE, sum_range_ite hs]
    cases type with
    | directed =>
      have hzero : ((List.range n).map fun _ : Nat => 0).sum = 0 := by simp
      simp only [reduceCtorEq, false_and, if_false, hzero, GraphType.entriesPerEdge, length_cons]
      omega
    | undirected =>
      simp only [true_and, sum_range_ite ht, GraphType.entriesPerEdge, length_cons]
      omega

theorem Reps.ends_size (h : Reps g (entriesOf g.type E))
    (hE : ∀ e ∈ E, e.source < g.numberOfVertices ∧ e.target < g.numberOfVertices) :
    Ends (size · g) (g.numberOfVertices, E.length) := by
  obtain ⟨bound, hb⟩ := h.ends_countEntries (Nat.le_refl _)
  refine ⟨bound, fun fuel hfuel => ?_⟩
  simp only [size, hb fuel hfuel, sum_length_entriesOf hE, bind_eq_bind, bind_some]
  cases g.type with
  | directed | undirected => simp [GraphType.entriesPerEdge]

/-! ## Runs without failures -/

/-- What the calls are for. Deletion removes the oldest edge from `u` to `v`. -/
inductive Step (type : GraphType) : Multigraph → Call → Answer → Multigraph → Prop where
  | addEdge {E : Multigraph} (u v : Nat) (w : Int16) (ans1 ans2 : Answers) :
      Step type E (.addEdge u v w ans1 ans2) .done (E ++ [⟨u, v, w⟩])
  | deleteEdge {u v : Nat} {E1 E2 : Multigraph} {e : Edge} (he : e.Joins type u v)
      (hfirst : ∀ e ∈ E1, ¬ e.Joins type u v) :
      Step type (E1 ++ e :: E2) (.deleteEdge u v) (.bool true) (E1 ++ E2)
  | deleteNone {u v : Nat} {E : Multigraph} (hno : ∀ e ∈ E, ¬ e.Joins type u v) :
      Step type E (.deleteEdge u v) (.bool false) E
  | isAdjacent {E : Multigraph} (u v : Nat) {b : Bool} (hb : b = true ↔ ∃ e ∈ E, e.Joins type u v) :
      Step type E (.isAdjacent u v) (.bool b) E

/-- The graph has the edges `E`: the iterator returns their entries, and `Graph_size` their number.
-/
structure Shows (g : Graph) (E : Multigraph) : Prop where
  entries : ∀ v, v < g.numberOfVertices → Ends (enumerate g v · none) (entriesOf g.type E v)
  size : Ends (size · g) (g.numberOfVertices, E.length)

/-- No request of the call fails. -/
def Call.Granted (type : GraphType) : Call → Prop
  | .addEdge _ _ _ ans1 ans2 => ans1.Granted ∧ (type = .undirected → ans2.Granted)
  | _ => True

/-- Every call of the run ends and does what it is for, as long as the calls are allowed and find
memory. -/
def Refines : Graph → Multigraph → List Call → Prop
  | g, E, [] => Shows g E
  | g, E, c :: cs => Shows g E ∧ (Allowed g c → c.Granted g.type →
      ∃ ans g' E', Ends (exec false · g c) (.ok ans, g') ∧ g.Like g' ∧ Step g.type E c ans E' ∧
        Refines g' E' cs)

/-- The edges of the graph. -/
structure HasEdges (g : Graph) (E : Multigraph) : Prop where
  reps : Reps g (entriesOf g.type E)
  inside : ∀ e ∈ E, e.source < g.numberOfVertices ∧ e.target < g.numberOfVertices

theorem HasEdges.shows (h : HasEdges g E) : Shows g E :=
  ⟨fun _ hv => h.reps.ends_enumerate hv, h.reps.ends_size h.inside⟩

theorem HasEdges.of_like {E' : Multigraph} (hlike : g.Like g')
    (hreps : Reps g' (entriesOf g.type E')) (hE : ∀ e ∈ E', e.source < g.numberOfVertices ∧
      e.target < g.numberOfVertices) : HasEdges g' E' :=
  ⟨hlike.type ▸ hreps, hlike.vertices ▸ hE⟩

theorem HasEdges.exec {c : Call} (h : HasEdges g E) (hall : Allowed g c)
    (hgrant : c.Granted g.type) :
    ∃ ans g' E', Ends (exec false · g c) (.ok ans, g') ∧ g.Like g' ∧ Step g.type E c ans E' ∧
      HasEdges g' E' := by
  cases c with
  | addEdge u v w ans1 ans2 =>
    obtain ⟨r, g', hends, hreps, hlike, hr⟩ := h.reps.ends_addEdge hall
    obtain rfl := hr.2 ⟨hgrant.1.1, fun htype => (hgrant.2 htype).1⟩
    rw [added_entriesOf u v w hgrant.1 hgrant.2] at hreps
    refine ⟨.done, g', _, hends.map fun r => (r.1.map fun _ => Answer.done, r.2), hlike,
      .addEdge .., .of_like hlike hreps ?_⟩
    intro e he
    rcases mem_append.1 he with he | he
    · exact h.inside e he
    · rw [mem_singleton.1 he]
      exact ⟨hall.1, hall.2.1⟩
  | deleteEdge u v =>
    obtain ⟨g', hends, hreps, hlike⟩ := h.reps.ends_deleteEdge hall.1 hall.2
    have hcall := hends.map fun r => (r.1.map Answer.bool, r.2)
    by_cases hex : ∃ e ∈ E, e.Joins g.type u v
    · obtain ⟨e', he', hj⟩ := hex
      obtain ⟨e, E1, E2, hfirst, he, rfl, -⟩ :=
        exists_of_eraseP (p := fun e : Edge => decide (e.Joins g.type u v)) he' (decide_eq_true hj)
      simp only [decide_eq_true_eq] at hfirst he
      rw [deleted_entriesOf hfirst he] at hreps hcall
      refine ⟨.bool true, g', E1 ++ E2, hcall, hlike, .deleteEdge he hfirst,
        .of_like hlike hreps fun x hx => h.inside x ?_⟩
      rcases mem_append.1 hx with hx | hx <;> simp [hx]
    · have hno : ∀ e ∈ E, ¬ e.Joins g.type u v := fun e he hj => hex ⟨e, he, hj⟩
      rw [deleted_entriesOf_none hno] at hreps hcall
      exact ⟨.bool false, g', E, hcall, hlike, .deleteNone hno, .of_like hlike hreps h.inside⟩
  | isAdjacent u v =>
    refine ⟨_, g, E, (h.reps.ends_isAdjacent hall.1 v).map fun r => (r.1.map Answer.bool, r.2),
      ⟨rfl, rfl⟩, .isAdjacent u v any_entriesOf, h⟩
  | edgeIterator v last => exact hall.elim

/-- **A graph is a weighted multigraph.** Whatever edges are added and deleted, loops and parallel
edges included, `Graph_is_adjacent` tells whether there is an edge, `Graph_delete_edge` removes
exactly one if there is one, from both lists, and `Graph_size` is exact. -/
theorem refines_multigraph (n : Nat) (type : GraphType) (calls : List Call) :
    Refines (.empty n type) [] calls := by
  have hrun : ∀ {g E}, HasEdges g E → Refines g E calls := by
    intro g E h
    induction calls generalizing g E with
    | nil => exact h.shows
    | cons c cs ih =>
      refine ⟨h.shows, fun hall hgrant => ?_⟩
      obtain ⟨ans, g', E', hends, hlike, hstep, h'⟩ := h.exec hall hgrant
      exact ⟨ans, g', E', hends, hlike, hstep, ih h'⟩
  exact hrun ⟨reps_empty n type, nofun⟩

/-! ## Runs with failures -/

/-- The weights of the entries for `v`, in their order. -/
def weightsTo (v : Nat) (es : List EdgeData) : List Int16 :=
  (es.filter (equalVertex v)).map EdgeData.weight

/-- `v` occurs in the list of `u` as `u` occurs in the list of `v`. -/
def Symmetric (g : Graph) : Prop :=
  ∀ u v, u < g.numberOfVertices → v < g.numberOfVertices → ∃ es fs, Ends (enumerate g u · none) es ∧
    Ends (enumerate g v · none) fs ∧ weightsTo v es = weightsTo u fs

/-- The lists are as before. -/
def SameLists (g g' : Graph) : Prop :=
  g.Like g' ∧ ∀ v, v < g.numberOfVertices → ∃ es, Ends (enumerate g v · none) es ∧
    Ends (enumerate g' v · none) es

/-- A request of the call fails. -/
def Call.Fails : Call → Prop
  | .addEdge _ _ _ ans1 ans2 => ¬ (ans1.Granted ∧ ans2.Granted)
  | _ => False

/-- One of the two halves of an edge is added and the other one is not. -/
def Call.HalfDone : Call → Prop
  | .addEdge _ _ _ ans1 ans2 => ans1.data ≠ none ∧ ¬ (ans1.Granted ↔ ans2.Granted)
  | _ => False

/-- After each call of the run the graph is symmetric, and a failed call has not changed it. -/
def Mirrors : Graph → List Call → Prop
  | _, [] => True
  | g, c :: cs => ∃ r g', Ends (exec false · g c) (r, g') ∧ Symmetric g' ∧
      (c.Fails → SameLists g g') ∧ Mirrors g' cs

def AllowedRun : Graph → List Call → Prop
  | _, [] => True
  | g, c :: cs => Allowed g c ∧ ∀ r g', Ends (exec false · g c) (r, g') → AllowedRun g' cs

/-- The entries are symmetric. -/
def Mirror (adj : Nat → List EdgeData) : Prop := ∀ x y, weightsTo y (adj x) = weightsTo x (adj y)

theorem weightsTo_addEntry (v u : Nat) (w : Int16) (adj : Nat → List EdgeData) (x y : Nat) :
    weightsTo y (addEntry v u w adj x) = weightsTo y (adj x) ++ if v = x ∧
      u = y then [w] else [] := by
  rw [addEntry_apply, weightsTo, weightsTo, filter_append, map_append]
  by_cases hx : v = x <;> by_cases hy : u = y <;> simp [hx, hy, equalVertex_iff]

theorem Mirror.add (h : Mirror adj) (u v : Nat) (w : Int16) :
    Mirror (addEntry v u w (addEntry u v w adj)) := by
  intro x y
  rw [weightsTo_addEntry, weightsTo_addEntry, weightsTo_addEntry, weightsTo_addEntry, h x y,
    append_assoc, append_assoc]
  have hcomm1 : (u = y ∧ v = x) ↔ (v = x ∧ u = y) := and_comm
  have hcomm2 : (v = y ∧ u = x) ↔ (u = x ∧ v = y) := and_comm
  simp only [hcomm1, hcomm2]
  congr 1
  split_ifs <;> rfl

theorem weightsTo_eraseP (u y : Nat) (es : List EdgeData) :
    weightsTo y (es.eraseP (equalVertex u)) = if u = y then (weightsTo y es).tail else
      weightsTo y es := by
  induction es with
  | nil => simp [weightsTo]
  | cons e es ih =>
    by_cases he : equalVertex u e = true
    · have heu := equalVertex_iff.1 he
      rw [eraseP_cons_of_pos he, weightsTo, weightsTo, filter_cons]
      by_cases hy : u = y
      · rw [if_pos hy, if_pos (equalVertex_iff.2 (heu.trans hy)), map_cons, tail_cons]
      · rw [if_neg hy, if_neg fun h => hy (heu.symm.trans (equalVertex_iff.1 h))]
    · rw [eraseP_cons_of_neg he, weightsTo, weightsTo, filter_cons, filter_cons]
      by_cases hy : u = y
      · subst hy
        rw [if_neg he, if_neg he, if_pos rfl]
        simpa [weightsTo] using ih
      · rw [if_neg hy] at ih ⊢
        by_cases hey : equalVertex y e = true
        · rw [if_pos hey, if_pos hey, map_cons, map_cons]
          exact congrArg (e.weight :: ·) ih
        · rw [if_neg hey, if_neg hey]
          exact ih

theorem weightsTo_eraseEntry (v u : Nat) (adj : Nat → List EdgeData) (x y : Nat) :
    weightsTo y (eraseEntry v u adj x) = if v = x ∧ u = y then (weightsTo y (adj x)).tail else
      weightsTo y (adj x) := by
  rw [eraseEntry_apply]
  by_cases hx : v = x
  · rw [if_pos hx, weightsTo_eraseP]
    simp only [hx, true_and]
  · rw [if_neg hx, if_neg fun h => hx h.1]

theorem Mirror.erase (h : Mirror adj) (u v : Nat) :
    Mirror (eraseEntry v u (eraseEntry u v adj)) := by
  intro x y
  rw [weightsTo_eraseEntry, weightsTo_eraseEntry, weightsTo_eraseEntry, weightsTo_eraseEntry, h x y]
  have hcomm1 : (u = y ∧ v = x) ↔ (v = x ∧ u = y) := and_comm
  have hcomm2 : (v = y ∧ u = x) ↔ (u = x ∧ v = y) := and_comm
  simp only [hcomm1, hcomm2]
  split_ifs <;> rfl

theorem Reps.symmetric (h : Reps g adj) (hmirror : Mirror adj) : Symmetric g := fun u v hu hv =>
  ⟨adj u, adj v, h.ends_enumerate hu, h.ends_enumerate hv, hmirror u v⟩

theorem Reps.sameLists (h : Reps g adj) (h' : Reps g' adj) (hlike : g.Like g') : SameLists g g' :=
  ⟨hlike, fun v hv => ⟨adj v, h.ends_enumerate hv, h'.ends_enumerate (hlike.vertices ▸ hv)⟩⟩

theorem Reps.eq_of_sameLists {adj' : Nat → List EdgeData} (h : Reps g adj) (h' : Reps g' adj')
    (hsame : SameLists g g') (hv : v < g.numberOfVertices) : adj' v = adj v := by
  obtain ⟨hlike, hlists⟩ := hsame
  obtain ⟨es, hes, hes'⟩ := hlists v hv
  rw [(h'.ends_enumerate (hlike.vertices ▸ hv)).unique hes', (h.ends_enumerate hv).unique hes]

theorem addEntry_ne (v u : Nat) (w : Int16) (adj : Nat → List EdgeData) :
    addEntry v u w adj v ≠ adj v := by
  rw [addEntry_apply, if_pos rfl]
  exact fun h => by simpa using congrArg List.length h

/-- What a call does to the entries of an undirected graph. A half of an edge shows, and otherwise
the entries stay symmetric. -/
theorem Reps.exec_undirected (h : Reps g adj) (htype : g.type = .undirected) {c : Call}
    (hall : Allowed g c) :
    ∃ r g' adj', Ends (exec false · g c) (r, g') ∧ Reps g' adj' ∧ g.Like g' ∧
      (c.HalfDone → c.Fails ∧ ∃ v, v < g.numberOfVertices ∧ adj' v ≠ adj v) ∧
      (¬ c.HalfDone → (Mirror adj → Mirror adj') ∧ (c.Fails → adj' = adj)) := by
  cases c with
  | addEdge u v w ans1 ans2 =>
    obtain ⟨r, g', hends, hreps, hlike, -⟩ := h.ends_addEdge hall
    rw [added, if_pos htype] at hreps
    refine ⟨_, g', _, hends.map fun r => (r.1.map fun _ => Answer.done, r.2), hreps, hlike,
      fun hhalf => ?_, fun hhalf => ?_⟩
    · obtain ⟨hdata, hiff⟩ := hhalf
      refine ⟨fun hboth => hiff (iff_of_true hboth.1 hboth.2), ?_⟩
      rw [if_neg hdata, addIf, addIf]
      by_cases h1 : ans1.Granted
      · have h2 : ¬ ans2.Granted := fun h2 => hiff (iff_of_true h1 h2)
        rw [if_pos h1, if_neg h2]
        exact ⟨u, hall.1, addEntry_ne u v w adj⟩
      · have h2 : ans2.Granted := not_not.1 fun h2 => hiff (iff_of_false h1 h2)
        rw [if_neg h1, if_pos h2]
        exact ⟨v, hall.2.1, addEntry_ne v u w adj⟩
    · by_cases hdata : ans1.data = none
      · rw [if_pos hdata]
        exact ⟨id, fun _ => rfl⟩
      · have hiff : ans1.Granted ↔ ans2.Granted := not_not.1 fun hiff => hhalf ⟨hdata, hiff⟩
        rw [if_neg hdata, addIf, addIf]
        by_cases h1 : ans1.Granted
        · rw [if_pos h1, if_pos (hiff.1 h1)]
          exact ⟨fun hmirror => hmirror.add u v w, fun hfails => absurd ⟨h1, hiff.1 h1⟩ hfails⟩
        · rw [if_neg h1, if_neg fun h2 => h1 (hiff.2 h2)]
          exact ⟨id, fun _ => rfl⟩
  | deleteEdge u v =>
    obtain ⟨g', hends, hreps, hlike⟩ := h.ends_deleteEdge hall.1 hall.2
    refine ⟨_, g', _, hends.map fun r => (r.1.map Answer.bool, r.2), hreps, hlike, nofun, fun _ =>
      ⟨fun hmirror => ?_, nofun⟩⟩
    rw [deleted]
    by_cases hany : (adj u).any (equalVertex v) = true
    · rw [if_pos hany, if_pos htype]
      exact hmirror.erase u v
    · rw [if_neg hany]
      exact hmirror
  | isAdjacent u v =>
    exact ⟨_, g, adj, (h.ends_isAdjacent hall.1 v).map fun r => (r.1.map Answer.bool, r.2), h,
      ⟨rfl, rfl⟩, nofun,
      fun _ => ⟨id, nofun⟩⟩
  | edgeIterator v last => exact hall.elim

/-- **Symmetry under failures.** An undirected graph stays symmetric, and a failed call leaves it as
it was, if and only if no call adds one half of an edge without the other. -/
theorem mirrors_iff (n : Nat) {calls : List Call} (hrun : AllowedRun (.empty n .undirected) calls) :
    Mirrors (.empty n .undirected) calls ↔ ∀ c ∈ calls, ¬ c.HalfDone := by
  have hiff : ∀ {g adj}, Reps g adj → Mirror adj → g.type = .undirected → AllowedRun g calls →
      (Mirrors g calls ↔ ∀ c ∈ calls, ¬ c.HalfDone) := by
    clear hrun
    intro g adj h hmirror htype hrun
    induction calls generalizing g adj with
    | nil => exact ⟨fun _ => nofun, fun _ => trivial⟩
    | cons c cs ih =>
      obtain ⟨r, g', adj', hends, hreps, hlike, hhalf, hwhole⟩ := h.exec_undirected htype hrun.1
      have hrest := hrun.2 r g' hends
      rw [forall_mem_cons]
      constructor
      · rintro ⟨r1, g1, hends1, -, hsame, hrest1⟩
        obtain ⟨-, rfl⟩ := Prod.mk.inj (hends1.unique hends)
        have hnot : ¬ c.HalfDone := fun hc => by
          obtain ⟨hfails, v, hv, hne⟩ := hhalf hc
          exact hne (h.eq_of_sameLists hreps (hsame hfails) hv)
        exact ⟨hnot, (ih hreps ((hwhole hnot).1 hmirror) (hlike.type.trans htype) hrest).1 hrest1⟩
      · rintro ⟨hnot, hcs⟩
        obtain ⟨hmirror', hfailed⟩ := hwhole hnot
        refine ⟨r, g', hends, hreps.symmetric (hmirror' hmirror), fun hfails => ?_,
          (ih hreps (hmirror' hmirror) (hlike.type.trans htype) hrest).2 hcs⟩
        exact h.sameLists (hfailed hfails ▸ hreps) hlike
  exact hiff (reps_empty n .undirected) (fun _ _ => rfl) rfl hrun

/-- Both halves of an edge are added. -/
theorem mirrors_whole_edge : Mirrors (.empty 2 .undirected)
    [.addEdge 0 1 5 ⟨some 0, some 0⟩ ⟨some 1, some 1⟩] := by
  have hrun :
      AllowedRun (.empty 2 .undirected) [.addEdge 0 1 5 ⟨some 0, some 0⟩ ⟨some 1, some 1⟩] := by
    refine ⟨⟨by decide, by decide, ⟨fun _ _ => rfl, fun _ _ => rfl⟩, fun _ fuel r g' hr => ?_⟩,
      fun _ _ _ => trivial⟩
    obtain ⟨-, rfl⟩ := Prod.mk.inj (some.inj (hr.symm.trans rfl))
    refine ⟨fun d hd => ?_, fun a ha => ?_⟩
    · obtain rfl := some.inj hd
      rfl
    · obtain rfl := some.inj ha
      rfl
  refine (mirrors_iff 2 hrun).2 fun c hc => ?_
  rw [mem_singleton.1 hc]
  exact fun hhalf => hhalf.2 (by decide)

/-- The second half of an edge finds no memory. -/
theorem half_edge_not_symmetric : AllowedRun (.empty 2 .undirected)
    [.addEdge 0 1 5 ⟨some 0, some 0⟩ ⟨none, none⟩] ∧
    ¬ Mirrors (.empty 2 .undirected) [.addEdge 0 1 5 ⟨some 0, some 0⟩ ⟨none, none⟩] := by
  have hall : Allowed (.empty 2 .undirected) (.addEdge 0 1 5 ⟨some 0, some 0⟩ ⟨none, none⟩) :=
    ⟨by decide, by decide, ⟨fun _ _ => rfl, fun _ _ => rfl⟩, fun _ _ _ _ _ => ⟨nofun, nofun⟩⟩
  refine ⟨⟨hall, fun _ _ _ => trivial⟩, ?_⟩
  rintro ⟨r, g', hends, hsym, -⟩
  obtain ⟨r1, g1, hends1, hreps, hlike, -⟩ := (reps_empty 2 .undirected).ends_addEdge hall
  obtain ⟨-, rfl⟩ :=
    Prod.mk.inj (hends.unique (hends1.map fun r => (r.1.map fun _ => Answer.done, r.2)))
  have hvertices : ∀ v, v < 2 → v < g'.numberOfVertices := fun v hv => hlike.vertices ▸ hv
  obtain ⟨es, fs, hes, hfs, heq⟩ := hsym 0 1 (hvertices 0 (by decide)) (hvertices 1 (by decide))
  rw [hes.unique (hreps.ends_enumerate (hvertices 0 (by decide))),
    hfs.unique (hreps.ends_enumerate (hvertices 1 (by decide)))] at heq
  exact absurd heq (by decide)

end CLangProject.GraphAdjList
