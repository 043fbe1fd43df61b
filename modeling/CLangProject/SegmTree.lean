import CLangProject.MakeTree

/-!
# The segment tree of `ch4/segm_tree.c`

The tree is built once, over the endpoints of all intervals and the key
`-1000` below them. Every node has a list of intervals; an interval `[a, b[` is
attached to nodes that together cover the numbers from `a` up to `b`, and a
query collects the lists on the search path of its key.

`insert_interval` goes down to the node where the ways to `a` and to `b` part
and follows each of the two from there. All its decisions compare `a` or `b`
with the key of a node, and in an exact tree both are such keys (`Interior`).
So the loop for `a` adds the interval to the path of `q` just if `a ≤ q`
(`leftPath_gains`), the loop for `b` just if `q < b` (`rightPath_gains`).
-/

namespace CLangProject.SegmTree

open LeafTree List

variable {κ ο : Type}

/-! ## The code -/

/-- An entry of an `interval_list`. -/
structure Interval (κ ο : Type) where
  a : κ
  b : κ
  object : ο
  deriving DecidableEq, Repr

/-- A tree, each node tagged with its `interval_list`. -/
abbrev Tree (κ ο : Type) := LeafTree (List (Interval κ ο)) κ Unit

def emptyTree (stree : LeafTree Unit κ Unit) : Tree κ ο := stree.mapTag fun _ => []

def attachIntvNode (e : Interval κ ο) (n : Tree κ ο) : Tree κ ο := n.paint (e :: n.tag)

/-- Copy the entries of a node list to the result list. -/
def copyEntries (currentList resultList : List (Interval κ ο)) : List (Interval κ ο) :=
  currentList.foldl (fun res e => e :: res) resultList

section Calls

variable [LinearOrder κ]

/-- The loop of `find_intervals`; the list of the root is not looked at. A tree of
`make_tree` has no `NULL` on the left, so that the test for the empty tree is
not needed, here and in `insert_interval`. -/
def findLoop (queryKey : κ) : Tree κ ο → List (Interval κ ο) → List (Interval κ ο)
  | leaf _ _ _, res => res
  | node _ k l r, res =>
    if queryKey < k then findLoop queryKey l (copyEntries l.tag res)
    else findLoop queryKey r (copyEntries r.tag res)

def findIntervals (tree : Tree κ ο) (queryKey : κ) : List (Interval κ ο) :=
  findLoop queryKey tree []

/-- Follow the path of the left endpoint. -/
def leftPath (e : Interval κ ο) : Tree κ ο → Tree κ ο
  | leaf c k o => if k = e.a then attachIntvNode e (leaf c k o) else leaf c k o
  | node c k l r =>
    if e.a < k then node c k (leftPath e l) (attachIntvNode e r)
    else if e.a = k then node c k l (attachIntvNode e r)
    else node c k l (leftPath e r)

/-- Follow the path of the right endpoint. -/
def rightPath (e : Interval κ ο) : Tree κ ο → Tree κ ο
  | leaf c k o => leaf c k o
  | node c k l r =>
    if k < e.b then node c k (attachIntvNode e l) (rightPath e r)
    else if k = e.b then node c k (attachIntvNode e l) r
    else node c k (rightPath e l) r

/-- `insert_interval`: the loop that looks for the node where the paths part. -/
def insertInterval (e : Interval κ ο) : Tree κ ο → Tree κ ο
  | leaf c k o => leaf c k o
  | node c k l r =>
    if e.b < k then node c k (insertInterval e l) r
    else if k < e.a then node c k l (insertInterval e r)
    else if e.a < k ∧ k < e.b then node c k (leftPath e l) (rightPath e r)
    else if e.a = k then node c k l (rightPath e r)
    else node c k (leftPath e l) r

end Calls

/-- The key of the leaf below all endpoints. -/
def lowest : Key := ⟨-1000, negInfty_mem⟩

/-- The keys of the leaves, as `main` lists them. -/
def keyList (intervals : List (Interval Key ο)) : List Key :=
  lowest :: distinct (sortKeys (intervals.flatMap fun e => [e.a, e.b]))

/-- What `main` does before the query phase. Without an interval it would read
`keys[-1]`. The intervals are inserted from the end of the array on. -/
def build (intervals : List (Interval Key ο)) : Option (Tree Key ο) :=
  match intervals with
  | [] => none
  | _ :: _ => do
    let stree ← makeTree (keyEntries (keyList intervals))
    some (intervals.foldr insertInterval (emptyTree stree))

/-! ## The lists on a path -/

section Gains

variable {ε : Type} {e : ε} {s s' : List ε}

/-- `s'` is `s` with the entry `e` added, if `p` holds. -/
def Gains (p : Prop) [Decidable p] (e : ε) (s s' : List ε) : Prop :=
  s'.Perm (if p then e :: s else s)

theorem Gains.of_true {p : Prop} [Decidable p] (h : p) (hs : s'.Perm (e :: s)) :
    Gains p e s s' := by
  rwa [Gains, if_pos h]

theorem Gains.of_false {p : Prop} [Decidable p] (h : ¬ p) (hs : s' = s) : Gains p e s s' := by
  rw [Gains, if_neg h, hs]

theorem Gains.congr {p p' : Prop} [Decidable p] [Decidable p'] (h : p ↔ p') (hs : Gains p e s s') :
    Gains p' e s s' := by
  unfold Gains at *
  simpa only [h] using hs

theorem Gains.append {p : Prop} [Decidable p] (c : List ε) (h : Gains p e s s') :
    Gains p e (c ++ s) (c ++ s') := by
  unfold Gains at *
  split
  case isTrue hp =>
    rw [if_pos hp] at h
    exact (h.append_left c).trans perm_middle
  case isFalse hp =>
    rw [if_neg hp] at h
    exact h.append_left c

end Gains

theorem alike_attach (e : Interval κ ο) (t : Tree κ ο) : Alike (attachIntvNode e t) t :=
  alike_paint _ t

theorem copyEntries_perm (l res : List (Interval κ ο)) : (copyEntries l res).Perm (l ++ res) := by
  have h : copyEntries l res = l.reverse ++ res := by
    simp [copyEntries]
  exact h ▸ (reverse_perm l).append_right res

section Order

variable [LinearOrder κ] {t l r : Tree κ ο} {e : Interval κ ο} {q k : κ} {c : List (Interval κ ο)}

/-- All entries on the search path of `q`. -/
def stab (q : κ) : Tree κ ο → List (Interval κ ο)
  | leaf c _ _ => c
  | node c k l r => c ++ if q < k then stab q l else stab q r

theorem findLoop_perm (t : Tree κ ο) (res : List (Interval κ ο)) :
    (t.tag ++ findLoop q t res).Perm (stab q t ++ res) := by
  induction t generalizing res with
  | leaf => exact .rfl
  | node c k l r ihl ihr =>
    have hchild : ∀ t : Tree κ ο,
        (t.tag ++ findLoop q t (copyEntries t.tag res)).Perm (stab q t ++ copyEntries t.tag res) →
        (findLoop q t (copyEntries t.tag res)).Perm (stab q t ++ res) := by
      intro t ht
      have hcopy := (copyEntries_perm t.tag res).append_left (stab q t)
      refine perm_append_left_iff (l := t.tag).1 ?_
      refine ht.trans (hcopy.trans ?_)
      rw [← append_assoc, ← append_assoc]
      exact perm_append_comm.append_right res
    rw [tag_node, findLoop, stab, append_assoc]
    refine Perm.append_left c ?_
    by_cases h : q < k
    · simpa only [if_pos h] using hchild l (ihl _)
    · simpa only [if_neg h] using hchild r (ihr _)

theorem stab_attach : stab q (attachIntvNode e t) = e :: stab q t := by
  cases t <;> simp [attachIntvNode, paint, stab]

theorem stab_emptyTree (t : LeafTree Unit κ Unit) : stab q (emptyTree t : Tree κ ο) = [] := by
  induction t with
  | leaf => rfl
  | node c k l r ihl ihr =>
    have hl : stab q (l.mapTag fun _ => ([] : List (Interval κ ο))) = [] := ihl
    have hr : stab q (r.mapTag fun _ => ([] : List (Interval κ ο))) = [] := ihr
    simp [emptyTree, mapTag, stab, hl, hr]

/-- The path of `q` gains an entry below a node if it does so in the child to
which it leads. -/
theorem Gains.node {p : Prop} [Decidable p] {l' r' : Tree κ ο}
    (hl : q < k → Gains p e (stab q l) (stab q l'))
    (hr : k ≤ q → Gains p e (stab q r) (stab q r')) :
    Gains p e (stab q (node c k l r)) (stab q (node c k l' r')) := by
  refine Gains.append c ?_
  by_cases h : q < k
  · rw [if_pos h, if_pos h]
    exact hl h
  · rw [if_neg h, if_neg h]
    exact hr (not_lt.1 h)

theorem Gains.attach {p : Prop} [Decidable p] (h : p) :
    Gains p e (stab q t) (stab q (attachIntvNode e t)) :=
  .of_true h (Perm.of_eq stab_attach)

/-! ## Inserting an interval -/

section

variable (hs : t.Search) (he : t.Exact)
include hs he

theorem leftPath_gains (ha : Interior e.a t) (q : κ) :
    Gains (e.a ≤ q) e (stab q t) (stab q (leftPath e t)) := by
  induction t with
  | leaf => exact ha.elim
  | node c k l r ihl ihr =>
    obtain ⟨-, -, hsl, hsr⟩ := id hs
    obtain ⟨-, hel, her⟩ := id he
    rw [leftPath]
    rcases Interior.cases hs he ha with heq | ⟨hlt, hl⟩ | ⟨hgt, hr⟩
    · rw [if_neg heq.not_lt, if_pos heq]
      exact .node (fun h => .of_false (heq ▸ not_le_of_gt h) rfl)
        fun h => .attach (heq.trans_le h)
    · rw [if_pos hlt]
      exact .node (fun _ => ihl hsl hel hl) fun h => .attach (hlt.le.trans h)
    · rw [if_neg hgt.not_gt, if_neg hgt.ne']
      exact .node (fun h => .of_false (not_le_of_gt (h.trans hgt)) rfl) fun _ => ihr hsr her hr

theorem rightPath_gains (hb : Interior e.b t) (q : κ) :
    Gains (q < e.b) e (stab q t) (stab q (rightPath e t)) := by
  induction t with
  | leaf => exact hb.elim
  | node c k l r ihl ihr =>
    obtain ⟨-, -, hsl, hsr⟩ := id hs
    obtain ⟨-, hel, her⟩ := id he
    rw [rightPath]
    rcases Interior.cases hs he hb with heq | ⟨hlt, hl⟩ | ⟨hgt, hr⟩
    · rw [if_neg heq.not_gt, if_pos heq.symm]
      exact .node (fun h => .attach (heq ▸ h)) fun h => .of_false (heq ▸ not_lt_of_ge h) rfl
    · rw [if_neg hlt.not_gt, if_neg hlt.ne']
      exact .node (fun _ => ihl hsl hel hl) fun h => .of_false (not_lt_of_ge (hlt.le.trans h)) rfl
    · rw [if_pos hgt]
      exact .node (fun h => .attach (h.trans hgt)) fun _ => ihr hsr her hr

/-- The path of `q` gains the interval just if `q` is in it. -/
theorem insertInterval_gains (hab : e.a < e.b) (ha : Interior e.a t) (hb : Interior e.b t) (q : κ) :
    Gains (e.a ≤ q ∧ q < e.b) e (stab q t) (stab q (insertInterval e t)) := by
  induction t with
  | leaf => exact ha.elim
  | node c k l r ihl ihr =>
    obtain ⟨-, -, hsl, hsr⟩ := id hs
    obtain ⟨-, hel, her⟩ := id he
    rw [insertInterval]
    rcases Interior.cases hs he ha with heqa | ⟨hlta, hla⟩ | ⟨hgta, hra⟩
    · -- `a` is the key of the node, so `b` is on its right
      have hkb : k < e.b := heqa ▸ hab
      rw [if_neg hkb.not_gt, if_neg heqa.not_gt, if_neg fun h => heqa.not_lt h.1, if_pos heqa]
      rcases Interior.cases hs he hb with heqb | ⟨hltb, -⟩ | ⟨-, hrb⟩
      · exact absurd heqb hkb.ne'
      · exact absurd hltb hkb.not_gt
      · refine .node (fun h => .of_false (fun hq => not_le_of_gt h (heqa ▸ hq.1)) rfl) fun h => ?_
        exact (rightPath_gains hsr her hrb q).congr (by simp [heqa, h])
    · rcases Interior.cases hs he hb with heqb | ⟨hltb, hlb⟩ | ⟨hgtb, hrb⟩
      · rw [if_neg heqb.not_lt, if_neg hlta.not_gt, if_neg fun h => heqb.not_gt h.2, if_neg hlta.ne]
        refine .node (fun h => ?_) fun h => .of_false (fun hq => not_lt_of_ge h (heqb ▸ hq.2)) rfl
        exact (leftPath_gains hsl hel hla q).congr (by simp [heqb, h])
      · rw [if_pos hltb]
        exact .node (fun _ => ihl hsl hel hla hlb) fun h =>
          .of_false (fun hq => not_lt_of_ge h (hq.2.trans hltb)) rfl
      · rw [if_neg hgtb.not_gt, if_neg hlta.not_gt, if_pos ⟨hlta, hgtb⟩]
        refine .node (fun h => ?_) fun h => ?_
        · exact (leftPath_gains hsl hel hla q).congr (by simp [h.trans hgtb])
        · exact (rightPath_gains hsr her hrb q).congr (by simp [hlta.le.trans h])
    · have hkb : k < e.b := hgta.trans hab
      rw [if_neg hkb.not_gt, if_pos hgta]
      rcases Interior.cases hs he hb with heqb | ⟨hltb, -⟩ | ⟨-, hrb⟩
      · exact absurd heqb hkb.ne'
      · exact absurd hltb hkb.not_gt
      · exact .node (fun h => .of_false (fun hq => not_le_of_gt h (hgta.le.trans hq.1)) rfl)
          fun _ => ihr hsr her hra hrb

end

theorem alike_leftPath (e : Interval κ ο) (t : Tree κ ο) : Alike (leftPath e t) t := by
  induction t with
  | leaf c k o =>
    unfold leftPath
    split
    · exact alike_attach e _
    · rfl
  | node c k l r ihl ihr =>
    unfold leftPath
    split
    · exact ihl.node (alike_attach e r)
    split
    · exact Alike.node rfl (alike_attach e r)
    · exact Alike.node rfl ihr

theorem alike_rightPath (e : Interval κ ο) (t : Tree κ ο) : Alike (rightPath e t) t := by
  induction t with
  | leaf c k o => rfl
  | node c k l r ihl ihr =>
    unfold rightPath
    split
    · exact (alike_attach e l).node ihr
    split
    · exact (alike_attach e l).node rfl
    · exact ihl.node rfl

theorem alike_insertInterval (e : Interval κ ο) (t : Tree κ ο) : Alike (insertInterval e t) t := by
  induction t with
  | leaf c k o => rfl
  | node c k l r ihl ihr =>
    unfold insertInterval
    split
    · exact ihl.node rfl
    split
    · exact Alike.node rfl ihr
    split
    · exact (alike_leftPath e l).node (alike_rightPath e r)
    split
    · exact Alike.node rfl (alike_rightPath e r)
    · exact (alike_leftPath e l).node rfl

theorem tag_insertInterval (e : Interval κ ο) (t : Tree κ ο) :
    (insertInterval e t).tag = t.tag := by
  cases t with
  | leaf => rfl
  | node c k l r =>
    unfold insertInterval
    split
    · rfl
    split
    · rfl
    split
    · rfl
    split <;> rfl

/-! ## Runs -/

/-- After the intervals of a list have been inserted into an empty tree, the
path of `q` has those that contain `q`. -/
theorem stab_insertAll {stree : LeafTree Unit κ Unit} (hs : stree.Search) (he : stree.Exact)
    (es : List (Interval κ ο))
    (hes : ∀ e ∈ es, e.a < e.b ∧ Interior e.a stree ∧ Interior e.b stree) (q : κ) :
    Alike (es.foldr insertInterval (emptyTree stree)) stree ∧
      (es.foldr insertInterval (emptyTree stree)).tag = [] ∧
      (stab q (es.foldr insertInterval (emptyTree stree))).Perm
        (es.filter fun e => e.a ≤ q ∧ q < e.b) := by
  induction es with
  | nil => exact ⟨alike_mapTag _ _, by simp [emptyTree], Perm.of_eq (stab_emptyTree stree)⟩
  | cons e es ih =>
    obtain ⟨⟨hab, ha, hb⟩, hes⟩ := forall_mem_cons.1 hes
    obtain ⟨hlike, htag, hperm⟩ := ih hes
    rw [foldr_cons]
    refine ⟨(alike_insertInterval e _).trans hlike, (tag_insertInterval e _).trans htag, ?_⟩
    have hgains := insertInterval_gains (hlike.search.2 hs) (hlike.exact.2 he) hab
      ((hlike.interior _).2 ha) ((hlike.interior _).2 hb) q
    unfold Gains at hgains
    rw [filter_cons]
    split at hgains
    case isTrue hq => simpa [hq] using hgains.trans (hperm.cons e)
    case isFalse hq => simpa [hq] using hgains.trans hperm

end Order

/-- The endpoints are keys of interior nodes: `-1000` is the key of the first
leaf. -/
theorem makeTree_keyList (intervals : List (Interval Key ο))
    (h : ∀ e ∈ intervals, lowest < e.a ∧ e.a < e.b) :
    ∃ t, makeTree (keyEntries (keyList intervals)) = some t ∧ t.Search ∧ t.Exact ∧
      ∀ e ∈ intervals, Interior e.a t ∧ Interior e.b t := by
  have hmem : ∀ x, x ∈ distinct (sortKeys (intervals.flatMap fun e => [e.a, e.b])) ↔
      ∃ e ∈ intervals, x = e.a ∨ x = e.b := fun x => by
    rw [mem_distinct_sortKeys, mem_flatMap]
    simp
  have hlow : ∀ x ∈ distinct (sortKeys (intervals.flatMap fun e => [e.a, e.b])), lowest < x := by
    intro x hx
    obtain ⟨e, he, rfl | rfl⟩ := (hmem x).1 hx
    · exact (h e he).1
    · exact (h e he).1.trans (h e he).2
  obtain ⟨t, ht, htl, hs, hexact⟩ := makeTree_keyEntries
    (show keyList intervals ≠ [] from cons_ne_nil _ _)
    (pairwise_cons.2 ⟨hlow, distinct_sortKeys_increasing _⟩)
  have hfirst : t.firstKey ≤ lowest := hs.firstKey_le (p := (lowest, ())) (by
    simp [htl, keyEntries, keyList])
  refine ⟨t, ht, hs, hexact, fun e he => ?_⟩
  have hinterior : ∀ x, x = e.a ∨ x = e.b → Interior x t := fun x hx => by
    have hx := (hmem x).2 ⟨e, he, hx⟩
    exact hs.interior hexact (p := (x, ())) (by simp [htl, keyEntries, keyList, hx])
      (hfirst.trans_lt (hlow x hx))
  exact ⟨hinterior _ (.inl rfl), hinterior _ (.inr rfl)⟩

/-- Three intervals, two of them equal, with an endpoint in common. -/
def threeIntervals : List (Interval Key Nat) :=
  [⟨smallKey 1, smallKey 3, 0⟩, ⟨smallKey 3, smallKey 4, 1⟩, ⟨smallKey 1, smallKey 3, 0⟩]

end CLangProject.SegmTree
