import CLangProject.RbTree

/-!
# Insertion into the red-black tree of `ch3/rb_tree.c`

`insert` turns the leaf where the search ends into a node with two red
leaves. If that node is red itself, it is a red node with red children, and
the loop moves this conflict two levels up at a time until it is gone.

The double rotation needs the red child to be a node. At first it is a leaf,
but then there is no black node below the parent, so that the sibling is red
as well and the colours are changed without a rotation. `Conflict` keeps what
is needed for this argument.
-/

namespace CLangProject.RbTree

open LeafTree

variable {κ ο : Type}

/-! ## The code -/

/-- The branches of the loop when `current_node` is the child of `upper_node`
on side `d`: what is done to `upper_node`, and whether `finished` is set. -/
def insertPlan (d : Dir) (upper : LeafTree Color κ ο) : Option (List (Edit Color) × Bool) := do
  if (← upper.tagAt [d]) = (← upper.tagAt [d.flip]) then
    return ([.paint [d] .black, .paint [d.flip] .black, .paint [] .red], false)
  else if (← upper.tagAt [d, d.flip]) = .black then
    return ([.rotate [] d.flip, .paint [d.flip] .red, .paint [] .black], true)
  else
    return ([.rotate [d] d, .rotate [] d.flip, .paint [d.flip] .black, .paint [d] .black,
      .paint [] .red], false)

/-- One iteration at `upper_node`, with the value of `finished`. -/
def insertRepair (d : Dir) (upper : LeafTree Color κ ο) : Option (LeafTree Color κ ο × Bool) := do
  let (edits, finished) ← insertPlan d upper
  let upper ← upper.edits edits
  return (upper, finished)

/-- The loop, entered with the red node `current_node` and its ancestors on the stack. -/
def insertLoop : LeafTree Color κ ο → Context Color κ ο → Option (LeafTree Color κ ο)
  | current, [] => some (current.paint .black)
  | current, upper :: stack =>
    match insertRepair upper.dir (upper.fill current), stack with
    | none, _ => none
    | some (u, true), stack => some ((plug stack u).paint .black)
    | some (u, false), [] => some (u.paint .black)
    | some (u, false), next :: stack =>
      if next.tag = .black then some ((plug (next :: stack) u).paint .black)
      else insertLoop (next.fill u) stack

/-- A leaf of colour `c` becomes a node with two red leaves. -/
def splitLeaf [LinearOrder κ] (c : Color) (k' : κ) (o' : ο) (k : κ) (o : ο) : LeafTree Color κ ο :=
  if k' < k then node c k (leaf .red k' o') (leaf .red k o)
  else node c k' (leaf .red k o) (leaf .red k' o')

/-- `insert`: the tree afterwards and the value returned; no result when a
NULL pointer is followed, something that is not a node is taken for one, or
`path_stack` overflows. -/
def insert [LinearOrder κ] : Root Color κ ο → κ → ο → Option (Root Color κ ο × Int)
  | none, k, o => some (some (leaf .black k o), 0)
  | some t, k, o =>
    match descend k t [] with
    | (leaf c k' o', stack) =>
      if pathStack < stack.length then none
      else if k' = k then some (some t, -1)
      else if c = .black ∨
        stack = [] then some (some ((plug stack (splitLeaf c k' o' k o)).paint .black), 0)
      else (insertLoop (splitLeaf c k' o' k o) stack).map fun t => (some t, 0)
    | _ => none

/-! ## One iteration -/

/-- `current` is red, every path through it has `n` black nodes and its red
children are all that is wrong with it. Where there is a black node below it,
only one child is red. -/
structure Conflict (current : LeafTree Color κ ο) (n : Nat) : Prop where
  red : current.tag = .red
  bal : (current.paint .black).Bal (n + 1)
  child : 1 ≤ n → ∃ d k a b, current = join d .red k a b ∧ a.tag = .red ∧ b.tag = .black

/-- One iteration at a black `upper_node` restores the black counts. It either
finishes and leaves a black node there, or it leaves a red one. -/
theorem Conflict.repair {current other : LeafTree Color κ ο} {n : Nat} (h : Conflict current n)
    (ho : other.Bal n) (d : Dir) (k : κ) : ∃ u finished,
      insertRepair d (join d .black k current other) = some (u, finished) ∧ u.Bal (n + 1) ∧
        u.tag = if finished then .black else .red := by
  cases hoc : other.tag with
  | red =>
    refine ⟨join d .red k (current.paint .black) (other.paint .black), false, ?_, ?_, by simp⟩
    · simp [insertRepair, insertPlan, tagAt, h.red, hoc]
    · exact bal_join_red.2 ⟨tag_paint, tag_paint, h.bal, ho.paint_black hoc⟩
  | black =>
    have hn := ho.pos_of_black hoc
    obtain ⟨e, kc, a, b, rfl, ha, hb⟩ := h.child hn
    obtain ⟨haBal, hbBal⟩ : a.Bal n ∧ b.Bal n := by simpa using h.bal
    rcases d.eq_or_eq_flip e with rfl | rfl
    · refine ⟨join e .black kc a (join e .red k b other), true, ?_, by simp_all, by simp⟩
      simp [insertRepair, insertPlan, tagAt, hoc, hb]
    · -- the red child is on the inner side and is rotated up first
      obtain ⟨ka, x, y, rfl, hx, hy, hxBal, hyBal⟩ := haBal.red_join ha hn d
      refine ⟨join d .red ka (join d .black kc b x) (join d .black k y other), false, ?_,
        by simp_all, by simp⟩
      rw [join_flip]
      simp [insertRepair, insertPlan, tagAt, hoc]

/-! ## The loop -/

section Order

variable [LinearOrder κ] {k : κ} {o : ο} {es : List (κ × ο)} {f : Frame Color κ ο}
  {stack : Context Color κ ο} {t t' : LeafTree Color κ ο}

/-- `t'` has the entries of `t` and one more. -/
structure Adds (k : κ) (o : ο) (t t' : LeafTree Color κ ο) : Prop where
  search : t'.Search
  entries : ∀ q, q ∈ t'.toList ↔ q ∈ t.toList ∨ q = (k, o)

theorem Adds.fill (h : Adds k o t t') (hh : Held k es (f :: stack) t) :
    Adds k o (f.fill t) (f.fill t') := by
  have hg : Guides k [f] := fun g hg => hh.guides g (by simp_all)
  have hs : (plug [f] t).Search := hh.up.search
  refine ⟨hs.plug hg h.search fun q hq => ?_, fun q => ?_⟩
  · exact ((h.entries q).1 hq).imp_right fun hq => by rw [hq]
  · rw [Frame.fill, Frame.fill, mem_toList_join, mem_toList_join, h.entries, or_right_comm]

theorem Adds.repair {current u : LeafTree Color κ ο} {d : Dir} {b : Bool} (h : Adds k o t current)
    (hu : insertRepair d current = some (u, b)) : Adds k o t u := by
  obtain ⟨as, has⟩ := edits_of_planned hu
  obtain ⟨hmem, hsearch⟩ := edits_keeps has
  exact ⟨hsearch h.search, fun q => (hmem q).trans (h.entries q)⟩

/-- A tree that is red-black up to the colour of its root becomes red-black
when the root is painted. -/
theorem Adds.paint_root {n : Nat} (h : Adds k o t t') (hh : Held k es [] t) (hbal : t'.Bal n)
    (hred : t'.tag = .red) : (t'.paint .black).RedBlack ∧
      ∀ q, q ∈ (t'.paint .black).toList ↔ q ∈ es ∨ q = (k, o) := by
  refine ⟨redBlack_iff.2 ⟨by simpa using h.search, tag_paint, n + 1, hbal.paint_black hred⟩,
    fun q => ?_⟩
  rw [toList_paint, h.entries, ← hh.entries]
  rfl

/-- Once the subtree in focus has its old black count and no new red root,
the tree is in order, and painting its root changes nothing. -/
theorem Adds.settle {n : Nat} (h : Adds k o t t') (hh : Held k es stack t) (ht : t.Bal n)
    (ht' : t'.Bal n) (hc : t'.tag = .red → t.tag = .red) :
    ((plug stack t').paint .black).RedBlack ∧
      ∀ q, q ∈ ((plug stack t').paint .black).toList ↔ q ∈ es ∨ q = (k, o) := by
  obtain ⟨hrb, hentries⟩ := hh.insert h.search h.entries (fun m hm => bal_unique ht hm ▸ ht') hc
  rw [← hrb.rootBlack, paint_tag]
  exact ⟨hrb, hentries⟩

/-- The node above a red one is black. -/
theorem black_above {n : Nat} (hh : Held k es (f :: stack) t) (ht : t.Bal n) (hred : t.tag = .red) :
    f.tag = .black ∧ f.other.Bal n ∧ (f.fill t).Bal (n + 1) := by
  obtain ⟨m, hm⟩ := hh.up.bal
  obtain ⟨hc, n', rfl, hn', ho⟩ := bal_join.1 hm
  obtain rfl := bal_unique hn' ht
  have hf : f.tag = .black := Color.ne_red.1 fun hf => by simp [hred] at hc; exact hc hf
  rw [hf] at hm
  exact ⟨hf, ho, hm⟩

/-- The loop ends with a red-black tree. -/
theorem insertLoop_ok {stack : Context Color κ ο} {t current : LeafTree Color κ ο} {n : Nat}
    (hh : Held k es stack t) (ht : t.Bal n) (hred : t.tag = .red) (h : Adds k o t current)
    (hc : Conflict current n) :
    ∃ s, insertLoop current stack = some s ∧ s.RedBlack ∧ ∀ q, q ∈ s.toList ↔ q ∈ es ∨
      q = (k, o) := by
  match stack with
  | [] => simpa [plug, hred] using hh.redBlack.rootBlack
  | f :: stack =>
    obtain ⟨hf, ho, hft⟩ := black_above hh ht hred
    obtain ⟨u, b, hu, hbal, hcol⟩ := hc.repair ho f.dir f.key
    have hu : insertRepair f.dir (f.fill current) = some (u, b) := by rwa [Frame.fill, hf]
    have hadds := (h.fill hh).repair hu
    cases b with
    | true =>
      refine ⟨(plug stack u).paint .black, by simp [insertLoop, hu], ?_⟩
      exact hadds.settle hh.up hft hbal (by simp [hcol])
    | false =>
      cases stack with
      | nil => exact ⟨u.paint .black, by simp [insertLoop, hu], hadds.paint_root hh.up hbal hcol⟩
      | cons g stack =>
        have hadds := hadds.fill hh.up
        obtain ⟨m, hgt⟩ := hh.up.up.bal
        obtain ⟨hgc, m', rfl, hm', hgo⟩ := bal_join.1 hgt
        obtain rfl := bal_unique hm' hft
        cases hg : g.tag with
        | black =>
          refine ⟨(plug stack (g.fill u)).paint .black, by simp [insertLoop, hu, hg, plug],
            hadds.settle hh.up.up hgt ?_ (by simp [Frame.fill])⟩
          exact bal_join.2 ⟨by simp [hg], n + 1, rfl, hbal, hgo⟩
        | red =>
          -- `u` and its parent are both red: the conflict is two levels up
          have hc' : Conflict (g.fill u) (n + 1) :=
            ⟨by simp [Frame.fill, hg], by simp [Frame.fill, hbal, hgo], fun _ =>
              ⟨g.dir, g.key, u, g.other, by rw [Frame.fill, hg], hcol, (hgc hg).2⟩⟩
          have heq : insertLoop current (f :: g :: stack) = insertLoop (g.fill u) stack := by
            simp [insertLoop, hu, hg]
          rw [heq]
          rw [hg] at hgt
          exact insertLoop_ok hh.up.up hgt (by simp [Frame.fill, hg]) hadds hc'
termination_by stack.length

/-! ## Insertion -/

variable {k' : κ} {o' : ο} {c : Color}

theorem adds_splitLeaf (hk : k' ≠ k) : Adds k o (leaf c k' o') (splitLeaf c k' o' k o) where
  search := .of_split hk rfl
  entries q := (mem_of_split rfl q).trans (by rw [toList, List.mem_singleton])

@[simp] theorem tag_splitLeaf : (splitLeaf c k' o' k o).tag = c := by
  unfold splitLeaf
  split <;> rfl

theorem bal_paint_splitLeaf : ((splitLeaf c k' o' k o).paint .black).Bal 1 := by
  unfold splitLeaf
  split <;> simp [paint, Bal]

theorem conflict_splitLeaf : Conflict (splitLeaf .red k' o' k o) 0 :=
  ⟨tag_splitLeaf, bal_paint_splitLeaf, by simp⟩

/-- Whether the loop is entered or not, the new leaf is added to the tree. -/
theorem grow_ok (hh : Held k es stack (leaf c k' o')) (hk : k' ≠ k) : ∃ s,
    (if c = .black ∨ stack = [] then some ((plug stack (splitLeaf c k' o' k o)).paint .black)
      else insertLoop (splitLeaf c k' o' k o) stack) = some s ∧
      s.RedBlack ∧ ∀ q, q ∈ s.toList ↔ q ∈ es ∨ q = (k, o) := by
  have hadds : Adds k o (leaf c k' o') (splitLeaf c k' o' k o) := adds_splitLeaf hk
  cases c with
  | black =>
    have hpaint : (splitLeaf .black k' o' k o).paint .black = splitLeaf .black k' o' k o := by
      unfold splitLeaf
      split <;> rfl
    exact ⟨_, if_pos (.inl rfl), hadds.settle hh rfl (hpaint ▸ bal_paint_splitLeaf) (by simp)⟩
  | red =>
    have hne : stack ≠ [] := by
      rintro rfl
      simpa [plug] using hh.redBlack.rootBlack
    rw [if_neg (by simp [hne])]
    exact insertLoop_ok hh rfl rfl hadds conflict_splitLeaf

/-- What `insert` is for: a key that is stored is refused and nothing is
changed, otherwise the entry is added and the tree stays red-black. -/
def InsertOk (t : LeafTree Color κ ο) (k : κ) (o : ο) : Prop :=
  ((∃ x, (k, x) ∈ t.toList) → insert (some t) k o = some (some t, -1)) ∧
  ((∀ x, (k, x) ∉ t.toList) → ∃ t' : LeafTree Color κ ο, insert (some t) k o = some (some t', 0) ∧
    t'.RedBlack ∧ ∀ q, q ∈ t'.toList ↔ q ∈ t.toList ∨ q = (k, o))

end Order

/-- The search path is short enough for `path_stack`, and the loop does its
work on every red-black tree. -/
theorem rb_insert_ok (t : LeafTree Color Key ο) (h : t.RedBlack) (k : Key) (o : ο) :
    InsertOk t k o := by
  obtain ⟨c, k', o', stack, hd⟩ := descend_eq k t []
  have hh : Held k t.toList stack (leaf c k' o') := by simpa [hd] using (h.held k).descend
  have hlen : ¬ pathStack < stack.length := by
    have hle := h.length_descend (k := k) (le_of_eq card_key)
    rw [hd] at hle
    exact not_lt_of_ge (hle.trans (by decide))
  have hmem : ∀ x, (k, x) ∈ t.toList ↔ k' = k ∧ o' = x := fun x => by
    rw [hh.placed.mem_iff]
    simp [toList, eq_comm]
  constructor
  · rintro ⟨x, hx⟩
    simp only [insert, hd, if_neg hlen, if_pos ((hmem x).1 hx).1]
  · intro hn
    have hk : k' ≠ k := fun hk => hn o' ((hmem o').2 ⟨hk, rfl⟩)
    obtain ⟨s, hs, hrb, hentries⟩ := grow_ok (o := o) hh hk
    refine ⟨s, ?_, hrb, hentries⟩
    simp only [insert, hd, if_neg hlen, if_neg hk]
    split at hs
    case isTrue hc => rw [if_pos hc, Option.some.inj hs]
    case isFalse hc => rw [if_neg hc, hs, Option.map_some]

/-- Both leaves are red, so the new one brings the loop into play. -/
def twoRed : LeafTree Color Key (Fin 8) :=
  interior .black 1 ((blackLeaf 0).paint .red) ((blackLeaf 1).paint .red)

theorem rb_insert_ok_twoRed : twoRed.RedBlack ∧ InsertOk twoRed ⟨2, by decide⟩ 2 :=
  ⟨by decide, rb_insert_ok twoRed (by decide) ⟨2, by decide⟩ 2⟩

end CLangProject.RbTree
