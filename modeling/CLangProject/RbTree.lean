import CLangProject.Key
import CLangProject.RedBlack

/-!
# Deletion from the red-black tree of `ch3/rb_tree.c`

`delete` walks down to a leaf, keeping the nodes on the way in `path_stack`,
merges the parent of the removed leaf with its sibling and then repairs the
tree from there upwards. The stack is the context of the node in focus: its
top entry is the focus, the entries below are the frames of the context.

The repair has one case that does not finish: both children of `upper` and
the near nephew are black, so `upper` itself ends up one black node short.
The next iteration should go on with `upper`, but both `upper` and the node
below it have been popped, and it goes on with the parent of `upper`. From
there on the shortage is never found again (`rebalance_uneven`), so the tree
stays uneven exactly when that case arises below the root (`Strands`).
-/

namespace CLangProject.RbTree

open LeafTree List

variable {κ ο : Type}

variable {d : Dir} {c : Color} {b : Bool} {k k' : κ} {t tmp u other : LeafTree Color κ ο}

/-! ## The code -/

/-- The branches of the repair loop when `tmp_node` is the child of `upper`
on side `d`: what is done to `upper`, and whether `finished` is set. For
`d = left` these are the branches under `tmp_node == upper->left`, for
`d = right` those under its `else`. -/
def plan (d : Dir) (upper : LeafTree Color κ ο) : Option (List (Edit Color) × Bool) := do
  let other ← upper.child d.flip
  if upper.tag = .black then
    if other.tag = .black then
      if (← other.tagAt [d]) = .black then
        return ([.rotate [] d, .paint [d] .red, .paint [] .black], false)
      else
        return ([.rotate [d.flip] d.flip, .rotate [] d, .paint [d] .black,
          .paint [d.flip] .black, .paint [] .black], true)
    else
      if (← other.tagAt [d, d]) = .black then
        return ([.rotate [] d, .rotate [d] d, .paint [d, d] .red, .paint [d] .black,
          .paint [] .black], true)
      else
        return ([.rotate [] d, .rotate [d, d.flip] d.flip, .rotate [d] d, .paint [d, d] .black,
          .paint [d, d.flip] .black, .paint [d] .red, .paint [] .black], true)
  else
    if (← other.tagAt [d]) = .black then
      return ([.rotate [] d, .paint [d] .red, .paint [] .black], true)
    else
      return ([.rotate [d.flip] d.flip, .rotate [] d, .paint [d] .black, .paint [d.flip] .black,
        .paint [] .red], true)

def repair (d : Dir) (upper : LeafTree Color κ ο) : Option (LeafTree Color κ ο × Bool) := do
  let (edits, finished) ← plan d upper
  let upper ← upper.edits edits
  return (upper, finished)

/-- The loop `while ( path_st_p > 0 && !finished )`, entered with `tmp_node`
on top of the stack and its ancestors below it. -/
def rebalance : LeafTree Color κ ο → Context Color κ ο → Option (LeafTree Color κ ο)
  | tmp, [] => some (tmp.paint .black)
  | tmp, upper :: stack =>
    if tmp.tag = .red then some (plug (upper :: stack) (tmp.paint .black))
    else
      match repair upper.dir (upper.fill tmp), stack with
      | none, _ => none
      | some (u, true), stack => some (plug stack u)
      | some (u, false), [] => some u
      -- `upper` is off the stack: the next `tmp_node` is its parent
      | some (u, false), next :: stack => rebalance (next.fill u) stack

/-- `delete`: the tree afterwards and the object returned; no result when a
NULL pointer is followed, something that is not a node is taken for one, or
`path_stack` overflows. -/
def delete [LinearOrder κ] : Root Color κ ο → κ → Option (Root Color κ ο × Option ο)
  | none, _ => some (none, none)
  | some (leaf c k' o), k => if k' = k then some (none, some o) else some (some (leaf c k' o), none)
  | some (node c k' l r), k =>
    match descend k (node c k' l r) [] with
    | (leaf _ k'' o, upper :: stack) =>
      if pathStack < (upper :: stack).length then none
      else if k'' ≠ k then some (some (node c k' l r), none)
      else
        -- `upper` takes over the content of `other` and becomes black
        let tmp := upper.other.paint .black
        if (upper.tag = .black ∧ upper.other.tag = .red) ∨
            (upper.tag = .red ∧ upper.other.tag = .black) then
          some (some (plug stack tmp), some o)
        else (rebalance tmp stack).map fun t => (some t, some o)
    | _ => none

/-! ## One repair -/

/-- What a repair does to `upper`, a node of colour `c` and key `k` with
`tmp_node` on side `d` and `other` on the other side. -/
inductive Repaired (d : Dir) (k : κ) (tmp : LeafTree Color κ ο) :
    Color → LeafTree Color κ ο → LeafTree Color κ ο → Bool → Prop where
  | passUp {k' : κ} {a e : LeafTree Color κ ο} : a.tag = .black →
      Repaired d k tmp .black (join d .black k' a e)
        (join d .black k' (join d .red k tmp a) e) false
  | blackNear {k' kx : κ} {x y e : LeafTree Color κ ο} :
      Repaired d k tmp .black (join d .black k' (join d .red kx x y) e)
        (join d .black kx (join d .black k tmp x) (join d .black k' y e)) true
  | redFar {k' ka : κ} {ca : Color} {p q e : LeafTree Color κ ο} : p.tag = .black →
      Repaired d k tmp .black (join d .red k' (join d ca ka p q) e)
        (join d .black k' (join d .black ka (join d .red k tmp p) q) e) true
  | redNear {k' ka kx : κ} {ca : Color} {x y q e : LeafTree Color κ ο} :
      Repaired d k tmp .black (join d .red k' (join d ca ka (join d .red kx x y) q) e)
        (join d .black k' (join d .red kx (join d .black k tmp x) (join d .black ka y q)) e) true
  | rise {k' : κ} {c' : Color} {a e : LeafTree Color κ ο} : a.tag = .black →
      Repaired d k tmp .red (join d c' k' a e) (join d .black k' (join d .red k tmp a) e) true
  | riseNear {k' kx : κ} {c' : Color} {x y e : LeafTree Color κ ο} :
      Repaired d k tmp .red (join d c' k' (join d .red kx x y) e)
        (join d .red kx (join d .black k tmp x) (join d .black k' y e)) true

theorem Repaired.repair_eq
    (h : Repaired d k tmp c other u b) : repair d (join d c k tmp other) = some (u, b) := by
  cases h <;> simp_all [repair, plan, tagAt]

/-- A repair has one of the outcomes of `Repaired`, or it meets a leaf where
it needs a node. -/
theorem repaired_or_none (d : Dir) (k : κ) (tmp other : LeafTree Color κ ο) (c : Color) :
    (∃ u b, Repaired d k tmp c other u b) ∨ repair d (join d c k tmp other) = none := by
  rcases leaf_or_join d other with ⟨c', k', o, rfl⟩ | ⟨c', k', a, e, rfl⟩
  · right
    cases c <;> cases c' <;> simp [repair, plan, tagAt]
  -- with a red near nephew, the nephew is rotated and has to be a node
  have near : ∀ c, (c = .black → c' = .black) → (∃ u b, Repaired d k tmp c (join d c' k' a e) u b) ∨
      repair d (join d c k tmp (join d c' k' a e)) = none := by
    intro c hc
    cases ha : a.tag with
    | black =>
      left
      cases c with
      | red => exact ⟨_, _, .rise ha⟩
      | black =>
        obtain rfl := hc rfl
        exact ⟨_, _, .passUp ha⟩
    | red =>
      rcases a.red_shape d ha with ⟨ka, o, rfl⟩ | ⟨kx, x, y, rfl⟩
      · right
        cases c with
        | red => simp [repair, plan, tagAt]
        | black => simp [repair, plan, tagAt, hc rfl]
      · left
        cases c with
        | red => exact ⟨_, _, .riseNear⟩
        | black =>
          obtain rfl := hc rfl
          exact ⟨_, _, .blackNear⟩
  cases c with
  | red => exact near .red (by simp)
  | black =>
    cases c' with
    | black => exact near .black (by simp)
    | red =>
      rcases leaf_or_join d a with ⟨ca, ka, o, rfl⟩ | ⟨ca, ka, p, q, rfl⟩
      · right
        simp [repair, plan, tagAt]
      cases hp : p.tag with
      | black => exact .inl ⟨_, _, .redFar hp⟩
      | red =>
        rcases p.red_shape d hp with ⟨kp, o, rfl⟩ | ⟨kx, x, y, rfl⟩
        · right
          simp [repair, plan, tagAt]
        · exact .inl ⟨_, _, .redNear⟩

theorem repair_eq_some_iff :
    repair d (join d c k tmp other) = some (u, b) ↔ Repaired d k tmp c other u b := by
  refine ⟨fun h => ?_, Repaired.repair_eq⟩
  rcases repaired_or_none d k tmp other c with ⟨u', b', h'⟩ | h'
  · rw [h'.repair_eq] at h
    obtain ⟨rfl, rfl⟩ : u' = u ∧ b' = b := by simpa using h
    exact h'
  · rw [h'] at h
    cases h

/-- A repair only rotates and repaints, whatever the plan is. -/
theorem edits_of_planned {plan : Option (List (Edit Color) × Bool)}
    (h : (plan.bind fun p => (t.edits p.1).bind fun t' => some (t', p.2)) = some (u, b)) :
    ∃ es, t.edits es = some u := by
  obtain ⟨⟨es, b'⟩, -, h⟩ := Option.bind_eq_some_iff.1 h
  obtain ⟨u', hu, h⟩ := Option.bind_eq_some_iff.1 h
  cases h
  exact ⟨es, hu⟩

/-- A repair moves `tmp_node` as a whole. -/
theorem Repaired.keeps_tmp (h : Repaired d k tmp c other u b) : ∃ fs, u = plug fs tmp := by
  cases h with
  | passUp | rise => exact ⟨[⟨d, .red, k, _⟩, ⟨d, .black, _, _⟩], rfl⟩
  | blackNear => exact ⟨[⟨d, .black, k, _⟩, ⟨d, .black, _, _⟩], rfl⟩
  | redFar => exact ⟨[⟨d, .red, k, _⟩, ⟨d, .black, _, _⟩, ⟨d, .black, _, _⟩], rfl⟩
  | redNear => exact ⟨[⟨d, .black, k, _⟩, ⟨d, .red, _, _⟩, ⟨d, .black, _, _⟩], rfl⟩
  | riseNear => exact ⟨[⟨d, .black, k, _⟩, ⟨d, .red, _, _⟩], rfl⟩

/-- `finished` stays unset exactly in the case that passes the shortage up. -/
theorem Repaired.eq_false_iff (h : Repaired d k tmp c other u b) : b = false ↔
      c = .black ∧ other.tag = .black ∧ other.tagAt [d] = some .black := by
  cases h <;> simp_all [tagAt]

/-- If `tmp_node` is one black node short of what `other` has, a repair is
possible. It makes up for the shortage, or it leaves a tree that is itself
one black node short. -/
theorem exists_repaired (d : Dir) (k : κ) {n : Nat}
    (ht : tmp.Bal n) (htc : tmp.tag = .black) (ho : other.Bal (n + 1))
    (hc : c = .red → other.tag = .black) : ∃ u b, Repaired d k tmp c other u b ∧
      (b = true → u.Bal (n + 1 + c.weight) ∧ (u.tag = .red → c = .red)) ∧
      (b = false → u.Bal (n + 1) ∧ u.tag = .black) := by
  have hn := ht.pos_of_black htc
  cases hoc : other.tag with
  | black =>
    obtain ⟨k', a, e, rfl, ha, he⟩ := ho.black_join hoc hn d
    cases hac : a.tag with
    | black =>
      cases c with
      | black => exact ⟨_, _, .passUp hac, by simp, by simp_all⟩
      | red => exact ⟨_, _, .rise hac, by simp_all, by simp⟩
    | red =>
      obtain ⟨kx, x, y, rfl, hxc, hyc, hx, hy⟩ := ha.red_join hac hn d
      cases c with
      | black => exact ⟨_, _, .blackNear, by simp_all, by simp⟩
      | red => exact ⟨_, _, .riseNear, by simp_all, by simp⟩
  | red =>
    obtain ⟨k', a, e, rfl, hac, hec, ha, he⟩ := ho.red_join hoc (by omega) d
    obtain ⟨ka, p, q, rfl, hp, hq⟩ := ha.black_join hac hn d
    have hcb : c = .black := Color.ne_red.1 fun h => absurd (hc h) (by simp)
    subst hcb
    cases hpc : p.tag with
    | black => exact ⟨_, _, .redFar hpc, by simp_all, by simp⟩
    | red =>
      obtain ⟨kx, x, y, rfl, hxc, hyc, hx, hy⟩ := hp.red_join hpc hn d
      exact ⟨_, _, .redNear, by simp_all, by simp⟩

/-! ## The loop -/

/-- An uneven subtree in focus is never repaired: everything the loop does
further up leaves it as it is. -/
theorem rebalance_uneven {stack : Context Color κ ο} (h : ¬ tmp.EvenBlack)
    (ht : rebalance tmp stack = some t) : ¬ t.EvenBlack := by
  have lift : ∀ {tmp u : LeafTree Color κ ο} {f : Frame Color κ ο} {b : Bool}, ¬ tmp.EvenBlack →
      repair f.dir (f.fill tmp) = some (u, b) → ¬ u.EvenBlack := by
    intro tmp u f b h hu he
    obtain ⟨fs, rfl⟩ := (repair_eq_some_iff.1 hu).keeps_tmp
    exact h he.of_plug
  fun_induction rebalance tmp stack with
  | case1 tmp =>
    obtain rfl := Option.some.inj ht
    simpa using h
  | case2 tmp upper stack hc =>
    obtain rfl := Option.some.inj ht
    exact fun he => h (evenBlack_paint.1 he.of_plug)
  | case3 => cases ht
  | case4 tmp upper stack hc u hu =>
    obtain rfl := Option.some.inj ht
    exact fun he => lift h hu he.of_plug
  | case5 tmp upper hc u hu =>
    obtain rfl := Option.some.inj ht
    exact lift h hu
  | case6 tmp upper hc u next stack hu ih =>
    exact ih (fun he => lift h hu he.of_join.1) ht

/-- The frames above the removed leaf and its parent make the repair pass the
shortage up to a node that is not the root. -/
def PassesUp : Context Color κ ο → Prop
  | g :: _ :: _ => g.tag = .black ∧ g.other.tag = .black ∧ g.other.tagAt [g.dir] = some .black
  | _ => False

instance : (stack : Context Color κ ο) → Decidable (PassesUp stack)
  | g :: _ :: _ => inferInstanceAs (Decidable (g.tag = .black ∧ g.other.tag = .black ∧
      g.other.tagAt [g.dir] = some .black))
  | [] => inferInstanceAs (Decidable False)
  | [_] => inferInstanceAs (Decidable False)

section Order

variable [LinearOrder κ] {k : κ} {es : List (κ × ο)} {c : Color} {o : ο} {p : Frame Color κ ο}
  {stack : Context Color κ ο}

/-- When the parent and the sibling of the removed leaf have different
colours, the sibling takes the parent's place as a black node. -/
theorem merge_ok (h : Held k es (p :: stack) (leaf c k o))
    (hc : (p.tag = .black ∧ p.other.tag = .red) ∨ (p.tag = .red ∧ p.other.tag = .black)) :
    (plug stack (p.other.paint .black)).RedBlack ∧
      ∀ q, q ∈ (plug stack (p.other.paint .black)).toList ↔ q ∈ es ∧ q.1 ≠ k := by
  refine h.up.erase (by simpa using h.placed.search_other) (fun q => ?_) (fun n hn => ?_) (by simp)
  · rw [toList_paint, h.placed.mem_other]
  · obtain ⟨-, m, rfl, -, ho⟩ := bal_join.1 hn
    rcases hc with ⟨hp, ho'⟩ | ⟨hp, ho'⟩
    · rw [hp]
      exact ho.paint_black ho'
    · rw [hp, ← ho', paint_tag]
      exact ho

variable {g : Frame Color κ ο} {l r : LeafTree Color κ ο}

section

variable (h : Held k es (p :: g :: stack) (leaf c k o))
include h

/-- The counts around the removed leaf when its parent and its sibling are
both black. -/
theorem bal_frames (hp : p.tag = .black) : ∃ n, p.other.Bal n ∧ (p.fill (leaf c k o)).Bal (n + 1) ∧
      g.other.Bal (n + 1) ∧ (g.tag = .red → g.other.tag = .black) := by
  obtain ⟨-, -, n, hn⟩ := redBlack_iff.1 h.redBlack
  obtain ⟨m, hm, -⟩ := Bal.of_plug stack hn
  obtain ⟨hc, m', rfl, hP, hS⟩ := bal_join.1 hm
  have hP' := hP
  rw [Frame.fill, hp] at hP'
  obtain ⟨n', rfl, -, ho⟩ := bal_black hP'
  exact ⟨n', ho, hP, hS, fun hr => (hc hr).2⟩

theorem repaired_contents (hu : Repaired g.dir g.key p.other g.tag g.other u b) :
    u.Search ∧ ∀ q, q ∈ u.toList ↔ q ∈ (g.fill (p.fill (leaf c k o))).toList ∧ q.1 ≠ k := by
  obtain ⟨as, has⟩ := edits_of_planned hu.repair_eq
  obtain ⟨hmem, hsearch⟩ := edits_keeps has
  have hg : Guides k [g] := fun f hf => h.up.guides f (by simp_all)
  have hne : ∀ q ∈ g.other.toList, q.1 ≠ k := fun q hq =>
    h.guides.other_ne h.redBlack.search (f := g) (by simp) hq
  constructor
  · have hs : (plug [g] (p.fill (leaf c k o))).Search := h.up.up.search
    refine hsearch (hs.plug hg h.placed.search_other fun q hq => ?_)
    exact .inl ((h.placed.mem_other q).1 hq).1
  · intro q
    rw [hmem, Frame.fill, mem_toList_join, mem_toList_join, h.placed.mem_other, or_and_right]
    exact or_congr_right ⟨fun hq => ⟨hq, hne q hq⟩, And.left⟩

end

section

variable (h : Held k es (p :: stack) (leaf c k o)) (hp : p.tag = .black) (ho : p.other.tag = .black)
include h hp ho

/-- The loop restores the tree unless it passes a shortage up to a node that
is not the root. -/
theorem rebalance_ok (hs : ¬ PassesUp stack) : ∃ t, rebalance p.other stack = some t ∧ t.RedBlack ∧
      ∀ q, q ∈ t.toList ↔ q ∈ es ∧ q.1 ≠ k := by
  cases stack with
  | nil =>
    obtain ⟨-, -, n, hn⟩ := redBlack_iff.1 h.redBlack
    obtain ⟨-, m, -, -, hm⟩ := bal_join.1 hn
    refine ⟨_, rfl, redBlack_iff.2 ⟨by simpa using h.placed.search_other, by simp, m, ?_⟩, fun q =>
      ?_⟩
    · rwa [← ho, paint_tag]
    · rw [toList_paint, h.placed.mem_other, ← h.entries]
      rfl
  | cons g stack =>
    obtain ⟨n, hn, hP, hS, hgc⟩ := bal_frames h hp
    obtain ⟨u, b, hu, htrue, hfalse⟩ := exists_repaired g.dir g.key hn ho hS hgc
    obtain ⟨hsearch, hmem⟩ := repaired_contents h hu
    have hrep : repair g.dir (g.fill p.other) = some (u, b) := hu.repair_eq
    cases b with
    | true =>
      refine ⟨plug stack u, by simp [rebalance, ho, hrep], ?_⟩
      refine h.up.up.erase hsearch hmem (fun m hm => ?_) fun hr => ?_
      · obtain ⟨-, m', rfl, hP', -⟩ := bal_join.1 hm
        rw [bal_unique hP' hP]
        exact (htrue rfl).1
      · simpa [Frame.fill] using (htrue rfl).2 hr
    | false =>
      obtain ⟨hg, hgo, hnear⟩ := hu.eq_false_iff.1 rfl
      cases stack with
      | cons f stack => exact absurd ⟨hg, hgo, hnear⟩ hs
      | nil =>
        refine ⟨u, by simp [rebalance, ho, hrep], ?_, fun q => ?_⟩
        · exact redBlack_iff.2 ⟨hsearch, (hfalse rfl).2, n + 1, (hfalse rfl).1⟩
        · rw [hmem, ← h.entries]
          rfl

/-- Otherwise the loop does not return a tree with even black counts. -/
theorem rebalance_passesUp (hs : PassesUp stack)
    (ht : rebalance p.other stack = some t) : ¬ t.EvenBlack := by
  match stack, hs with
  | g :: f :: stack, hs =>
    obtain ⟨n, hn, hP, hS, hgc⟩ := bal_frames h hp
    obtain ⟨u, b, hu, -, hfalse⟩ := exists_repaired g.dir g.key hn ho hS hgc
    obtain rfl := hu.eq_false_iff.2 hs
    have hrep : repair g.dir (g.fill p.other) = some (u, false) := hu.repair_eq
    have hstep : rebalance p.other (g :: f :: stack) = rebalance (f.fill u) stack := by
      simp [rebalance, ho, hrep]
    rw [hstep] at ht
    refine rebalance_uneven (fun he => ?_) ht
    -- the other child of the parent of `upper` still has the old count
    obtain ⟨-, -, N, hN⟩ := redBlack_iff.1 h.redBlack
    obtain ⟨m, hm, -⟩ := Bal.of_plug stack hN
    obtain ⟨-, m', -, hG, hF⟩ := bal_join.1 hm
    have hG' : (g.fill (p.fill (leaf c k o))).Bal (n + 1 + 1) := by
      rw [Frame.fill, hs.1]
      exact bal_join_black.2 ⟨hP, hS⟩
    rw [bal_unique hG hG'] at hF
    have := he.join_count (hfalse rfl).1 hF
    omega

end

/-- No red node has a red child, so a parent and a sibling of the same colour
are black. -/
theorem both_black (h : Held k es (p :: stack) (leaf c k o))
    (hc : ¬ ((p.tag = .black ∧ p.other.tag = .red) ∨ (p.tag = .red ∧ p.other.tag = .black))) :
    p.tag = .black ∧ p.other.tag = .black := by
  obtain ⟨-, -, n, hn⟩ := redBlack_iff.1 h.redBlack
  obtain ⟨m, hm, -⟩ := Bal.of_plug stack hn
  obtain ⟨hr, -⟩ := bal_join.1 hm
  cases hp : p.tag with
  | red => exact absurd (.inr ⟨hp, (hr hp).2⟩) hc
  | black => exact ⟨rfl, Color.ne_red.1 fun ho => hc (.inl ⟨hp, ho⟩)⟩

/-! ## Deletion -/

/-- The deletion of `k` leaves the tree uneven: `k` is stored in a leaf whose
parent and sibling are black, and so are the grandparent, the parent's
sibling and that sibling's child nearest to the parent; and the grandparent
is not the root. -/
def Strands (t : Root Color κ ο) (k : κ) : Prop :=
  match t with
  | none => False
  | some t =>
    match descend k t [] with
    | (leaf _ k' _, p :: stack) =>
      k' = k ∧ p.tag = .black ∧ p.other.tag = .black ∧ PassesUp stack
    | _ => False

instance (t : Root Color κ ο) (k : κ) : Decidable (Strands t k) := by
  unfold Strands
  split
  · infer_instance
  · split <;> infer_instance

/-- What `delete` is for: the tree stays red-black and loses exactly the
entry with the key `k`, whose object is returned; if there is none, the tree
does not change. -/
def DeleteOk (t : Root Color κ ο) (k : κ) : Prop :=
  ∃ t' o, delete t k = some (t', o) ∧ t'.RedBlack ∧
    (∀ q, q ∈ t'.entries ↔ q ∈ t.entries ∧ q.1 ≠ k) ∧
    (∀ x, o = some x ↔ (k, x) ∈ t.entries) ∧ (o = none → t' = t)

theorem deleteOk_absent (hd : delete (some t) k = some (some t, none))
    (h : t.RedBlack) (hne : ∀ q ∈ t.toList, q.1 ≠ k) : DeleteOk (some t) k := by
  refine ⟨some t, none, hd, h, fun q => ⟨fun hq => ⟨hq, hne q hq⟩, And.left⟩, fun x => ?_,
    fun _ => rfl⟩
  exact iff_of_false (by simp) fun hx => hne _ hx rfl

theorem deleteOk_removed {s : Root Color κ ο}
    (hd : delete (some t) k = some (s, some o)) (h : s.RedBlack)
    (hm : ∀ q, q ∈ s.entries ↔ q ∈ t.toList ∧ q.1 ≠ k)
    (ho : ∀ x, (k, x) ∈ t.toList ↔ x = o) : DeleteOk (some t) k :=
  ⟨s, some o, hd, h, hm, fun x => by rw [Root.entries, ho, Option.some_inj, eq_comm], by simp⟩

theorem delete_leaf_ok (h : (leaf c k' o).RedBlack) : DeleteOk (some (leaf c k' o)) k := by
  by_cases hk : k' = k
  · subst hk
    refine deleteOk_removed (o := o) (s := none) (by simp [delete]) trivial (fun q => ?_)
      fun x => ?_
    · simp only [Root.entries, toList, not_mem_nil, mem_singleton, false_iff, not_and]
      rintro rfl
      simp
    · simp [toList]
  · refine deleteOk_absent (by simp [delete, hk]) h fun q hq => ?_
    rw [mem_singleton.1 hq]
    exact hk

/-- The search in a red-black tree with a node as root, and what it finds. -/
theorem descend_node (h : (node c k' l r).RedBlack) (k : κ) :
    ∃ c1 k1 o p stack, descend k (node c k' l r) [] = (leaf c1 k1 o, p :: stack) ∧
      Held k (node c k' l r).toList (p :: stack) (leaf c1 k1 o) := by
  have h1 := (h.held k).descend
  have hplug := plug_descend k (node c k' l r) []
  obtain ⟨c1, k1, o, hleaf⟩ := descend_leaf k (node c k' l r) []
  generalize descend k (node c k' l r) [] = res at h1 hplug hleaf ⊢
  obtain ⟨t, stack⟩ := res
  obtain rfl : t = leaf c1 k1 o := hleaf
  cases stack with
  | nil => cases hplug
  | cons p stack => exact ⟨c1, k1, o, p, stack, rfl, h1⟩

theorem delete_node_ok_iff [Fintype κ] (hκ : Fintype.card κ ≤ 2 ^ 32) (h : (node c k' l r).RedBlack)
    (k : κ) : DeleteOk (some (node c k' l r)) k ↔ ¬ Strands (some (node c k' l r)) k := by
  obtain ⟨c1, k1, o, p, stack, hd, hh⟩ := descend_node h k
  have hlen : ¬ pathStack < (p :: stack).length := by
    have hle := h.length_descend (k := k) hκ
    rw [hd] at hle
    exact not_lt_of_ge (hle.trans (by decide))
  by_cases hk : k1 = k
  case neg =>
    refine iff_of_true (deleteOk_absent (by simp only [delete, hd, if_neg hlen, if_pos hk]) h ?_)
      (by simp [Strands, hd, hk])
    rintro ⟨x, y⟩ hq rfl
    have := hh.placed.mem_iff.1 hq
    simp [toList, Ne.symm hk] at this
  subst hk
  have ho : ∀ x, (k1, x) ∈ (node c k' l r).toList ↔ x = o := fun x => by
    rw [hh.placed.mem_iff]
    simp [toList]
  by_cases hc : (p.tag = .black ∧ p.other.tag = .red) ∨ (p.tag = .red ∧ p.other.tag = .black)
  · have hs : ¬ Strands (some (node c k' l r)) k1 := by
      simp only [Strands, hd]
      rintro ⟨-, hp, hpo, -⟩
      simp [hp, hpo] at hc
    obtain ⟨hrb, hm⟩ := merge_ok hh hc
    refine iff_of_true (deleteOk_removed (s := some _) ?_ hrb hm ho) hs
    simp only [delete, hd, if_neg hlen, ne_eq, not_true_eq_false, if_false, if_pos hc]
  obtain ⟨hp, hpo⟩ := both_black hh hc
  have hdel : delete (some (node c k' l r)) k1 =
      (rebalance p.other stack).map fun t => (some t, some o) := by
    have hpaint : p.other.paint .black = p.other := by rw [← hpo, paint_tag]
    simp only [delete, hd, if_neg hlen, ne_eq, not_true_eq_false, if_false, if_neg hc, hpaint]
  have hs : Strands (some (node c k' l r)) k1 ↔ PassesUp stack := by
    simp [Strands, hd, hp, hpo]
  rw [hs]
  constructor
  · rintro ⟨t', x, ht', hrb, -⟩ hpass
    rw [hdel] at ht'
    obtain ⟨t, ht, heq⟩ := Option.map_eq_some_iff.1 ht'
    cases heq
    exact rebalance_passesUp hh hp hpo hpass ht hrb.evenBlack
  · intro hpass
    obtain ⟨t, ht, hrb, hm⟩ := rebalance_ok hh hp hpo hpass
    exact deleteOk_removed (s := some t) (by rw [hdel, ht]; rfl) hrb hm ho

end Order

/-! ## All trees -/

/-- `delete` does what it should exactly when it need not pass a shortage up
to a node below the root. -/
theorem delete_ok_iff (t : Root Color Key ο) (k : Key) (h : t.RedBlack) :
    DeleteOk t k ↔ ¬ Strands t k := by
  match t, h with
  | none, _ =>
    exact iff_of_true ⟨none, none, rfl, trivial, by simp [Root.entries], by simp [Root.entries],
      fun _ => rfl⟩ id
  | some (leaf c k' o), h => exact iff_of_true (delete_leaf_ok h) (by simp [Strands, descend])
  | some (node c k' l r), h => exact delete_node_ok_iff (le_of_eq card_key) h k

instance neZero8 : NeZero (8 : Nat) := ⟨by decide⟩

/-- A black leaf with a small key, for the examples below. -/
def blackLeaf (n : Fin 8) : LeafTree Color Key (Fin 8) := leaf .black ⟨n.val, by omega, by omega⟩ n

def interior (c : Color) (n : Fin 8) (l r : LeafTree Color Key (Fin 8)) :
    LeafTree Color Key (Fin 8) :=
  node c ⟨n.val, by omega, by omega⟩ l r

/-- Six keys; the left child of the root is red. -/
def sixKeys : LeafTree Color Key (Fin 8) := interior .black 4
    (interior .red 2 (interior .black 1 (blackLeaf 0) (blackLeaf 1))
      (interior .black 3 (blackLeaf 2) (blackLeaf 3)))
    (interior .black 5 (blackLeaf 4) (blackLeaf 5))

theorem delete_ok_iff_sixKeys :
    Root.RedBlack (some sixKeys) ∧ DeleteOk (some sixKeys) ⟨0, by decide⟩ :=
  ⟨by decide, (delete_ok_iff (some sixKeys) ⟨0, by decide⟩ (by decide)).2 (by decide)⟩

/-- Eight keys; all nodes are black. -/
def eightKeys : LeafTree Color Key (Fin 8) := interior .black 4
    (interior .black 2 (interior .black 1 (blackLeaf 0) (blackLeaf 1))
      (interior .black 3 (blackLeaf 2) (blackLeaf 3)))
    (interior .black 6 (interior .black 5 (blackLeaf 4) (blackLeaf 5))
      (interior .black 7 (blackLeaf 6) (blackLeaf 7)))

/-- The paths to the left of the root lose a black node, those to its right
do not. -/
theorem eightKeys_not_deleteOk :
    Root.RedBlack (some eightKeys) ∧ ¬ DeleteOk (some eightKeys) ⟨0, by decide⟩ := by
  refine ⟨by decide, ?_⟩
  rintro ⟨t', o, ht', hrb, -⟩
  have hdel : delete (some eightKeys) ⟨0, by decide⟩ = some (some (interior .black 4
      (interior .black 3 (interior .red 2 (blackLeaf 1) (blackLeaf 2)) (blackLeaf 3))
      (interior .black 6 (interior .black 5 (blackLeaf 4) (blackLeaf 5))
        (interior .black 7 (blackLeaf 6) (blackLeaf 7)))), some 0) := by decide
  rw [hdel] at ht'
  cases ht'
  exact absurd hrb (by decide)

end CLangProject.RbTree
