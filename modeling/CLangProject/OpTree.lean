import CLangProject.MakeTree
import CLangProject.Pool
import CLangProject.StackLoop

/-!
# Optimal trees, top-down, and back to lists

`make_tree` of `t_op_tree.c`, which the programs of `ch4` share, in the memory that it works on: a
list and a tree have the same nodes, from one pool, and every leaf that is filled gives a node of
the list back to the pool from which the next nodes of the tree are taken. `make_list` turns a tree
into a list in its leaves. `MakeTree` has the same tree as a function of the list of entries; here
the stack is the one of the program, and any bound can be put on it.

In a tree in memory the tags are the addresses of the nodes.
-/

namespace CLangProject.OpTree

open LeafTree List

variable {κ ο : Type}

/-- What the left pointer of a node points to. -/
inductive Ref (ο : Type) where
  | node (a : Nat)
  | object (o : ο)

structure Node (κ ο : Type) where
  key : κ
  left : Option (Ref ο)
  right : Option Nat

abbrev Mem (κ ο : Type) := Pool (Node κ ο)

def returnNode (m : Mem κ ο) (a : Nat) : Mem κ ο :=
  m.returnNode (fun p n => { n with left := p.map .node }) a

/-! ## The code -/

structure Item where
  node1 : Nat
  node2 : Option Nat
  number : Nat

/-- Give its key to the interior node that waits for it. -/
def setKey (m : Mem κ ο) (node2 : Option Nat) (k : κ) : Mem κ ο :=
  node2.elim m fun b => m.modify b fun n => { n with key := k }

/-- One round of `make_tree`, with the rest of the list. -/
def expand : Mem κ ο × Option Nat → Item → Option ((Mem κ ο × Option Nat) × List Item)
  | (m, list), current =>
    if 1 < current.number then
      let (left, m) := m.getNode
      let (right, m) := m.getNode
      let m := m.modify current.node1 fun n =>
        { n with left := some (.node left), right := some right }
      let half := current.number / 2
      some ((m, list),
        [⟨left, current.node2, half⟩, ⟨right, some current.node1, current.number - half⟩])
    else do
      let list ← list
      let item := m.node list
      let m := m.modify current.node1 fun _ => { item with right := none }
      some ((returnNode (setKey m current.node2 item.key) list, item.right), [])

/-- The number of the nodes of a list. -/
def length (m : Mem κ ο) : (fuel : Nat) → Option Nat → Option Nat
  | _, none => some 0
  | 0, some _ => none
  | fuel + 1, some tmp => (length m fuel (m.node tmp).right).map (· + 1)

/-- `make_tree` with a stack of any size; the one of the program has 100 entries. There is no
result if the `int` that counts the nodes of the list overflows. -/
def makeTree (limit fuel : Nat) (m : Mem κ ο) (list : Option Nat) : Option (Mem κ ο × Nat) := do
  let length ← length m fuel list
  if length < 2 ^ 31 then
    let (root, m) := m.getNode
    let (m, _) ← stackLoop expand limit fuel [⟨root, none, length⟩] (m, list)
    some (m, root)
  else none

/-- One round of `make_list`, with the list so far. -/
def gather (s : Mem κ ο × Option Nat) (a : Nat) : Option ((Mem κ ο × Option Nat) × List Nat) :=
  match (s.1.node a).right, (s.1.node a).left with
  | none, _ => some ((s.1.modify a fun n => { n with right := s.2 }, some a), [])
  | some right, some (.node left) => some ((returnNode s.1 a, s.2), [right, left])
  | _, _ => none

def makeList (fuel : Nat) (m : Mem κ ο) (tree : Nat) : Option (Mem κ ο × Option Nat) :=
  match (m.node tree).left with
  | none => some (returnNode m tree, none)
  | some _ => stackLoop gather 100 fuel [tree] (m, none)

/-! ## Lists and trees in memory -/

/-- The list at `p` has the given nodes and entries. -/
def Listed (m : Mem κ ο) : Option Nat → List (Nat × κ × ο) → Prop
  | p, [] => p = none
  | p, x :: xs => p = some x.1 ∧ ∃ q, m.node x.1 = ⟨x.2.1, some (.object x.2.2), q⟩ ∧ Listed m q xs

/-- The tree is there, each node at the address that is its tag. -/
def Stored (m : Mem κ ο) : LeafTree Nat κ ο → Prop
  | leaf a k o => m.node a = ⟨k, some (.object o), none⟩
  | node a k l r => m.node a = ⟨k, some (.node l.tag), some r.tag⟩ ∧ Stored m l ∧ Stored m r

def cells : LeafTree Nat κ ο → List Nat
  | leaf a _ _ => [a]
  | node a _ l r => a :: (cells l ++ cells r)

/-- The leaves as a list. -/
def leaves : LeafTree Nat κ ο → List (Nat × κ × ο)
  | leaf a k o => [(a, k, o)]
  | node _ _ l r => leaves l ++ leaves r

variable {m m' : Mem κ ο} {p : Option Nat} {X Y : List (Nat × κ × ο)} {t : LeafTree Nat κ ο}
    {R : List Nat}

theorem height_pos (t : LeafTree Nat κ ο) : 0 < t.height := by cases t <;> simp [LeafTree.height]

theorem map_leaves (t : LeafTree Nat κ ο) : (leaves t).map Prod.snd = t.toList := by
  induction t with
  | leaf => rfl
  | node a k l r ihl ihr => rw [leaves, map_append, ihl, ihr, toList]

theorem Listed.congr (h : Listed m p X) (hm : ∀ c ∈ X.map Prod.fst, m'.node c = m.node c) :
    Listed m' p X := by
  induction X generalizing p with
  | nil => exact h
  | cons x X ih =>
    obtain ⟨hx, hX⟩ := forall_mem_cons.1 hm
    obtain ⟨hp, q, hq, h⟩ := h
    exact ⟨hp, q, hx.trans hq, ih h hX⟩

theorem Stored.congr (h : Stored m t) (hm : ∀ c ∈ cells t, m'.node c = m.node c) : Stored m' t := by
  induction t with
  | leaf a k o => exact (hm a mem_cons_self).trans h
  | node a k l r ihl ihr =>
    simp only [cells, forall_mem_cons, forall_mem_append] at hm
    exact ⟨hm.1.trans h.1, ihl h.2.1 hm.2.1, ihr h.2.2 hm.2.2⟩

theorem ends_length (h : Listed m p X) : Ends (length m · p) X.length := by
  induction X generalizing p with
  | nil =>
    obtain rfl : p = none := h
    exact .of_succ fun _ => rfl
  | cons x X ih =>
    obtain ⟨rfl, q, hq, h⟩ := h
    exact ((ih h).map (· + 1)).step fun fuel => by simp [length, hq]

/-! ## From lists to trees -/

/-- The list `X` has become the tree `t`, with `Y` left. The nodes in `R` are as before, but for the
key of `node2`. -/
structure Built (m m' : Mem κ ο) (p' : Option Nat) (X Y : List (Nat × κ × ο)) (R : List Nat)
    (node2 : Option Nat) (t : LeafTree Nat κ ο) : Prop where
  stored : Stored m' t
  toList : t.toList = X.map Prod.snd
  exact : t.Exact
  height : ∀ d, X.length ≤ 2 ^ d → t.height ≤ d + 1
  rest : Listed m' p' Y
  holds : m'.Holds (cells t ++ Y.map Prod.fst ++ R)
  frame : ∀ c ∈ R, m'.node c =
    if node2 = some c then { m.node c with key := t.firstKey } else m.node c

variable {node1 : Nat} {node2 : Option Nat}

theorem node_setKey (k : κ) (c : Nat) :
    (setKey m node2 k).node c =
      if node2 = some c then { m.node c with key := k } else m.node c := by
  cases node2 with
  | none => rfl
  | some b => by_cases hb : c = b <;> simp [setKey, hb, eq_comm]

theorem holds_setKey (h : m.Holds R) (k : κ) : (setKey m node2 k).Holds R := by
  cases node2 with
  | none => exact h
  | some b => exact h.of_eq rfl rfl

theorem expand_leaf {x : Nat × κ × ο} (hlist : Listed m p (x :: Y))
    (hm : m.Holds (node1 :: (x :: Y).map Prod.fst ++ R)) (h2 : ∀ b ∈ node2, b ∈ R) :
      ∃ m' p', Built m m' p' [x] Y R node2 (leaf node1 x.2.1 x.2.2) ∧
      expand (m, p) ⟨node1, node2, 1⟩ = some ((m', p'), []) := by
  obtain ⟨rfl, q, hq, hY⟩ := hlist
  have hd := hm.nodup_owned
  refine ⟨returnNode (setKey (m.modify node1 fun _ => ⟨x.2.1, some (.object x.2.2), none⟩) node2
    x.2.1) x.1, q, ?_, ?_⟩
  · have hnode : ∀ c, c ≠ node1 → c ≠ x.1 →
        (returnNode (setKey (m.modify node1 fun _ => ⟨x.2.1, some (.object x.2.2), none⟩)
        node2 x.2.1) x.1).node c =
          if node2 = some c then { m.node c with key := x.2.1 } else m.node c := by
      intro c hc hx
      rw [returnNode, Pool.node_returnNode_ne hx, node_setKey, Pool.node_modify_ne hc]
    refine ⟨?_, rfl, trivial, fun d _ => by simp [LeafTree.height], hY.congr fun c hc => ?_, ?_,
      fun c hc => ?_⟩
    · rw [Stored, returnNode, Pool.node_returnNode_ne (by grind), node_setKey,
        Pool.node_modify_self, if_neg]
      grind
    · rw [hnode c (by grind) (by grind), if_neg (by grind)]
    · exact Pool.Holds.returnNode
        (holds_setKey (m := m.modify ..) ((hm.perm (.swap ..)).of_eq rfl rfl) _)
    · exact hnode c (by grind) (by grind)
  · simp [expand, hq, setKey]

/-- The trees of the two halves of a list become the children of a node. -/
theorem Built.node {m1 m2 : Mem κ ο} {p2 : Option Nat} {X1 X2 : List (Nat × κ × ο)} {r : Nat}
    {tl tr : LeafTree Nat κ ο} (hl : Built m1 m2 p2 X1 (X2 ++ Y) (r :: node1 :: R) node2 tl)
    (hr : Built m2 m' p X2 Y (node1 :: (cells tl ++ R)) (some node1) tr)
    (hd : (node1 :: (cells tl ++ R)).Nodup) (h2 : ∀ b ∈ node2, b ∈ R)
    (hroot : m1.node node1 = ⟨(m.node node1).key, some (.node tl.tag), some tr.tag⟩)
    (hsame : ∀ c ∈ R, m1.node c = m.node c) (hX1 : 0 < X1.length)
    (hle : X1.length ≤ X2.length ∧ X2.length ≤ X1.length + 1) :
    Built m m' p (X1 ++ X2) Y R node2 (.node node1 tr.firstKey tl tr) where
  stored := by
    refine ⟨?_, hl.stored.congr fun c hc => ?_, hr.stored⟩
    · rw [hr.frame node1 mem_cons_self, hl.frame node1 (by simp), if_pos rfl, if_neg (by grind),
        hroot]
    · rw [hr.frame c (by grind), if_neg (by grind)]
  toList := by rw [LeafTree.toList, hl.toList, hr.toList, map_append]
  exact := ⟨rfl, hl.exact, hr.exact⟩
  height d hlen := by
    rw [length_append] at hlen
    cases d with
    | zero => omega
    | succ d =>
      rw [Nat.pow_succ] at hlen
      have hhl := hl.height d (by omega)
      have hhr := hr.height d (by omega)
      rw [LeafTree.height]
      omega
  rest := hr.rest
  holds := hr.holds.perm (perm_iff_count.2 fun c => by simp [cells, count_cons]; omega)
  frame c hc := by
    rw [hr.frame c (by grind), if_neg (by grind), hl.frame c (by grind), hsame c hc]
    rfl

/-- A node that is to become `X.length` leaves. -/
theorem expand_ok (hX : X ≠ []) (hlist : Listed m p (X ++ Y))
    (hm : m.Holds (node1 :: (X ++ Y).map Prod.fst ++ R)) (h2 : ∀ b ∈ node2, b ∈ R) :
      ∃ m' p' t, t.tag = node1 ∧ Built m m' p' X Y R node2 t ∧ ∀ limit n, n + t.height ≤ limit →
        Works expand limit [⟨node1, node2, X.length⟩] n (m, p) (m', p') := by
  induction hn : X.length using Nat.strong_induction_on generalizing m p X Y R node1 node2 with
  | _ n ih =>
    by_cases hn1 : 1 < n
    · obtain ⟨X1, X2, rfl, h1, hX2⟩ : ∃ X1 X2, X1 ++ X2 = X ∧ X1.length = n / 2 ∧
        X2.length = n - n / 2 :=
        ⟨_, _, take_append_drop (n / 2) X, by rw [length_take]; omega, by rw [length_drop, hn]⟩
      rw [append_assoc] at hlist hm
      -- the two new nodes, of which the left one is expanded first
      have hm1 := hm.getNode.getNode
      set m0 := m.getNode.2
      set l := m.getNode.1
      set r := m0.getNode.1
      have hd := hm1.nodup_owned
      set m1 := m0.getNode.2.modify node1 fun n =>
        { n with left := some (.node l), right := some r }
      have hsame : ∀ c, c ≠ node1 → m1.node c = m.node c := fun c hc => by
        simp [m1, m0, Pool.node_modify_ne hc]
      have hlist1 : Listed m1 p (X1 ++ (X2 ++ Y)) := hlist.congr fun c hc => hsame c (by grind)
      have hm1 : m1.Holds (l :: (X1 ++ (X2 ++ Y)).map Prod.fst ++ r :: node1 :: R) :=
        (hm1.perm (perm_iff_count.2 fun c => by simp [count_cons]; omega)).of_eq rfl rfl
      have h2l : ∀ b ∈ node2, b ∈ r :: node1 :: R := by grind
      obtain ⟨m2, p2, tl, htl, hl, hworks1⟩ :=
        ih (n / 2) (by omega) (length_pos_iff.1 (by omega)) hlist1 hm1 h2l h1
      have hm2 : m2.Holds (r :: (X2 ++ Y).map Prod.fst ++ node1 :: (cells tl ++ R)) :=
        hl.holds.perm (perm_iff_count.2 fun c => by simp [count_cons]; omega)
      have h2r : ∀ b ∈ some node1, b ∈ node1 :: (cells tl ++ R) := by simp
      obtain ⟨m3, p3, tr, htr, hr, hworks2⟩ :=
        ih (n - n / 2) (by omega) (length_pos_iff.1 (by omega)) hl.rest hm2 h2r hX2
      refine ⟨m3, p3, .node node1 tr.firstKey tl tr, rfl, ?_, fun limit k hlimit => ?_⟩
      · have hroot : m1.node node1 = ⟨(m.node node1).key, some (.node tl.tag), some tr.tag⟩ := by
          rw [htl, htr, Pool.node_modify_self]
          simp [m0]
        exact hl.node hr (nodup_append.1 hm2.nodup_owned).2.1 h2 hroot
          (fun c hc => hsame c (by grind)) (by omega) (by omega)
      · have hexpand : expand (m, p) ⟨node1, node2, n⟩ =
            some ((m1, p), [⟨l, node2, n / 2⟩, ⟨r, some node1, n - n / 2⟩]) :=
          if_pos hn1
        simp only [LeafTree.height] at hlimit
        have hpos := height_pos tl
        refine (works_one hexpand).2 ⟨show k + 2 ≤ limit by omega,
          works_cons.2 ⟨_, hworks1 limit (k + 1) (by omega), ?_⟩⟩
        exact hworks2 limit k (by omega)
    · obtain ⟨x, rfl⟩ :=
        length_eq_one_iff.1 (show X.length = 1 by have := length_pos_iff.2 hX; omega)
      obtain ⟨m', p', hbuilt, hexpand⟩ := expand_leaf hlist hm h2
      subst hn
      refine ⟨m', p', _, rfl, hbuilt, fun limit n hlimit => (works_one hexpand).2 ⟨?_, .nil _ _⟩⟩
      simp only [LeafTree.height, length_nil] at hlimit ⊢
      omega

theorem makeTree_ok (hX : X ≠ []) (hlen : X.length < 2 ^ 31) (hlist : Listed m p X)
    (hm : m.Holds (X.map Prod.fst ++ R)) : ∃ m' p' t, Built m m' p' X [] R none t ∧
      ∀ limit, t.height ≤ limit → Ends (makeTree limit · m p) (m', t.tag) := by
  have hlist' : Listed m.getNode.2 p (X ++ []) := by
    rw [append_nil]
    exact hlist.congr fun c _ => by rw [Pool.node_getNode]
  have hm' := hm.getNode
  rw [← append_nil X] at hm'
  have hnone : ∀ b ∈ (none : Option Nat), b ∈ R := by simp
  obtain ⟨m', p', t, ht, hbuilt, hworks⟩ := expand_ok hX hlist' hm' hnone
  refine ⟨m', p', t, ?_, fun limit hlimit => ?_⟩
  · exact { hbuilt with frame := by simpa using hbuilt.frame }
  · have hloop := ends_stackLoop.2 (hworks limit 0 (by rwa [Nat.zero_add]))
    refine (ends_length hlist).bind ?_
    simp only [if_pos hlen]
    exact hloop.bind (.of_eq fun _ => congrArg (fun a => some (m', a)) ht.symm)

/-! ## From trees to lists -/

theorem gather_ok (ht : Stored m t) (hY : Listed m p Y)
    (hm : m.Holds (cells t ++ Y.map Prod.fst ++ R)) :
    ∃ m' p', Listed m' p' (leaves t ++ Y) ∧ m'.Holds ((leaves t ++ Y).map Prod.fst ++ R) ∧
      (∀ c ∈ R, m'.node c = m.node c) ∧ ∀ n, n + t.height ≤ 100 →
      Works gather 100 [t.tag] n (m, p) (m', p') := by
  induction t generalizing m p Y R with
  | leaf a k o =>
    have hd := hm.nodup_owned
    have hsame : ∀ c, c ≠ a → (m.modify a fun n => { n with right := p }).node c = m.node c :=
      fun c => Pool.node_modify_ne
    rw [Stored] at ht
    refine ⟨m.modify a fun n => { n with right := p }, some a,
      ⟨rfl, p, by simp [ht], hY.congr fun c hc => hsame c (by grind [cells])⟩,
      hm.of_eq rfl rfl, fun c hc => hsame c (by grind [cells]), fun n hn =>
        (works_one (by simp [gather, ht])).2 ⟨?_, .nil _ _⟩⟩
    exact (Nat.le_add_right ..).trans hn
  | node a k l r ihl ihr =>
    obtain ⟨hroot, hl, hr⟩ := ht
    have hd := hm.nodup_owned
    have hsame : ∀ c, c ≠ a → (returnNode m a).node c = m.node c := fun c => Pool.node_returnNode_ne
    have hm1 : (returnNode m a).Holds (cells r ++ Y.map Prod.fst ++ (cells l ++ R)) :=
      Pool.Holds.returnNode (hm.perm (perm_iff_count.2 fun c => by simp [cells, count_cons]; omega))
    obtain ⟨m2, p2, hlist2, hm2, hsame2, hworks2⟩ :=
      ihr (hr.congr fun c hc => hsame c (by grind [cells])) (hY.congr fun c hc =>
      hsame c (by grind [cells])) hm1
    obtain ⟨m3, p3, hlist3, hm3, hsame3, hworks3⟩ :=
      ihl (m := m2) (R := R) (hl.congr fun c hc =>
      (hsame2 c (by grind)).trans (hsame c (by grind [cells]))) hlist2 (hm2.perm
      (perm_iff_count.2 fun c => by simp; omega))
    refine ⟨m3, p3, by rwa [leaves, append_assoc], by rwa [leaves, append_assoc], fun c hc => ?_,
      fun n hn => ?_⟩
    · rw [hsame3 c hc, hsame2 c (by grind), hsame c (by grind [cells])]
    · have hgather : gather (m, p) a = some ((returnNode m a, p), [r.tag, l.tag]) := by
        simp [gather, hroot]
      simp only [LeafTree.height] at hn
      have hpos := height_pos r
      refine (works_one hgather).2 ⟨show n + 2 ≤ 100 by omega,
        works_cons.2 ⟨_, hworks2 (n + 1) (by omega), ?_⟩⟩
      exact hworks3 n (by omega)

theorem makeList_ok (ht : Stored m t) (hm : m.Holds (cells t ++ R)) (hh : t.height ≤ 100) :
    ∃ m' p', Listed m' p' (leaves t) ∧ Ends (makeList · m t.tag) (m', p') := by
  obtain ⟨m', p', hlist, -, -, hworks⟩ := gather_ok (p := none) (Y := []) ht rfl (by simpa using hm)
  refine ⟨m', p', by simpa using hlist, ?_⟩
  have hloop := ends_stackLoop.2 (hworks 0 (by rwa [Nat.zero_add]))
  have hleft : ∃ x, (m.node t.tag).left = some x := by
    cases t with
    | leaf a k o => exact ⟨_, congrArg Node.left ht⟩
    | node a k l r => exact ⟨_, congrArg Node.left ht.1⟩
  obtain ⟨x, hx⟩ := hleft
  simpa only [makeList, hx] using hloop

/-! ## Keys -/

/-- The key of an interior node is the least one in its right subtree. -/
def Least [LE κ] : LeafTree Nat κ ο → Prop
  | leaf _ _ _ => True
  | node _ k l r => IsLeast {x | ∃ o, (x, o) ∈ r.toList} k ∧ Least l ∧ Least r

theorem least_of_exact [LinearOrder κ] (hs : t.Search) (he : t.Exact) : Least t := by
  induction t with
  | leaf => trivial
  | node a k l r ihl ihr =>
    obtain ⟨-, -, hsl, hsr⟩ := hs
    obtain ⟨rfl, hel, her⟩ := he
    exact ⟨⟨r.firstKey_mem, fun x ⟨o, ho⟩ => hsr.firstKey_le ho⟩, ihl hsl hel, ihr hsr her⟩

/-- `make_tree` follows the NULL pointer that stands for the empty list. -/
theorem makeTree_none (limit fuel : Nat) (m : Mem κ ο) : makeTree limit fuel m none = none := by
  cases fuel <;> simp [makeTree, length, stackLoop, expand]

/-- The count of the list overflows. -/
theorem not_ends_makeTree (hlist : Listed m p X) (hlen : 2 ^ 31 ≤ X.length) {limit : Nat}
    {r : Mem κ ο × Nat} : ¬ Ends (makeTree limit · m p) r := by
  rintro ⟨bound, hends⟩
  obtain ⟨bound', hlength⟩ := ends_length hlist
  have hnone := hends (max bound bound') (Nat.le_max_left ..)
  simp [makeTree, hlength _ (Nat.le_max_right ..)] at hnone
  exact not_lt.2 hlen hnone.1

/-- Every list of entries can be in memory. -/
theorem exists_listed (node : Nat → Node κ ο) (L : List (κ × ο)) :
    ∃ m p X, Listed m p X ∧ m.Holds (X.map Prod.fst) ∧ X.map Prod.snd = L := by
  induction L with
  | nil => exact ⟨⟨node, [], 0⟩, none, [], rfl, ⟨by simp, by simp⟩, rfl⟩
  | cons e L ih =>
    obtain ⟨m, p, X, hlist, hm, rfl⟩ := ih
    refine ⟨m.getNode.2.modify m.getNode.1 fun _ => ⟨e.1, some (.object e.2), p⟩,
      some m.getNode.1, (m.getNode.1, e) :: X,
      ⟨rfl, p, Pool.node_modify_self, hlist.congr fun c hc => ?_⟩, hm.getNode.of_eq rfl rfl, rfl⟩
    have hne : c ≠ m.getNode.1 := fun heq => hm.fresh (heq ▸ hc)
    rw [Pool.node_modify_ne hne, Pool.node_getNode]

/-- The list, the tree made from it and the list made from the tree have the same entries. -/
def RoundTrip (m : Mem κ ο) (p : Option Nat) (X : List (Nat × κ × ο)) : Prop :=
  ∃ m1 root m2 list Y, Ends (makeTree 100 · m p) (m1, root) ∧ Ends (makeList · m1 root) (m2, list) ∧
    Listed m2 list Y ∧ Y.map Prod.snd = X.map Prod.snd

theorem not_roundTrip (m : Mem κ ο) : ¬ RoundTrip m none [] := by
  rintro ⟨m1, root, m2, list, Y, ⟨bound, hends⟩, -⟩
  cases (makeTree_none 100 bound m).symm.trans (hends bound le_rfl)

variable [LinearOrder κ]

/-- `make_tree` makes a search tree of the list. The height is the one of the tree without its
leaves; one entry more than that is enough for the stack. -/
def Builds (m : Mem κ ο) (p : Option Nat) (X : List (Nat × κ × ο)) : Prop :=
  ∃ m' t, Ends (makeTree 100 · m p) (m', t.tag) ∧ Stored m' t ∧ t.toList = X.map Prod.snd ∧
    t.Search ∧ Least t ∧ t.height - 1 ≤ Nat.clog 2 X.length ∧
      Ends (makeTree (t.height - 1 + 1) · m p) (m', t.tag)

section

variable (hlist : Listed m p X) (hm : m.Holds (X.map Prod.fst ++ R))
  (hs : (X.map Prod.snd).Pairwise (·.1 < ·.1))
include hlist hm hs

/-- The tree of a list is built if and only if the list has less than `2 ^ 31` nodes. -/
theorem builds_iff (hX : X ≠ []) : Builds m p X ↔ X.length < 2 ^ 31 := by
  constructor
  · rintro ⟨m', t, hends, -⟩
    exact not_le.1 fun hlen => not_ends_makeTree hlist hlen hends
  · intro hlen
    obtain ⟨m', p', t, hb, hends⟩ := makeTree_ok hX hlen hlist hm
    have hsearch : t.Search := hb.exact.search (hb.toList ▸ hs)
    have hlog := hb.height _ (Nat.le_pow_clog (by decide) X.length)
    have hheight := (hb.height 31 hlen.le).trans (by decide : 31 + 1 ≤ 100)
    exact ⟨m', t, hends 100 hheight, hb.stored, hb.toList, hsearch, least_of_exact hsearch hb.exact,
      by omega, hends _ (by omega)⟩

/-- A list is made from the tree again if and only if it is not empty and has less than `2 ^ 31`
nodes. -/
theorem roundTrip_iff : RoundTrip m p X ↔ X ≠ [] ∧ X.length < 2 ^ 31 := by
  constructor
  · refine fun h => ⟨?_, ?_⟩
    · rintro rfl
      obtain rfl : p = none := hlist
      exact not_roundTrip m h
    · obtain ⟨m1, root, m2, list, Y, hends, -⟩ := h
      exact not_le.1 fun hlen => not_ends_makeTree hlist hlen hends
  · rintro ⟨hX, hlen⟩
    obtain ⟨m1, p', t, hb, hends⟩ := makeTree_ok hX hlen hlist hm
    have hheight := (hb.height 31 hlen.le).trans (by decide : 31 + 1 ≤ 100)
    obtain ⟨m2, list, hlist2, hends2⟩ :=
      makeList_ok (R := R) hb.stored (by simpa using hb.holds) hheight
    exact ⟨m1, _, m2, list, leaves t, hends 100 hheight, hends2, hlist2,
      (map_leaves t).trans hb.toList⟩

end

/-- A pool with a list of one node. -/
def oneNode : Mem Key Nat := ⟨fun _ => ⟨smallKey 1, some (.object 7), none⟩, [], 1⟩

theorem listed_oneNode : Listed oneNode (some 0) [(0, smallKey 1, 7)] ∧ oneNode.Holds [0] :=
  ⟨⟨rfl, none, rfl, rfl⟩, by simp [oneNode], by simp [oneNode]⟩

theorem builds_one : Builds oneNode (some 0) [(0, smallKey 1, 7)] :=
  (builds_iff (R := []) listed_oneNode.1 listed_oneNode.2 (pairwise_singleton ..) (by simp)).2
    (by decide)

theorem roundTrip_one : RoundTrip oneNode (some 0) [(0, smallKey 1, 7)] :=
  (roundTrip_iff (R := []) listed_oneNode.1 listed_oneNode.2 (pairwise_singleton ..)).2 (by simp)

theorem empty_list_no_result :
    Listed oneNode none [] ∧ oneNode.Holds [] ∧ ¬ RoundTrip oneNode none [] :=
  ⟨rfl, ⟨by simp [oneNode], by simp [oneNode]⟩, not_roundTrip oneNode⟩

/-- A list of all keys, of which there are `2 ^ 32`. -/
theorem not_builds_allKeys : ∃ (m : Mem Key Unit) (p : Option Nat) (X : List (Nat × Key × Unit)),
    Listed m p X ∧ m.Holds (X.map Prod.fst) ∧ (X.map Prod.snd).Pairwise (·.1 < ·.1) ∧ X ≠ [] ∧
      ¬ Builds m p X := by
  obtain ⟨m, p, X, hlist, hm, hX⟩ := exists_listed (fun _ => ⟨smallKey 0, none, none⟩)
    (((Finset.univ : Finset Key).sort (· ≤ ·)).map fun k => (k, ()))
  have hlen : X.length = 2 ^ 32 := by
    rw [← length_map (f := Prod.snd), hX, length_map, Finset.length_sort,
      Finset.card_univ, card_key]
  refine ⟨m, p, X, hlist, hm, ?_, ?_, ?_⟩
  · rw [hX, pairwise_map]
    exact (Finset.sortedLT_sort _).pairwise
  · rintro rfl
    cases hlen
  · rintro ⟨m', t, hends, -⟩
    exact not_ends_makeTree hlist (by rw [hlen]; decide) hends

end CLangProject.OpTree
