import CLangProject.Pool
import CLangProject.UnionFind

/-!
# Union by rank with path compression

`am_u_find.c` links the root of smaller rank to the other one and lets all nodes
on the two paths point to the root. Neither `join` nor `same_class` writes a link
that would lead away from the root, as long as `join` finds two different roots.
When both nodes have the same root, `join` lets this root point to itself.

The ranks increase along the links and a root of rank `r` has `2 ^ r` nodes in its
tree (`Ranked`); both are kept from any such forest on, reachable or not.
-/

namespace CLangProject.AmUFind

open Option Function
open UnionFind (findRoot)

structure Node (ι : Type) where
  rank : Nat
  item : ι
  up : Option Nat

abbrev Mem (ι : Type) := Pool (Node ι)

variable {ι : Type}

def Mem.up (m : Mem ι) (a : Nat) : Option Nat := (m.node a).up

def Mem.setUp (m : Mem ι) (a : Nat) (p : Option Nat) : Mem ι :=
  Pool.modify m a fun n => { n with up := p }

def Mem.setRank (m : Mem ι) (a rank : Nat) : Mem ι := Pool.modify m a fun n => { n with rank }

def ufInsert (m : Mem ι) (item : ι) : Nat × Mem ι :=
  let (newNode, m) := Pool.getNode m
  (newNode, Pool.modify m newNode fun _ => ⟨0, item, none⟩)

/-- The nodes on the path from `node` on point to `root`. -/
def compress (root : Nat) : (fuel node : Nat) → Mem ι → Option (Mem ι)
  | fuel, node, m =>
    match m.up node with
    | none => some m
    | some tmp =>
      if tmp = root then some m
      else
        match fuel with
        | 0 => none
        | fuel + 1 => compress root fuel tmp (m.setUp node (some root))

def sameClass (fuel : Nat) (m : Mem ι) (node1 node2 : Nat) : Option (Bool × Mem ι) := do
  let root1 ← findRoot m.up fuel node1
  let root2 ← findRoot m.up fuel node2
  let m ← compress root1 fuel node1 m
  let m ← compress root2 fuel node2 m
  some (root1 == root2, m)

/-- Union by rank: the new root, and the memory after the link. -/
def link (m : Mem ι) (root1 root2 : Nat) : Nat × Mem ι :=
  if (m.node root1).rank > (m.node root2).rank then (root1, m.setUp root2 (some root1))
  else if (m.node root1).rank < (m.node root2).rank then (root2, m.setUp root1 (some root2))
  else
    let m := m.setUp root2 (some root1)
    (root1, m.setRank root1 ((m.node root1).rank + 1))

def join (fuel : Nat) (m : Mem ι) (node1 node2 : Nat) : Option (Mem ι) := do
  let root1 ← findRoot m.up fuel node1
  let root2 ← findRoot m.up fuel node2
  let (newRoot, m) := link m root1 root2
  let m ← compress newRoot fuel node1 m
  compress newRoot fuel node2 m

def unionFind (ι : Type) : UnionFind (Mem ι) ι where
  insert := ufInsert
  sameClass := sameClass
  join := join

/-! ## Links -/

variable {m : Mem ι} {a x r : Nat} {n fuel : Nat} {N : List Nat}

theorem up_setUp (p : Option Nat) : (m.setUp a p).up = update m.up a p := by
  funext b
  by_cases hb : b = a
  · subst hb
    simp [Mem.up, Mem.setUp]
  · simp [Mem.up, Mem.setUp, hb]

theorem up_setRank (rank : Nat) : (m.setRank a rank).up = m.up :=
  funext fun b => Pool.read_modify Node.up rfl b

/-- The nodes are in use and their links stay among them. -/
structure Within (N : List Nat) (m : Mem ι) : Prop where
  holds : m.Holds N
  closed : ∀ x ∈ N, ∀ y, m.up x = some y → y ∈ N

theorem Within.setUp (h : Within N m) (hr : r ∈ N) : Within N (m.setUp a (some r)) := by
  refine ⟨h.holds.of_eq rfl rfl, fun x hx y hy => ?_⟩
  rw [up_setUp] at hy
  by_cases hxa : x = a
  · subst hxa
    rw [update_self] at hy
    exact some.inj hy ▸ hr
  · rw [update_of_ne hxa] at hy
    exact h.closed x hx y hy

/-- `m'` comes from `m` by shortcuts only. -/
structure Compressed (N : List Nat) (m m' : Mem ι) : Prop where
  short : Shortcut m.up m'.up
  within : Within N m'
  rank : ∀ z, (m'.node z).rank = (m.node z).rank

theorem Compressed.refl (h : Within N m) : Compressed N m m := ⟨.refl _, h, fun _ => rfl⟩

theorem Compressed.trans {m' m'' : Mem ι} (h : Compressed N m m') (h' : Compressed N m' m'') :
    Compressed N m m'' :=
  ⟨h.short.trans h'.short, h'.within, fun z => (h'.rank z).trans (h.rank z)⟩

theorem compress_ok (h : Within N m) (hd : Depth m.up n x r) (hr : r ∈ N) (hfuel : n ≤ fuel) :
    ∃ m', compress r fuel x m = some m' ∧ Compressed N m m' := by
  induction fuel generalizing m x n with
  | zero =>
    obtain rfl := hd.eq_zero_iff.1 (Nat.le_zero.1 hfuel)
    exact ⟨m, by rw [compress, hd.2], .refl h⟩
  | succ fuel ih =>
    rw [compress]
    cases hx : m.up x with
    | none => exact ⟨m, rfl, .refl h⟩
    | some tmp =>
      by_cases htmp : tmp = r
      · exact ⟨m, by simp [htmp], .refl h⟩
      · obtain ⟨k, rfl⟩ : ∃ k, n = k + 1 := by
          refine Nat.exists_eq_succ_of_ne_zero fun h0 => ?_
          obtain rfl := hd.eq_zero_iff.1 h0
          rw [hd.2] at hx
          cases hx
        obtain ⟨y, hy, hd'⟩ := hd.parent
        obtain rfl : tmp = y := some.inj (hx.symm.trans hy)
        have hs := shortcut_update hd
        rw [← up_setUp] at hs
        have hc : Compressed N m (m.setUp x (some r)) :=
          ⟨hs, h.setUp hr, Pool.read_modify Node.rank rfl⟩
        obtain ⟨j, hj, hd''⟩ := hd'.shortcut hs
        obtain ⟨m', hm', hc'⟩ := ih hc.within hd'' (by omega)
        exact ⟨m', by simpa [htmp] using hm', hc.trans hc'⟩

/-- Both paths are compressed. -/
theorem compress_both (fuel : Nat) {y r' : Nat} {k : Nat} (h : Within N m) (hx : Depth m.up n x r)
    (hy : Depth m.up k y r') (hr : r ∈ N) (hr' : r' ∈ N) (hn : n ≤ fuel) (hk : k ≤ fuel) :
    ∃ m1 m2, compress r fuel x m = some m1 ∧ compress r' fuel y m1 = some m2 ∧
      Compressed N m m2 := by
  obtain ⟨m1, hm1, hc1⟩ := compress_ok h hx hr hn
  obtain ⟨j, hj, hy'⟩ := hy.shortcut hc1.short
  obtain ⟨m2, hm2, hc2⟩ := compress_ok hc1.within hy' hr' (Nat.le_trans hj hk)
  exact ⟨m1, m2, hm1, hm2, hc1.trans hc2⟩

/-- Two different roots. -/
structure Roots (N : List Nat) (m : Mem ι) (root1 root2 : Nat) : Prop where
  up1 : m.up root1 = none
  up2 : m.up root2 = none
  ne : root1 ≠ root2
  mem1 : root1 ∈ N
  mem2 : root2 ∈ N

/-- What holds after one of two different roots has been linked to the other. -/
structure Linked (N : List Nat) (m : Mem ι) (root1 root2 : Nat) (new : Nat × Mem ι) : Prop where
  within : Within N new.2
  merges : Merges m.up new.2.up N root1 root2
  choice : new.1 = root1 ∨ new.1 = root2
  depth : ∀ {n x r}, Depth m.up n x r → r = root1 ∨ r = root2 →
      ∃ k ≤ n + 1, Depth new.2.up k x new.1

variable {root1 root2 : Nat} {new : Nat × Mem ι} {m' : Mem ι}

theorem Roots.symm (h : Roots N m root1 root2) : Roots N m root2 root1 :=
  ⟨h.up2, h.up1, h.ne.symm, h.mem2, h.mem1⟩

theorem Linked.symm (h : Linked N m root1 root2 new) : Linked N m root2 root1 new :=
  ⟨h.within, h.merges.symm, h.choice.symm, fun hd hr => h.depth hd hr.symm⟩

theorem linked_setUp (h : Within N m) (ht : Roots N m root1 root2)
    (hup : m'.up = (m.setUp root2 (some root1)).up) (hholds : m'.Holds N) :
    Linked N m root1 root2 (root1, m') := by
  have hw := h.setUp (a := root2) ht.mem1
  refine ⟨⟨hholds, by rw [hup]; exact hw.closed⟩, ?_, .inl rfl, fun {n x r} hd hr => ?_⟩
  · rw [hup, up_setUp]
    exact merges_link ht.up1 ht.up2 ht.ne
  · have hlink := depth_link ht.up1 ht.up2 ht.ne hd
    rw [← up_setUp, ← hup] at hlink
    rcases hr with rfl | rfl
    · rw [if_neg ht.ne, if_neg ht.ne] at hlink
      exact ⟨n, Nat.le_succ n, hlink⟩
    · rw [if_pos rfl, if_pos rfl] at hlink
      exact ⟨n + 1, Nat.le_refl _, hlink⟩

theorem link_ok (h : Within N m) (ht : Roots N m root1 root2) :
    Linked N m root1 root2 (link m root1 root2) := by
  unfold link
  split
  · exact linked_setUp h ht rfl (h.holds.of_eq rfl rfl)
  · split
    · exact (linked_setUp h ht.symm rfl (h.holds.of_eq rfl rfl)).symm
    · exact linked_setUp h ht (up_setRank _) (h.holds.of_eq rfl rfl)

/-! ## Calls -/

section Calls

variable {y k r' : Nat}

theorem Within.root_mem (h : Within N m) (hx : x ∈ N) (hd : Depth m.up n x r) : r ∈ N :=
  RunN.mem h.closed hd.1 hx

section

variable (h : Within N m) (hfuel : N.length < fuel) (hx : x ∈ N) (hy : y ∈ N)
  (hn : Depth m.up n x r) (hk : Depth m.up k y r')
include h hfuel hx hy hn hk

theorem sameClass_ok : ∃ m', sameClass fuel m x y = some (r == r', m') ∧ Compressed N m m' := by
  have hlt := hn.lt_length h.closed hx
  have hlt' := hk.lt_length h.closed hy
  obtain ⟨m1, m2, hm1, hm2, hc⟩ := compress_both fuel h hn hk (h.root_mem hx hn) (h.root_mem hy hk)
    (by omega) (by omega)
  refine ⟨m2, ?_, hc⟩
  simp [sameClass, UnionFind.findRoot_of_depth hn (Nat.lt_trans hlt hfuel),
    UnionFind.findRoot_of_depth hk (Nat.lt_trans hlt' hfuel), hm1, hm2]

theorem join_ok (hne : r ≠ r') : Roots N m r r' ∧
      ∃ m', join fuel m x y = some m' ∧ Compressed N (link m r r').2 m' := by
  have hlt := hn.lt_length h.closed hx
  have hlt' := hk.lt_length h.closed hy
  have ht : Roots N m r r' := ⟨hn.2, hk.2, hne, h.root_mem hx hn, h.root_mem hy hk⟩
  have hlink := link_ok h ht
  obtain ⟨i, hi, hdx⟩ := hlink.depth hn (.inl rfl)
  obtain ⟨j, hj, hdy⟩ := hlink.depth hk (.inr rfl)
  have hmem : (link m r r').1 ∈ N := by
    rcases hlink.choice with heq | heq <;> rw [heq]
    exacts [ht.mem1, ht.mem2]
  obtain ⟨m1, m2, hm1, hm2, hc⟩ := compress_both fuel hlink.within hdx hdy hmem hmem
    (by omega) (by omega)
  refine ⟨ht, m2, ?_, hc⟩
  simp [join, UnionFind.findRoot_of_depth hn (Nat.lt_trans hlt hfuel),
    UnionFind.findRoot_of_depth hk (Nat.lt_trans hlt' hfuel), hm1, hm2]

end

end Calls

/-- Forests of which no two nodes of one tree are joined. -/
theorem keeps (fuel : Nat) : (unionFind ι).Keeps Mem.up (fun m N => Within N m) fuel where
  closed h := h.closed
  insert {m N} item h := by
    have hnew := h.holds.fresh
    have hup : ∀ z ∈ N, (ufInsert m item).2.up z = m.up z := fun z hz => by
      have hne : z ≠ (Pool.getNode m).1 := fun heq => hnew (heq ▸ hz)
      simp [ufInsert, Mem.up, hne]
    have hroot : (ufInsert m item).2.up (ufInsert m item).1 = none := by simp [ufInsert, Mem.up]
    refine ⟨hnew, ⟨h.holds.getNode.of_eq rfl rfl, List.forall_mem_cons.2 ⟨fun y hy => ?_,
      fun z hz y hy => ?_⟩⟩, hroot, hup⟩
    · cases hroot.symm.trans hy
    · exact List.mem_cons_of_mem _ (h.closed z hz y ((hup z hz).symm.trans hy))
  sameClass h hfuel hx hy hn hk := by
    obtain ⟨m', hm', hc⟩ := sameClass_ok h hfuel hx hy hn hk
    exact ⟨m', hm', hc.within, hc.short⟩
  join h hfuel hx hy hn hk hne := by
    obtain ⟨ht, m', hm', hc⟩ := join_ok h hfuel hx hy hn hk hne
    exact ⟨m', hm', hc.within, (link_ok h ht).merges.shortcut hc.short⟩

/-! ## Ranks -/

open Classical in
/-- The nodes with the root `r`. -/
noncomputable def tree (m : Mem ι) (N : List Nat) (r : Nat) : Finset Nat :=
  N.toFinset.filter fun x => ∃ n, Depth m.up n x r

theorem mem_tree : x ∈ tree m N r ↔ x ∈ N ∧ ∃ n, Depth m.up n x r := by simp [tree]

/-- The rank increases along every link, and a root of rank `r` has at least `2 ^ r` nodes
in its tree. -/
structure Ranked (N : List Nat) (m : Mem ι) : Prop where
  within : Within N m
  lt : ∀ x ∈ N, ∀ y, m.up x = some y → (m.node x).rank < (m.node y).rank
  large : ∀ r ∈ N, m.up r = none → 2 ^ (m.node r).rank ≤ (tree m N r).card

/-- Two trees have become the tree of `s`, and the others are as they were. -/
def Unites (N : List Nat) (m m' : Mem ι) (r1 r2 s : Nat) : Prop :=
  tree m' N s = tree m N r1 ∪ tree m N r2 ∧ ∀ t, t ≠ r1 → t ≠ r2 → tree m' N t = tree m N t

namespace Ranked

section

variable (h : Ranked N m)
include h

theorem run_lt (hx : x ∈ N) (hrun : RunN m.up (n + 1) x y) : (m.node x).rank < (m.node y).rank := by
  induction n generalizing x with
  | zero =>
    cases hrun with
    | step hs hrun =>
      cases hrun
      exact h.lt x hx _ hs
  | succ n ih =>
    cases hrun with
    | step hs hrun => exact (h.lt x hx _ hs).trans (ih (h.within.closed x hx _ hs) hrun)

/-- Ranks are bounded, so the links lead to a root in the end. -/
theorem rooted (hx : x ∈ N) : ∃ n r, Depth m.up n x r := by
  have hbound : ∀ z ∈ N, (m.node z).rank ≤ N.toFinset.sup fun z => (m.node z).rank := fun z hz =>
    Finset.le_sup (f := fun z => (m.node z).rank) (List.mem_toFinset.2 hz)
  generalize N.toFinset.sup (fun z => (m.node z).rank) = M at hbound
  induction hk : M - (m.node x).rank using Nat.strongRecOn generalizing x with
  | ind k ih =>
    cases hup : m.up x with
    | none => exact ⟨0, x, depth_root hup⟩
    | some y =>
      have hlt := h.lt x hx y hup
      have hy := h.within.closed x hx y hup
      have hle := hbound y hy
      obtain ⟨n, r, hd⟩ := ih _ (by omega) hy rfl
      exact ⟨n + 1, r, hd.step hup⟩

theorem le_log (hx : x ∈ N) : (m.node x).rank ≤ Nat.log 2 N.length := by
  obtain ⟨n, r, hd⟩ := h.rooted hx
  have hle : (m.node x).rank ≤ (m.node r).rank := by
    cases n with
    | zero => rw [hd.eq_zero_iff.1 rfl]
    | succ n => exact (h.run_lt hx hd.1).le
  refine Nat.le_log_of_pow_le Nat.one_lt_two ?_
  calc 2 ^ (m.node x).rank ≤ 2 ^ (m.node r).rank := Nat.pow_le_pow_right Nat.two_pos hle
    _ ≤ (tree m N r).card := h.large r (h.within.root_mem hx hd) hd.2
    _ ≤ N.toFinset.card := Finset.card_le_card fun z hz => List.mem_toFinset.2 (mem_tree.1 hz).1
    _ ≤ N.length := List.toFinset_card_le N

/-- Where the nodes with the root `t` have the root `f t` now. -/
theorem mem_tree_iff {f : Nat → Nat}
    (hf : ∀ x ∈ N, ∀ n t, Depth m.up n x t → ∃ k, Depth m'.up k x (f t)) :
    x ∈ tree m' N r ↔ ∃ t, x ∈ tree m N t ∧ f t = r := by
  simp only [mem_tree]
  constructor
  · rintro ⟨hx, k, hd⟩
    obtain ⟨n, t, ht⟩ := h.rooted hx
    obtain ⟨j, hj⟩ := hf x hx n t ht
    exact ⟨t, ⟨hx, n, ht⟩, (hj.unique hd).2⟩
  · rintro ⟨t, ⟨hx, n, ht⟩, rfl⟩
    exact ⟨hx, hf x hx n t ht⟩

theorem tree_eq (hc : Compressed N m m') (r : Nat) : tree m' N r = tree m N r := by
  ext x
  rw [h.mem_tree_iff (f := id) fun x _ n t ht => ?_]
  · simp
  · obtain ⟨k, -, hk⟩ := ht.shortcut hc.short
    exact ⟨k, hk⟩

theorem unites (hl : Linked N m root1 root2 new) : Unites N m new.2 root1 root2 new.1 := by
  have hf : ∀ x ∈ N, ∀ n t, Depth m.up n x t →
      ∃ k, Depth new.2.up k x (if t = root1 ∨ t = root2 then new.1 else t) := by
    intro x hx n t ht
    split
    next hr =>
      obtain ⟨k, -, hk⟩ := hl.depth ht hr
      exact ⟨k, hk⟩
    next hr =>
      obtain ⟨s, -, hs⟩ := hl.merges
      simpa [hr] using hs x hx n t ht
  refine ⟨?_, fun t h1 h2 => ?_⟩
  · ext x
    rw [h.mem_tree_iff hf, Finset.mem_union]
    constructor
    · rintro ⟨t, hx, ht⟩
      split at ht
      next hr =>
        rcases hr with rfl | rfl
        · exact .inl hx
        · exact .inr hx
      next hr => exact (hr (ht ▸ hl.choice)).elim
    · rintro (hx | hx)
      · exact ⟨root1, hx, if_pos (.inl rfl)⟩
      · exact ⟨root2, hx, if_pos (.inr rfl)⟩
  · ext x
    rw [h.mem_tree_iff hf]
    constructor
    · rintro ⟨u, hx, hu⟩
      split at hu
      next => exact (not_or.2 ⟨h1, h2⟩ (hu ▸ hl.choice)).elim
      next => exact hu ▸ hx
    · exact fun hx => ⟨t, hx, if_neg (not_or.2 ⟨h1, h2⟩)⟩

theorem compressed (hc : Compressed N m m') : Ranked N m' := by
  refine ⟨hc.within, fun x hx y hy => ?_, fun r hr hup => ?_⟩
  · obtain ⟨n, hn⟩ := hc.short.above x y hy
    rw [hc.rank, hc.rank]
    exact h.run_lt hx hn
  · rw [hc.rank, h.tree_eq hc]
    exact h.large r hr ((hc.short.none_iff r).1 hup)

/-- `root2` is linked to `root1`, whose rank is large enough then. -/
theorem setUp (ht : Roots N m root1 root2)
    (hup : m'.up = (m.setUp root2 (some root1)).up) (hholds : m'.Holds N)
    (hrank : ∀ z, z ≠ root1 → (m'.node z).rank = (m.node z).rank)
    (hle : (m.node root1).rank ≤ (m'.node root1).rank)
    (hlt : (m.node root2).rank < (m'.node root1).rank)
    (hpow : 2 ^ (m'.node root1).rank ≤ 2 ^ (m.node root1).rank + 2 ^ (m.node root2).rank) :
    Ranked N m' := by
  have hl := linked_setUp h.within ht hup hholds
  have hu := h.unites hl
  rw [up_setUp] at hup
  refine ⟨hl.within, fun x hx y hy => ?_, fun r hr hroot => ?_⟩
  · rw [hup] at hy
    by_cases hx2 : x = root2
    · subst hx2
      rw [update_self] at hy
      obtain rfl := some.inj hy
      rwa [hrank x ht.ne.symm]
    · rw [update_of_ne hx2] at hy
      have hx1 : x ≠ root1 := by
        rintro rfl
        rw [ht.up1] at hy
        cases hy
      have hxy := h.lt x hx y hy
      rw [hrank x hx1]
      by_cases hy1 : y = root1
      · subst hy1
        omega
      · rwa [hrank y hy1]
  · by_cases hr1 : r = root1
    · subst hr1
      have hdisj : Disjoint (tree m N r) (tree m N root2) := by
        refine Finset.disjoint_left.2 fun x hx hx' => ht.ne ?_
        obtain ⟨-, n, hn⟩ := mem_tree.1 hx
        obtain ⟨-, k, hk⟩ := mem_tree.1 hx'
        exact (hn.unique hk).2
      rw [hu.1, Finset.card_union_of_disjoint hdisj]
      exact hpow.trans (Nat.add_le_add (h.large r hr ht.up1) (h.large root2 ht.mem2 ht.up2))
    · have hr2 : r ≠ root2 := by
        rintro rfl
        rw [hup, update_self] at hroot
        cases hroot
      rw [hup, update_of_ne hr2] at hroot
      rw [hrank r hr1, hu.2 r hr1 hr2]
      exact h.large r hr hroot

theorem link (ht : Roots N m root1 root2) : Ranked N (link m root1 root2).2 := by
  have hkeep : ∀ a p z, ((m.setUp a p).node z).rank = (m.node z).rank := fun a p =>
    Pool.read_modify Node.rank rfl
  have hholds := h.within.holds
  unfold AmUFind.link
  split
  next hgt =>
    exact h.setUp ht rfl (hholds.of_eq rfl rfl) (fun z _ => hkeep ..) (hkeep ..).ge
      (by rwa [hkeep]) (by rw [hkeep]; exact Nat.le_add_right ..)
  next hge =>
    split
    next hlt =>
      exact h.setUp ht.symm rfl (hholds.of_eq rfl rfl) (fun z _ => hkeep ..) (hkeep ..).ge
        (by rwa [hkeep]) (by rw [hkeep]; exact Nat.le_add_right ..)
    next hle =>
      have heq : (m.node root1).rank = (m.node root2).rank := by omega
      refine h.setUp ht (up_setRank _) (hholds.of_eq rfl rfl) (fun z hz => ?_) ?_ ?_ ?_
      · simp [Mem.setRank, hz, hkeep]
      · simp [Mem.setRank, hkeep]
      · simp [Mem.setRank, hkeep, heq]
      · simp [Mem.setRank, hkeep, heq, Nat.pow_succ, Nat.mul_two]

end

end Ranked

/-- `same_class` answers whether the roots are the same and keeps the trees; `join` unites
two trees and keeps all others; both keep the ranks in order, which are at most the
logarithm of the number of nodes. -/
theorem ranked_calls (h : Ranked N m) (hfuel : N.length < fuel) (hx : x ∈ N) (hy : y ∈ N) :
    ∃ n k r r', Depth m.up n x r ∧ Depth m.up k y r' ∧
      (∃ m', sameClass fuel m x y = some (r == r', m') ∧ Ranked N m' ∧
        ∀ t, tree m' N t = tree m N t) ∧
      (r ≠ r' → ∃ m' s, join fuel m x y = some m' ∧ Ranked N m' ∧ (s = r ∨ s = r') ∧
        Unites N m m' r r' s) ∧ ∀ z ∈ N, (m.node z).rank ≤ Nat.log 2 N.length := by
  obtain ⟨n, r, hn⟩ := h.rooted hx
  obtain ⟨k, r', hk⟩ := h.rooted hy
  refine ⟨n, k, r, r', hn, hk, ?_, fun hne => ?_, fun z hz => h.le_log hz⟩
  · obtain ⟨m', hm', hc⟩ := sameClass_ok h.within hfuel hx hy hn hk
    exact ⟨m', hm', h.compressed hc, h.tree_eq hc⟩
  · obtain ⟨ht, m', hm', hc⟩ := join_ok h.within hfuel hx hy hn hk hne
    have hl := link_ok h.within ht
    have hlink := h.link ht
    have hu := h.unites hl
    refine ⟨m', (AmUFind.link m r r').1, hm', hlink.compressed hc, hl.choice, ?_, fun t h1 h2 => ?_⟩
    · rw [hlink.tree_eq hc, hu.1]
    · rw [hlink.tree_eq hc, hu.2 t h1 h2]

def twoNodes : Mem Unit := ⟨fun _ => ⟨0, (), none⟩, [], 2⟩

/-- Two new nodes are joined; then they have the same root. -/
theorem ranked_calls_twoNodes : ∃ m m', join 3 twoNodes 0 1 = some m ∧ Ranked [0, 1] m ∧
    sameClass 3 m 0 1 = some (true, m') ∧ Ranked [0, 1] m' := by
  have h : Ranked [0, 1] twoNodes := by
    refine ⟨⟨⟨by decide, by decide⟩, ?_⟩, ?_, fun r hr hup => ?_⟩
    · simp [twoNodes, Mem.up]
    · simp [twoNodes, Mem.up]
    · exact Finset.card_pos.2 ⟨r, mem_tree.2 ⟨hr, 0, depth_root hup⟩⟩
  have hlen : [0, 1].length < 3 := by decide
  obtain ⟨n, k, r, r', hn, hk, -, hjoin, -⟩ :=
    ranked_calls h hlen (x := 0) (y := 1) (by decide) (by decide)
  obtain ⟨-, rfl⟩ := hn.unique (depth_root rfl)
  obtain ⟨-, rfl⟩ := hk.unique (depth_root rfl)
  obtain ⟨m, -, hm, hr, -⟩ := hjoin (by decide)
  obtain rfl := some.inj hm
  obtain ⟨n, k, r, r', hn, hk, ⟨m', hm', hr', -⟩, -⟩ :=
    ranked_calls hr hlen (x := 0) (y := 1) (by decide) (by decide)
  obtain ⟨-, rfl⟩ := hn.unique (depth_root rfl)
  obtain ⟨-, rfl⟩ := hk.unique ((depth_root (r := 0) rfl).step rfl)
  exact ⟨_, m', rfl, hr, hm', hr'⟩

end CLangProject.AmUFind
