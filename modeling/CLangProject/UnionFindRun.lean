import CLangProject.AmUFind
import CLangProject.WcForest

/-!
# Runs of the two union-find structures

The forests that `wc_u_find.c` reaches by joining nodes with different roots keep
the invariant `Wf`. In both structures the answers of `same_class` are then those
of the equivalence generated by the joined pairs. A join of two nodes of one class
is no call of this sort: neither `join` compares the roots, and a root that is
joined with itself has no way to NULL afterwards.
-/

namespace CLangProject.WcUFind

variable {ι : Type}

/-! ## Reachable forests -/

/-- The memory `m`, with the nodes `N`, is reached from a pool without nodes by
`uf_insert` and by `join` on nodes with different roots. -/
inductive Reachable : Mem ι → List Nat → Prop
  | start (node : Nat → Node ι) : Reachable ⟨node, [], 0⟩ []
  | insert {m : Mem ι} {N : List Nat} (item : ι) (h : Reachable m N) :
      Reachable (ufInsert m item).2 ((ufInsert m item).1 :: N)
  | join {m m' : Mem ι} {N : List Nat} {x1 x2 n1 n2 r1 r2 fuel : Nat} (h : Reachable m N)
      (hx1 : x1 ∈ N) (hx2 : x2 ∈ N) (hd1 : Depth m.up n1 x1 r1) (hd2 : Depth m.up n2 x2 r2)
      (hne : r1 ≠ r2) (hfuel : N.length < fuel) (hjoin : join fuel m x1 x2 = some m') :
      Reachable m' N

variable {m m' : Mem ι} {N : List Nat} {ps : List (Nat × Nat)} {x y fuel : Nat}

theorem Wf.empty (node : Nat → Node ι) : Wf ⟨node, [], 0⟩ [] :=
  ⟨⟨List.nodup_nil, nofun⟩, nofun, nofun, nofun⟩

theorem Reachable.wf (h : Reachable m N) : Wf m N := by
  induction h with
  | start node => exact .empty node
  | insert item _ ih => exact (ih.insert item).2
  | join _ hx1 hx2 hd1 hd2 hne hfuel hjoin ih =>
    obtain ⟨m'', hm'', hwf, -⟩ := ih.join hx1 hx2 hd1 hd2 hne hfuel
    rw [hjoin] at hm''
    exact Option.some.inj hm'' ▸ hwf

/-- The invariant holds in every forest that is reached, and one more join of
nodes with different roots has a result: the two trees are one, all others are as
before, and the invariant holds again. -/
theorem join_of_reachable (h : Reachable m N) : Wf m N ∧
    ∀ x1 ∈ N, ∀ x2 ∈ N, ∀ n1 n2 r1 r2, Depth m.up n1 x1 r1 → Depth m.up n2 x2 r2 → r1 ≠ r2 →
      ∀ fuel, N.length < fuel →
        ∃ m', join fuel m x1 x2 = some m' ∧ Wf m' N ∧ Merges m.up m'.up N r1 r2 :=
  ⟨h.wf, fun _ hx1 _ hx2 _ _ _ _ hd1 hd2 hne _ hfuel => h.wf.join hx1 hx2 hd1 hd2 hne hfuel⟩

/-- The nodes 0 and 1, after `join`. -/
def twoJoined : Mem Unit :=
  let m : Mem Unit := ⟨fun _ => ⟨0, 0, (), none, none⟩, [], 0⟩
  (((ufInsert (ufInsert m ()).2 ()).2.setHeight 0 1).setIndegree 0 1 |>.setList 0 (some 1)).setUp 1
  (some 0)

theorem twoJoined_reachable : Reachable twoJoined [1, 0] :=
  .join (.insert () (.insert () (.start fun _ => ⟨0, 0, (), none, none⟩)))
    (by decide) (by decide) (depth_root rfl) (depth_root rfl) (by decide) (by decide)
    (show join 3 _ 0 1 = some twoJoined from rfl)

theorem join_third : ∃ m', join 4 (ufInsert twoJoined ()).2 1 2 = some m' ∧ Wf m' [2, 1, 0] ∧
    Merges (ufInsert twoJoined ()).2.up m'.up [2, 1, 0] 0 2 :=
  (join_of_reachable (twoJoined_reachable.insert ())).2 1 (by decide) 2 (by decide) 1 0 0 2
    ((depth_root rfl).step rfl) (depth_root rfl) (by decide) 4 (by decide)

/-! ## Answers -/

theorem keeps (fuel : Nat) : (unionFind ι).Keeps Mem.up Wf fuel where
  closed h := h.closed
  insert {m N} item h := by
    obtain ⟨hnew, hwf⟩ := h.insert item
    refine ⟨hnew, hwf, by simp [unionFind, ufInsert, Mem.up], fun z hz => ?_⟩
    have hne : z ≠ (Pool.getNode m).1 := fun heq => hnew (heq ▸ hz)
    simp [unionFind, ufInsert, Mem.up, hne]
  sameClass {m N x y n k r r'} h hfuel hx hy hn hk := by
    refine ⟨m, ?_, h, .refl _⟩
    simp [unionFind, sameClass, h.findRoot hx hn hfuel, h.findRoot hy hk hfuel]
  join h hfuel hx hy hn hk hne := h.join hx hy hn hk hne hfuel

end CLangProject.WcUFind

namespace CLangProject.UnionFind

variable {ι : Type} {fuel : Nat}

/-! ## Both structures -/

/-- In every run from a pool without nodes that joins nodes of different classes
only, every call has a result and every answer is right. -/
theorem correct_of_apart (amNode : Nat → AmUFind.Node ι) (wcNode : Nat → WcUFind.Node ι)
    (cs : List (Call ι)) (hfuel : cs.length < fuel) :
    (AmUFind.unionFind ι).Correct Apart fuel ⟨amNode, [], 0⟩ [] [] cs ∧
      (WcUFind.unionFind ι).Correct Apart fuel ⟨wcNode, [], 0⟩ [] [] cs := by
  have hfuel' : ([] : List Nat).length + cs.length < fuel := by simpa using hfuel
  exact ⟨(AmUFind.keeps fuel).correct cs ⟨⟨List.nodup_nil, nofun⟩, nofun⟩ (.nil _) hfuel',
    (WcUFind.keeps fuel).correct cs (.empty wcNode) (.nil _) hfuel'⟩

theorem correct_of_apart_two :
    (AmUFind.unionFind Unit).Correct Apart 5 ⟨fun _ => ⟨0, (), none⟩, [], 0⟩ [] []
        [.insert (), .insert (), .join 0 1, .sameClass 1 0] ∧
      (WcUFind.unionFind Unit).Correct Apart 5 ⟨fun _ => ⟨0, 0, (), none, none⟩, [], 0⟩ [] []
        [.insert (), .insert (), .join 0 1, .sameClass 1 0] :=
  correct_of_apart _ _ _ (by decide)

/-- After a node has been joined with itself, `same_class` does not terminate. -/
theorem not_correct_join_self :
    (¬ ∃ fuel, (AmUFind.unionFind Unit).Correct (fun _ _ _ => True) fuel ⟨fun _ =>
          ⟨0, (), none⟩, [], 0⟩ [] []
        [.insert (), .join 0 0, .sameClass 0 0]) ∧
      ¬ ∃ fuel, (WcUFind.unionFind Unit).Correct (fun _ _ _ => True) fuel
        ⟨fun _ => ⟨0, 0, (), none, none⟩, [], 0⟩ [] [] [.insert (), .join 0 0, .sameClass 0 0] := by
  constructor
  · rintro ⟨fuel, -, h⟩
    obtain ⟨m, hm, h⟩ := h (by decide) (by decide) trivial
    obtain ⟨b, m', hm', -⟩ := h (by decide) (by decide)
    cases fuel with
    | zero => cases hm
    | succ fuel =>
      -- the root points to itself after `join`
      have hup : m.up 0 = some 0 := by
        obtain rfl := Option.some.inj hm
        rfl
      have hnone : AmUFind.sameClass (fuel + 1) m 0 0 = none := by
        rw [AmUFind.sameClass, findRoot_of_loop hup]
        rfl
      cases hnone.symm.trans hm'
  · rintro ⟨fuel, -, h⟩
    obtain ⟨m, hm, h⟩ := h (by decide) (by decide) trivial
    obtain ⟨b, m', hm', -⟩ := h (by decide) (by decide)
    cases fuel with
    | zero => cases hm
    | succ fuel =>
      have hup : m.up 0 = some 0 := by
        obtain rfl := Option.some.inj hm
        rfl
      have hnone : WcUFind.sameClass (fuel + 1) m 0 0 = none := by
        rw [WcUFind.sameClass, findRoot_of_loop hup]
        rfl
      cases hnone.symm.trans hm'

end CLangProject.UnionFind
