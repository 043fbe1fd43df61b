import CLangProject.FiboRun

/-!
# The shape of a Fibonacci heap

What a reader of the memory sees of a heap when no `decrease_key` has been called:
the three pointers of the heap lead to the leftmost path, to its end and to a least
element on it (`Shaped`), and a node of rank `r` heads a block of `2 ^ r` elements
(`Heads`). All of it is read off the memory, with no forest beside it.
-/

namespace CLangProject.FiboHeap

open Forest List

variable {ο : Type} {m : Mem ο} {fs : Forest}

/-- The node and those below it are `2 ^ rank` elements, none with a smaller key. -/
def Heads (m : Mem ο) (a : Nat) : Prop :=
  ∃ (below : List Nat) (r : Nat), (∀ b, b ∈ below ↔ Reaches m (m.node a).right b) ∧
    (a :: below).Nodup ∧ (m.node a).rank = r ∧ (a :: below).length = 2 ^ r ∧
      ∀ b ∈ below, (m.node a).key ≤ (m.node b).key

/-- `left` of the heap points to a least element on the leftmost path, `up` to the end of
the path. -/
structure Shaped (m : Mem ο) (hp : Nat) : Prop where
  path : ∃ path, Path m.left (m.node hp).right path none ∧
    (path ≠ [] → ∃ a ∈ path, (m.node hp).left = some a ∧
      ∀ b, Reaches m (m.node hp).right b → (m.node a).key ≤ (m.node b).key) ∧
    ∀ a ∈ path.getLast?, (m.node hp).up = some a
  heads : ∀ a, Reaches m (m.node hp).right a → Heads m a

theorem Block.heads {f : Nat × Bin} (h : Block m f) (hnodup : (f.1 :: f.2.cells).Nodup) :
    Heads m f.1 := by
  obtain ⟨n, hrank, hlen⟩ := h.rank
  exact ⟨f.2.cells, n, fun b => h.lies.reaches_iff.symm, hnodup, hrank, hlen, h.least⟩

variable {b : Nat} {p : Ptr} {s : Heaps ο}

theorem Lies.heads {t : Bin} (h : Lies m p t) (hnodup : t.cells.Nodup) (hb : b ∈ t.cells) :
    Heads m b := by
  induction t generalizing p with
  | nil => simp [Bin.cells] at hb
  | node a l r ihl ihr =>
    obtain ⟨rfl, hl, hr, hle, hrank⟩ := h
    have hblock : Block m (a, r) := ⟨hr, hle, hrank⟩
    rw [Bin.cells, ← cons_append] at hnodup hb
    obtain ⟨hright, hleft, -⟩ := nodup_append.1 hnodup
    rcases mem_append.1 hb with hb | hb
    · rcases mem_cons.1 hb with rfl | hb
      · exact hblock.heads hright
      · exact ihr hr (nodup_cons.1 hright).2 hb
    · exact ihl hl hleft hb

theorem Spread.heads (h : Spread m p fs) (hnodup : (cells fs).Nodup) (hb : b ∈ cells fs) :
    Heads m b := by
  rw [← cells_bin] at hnodup hb
  exact h.lies.heads hnodup hb

theorem Heap.shaped {hp : Nat} (h : Heap m hp fs) : Shaped m hp := by
  refine ⟨⟨tops fs, h.spread.path, fun hne => ?_, h.last⟩, fun a ha => ?_⟩
  · obtain ⟨a, ha, hleft, hleast⟩ := h.min (fun hfs => hne (hfs ▸ rfl))
    refine ⟨a, ha, hleft, fun b hb => ?_⟩
    exact h.spread.least hleast (h.spread.reaches_iff.1 hb)
  · exact h.spread.heads (nodup_cons.1 h.nodup).2 (h.spread.reaches_iff.1 ha)

/-- No `decrease_key`, and a `delete_min` on fewer than `2 ^ 100` elements. -/
def NoDecrease (s : Heaps ο) : Call ο → Prop
  | .decreaseKey .. => False
  | .deleteMin hp => ∀ l, (hp, l) ∈ s → l.length < 2 ^ 100
  | _ => True

theorem NoDecrease.noCut {c : Call ο} (h : NoDecrease s c) : NoCut m s c := by
  cases c with
  | decreaseKey => exact h.elim
  | deleteMin hp => exact h
  | create | insert | merge => trivial

/-- Every call of the run does what it is for, and the heaps have their shape before and
after it. -/
def Regular : Mem ο → Heaps ο → List (Call ο) → Prop
  | m, s, cs => Shows m s ∧ (∀ h ∈ s, Shaped m h.1) ∧
    match cs with
    | [] => True
    | c :: cs => Allowed s c → NoDecrease s c →
        ∃ m' ans s', exec m c = some (m', ans) ∧ Step s c ans s' ∧ Regular m' s' cs

theorem World.shaped (h : World m s) : ∀ x ∈ s, Shaped m x.1 := by
  intro x hx
  obtain ⟨fs, hheap, -⟩ := h.rep x hx
  exact hheap.shaped

theorem World.regular (h : World m s) (cs : List (Call ο)) : Regular m s cs := by
  induction cs generalizing m s with
  | nil => exact ⟨World.shows h, World.shaped h, trivial⟩
  | cons c cs ih =>
    refine ⟨World.shows h, World.shaped h, ?_⟩
    intro ha hc
    obtain ⟨m', ans, s', hexec, hstep, hw⟩ := step_ok h ha hc.noCut
    exact ⟨m', ans, s', hexec, hstep, ih hw⟩

/-- Whatever the nodes hold at the beginning: without `decrease_key` the heaps keep their
shape, and `delete_min`, which does not leave `rank_class`, removes a least element and
no other. -/
theorem regular_calls (node : Nat → Node ο) (cs : List (Call ο)) : Regular ⟨node, [], 0⟩ [] cs :=
  World.regular ⟨⟨by simp, by simp⟩, by simp⟩ cs

end CLangProject.FiboHeap
