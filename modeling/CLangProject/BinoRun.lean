import CLangProject.BinoDelete

/-!
# Binomial heaps in one memory

All heaps live in one pool. `Correct` says what the calls are for: an insertion adds an element,
`merge` joins two heaps, `delete_min` removes an element with the least key; and in every state a
heap `IsHeap`, with the shape of the binary number of its elements.

`node_stack` of `merge` has 100 entries. This is enough as long as the heaps have no more than `2 ^
51` elements, which take `2 ^ 56` bytes of memory.
-/

namespace CLangProject.BinoHeap

open List

variable {ο : Type} {m m' : Mem ο} {a hp : Nat} {cs L : List Nat}

/-! ## What the calls are for -/

/-- The heaps with their elements. -/
abbrev Heaps (ο : Type) := List (Nat × List (Int × ο))

inductive Call (ο : Type) where
  | create
  | insert (newKey : Int) (newObj : ο) (hp : Nat)
  | merge (hp1 hp2 : Nat)
  | deleteMin (hp : Nat)

inductive Answer (ο : Type) where
  | heap (hp : Nat)
  | inserted (r : Int)
  | object (o : ο)

def exec (fuel : Nat) (m : Mem ο) : Call ο → Option (Answer ο × Mem ο)
  | .create => some (.heap (createHeap m).1, (createHeap m).2)
  | .insert newKey newObj hp => (insert newKey newObj fuel m hp).map fun r => (.inserted r.1, r.2)
  | .merge hp1 hp2 => (merge fuel m hp1 hp2).map fun r => (.heap r.1, r.2)
  | .deleteMin hp => (deleteMin fuel m hp).map fun r => (.object r.1, r.2)

/-- What a call may be made on. An insertion finds memory for its element. -/
def Allowed (s : Heaps ο) : Call ο → Prop
  | .create => True
  | .insert _ _ hp => (∃ l, (hp, l) ∈ s) ∧ elemCount s < maxElems
  | .merge hp1 hp2 => hp1 ≠ hp2 ∧ (∃ l, (hp1, l) ∈ s) ∧ ∃ l, (hp2, l) ∈ s
  | .deleteMin hp => ∃ l, (hp, l) ∈ s ∧ l ≠ []

inductive Step : Heaps ο → Call ο → Answer ο → Heaps ο → Prop where
  | create {s : Heaps ο} (hp : Nat) : Step s .create (.heap hp) ((hp, []) :: s)
  | insert {s r : Heaps ο} {hp : Nat} {l : List (Int × ο)} {newKey : Int} {newObj : ο}
      (h : s.Perm ((hp, l) :: r)) :
      Step s (.insert newKey newObj hp) (.inserted 0) ((hp, (newKey, newObj) :: l) :: r)
  | merge {s r : Heaps ο} {hp1 hp2 : Nat} {l1 l2 : List (Int × ο)} (hp : Nat)
      (h : s.Perm ((hp1, l1) :: (hp2, l2) :: r)) :
      Step s (.merge hp1 hp2) (.heap hp) ((hp, l1 ++ l2) :: r)
  | deleteMin {s r : Heaps ο} {hp : Nat} {l es : List (Int × ο)} {e : Int × ο}
      (h : s.Perm ((hp, l) :: r)) (hl : l.Perm (e :: es)) (hmin : ∀ x ∈ es, e.1 ≤ x.1) :
      Step s (.deleteMin hp) (.object e.2) ((hp, es) :: r)

/-- The memory holds the heap `hp` with the elements `es`. The heights along its left path are the
binary digits of their number, and `find_min_key` returns the least key. -/
structure IsHeap (m : Mem ο) (hp : Nat) (es : List (Int × ο)) : Prop where
  empty : heapEmpty m hp = true ↔ es = []
  path : es ≠ [] → ∃ hs cs, LeftPath m (some hp) hs cs ∧ hs.Pairwise (· > ·) ∧ cs.Nodup ∧
      es.Perm (m.elems cs) ∧
    hs.reverse = es.length.bitIndices
  min : es ≠ [] → ∃ k, Ends (findMinKey · m hp) k ∧ (∃ e ∈ es, e.1 = k) ∧ ∀ e ∈ es, k ≤ e.1

/-- The memory holds the heaps. -/
structure Shows (m : Mem ο) (s : Heaps ο) : Prop where
  nodup : (s.map Prod.fst).Nodup
  heap : ∀ h ∈ s, IsHeap m h.1 h.2

/-- Every call of the run ends and does what it is for, as long as the calls are allowed. -/
def Correct : Mem ο → Heaps ο → List (Call ο) → Prop
  | m, s, [] => Shows m s
  | m, s, c :: cs => Shows m s ∧ (Allowed s c →
      ∃ ans m' s', Ends (exec · m c) (ans, m') ∧ Step s c ans s' ∧ Correct m' s' cs)

/-! ## All heaps in one memory -/

/-- A heap with its nodes and its elements. -/
structure Held (ο : Type) where
  hp : Nat
  nodes : List Nat
  elems : List (Int × ο)

def Rep (m : Mem ο) (x : Held ο) : Prop :=
  (x.nodes = [x.hp] ∧ (m.node x.hp).height = -1 ∧ x.elems = []) ∨
  (Rooted m x.hp x.nodes ∧ x.elems.Perm (m.elems x.nodes))

theorem rep_iff {es : List (Int × ο)} : Rep m ⟨hp, cs, es⟩ ↔
    (cs = [hp] ∧ (m.node hp).height = -1 ∧ es = []) ∨ (Rooted m hp cs ∧ es.Perm (m.elems cs)) :=
  Iff.rfl

theorem Rep.frame (x : Held ο) (h : Rep m x) (heq : ∀ a ∈ x.nodes, m'.node a = m.node a) :
    Rep m' x := by
  rcases h with ⟨hnodes, hheight, helems⟩ | ⟨hroot, helems⟩
  · refine .inl ⟨hnodes, ?_, helems⟩
    rw [heq x.hp (by simp [hnodes]), hheight]
  · refine .inr ⟨hroot.frame heq, ?_⟩
    rwa [Mem.elems_congr fun a ha => congrArg Node.elem (heq a ha)]

theorem Rep.mem (x : Held ο) (h : Rep m x) : x.hp ∈ x.nodes := by
  rcases h with ⟨hnodes, -, -⟩ | ⟨hroot, -⟩
  · simp [hnodes]
  · rw [hroot.eq_cons]
    exact mem_cons_self

theorem Rep.isHeap {x : Held ο} (h : Rep m x) (hnodup : x.nodes.Nodup) : IsHeap m x.hp x.elems := by
  rcases h with ⟨-, hheight, helems⟩ | ⟨hroot, helems⟩
  · exact ⟨by simp [heapEmpty, hheight, helems], fun hne => absurd helems hne, fun hne =>
      absurd helems hne⟩
  · have hkey : ∀ b ∈ x.nodes, ((m.node b).key, (m.node b).object) ∈ x.elems := fun b hb =>
      helems.mem_iff.2 (mem_map_of_mem (f := fun a => (m.node a).elem) hb)
    obtain ⟨k, hends, ⟨b, hb, hk⟩, hall⟩ := hroot.ends_findMinKey
    refine ⟨?_, fun _ => ?_, fun _ => ⟨k, hends, ⟨_, hkey b hb, hk⟩, fun e he => ?_⟩⟩
    · obtain ⟨f, fs, hfs, -⟩ := rooted_iff.1 hroot
      simp only [heapEmpty, hfs.height_ne, decide_false, Bool.false_eq_true, false_iff]
      exact ne_nil_of_mem (hkey b hb)
    · obtain ⟨hs, hpath, hsorted⟩ := hroot
      refine ⟨hs, x.nodes, hpath, hsorted, hnodup, helems, ?_⟩
      rw [digits_eq hsorted, ← hpath.length_eq, helems.length_eq, Mem.elems, length_map]
    · obtain ⟨c, hc, rfl⟩ := mem_map.1 (helems.mem_iff.1 he)
      exact hall c hc

abbrev World (m : Mem ο) (t : List (Held ο)) : Prop := Pool.World Held.nodes Rep m t

/-- What the calls know of the heaps. -/
def shape (t : List (Held ο)) : Heaps ο := t.map fun x => (x.hp, x.elems)

variable {t : List (Held ο)} {l : List (Int × ο)} {s s' : Heaps ο} {c : Call ο}

theorem World.shows (h : World m t) : Shows m (shape t) := by
  have hnodup := h.holds.nodup_owned
  obtain ⟨heach, hdisj⟩ := nodup_flatMap.1 hnodup
  constructor
  · rw [shape, map_map]
    refine pairwise_map.2 (hdisj.imp_of_mem fun {x y} hx hy hd heq => ?_)
    exact hd (h.rep x hx).mem (show x.hp ∈ y.nodes from (show x.hp = y.hp from heq) ▸
      (h.rep y hy).mem)
  · intro z hz
    obtain ⟨x, hx, rfl⟩ := mem_map.1 hz
    exact (h.rep x hx).isHeap (heach x hx)

/-! ## One call -/

section Steps

variable {t r : List (Held ο)} {es : List (Int × ο)}

/-- The heap has other elements now. -/
theorem World.change {x : Held ο} (h : World m (x :: r))
    (hb : Becomes m (r.flatMap Held.nodes) hp es m') :
    ∃ cs, World m' (⟨hp, cs, es⟩ :: r) := by
  obtain ⟨cs, hroot, hb, helems⟩ := hb
  exact ⟨cs, Pool.World.change [x] h Rep.frame (y := ⟨hp, cs, es⟩) hb (.inr ⟨hroot, helems⟩)⟩

theorem create_step (h : World m t) :
    World (createHeap m).2 (⟨(createHeap m).1, [(createHeap m).1], []⟩ :: t) := by
  have hb : m.Beside (t.flatMap Held.nodes) [] m := .refl h.holds
  exact Pool.World.change [] h Rep.frame (hb.getNode.modify mem_cons_self fun n =>
    { n with height := -1, left := none, right := none }) (by simp [Rep, createHeap])

theorem merge_step {hp1 hp2 : Nat} {cs1 cs2 : List Nat} {es1 es2 : List (Int × ο)}
    (h : World m (⟨hp1, cs1, es1⟩ :: ⟨hp2, cs2, es2⟩ :: r))
    (hlen : es1.length + es2.length ≤ maxElems) :
    ∃ hp m' cs, Ends (merge · m hp1 hp2) (hp, m') ∧ World m' (⟨hp, cs, es1 ++ es2⟩ :: r) := by
  have hholds : Pool.Holds m (cs1 ++ (cs2 ++ r.flatMap Held.nodes)) := h.holds
  rw [← append_assoc] at hholds
  have hb := Pool.Beside.refl hholds
  have hrep1 := h.rep _ mem_cons_self
  have hrep2 := h.rep ⟨hp2, cs2, es2⟩ (by simp)
  have hchange : ∀ {m' y}, m.Beside (r.flatMap Held.nodes) y.nodes m' → Rep m' y →
      World m' (y :: r) :=
    Pool.World.change [_, _] h Rep.frame
  -- the header of an empty heap is given back
  have hreturn : ∀ {a y}, m.Beside (r.flatMap Held.nodes) (a :: y.nodes) m → Rep m y →
      World (m.returnNode a) (y :: r) :=
    fun hb hrep => hchange hb.returnNode (Rep.frame _ hrep fun b hmem =>
      Pool.node_returnNode_ne fun heq => (nodup_cons.1 hb.nodup).1 (heq ▸ hmem))
  rcases rep_iff.1 hrep1 with ⟨rfl, hheight1, rfl⟩ | ⟨hroot1, helems1⟩
  · exact ⟨hp2, _, cs2, .of_eq fun _ => if_pos hheight1, hreturn hb hrep2⟩
  have hne1 : (m.node hp1).height ≠ -1 := by
    obtain ⟨f, fs, hfs, -⟩ := rooted_iff.1 hroot1
    exact hfs.height_ne
  rcases rep_iff.1 hrep2 with ⟨rfl, hheight2, rfl⟩ | ⟨hroot2, helems2⟩
  · refine ⟨hp1, _, cs1, .of_eq fun _ => (if_neg hne1).trans (if_pos hheight2), ?_⟩
    rw [append_nil]
    exact hreturn (y := ⟨hp1, cs1, es1⟩) (hb.perm perm_append_comm) hrep1
  · have hlen' : cs1.length + cs2.length ≤ maxElems := by
      rw [helems1.length_eq, helems2.length_eq, Mem.elems, Mem.elems, length_map,
        length_map] at hlen
      exact hlen
    obtain ⟨hp, m', cs, hmerge, hroot, hcs, hwithin⟩ := hroot1.merge hroot2 hb.nodup hlen'
    refine ⟨hp, m', cs, hmerge, hchange (y := ⟨hp, cs, es1 ++ es2⟩)
      ((hb.within hwithin fun _ h => h).perm hcs.symm)
      (.inr ⟨hroot, (helems1.append helems2).trans ?_⟩)⟩
    rw [Mem.elems_within hwithin, ← Mem.elems_append]
    exact Mem.elems_perm hcs.symm

/-- The two nodes that `insert` takes. -/
theorem insert_eq (hp : Nat) (newKey : Int) (newObj : ο) (hholds : Pool.Holds m (cs ++ L)) :
    ∃ n tmp m', (∀ fuel, insert newKey newObj fuel m hp =
    (merge fuel (Mem.copy m' tmp hp) n tmp).bind fun r =>
      some (0, copyBack r.2 hp r.1)) ∧ m.Beside L (tmp :: n :: cs) m' ∧
      m'.node n = ⟨0, newKey, newObj, none, none⟩ ∧ ∀ b ∈ cs, m'.node b = m.node b := by
  obtain ⟨m1, hm1⟩ : ∃ m1 : Mem ο, Pool.modify m.getNode.2 m.getNode.1 (fun _ =>
    ⟨0, newKey, newObj, none, none⟩) = m1 := ⟨_, rfl⟩
  have hb : m.Beside L (m.getNode.1 :: cs) m1 :=
    hm1 ▸ (Pool.Beside.refl hholds).getNode.modify mem_cons_self _
  refine ⟨m.getNode.1, m1.getNode.1, m1.getNode.2, fun fuel => ?_, hb.getNode, ?_, fun b hmem => ?_⟩
  · simp only [insert, hm1]
    rfl
  · rw [Pool.node_getNode, ← hm1, Pool.node_modify_self]
  · have hne : b ≠ m.getNode.1 := fun heq => (nodup_cons.1 hb.nodup).1 (heq ▸ hmem)
    rw [Pool.node_getNode, ← hm1, Pool.node_modify_ne hne, Pool.node_getNode]

theorem insert_step (newKey : Int) (newObj : ο) (h : World m (⟨hp, cs, es⟩ :: r))
    (hlen : es.length < maxElems) :
    ∃ m' cs', Ends (insert newKey newObj · m hp) (0, m') ∧
      World m' (⟨hp, cs', (newKey, newObj) :: es⟩ :: r) := by
  obtain ⟨n, tmp, m2, hinsert, hb, hn, hsame⟩ :=
    insert_eq hp newKey newObj (L := r.flatMap Held.nodes) h.holds
  have htmp := (nodup_cons.1 hb.nodup).1
  -- a memory in which the new node is as it was written
  have hsingle : ∀ {m' : Mem ο}, m'.node n = m2.node n → Rooted m' n [n] ∧
      m'.elems [n] = [(newKey, newObj)] := by
    intro m' heq
    have hnode := heq.trans hn
    have hpath : LeftPath m' (some n) [0] (n :: ([] ++ [])) := by
      refine .cons (by rw [hnode]; rfl) ?_ rfl nofun ?_ <;> rw [hnode]
      · exact .nil
      · exact .nil
    refine ⟨⟨[0], hpath, pairwise_singleton ..⟩, ?_⟩
    rw [Mem.elems, map_singleton, hnode]
    rfl
  simp only [hinsert]
  rcases rep_iff.1 (h.rep _ mem_cons_self) with ⟨rfl, hheight, rfl⟩ | ⟨hroot, helems⟩
  · have hne : n ≠ tmp := fun heq => htmp (heq ▸ mem_cons_self)
    have hncopy : (m2.copy tmp hp).node n = m2.node n := Pool.node_modify_ne hne
    have hempty : ((m2.copy tmp hp).node tmp).height = -1 := by
      rw [Mem.copy, Pool.node_modify_self, hsame hp (mem_singleton_self hp), hheight]
    have hmerge : ∀ fuel, merge fuel (m2.copy tmp hp) n tmp =
        some (n, (m2.copy tmp hp).returnNode tmp) := fun fuel => by
      rw [merge, if_neg (by rw [hncopy, hn]; show ¬(0 : Int) = -1; decide), if_pos hempty]
    obtain ⟨hroot, helems⟩ := hsingle ((Pool.node_returnNode_ne hne).trans hncopy)
    have hb' : m.Beside _ [hp, n] ((m2.copy tmp hp).returnNode tmp) :=
      (hb.modify mem_cons_self _).returnNode.perm (.swap ..)
    obtain ⟨cs', hw⟩ := h.change (helems ▸ hroot.copyBack hb')
    exact ⟨_, cs', .of_eq fun fuel => by rw [hmerge, Option.bind_some], hw⟩
  · have hb : m.Beside _ (tmp :: ([n] ++ cs)) m2 := hb
    obtain ⟨cs', hcopy, hb', hcs, hlen', hncopy⟩ := (hroot.frame hsame).moved hb
    obtain ⟨hnew, hnelems⟩ := hsingle (hncopy n (mem_singleton_self n))
    obtain ⟨c, m', hmerge, hout⟩ := hnew.mergeBack hcopy hb' (by
      rw [helems.length_eq, Mem.elems, length_map] at hlen
      rw [length_singleton, hlen']
      omega)
    have hperm : ((newKey, newObj) :: es).Perm ((m2.copy tmp hp).elems ([n] ++ cs')) := by
      rw [Mem.elems_append, hnelems, hcs, Mem.elems_congr fun b hb =>
        congrArg Node.elem (hsame b hb)]
      exact helems.cons _
    obtain ⟨cs', hw⟩ := h.change (hout.perm hperm)
    exact ⟨_, cs', hmerge.bind (.of_eq fun _ => rfl), hw⟩

theorem deleteMin_step (h : World m (⟨hp, cs, es⟩ :: r)) (hne : es ≠ [])
    (hlen : es.length ≤ maxElems) :
    ∃ e es' m' cs', Ends (deleteMin · m hp) (e.2, m') ∧ es.Perm (e :: es') ∧
      (∀ x ∈ es', e.1 ≤ x.1) ∧ World m' (⟨hp, cs', es'⟩ :: r) := by
  rcases rep_iff.1 (h.rep _ mem_cons_self) with ⟨-, -, helems⟩ | ⟨hroot, helems⟩
  · exact absurd helems hne
  have hcs : cs.length ≤ maxElems := by
    rw [helems.length_eq, Mem.elems, length_map] at hlen
    exact hlen
  have hholds : Pool.Holds m (cs ++ r.flatMap Held.nodes) := h.holds
  obtain ⟨c, m', hends, hc, hleast, hout⟩ := hroot.ends_deleteMin hholds hcs
  have hmin : ∀ x ∈ m.elems cs, (m.node c).key ≤ x.1 := by
    intro x hx
    obtain ⟨b, hb, rfl⟩ := mem_map.1 hx
    exact hleast b hb
  rcases hout with ⟨E, hb, hperm⟩ | ⟨rfl, rfl, rfl⟩
  · obtain ⟨cs', hw⟩ := h.change hb
    exact ⟨(m.node c).elem, E, m', cs', hends, helems.trans hperm.symm, fun x hx =>
      hmin x (hperm.mem_iff.1 (mem_cons_of_mem _ hx)), hw⟩
  · refine ⟨(m.node c).elem, [], _, [c], hends, helems, by simp, Pool.World.change [_] h Rep.frame
      (y := ⟨c, [c], []⟩) ((Pool.Beside.refl hholds).modify mem_cons_self _) (.inl ⟨rfl, ?_, rfl⟩)⟩
    exact congrArg Node.height Pool.node_modify_self

end Steps

/-! ## All calls -/

theorem elemCount_cons : elemCount ((hp, l) :: s) = l.length + elemCount s := by simp [elemCount]

/-- Only an insertion adds an element. -/
theorem Step.size_le {ans : Answer ο} (h : Step s c ans s') (ha : Allowed s c)
    (hsize : elemCount s ≤ maxElems) : elemCount s' ≤ maxElems := by
  cases h with
  | create hp => exact Nat.le_trans (Nat.le_of_eq (by simp [elemCount_cons])) hsize
  | insert h =>
    have hlt : elemCount s < maxElems := ha.2
    rw [elemCount_perm h, elemCount_cons] at hlt
    rw [elemCount_cons, length_cons]
    omega
  | merge hp h =>
    rw [elemCount_perm h, elemCount_cons, elemCount_cons] at hsize
    rw [elemCount_cons, length_append]
    omega
  | deleteMin h hl _ =>
    rw [elemCount_perm h, elemCount_cons, hl.length_eq, length_cons] at hsize
    rw [elemCount_cons]
    omega

theorem exists_held (hl : (hp, l) ∈ shape t) :
    ∃ cs r, t.Perm (⟨hp, cs, l⟩ :: r) ∧ (shape t).Perm ((hp, l) :: shape r) := by
  obtain ⟨⟨_, cs, _⟩, hx, heq⟩ := mem_map.1 hl
  obtain ⟨rfl, rfl⟩ := Prod.mk.inj heq
  obtain ⟨r, hr⟩ := exists_perm_cons hx
  exact ⟨cs, r, hr, hr.map _⟩

section

variable (h : World m t) (hsize : elemCount (shape t) ≤ maxElems)
include h hsize

theorem step_ok (ha : Allowed (shape t) c) :
    ∃ ans m' t', Ends (exec · m c) (ans, m') ∧ Step (shape t) c ans (shape t') ∧ World m' t' := by
  cases c with
  | create => exact ⟨_, _, _, .of_eq fun _ => rfl, .create _, create_step h⟩
  | insert newKey newObj hp =>
    obtain ⟨⟨l, hl⟩, hlt⟩ := ha
    obtain ⟨cs, r, hr, hshape⟩ := exists_held hl
    rw [elemCount_perm hshape, elemCount_cons] at hlt
    obtain ⟨m', cs', hends, hw⟩ := insert_step newKey newObj (Pool.World.perm h hr) (by omega)
    exact ⟨_, m', ⟨hp, cs', (newKey, newObj) :: l⟩ :: r, hends.map _, .insert hshape, hw⟩
  | merge hp1 hp2 =>
    obtain ⟨hne, ⟨l1, hl1⟩, l2, hl2⟩ := ha
    obtain ⟨cs1, r1, hr1, hshape1⟩ := exists_held hl1
    have hl2' : (hp2, l2) ∈ shape r1 :=
      (mem_cons.1 (hshape1.mem_iff.1 hl2)).resolve_left fun heq => hne (congrArg Prod.fst heq).symm
    obtain ⟨cs2, r, hr, hshape2⟩ := exists_held hl2'
    have hshape := hshape1.trans (hshape2.cons _)
    rw [elemCount_perm hshape, elemCount_cons, elemCount_cons] at hsize
    obtain ⟨hp, m', cs', hends, hw⟩ :=
      merge_step (Pool.World.perm h (hr1.trans (hr.cons _))) (by omega)
    exact ⟨_, m', ⟨hp, cs', l1 ++ l2⟩ :: r, hends.map _, .merge hp hshape, hw⟩
  | deleteMin hp =>
    obtain ⟨l, hl, hne⟩ := ha
    obtain ⟨cs, r, hr, hshape⟩ := exists_held hl
    rw [elemCount_perm hshape, elemCount_cons] at hsize
    obtain ⟨e, es', m', cs', hends, hes, hmin, hw⟩ :=
      deleteMin_step (Pool.World.perm h hr) hne (by omega)
    exact ⟨_, m', ⟨hp, cs', es'⟩ :: r, hends.map _, .deleteMin hshape hes hmin, hw⟩

theorem World.correct (cs : List (Call ο)) : Correct m (shape t) cs := by
  induction cs generalizing m t with
  | nil => exact World.shows h
  | cons c cs ih =>
    refine ⟨World.shows h, fun ha => ?_⟩
    obtain ⟨ans, m', t', hends, hstep, hw⟩ := step_ok h hsize ha
    exact ⟨ans, m', shape t', hends, hstep, ih hw (hstep.size_le ha hsize)⟩

end

/-- Whatever the nodes hold at the beginning. -/
theorem correct_calls (node : Nat → Node ο) (cs : List (Call ο)) : Correct ⟨node, [], 0⟩ [] cs :=
  have hworld : World (⟨node, [], 0⟩ : Mem ο) [] := ⟨⟨.nil, nofun⟩, nofun⟩
  World.correct hworld (Nat.zero_le _) cs

example : (do
    let (hp, m) := createHeap (⟨fun _ => ⟨0, 0, (), none, none⟩, [], 0⟩ : Mem Unit)
    let (_, m) ← insert 3 () 9 m hp
    let (_, m) ← insert 1 () 9 m hp
    let (_, m) ← insert 2 () 9 m hp
    let (_, m) ← deleteMin 9 m hp
    findMinKey 9 m hp) = some 2 := by decide

end CLangProject.BinoHeap
