import CLangProject.LiNShape

/-!
# Tries with lists of siblings: deletion

On its way down `delete` notes the last node that is not an only child, and the pointer that
leads to it. If there is such a node below a pointer, what the call leaves there is a trie again
(`Cut`); otherwise everything below the pointer is one lane of only children, which ends with
the string (`Lane`), and it is taken out as a whole further up.
-/

namespace CLangProject.LiNTrie

open List Option Function

variable {ο : Type} {m m' m1 : Mem ο} {a b p x y fuel : Nat} {c : Fin 256} {k : Bool} {o : Option ο}
  {s : List Sym} {L l : List Nat} {i : Option (Ref ο)}

/-! ## Nodes that are given back -/

/-- The nodes that `next` leads to, up to NULL. -/
def Leads (m : Mem ο) : Option (Ref ο) → List Nat → Prop
  | i, [] => i = none
  | i, a :: l => i = some (.node a) ∧ Leads m (m.next a) l

theorem Leads.congr (h : Leads m i l) (heq : ∀ z ∈ l, m'.node z = m.node z) : Leads m' i l := by
  induction l generalizing i with
  | nil => exact h
  | cons a l ih =>
    obtain ⟨ha, hl⟩ := forall_mem_cons.1 heq
    refine ⟨h.1, ?_⟩
    rw [Mem.next, ha]
    exact ih h.2 hl

theorem returnPath_ok (h : Leads m1 i l) (hb : m.Beside L l m1) (hfuel : l.length ≤ fuel) :
    ∃ m', returnPath fuel i m1 = some m' ∧ m.Beside L [] m' := by
  induction l generalizing m1 i fuel with
  | nil =>
    obtain rfl : i = none := h
    exact ⟨m1, by rw [returnPath], hb⟩
  | cons a l ih =>
    obtain ⟨rfl, h⟩ := h
    obtain ⟨fuel, rfl⟩ := Nat.exists_eq_succ_of_ne_zero (Nat.ne_zero_of_lt hfuel)
    have hl : Leads (m1.returnNode a) (m1.next a) l := h.congr fun z hz =>
      Pool.node_returnNode_ne fun heq : z = a => (nodup_cons.1 hb.nodup).1 (heq ▸ hz)
    rw [returnPath]
    exact ih hl hb.returnNode (Nat.le_of_succ_le_succ hfuel)

/-- One pointer of `lastUndel` is changed: the one to `firstDel`. -/
theorem exists_unlink (m : Mem ο) (lu fd : Nat) :
    ∃ k, unlink m lu fd = Pool.modify m lu (Node.put k (m.list fd)) ∧
    (k = true ↔ m.next lu = some (.node fd)) := by
  unfold unlink
  split
  next n hn =>
    split
    next h => exact ⟨true, rfl, by simp [hn, h]⟩
    next h => exact ⟨false, rfl, by simp [hn, Ne.symm h]⟩
  next hn => exact ⟨false, rfl, by simpa using hn fd⟩

namespace Sibs

variable {t u down : Sibs ο}

/-! ## One list -/

/-- What stands before the sibling with the character `c`; `p` stands before the list. -/
def before (p : Nat) (c : Fin 256) : Sibs ο → Nat
  | nil => p
  | cons a d _ _ rest => if d = c then p else rest.before a c

theorem before_mem : t.before p c ∈ p :: (t.alter c nil).cells := by
  induction t generalizing p with
  | nil => exact mem_cons_self
  | cons a d o down rest _ ih =>
    rw [before, alter]
    split
    · exact mem_cons_self
    · have := ih (p := a)
      simp only [cells, mem_cons, mem_append] at this ⊢
      tauto

theorem search_eq (branch : Bool) (h : Stored m t) (hb : t.head = some b)
    (hfuel : t.chars.length ≤ fuel) :
    search m c fuel p b branch = some ((t.get c).map fun e =>
      (t.before p c, e.1, branch || decide (t.chars.head? ≠ some c))) := by
  induction t generalizing b p branch fuel with
  | nil => cases hb
  | cons a d o down rest _ ih =>
    obtain rfl := some.inj hb
    obtain ⟨fuel, rfl⟩ := Nat.exists_eq_succ_of_ne_zero (Nat.ne_zero_of_lt hfuel)
    rw [search, show m.thisChar a = d from congrArg Node.thisChar h.1,
      show m.list a = rest.head from congrArg Node.list h.1, Sibs.get, before]
    split
    next hd => simp [chars, hd]
    next hd =>
      cases hrest : rest.head with
      | none => cases rest <;> first | rfl | cases hrest
      | some b =>
        refine (ih true h.2.2 hrest (Nat.le_of_succ_le_succ hfuel)).trans ?_
        simp [chars, hd]

/-- The only sibling. -/
theorem alter_eq_nil (h : Stored m t) (hx : t.get c = some (x, o, down)) :
    (decide (t.chars.head? ≠ some c) || (m.list x).isSome) = false ↔ t.alter c nil = nil := by
  cases t with
  | nil => cases hx
  | cons a d o' down' rest =>
    rw [Sibs.get] at hx
    rw [alter]
    split at hx
    next hd =>
      cases hx
      rw [show m.list x = rest.head from congrArg Node.list h.1]
      cases rest <;> simp [chars, hd, head, above]
    next hd => simp [chars, hd]

theorem eq_cons_of_alter (hx : t.get c = some (x, o, down)) (h : t.alter c nil = nil) :
    t = cons x c o down nil := by
  cases t with
  | nil => cases hx
  | cons a d o' down' rest =>
    rw [Sibs.get] at hx
    rw [alter] at h
    split at hx
    next hd =>
      cases hx
      rw [if_pos hd] at h
      rw [hd, show rest = nil from h]
    next hd =>
      rw [if_neg hd] at h
      cases h

/-- A pointer of `p` leads to the list: `next`, or else `list`, and then `next` does not. -/
def Hangs (m : Mem ο) (p : Nat) (k : Bool) (t : Sibs ο) : Prop :=
  m.node p = Node.put k t.head (m.node p) ∧ (k = false → ∀ z ∈ t.cells, m.next p ≠ some (.node z))

/-- A sibling is taken out of the list by the pointer before it. -/
theorem Stored.drop (h : Stored m t) (hnodup : (p :: t.cells).Nodup) (hp : Hangs m p k t)
    (hx : t.get c = some (x, o, down)) {k' : Bool}
    (hk' : k' = true ↔ m.next (t.before p c) = some (.node x))
    (hput : m'.node (t.before p c) = Node.put k' (m.list x) (m.node (t.before p c)))
    (hsame : ∀ z, z ≠ t.before p c → z ∉ x :: down.cells → m'.node z = m.node z) :
    Stored m' (t.alter c nil) ∧ m'.node p = Node.put k (t.alter c nil).head (m.node p) := by
  induction t generalizing p k with
  | nil => cases hx
  | cons a d o' down' rest _ ih =>
    obtain ⟨hn, hd, hr⟩ := h
    rw [cells] at hnodup
    rw [Sibs.get] at hx
    rw [before] at hk' hput hsame
    rw [Sibs.alter]
    have hnd : (a :: rest.cells).Nodup := by grind
    split at hx
    next hdc =>
      cases hx
      simp only [if_pos hdc] at hk' hput hsame ⊢
      refine ⟨hr.congr fun z hz => hsame z (by grind) (by grind), ?_⟩
      have hkk : k' = k := by
        cases k with
        | true => exact hk'.2 (congrArg Node.next hp.1)
        | false => exact Bool.eq_false_iff.2 fun h => hp.2 rfl x mem_cons_self (hk'.1 h)
      rw [hput, hkk, show m.list x = rest.head from congrArg Node.list hn]
      rfl
    next hdc =>
      simp only [if_neg hdc] at hk' hput hsame ⊢
      obtain ⟨A, hA, hA'⟩ := cells_alter hx nil
      have hmem := before_mem (t := rest) (p := a) (c := c)
      simp only [mem_cons, hA'.mem_iff, head, elim_none, nil_append] at hmem
      have hcells : ∀ z, z ∈ rest.cells ↔ z = x ∨ z ∈ down.cells ∨ z ∈ A := fun z => by
        rw [hA.mem_iff, mem_cons, mem_append]
      have hangs : Hangs m a false rest := by
        refine ⟨by rw [hn]; rfl, fun _ z hz heq => ?_⟩
        rw [show m.next a = ref o' down' from congrArg Node.next hn] at heq
        cases o' with
        | some o' => cases heq
        | none =>
          obtain ⟨b, hb, hbz⟩ := map_eq_some_iff.1 heq
          obtain rfl := Ref.node.inj hbz
          have := head_mem hb
          grind
      obtain ⟨hrest, ha⟩ := ih hr hnd hangs hx hk' hput hsame
      refine ⟨⟨by rw [ha, hn]; rfl, hd.congr fun z hz => hsame z ?_ ?_, hrest⟩, ?_⟩
      · grind
      · grind
      · rw [hsame p (by grind) (by grind)]
        exact hp.1

theorem look_alter_end (hw : t.Wf) (hx : t.get 0 = some (x, o, down)) :
    (t.alter 0 nil).look = update t.look [] none := by
  funext s
  cases s with
  | nil =>
    rw [look, get_alter_self hw hx, update_self]
    rfl
  | cons d s => rw [update_of_ne (by simp), look, look, get_alter_ne d.2]

/-! ## The way down -/

/-- All nodes are only children on the way to the end `x` of the string `s`. -/
structure Lane (m : Mem ο) (t : Sibs ο) (s : List Sym) (x : Nat) : Prop where
  mem : x ∈ t.cells
  leads : Leads (m.setNext x none) (t.head.map .node) t.cells
  length : t.cells.length ≤ s.length + 1
  look : update t.look s none = fun _ => none

/-- The nodes `l` have been taken out below the pointer of `p`, which leads to `t'` now. -/
structure Cut (m m' : Mem ο) (p : Nat) (k : Bool) (t : Sibs ο) (s : List Sym) (fd : Nat)
    (l : List Nat) (t' : Sibs ο) : Prop where
  stored : Stored m' t'
  wf : t'.Wf
  slot : m'.node p = Node.put k t'.head (m.node p)
  same : ∀ z ∉ p :: t.cells, m'.node z = m.node z
  leads : Leads m' (some (.node fd)) l
  length : l.length ≤ s.length + 1
  cells : (l ++ t'.cells).Perm t.cells
  look : t'.look = update t.look s none
  zero : ∀ e, t'.get 0 = some e → t.get 0 = some e

section

variable (h : Stored m t) (hw : t.Wf) (hnodup : (p :: t.cells).Nodup) (hp : Hangs m p k t)
include h hw hnodup hp

/-- The place is on this list: the sibling goes, with a lane below it. -/
theorem cut_here (hx : t.get c = some (x, o, down)) (hy : y ∈ x :: down.cells)
    (hleads : Leads (m.setNext y none) (some (.node x)) (x :: down.cells))
    (hlen : down.cells.length ≤ s.length) (hlook : (t.alter c nil).look = update t.look s none) :
    Cut m (unlink (m.setNext y none) (t.before p c) x) p k t s x (x :: down.cells)
      (t.alter c nil) := by
  obtain ⟨A, hA, hA'⟩ := cells_alter hx nil
  have hnd : (p :: x :: (down.cells ++ A)).Nodup := (hA.cons p).nodup_iff.1 hnodup
  have hmem := before_mem (t := t) (p := p) (c := c)
  simp only [mem_cons, hA'.mem_iff, head, elim_none, nil_append] at hmem
  -- what stands before the sibling is not among the nodes taken out
  have hlu : t.before p c ∉ x :: down.cells := by grind
  have hset : ∀ z ∉ x :: down.cells, (m.setNext y none).node z = m.node z := fun z hz =>
    Pool.node_modify_ne fun heq : z = y => hz (heq ▸ hy)
  obtain ⟨k', hun, hk'⟩ := exists_unlink (m.setNext y none) (t.before p c) x
  rw [show (m.setNext y none).list x = m.list x from Pool.read_modify Node.list rfl x] at hun
  rw [Mem.next, hset _ hlu] at hk'
  rw [hun]
  have hother : ∀ z, z ≠ t.before p c → z ∉ x :: down.cells →
      (Pool.modify (m.setNext y none) (t.before p c) (Node.put k' (m.list x))).node z = m.node z :=
    fun z hz hz' => (Pool.node_modify_ne hz).trans (hset z hz')
  obtain ⟨hstored, hslot⟩ :=
    h.drop hnodup hp hx hk' (by rw [Pool.node_modify_self, hset _ hlu]) hother
  refine ⟨hstored, hw.alter trivial (fun _ => rfl) (fun hne => (hne rfl).elim), hslot,
    fun z hz => ?_, hleads.congr fun z hz => Pool.node_modify_ne fun heq : z = _ => hlu (heq ▸ hz),
      Nat.succ_le_succ hlen,
    (hA'.append_left _).trans hA.symm, hlook, fun e he => ?_⟩
  · rw [mem_cons, hA.mem_iff] at hz
    exact hother z (by grind) (by grind)
  · by_cases hc : c = 0
    · subst hc
      rw [get_alter_self hw hx] at he
      cases he
    · rwa [get_alter_ne (Ne.symm hc)] at he

/-- The place is below a sibling, and something remains there. -/
theorem Cut.below {d : Sym} {fd : Nat} {down' : Sibs ο} (hx : t.get d = some (x, none, down))
    (hin : ∀ e, down.get 0 = some e → e.2.1 ≠ none) (hcut : Cut m m' x true down s fd l down')
    (hne : down' ≠ nil) :
    Cut m m' p k t (d :: s) fd l (t.alter d down') := by
  obtain ⟨A, hA, hA'⟩ := cells_alter hx down'
  have hnd : (p :: x :: (down.cells ++ A)).Nodup := (hA.cons p).nodup_iff.1 hnodup
  obtain ⟨b, hb⟩ := exists_head hne
  rw [hb] at hA'
  refine ⟨h.keep (nodup_cons.1 hnodup).2 hx (fun z _ hz hz' => hcut.same z (by grind)) hne
    hcut.slot hcut.stored, hw.alter hcut.wf (fun h => (d.2 h).elim) fun _ =>
      ⟨hne, fun e he => hin e (hcut.zero e he)⟩, ?_,
    fun z hz => hcut.same z ?_, hcut.leads, Nat.le_succ_of_le hcut.length, ?_,
      look_alter hw hx hcut.look, ?_⟩
  · rw [hcut.same p (by grind), head_alter hne]
    exact hp.1
  · rw [mem_cons, hA.mem_iff] at hz
    grind
  · calc l ++ (t.alter d down').cells
      _ ~ l ++ x :: (down'.cells ++ A) := hA'.append_left l
      _ ~ x :: (l ++ (down'.cells ++ A)) := perm_middle
      _ ~ x :: (down.cells ++ A) := by
        rw [← append_assoc]
        exact (hcut.cells.append_right A).cons x
      _ ~ t.cells := hA.symm
  · intro e he
    rwa [get_alter_ne (Ne.symm d.2)] at he

end

/-- What `descend` has found out: the place to cut is the one noted before, or it is here. -/
def Found (m : Mem ο) (p : Nat) (k : Bool) (t : Sibs ο) (s : List Sym) (branch : Bool)
    (lu fd x lu' fd' : Nat) : Prop :=
  (branch = false ∧ lu' = lu ∧ fd' = fd ∧ Lane m t s x) ∨
    ∃ l t', Cut m (unlink (m.setNext x none) lu' fd') p k t s fd' l t' ∧ (branch = false → t' ≠ nil)

section

variable (h : Stored m t) (hw : t.Wf) (hnodup : (p :: t.cells).Nodup) (hp : Hangs m p k t)
include h hw hnodup hp

/-- Below the sibling there is one lane: `branch` decides. -/
theorem found_here {lu fd : Nat} {branch B : Bool} (hx : t.get c = some (x, o, down))
    (hB : (branch || (decide (t.chars.head? ≠ some c) || (m.list x).isSome)) = B)
    (hy : y ∈ x :: down.cells)
    (hleads : Leads (m.setNext y none) (some (.node x)) (x :: down.cells))
    (hlen : down.cells.length ≤ s.length) (hlook : (t.alter c nil).look = update t.look s none) :
    Found m p k t s branch lu fd y (if B then t.before p c else lu) (if B then x else fd) := by
  have halone := alter_eq_nil h hx
  cases B with
  | true =>
    refine .inr ⟨_, _, cut_here h hw hnodup hp hx hy hleads hlen hlook, fun hbr hnil => ?_⟩
    rw [hbr, Bool.false_or, halone.2 hnil] at hB
    cases hB
  | false =>
    obtain ⟨hbr, hB⟩ := Bool.or_eq_false_iff.1 hB
    rw [halone.1 hB] at hlook
    have hcells : t.cells = x :: down.cells := by
      rw [eq_cons_of_alter hx (halone.1 hB), cells, cells, append_nil]
    refine .inl ⟨hbr, rfl, rfl, hcells ▸ hy, ?_, ?_,
      hlook.symm.trans (funext fun s => look_of_get_none rfl)⟩
    · rw [hcells, eq_cons_of_alter hx (halone.1 hB)]
      exact hleads
    · rw [hcells]
      exact Nat.succ_le_succ hlen

theorem descend_ok (lu fd : Nat) (branch : Bool) (hb : t.head = some b) (hin : s = [] → Inner t)
    (hfuel : 256 ≤ fuel) :
    (descend fuel m p b lu fd branch s = some none ∧ t.look s = none) ∨ ∃ x lu' fd' o,
      descend fuel m p b lu fd branch s = some (some (x, lu', fd')) ∧ t.look s = some o ∧
      m.next x = some (.object o) ∧ Found m p k t s branch lu fd x lu' fd' := by
  induction s generalizing t p b k lu fd branch with
  | nil =>
    have hsearch := search_eq (p := p) (c := 0) branch h hb (hw.length_le hfuel)
    cases hx : t.get 0 with
    | none => exact .inl ⟨by rw [descend, hsearch, hx]; rfl, look_of_get_none (s := []) hx⟩
    | some e =>
      obtain ⟨x, o, down⟩ := e
      obtain ⟨-, hnext, -, -, hdown, -⟩ := h.get hw hx
      obtain rfl := hdown rfl
      obtain ⟨o, rfl⟩ := ne_none_iff_exists'.1 ((hin rfl).2 _ hx)
      obtain ⟨B, hB⟩ : ∃ B, (branch || (decide (t.chars.head? ≠ some 0) || (m.list x).isSome)) =
        B := ⟨_, rfl⟩
      refine .inr ⟨x, _, _, o, ?_, by rw [Sibs.look, hx]; rfl, hnext, found_here h hw hnodup hp hx
        hB mem_cons_self ⟨rfl, congrArg Node.next Pool.node_modify_self⟩ le_rfl
          (look_alter_end hw hx)⟩
      rw [descend, hsearch, hx]
      simp only [map_some, Bool.or_assoc, hB]
      cases B <;> rfl
  | cons d s ih =>
    have hsearch := search_eq (p := p) (c := d) branch h hb (hw.length_le hfuel)
    cases hx : t.get d with
    | none => exact .inl ⟨by rw [descend, hsearch, hx]; rfl, look_of_get_none (s := d :: s) hx⟩
    | some e =>
      obtain ⟨x, o, down⟩ := e
      obtain ⟨-, hnext, hsd, hwd, -, hinner⟩ := h.get hw hx
      obtain ⟨rfl, hind⟩ := hinner d.2
      obtain ⟨b', hb'⟩ := exists_head hind.1
      rw [ref, hb', map_some] at hnext
      obtain ⟨A, hA, -⟩ := cells_alter hx nil
      have hnd : (x :: down.cells).Nodup := by
        have := hA.nodup_iff.1 (nodup_cons.1 hnodup).2
        grind
      have hpd : Hangs m x true down := by
        refine ⟨?_, by simp⟩
        rw [Node.put, if_pos rfl, hb', map_some, ← hnext]
        rfl
      obtain ⟨B, hB⟩ : ∃ B, (branch || (decide (t.chars.head? ≠ some d.1) || (m.list x).isSome)) =
        B := ⟨_, rfl⟩
      have heq : descend fuel m p b lu fd branch (d :: s) = descend fuel m x b'
          (if B then t.before p d else lu) (if B then x else fd) false s := by
        rw [descend, hsearch, hx]
        simp only [map_some, Bool.or_assoc, hB, hnext]
        cases B with
        | true => rfl
        | false =>
          obtain ⟨hbr, hB⟩ := Bool.or_eq_false_iff.1 hB
          rw [hbr, (Bool.or_eq_false_iff.1 hB).1]
          rfl
      have hlook : t.look (d :: s) = down.look s := by rw [Sibs.look, hx]; rfl
      rw [heq, hlook]
      refine (ih hsd hwd hnd hpd _ _ _ hb' fun _ => hind).imp_right ?_
      rintro ⟨y, lu', fd', o, hdesc, hlook', hy, hfound⟩
      refine ⟨y, lu', fd', o, hdesc, hlook', hy, ?_⟩
      rcases hfound with ⟨-, rfl, rfl, hlane⟩ | ⟨l, down', hcut, hne⟩
      · refine found_here h hw hnodup hp hx hB (mem_cons_of_mem x hlane.mem) ⟨rfl, ?_⟩ hlane.length
          (look_alter hw hx (hlane.look.trans ?_).symm)
        · have hxy : x ≠ y := fun heq => (nodup_cons.1 hnd).1 (heq ▸ hlane.mem)
          have hleads := hlane.leads
          rw [hb', map_some, ← hnext] at hleads
          rwa [Mem.next, show (m.setNext y none).node x = m.node x from Pool.node_modify_ne hxy]
        · exact funext fun s => (look_of_get_none rfl).symm
      · refine .inr ⟨l, _, Cut.below h hw hnodup hp hx hind.2 hcut (hne rfl), fun _ hnil => ?_⟩
        have := head_alter (t := t) (c := d.1) (hne rfl)
        rw [hnil, hb] at this
        cases this

end

end Sibs

/-! ## The call -/

/-- The root is the first node of its list. -/
theorem Shape.exists_cons {root : Nat} {t : Sibs ο} (h : Shape m root t) :
    ∃ rest, t = .cons root 0 none .nil rest := by
  obtain ⟨-, -, hholds, hhead, hroot⟩ := h
  cases t with
  | nil => cases hhead
  | cons a c o down rest =>
    obtain rfl := some.inj hhead
    rw [Sibs.get] at hroot
    split at hroot
    next hc =>
      cases hroot
      exact ⟨rest, by rw [hc]⟩
    next =>
      have hmem := (Sibs.mem_of_get hroot).1
      exact ((nodup_cons.1 hholds.nodup_owned).1 (mem_append_right _ hmem)).elim

theorem look_cons {root : Nat} {rest : Sibs ο} (hs : s ≠ []) :
    (Sibs.cons root 0 none .nil rest).look s = rest.look s := by
  cases s with
  | nil => exact (hs rfl).elim
  | cons d s => rw [Sibs.look, Sibs.get, if_neg (Ne.symm d.2), Sibs.look]

theorem delete_ok {root : Nat} {t : Sibs ο} (h : Shape m root t) (hs : s ≠ []) (hfuel : 256 ≤ fuel)
    (hlen : s.length < fuel) : ∃ m' t', delete fuel m root s = some (m', t.look s) ∧
      Shape m' root t' ∧ t'.look = update t.look s none := by
  obtain ⟨rest, rfl⟩ := h.exists_cons
  have ⟨⟨hroot, _, hrest⟩, ⟨_, _, hnot, _, hw⟩, hholds, _, _⟩ := h
  have hnone (heq : delete fuel m root s = some (m, none)) (hlook : rest.look s = none) : ∃ m' t',
      delete fuel m root s = some (m', (Sibs.cons root 0 none .nil rest).look s) ∧
        Shape m' root t' ∧ t'.look = update (Sibs.cons root 0 none .nil rest).look s none := by
    rw [heq, look_cons hs, hlook]
    exact ⟨m, _, rfl, h, (update_eq_self_iff.2 ((look_cons hs).trans hlook).symm).symm⟩
  obtain ⟨c, r, rfl⟩ := exists_cons_of_ne_nil hs
  have hlist : m.list root = rest.head := congrArg Node.list hroot
  cases hb : rest.head with
  | none =>
    refine hnone (by simp only [delete, hlist, hb]) ?_
    cases rest with
    | nil => rfl
    | cons => cases hb
  | some b =>
    have hp : Sibs.Hangs m root false rest := by
      refine ⟨by rw [hroot]; rfl, fun _ z _ => ?_⟩
      rw [Mem.next, hroot]
      nofun
    rcases Sibs.descend_ok hrest hw hholds.nodup_owned hp root b true hb
      (fun heq => (hs heq).elim) hfuel with
      ⟨hdesc, hlook⟩ | ⟨x, lu, fd, o, hdesc, hlook, hx, hfound⟩
    · exact hnone (by simp only [delete, hlist, hb, hdesc]) hlook
    obtain ⟨l, t', hcut, -⟩ := hfound.resolve_left fun hl => nomatch hl.1
    obtain ⟨k, hun, -⟩ := exists_unlink (m.setNext x none) lu fd
    have hperm : (root :: rest.cells).Perm (l ++ root :: t'.cells) :=
      (hcut.cells.symm.cons root).trans perm_middle.symm
    have hholds1 : (unlink (m.setNext x none) lu fd).Holds (l ++ root :: t'.cells) :=
      (hholds.perm hperm).of_eq (by rw [hun]; rfl) (by rw [hun]; rfl)
    obtain ⟨m', hreturn, hholds', hsame⟩ :=
      returnPath_ok hcut.leads (.refl hholds1) (hcut.length.trans hlen)
    refine ⟨m', .cons root 0 none .nil t', ?_,
      ⟨⟨?_, trivial, ?_⟩, ⟨fun _ => rfl, fun h => (h rfl).elim, ?_, trivial,
      hcut.wf⟩, hholds', rfl, rfl⟩, ?_⟩
    · simp only [delete, hlist, hb, hdesc, hx, hreturn, look_cons hs, hlook]
    · rw [hsame root mem_cons_self, hcut.slot, hroot]
      rfl
    · exact hcut.stored.congr fun z hz => hsame z (mem_cons_of_mem root hz)
    · rw [← Sibs.get_eq_none] at hnot ⊢
      exact eq_none_iff_forall_ne_some.2 fun e he => nomatch hnot.symm.trans (hcut.zero e he)
    · funext s'
      cases s' with
      | nil => rw [update_of_ne (by simp)]; rfl
      | cons d s' =>
        rw [look_cons (by simp), hcut.look]
        by_cases heq : d :: s' = c :: r
        · rw [heq, update_self, update_self]
        · rw [update_of_ne heq, update_of_ne heq, look_cons (by simp)]

end CLangProject.LiNTrie
