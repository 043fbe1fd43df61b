import CLangProject.LiNTrie

/-!
# Tries with lists of siblings: shape and insertion

A trie is a tree of lists of siblings (`Sibs`), and `Stored` says that the memory holds it. The root
is the first node on the list for the first character, with the character 0 and nothing below it.
What a call does to the trie is said for all strings at once, by `look`.

There are two changes of a list: `append`, at its end, and `alter`, which puts another list below a
node and drops the node if that list is empty.
-/

namespace CLangProject.LiNTrie

open List Option Function

variable {ο : Type} {m m' : Mem ο} {a b x fuel : Nat} {c e : Fin 256} {o : Option ο}
    {s r : List Sym}

/-- Write a pointer into a node: to the list below it, or to its next sibling. -/
def Node.put (below : Bool) (i : Option Nat) (n : Node ο) : Node ο :=
  if below then { n with next := i.map .node } else { n with list := i }

/-- A list of siblings: the address of the first one, its character, its object, the list below it,
and the rest. -/
inductive Sibs (ο : Type) where
  | nil
  | cons (a : Nat) (c : Fin 256) (o : Option ο) (down rest : Sibs ο)

namespace Sibs

def head : Sibs ο → Option Nat
  | nil => none
  | cons a .. => some a

def chars : Sibs ο → List (Fin 256)
  | nil => []
  | cons _ c _ _ rest => c :: rest.chars

def cells : Sibs ο → List Nat
  | nil => []
  | cons a _ _ down rest => a :: (down.cells ++ rest.cells)

/-- The sibling with the character `c`: its address, its object and the list below it. -/
def get (c : Fin 256) : Sibs ο → Option (Nat × Option ο × Sibs ο)
  | nil => none
  | cons a d o down rest => if d = c then some (a, o, down) else rest.get c

/-- The object of a string. -/
def look : Sibs ο → List Sym → Option ο
  | t, [] => (t.get 0).bind fun e => e.2.1
  | t, d :: s => (t.get d).bind fun e => e.2.2.look s

/-- What is below a node inside of a string: a string that ends there has an object. -/
def Inner (t : Sibs ο) : Prop := t ≠ nil ∧ ∀ e, t.get 0 = some e → e.2.1 ≠ none

/-- The siblings have distinct characters; the ones with the character 0 have nothing below them,
and the others have no object. -/
def Wf : Sibs ο → Prop
  | nil => True
  | cons _ c o down rest => (c = 0 → down = nil) ∧ (c ≠ 0 → o = none ∧ Inner down) ∧
      c ∉ rest.chars ∧ Wf down ∧ Wf rest

/-- `next` of a node. -/
def ref (o : Option ο) (down : Sibs ο) : Option (Ref ο) :=
  match o with
  | some o => some (.object o)
  | none => down.head.map .node

def Stored (m : Mem ο) : Sibs ο → Prop
  | nil => True
  | cons a c o down rest => m.node a = ⟨c, ref o down, rest.head⟩ ∧ Stored m down ∧ Stored m rest

variable {t u down : Sibs ο}

theorem get_eq_none : t.get c = none ↔ c ∉ t.chars := by
  induction t with
  | nil => simp [get, chars]
  | cons a d o down rest _ ih =>
    by_cases hd : d = c
    · simp [get, chars, hd]
    · simp [get, chars, hd, ih, Ne.symm hd]

theorem look_of_get_none (h : t.get (current s) = none) : t.look s = none := by
  cases s with
  | nil => exact congrArg (Option.bind · _) h
  | cons d s => exact congrArg (Option.bind · _) h

theorem head_mem (h : t.head = some b) : b ∈ t.cells := by
  cases t with
  | nil => cases h
  | cons a c o down rest =>
    obtain rfl := some.inj h
    exact mem_cons_self

theorem exists_head (h : t ≠ nil) : ∃ b, t.head = some b := by
  cases t with
  | nil => exact (h rfl).elim
  | cons a c o down rest => exact ⟨a, rfl⟩

theorem Wf.nodup (h : t.Wf) : t.chars.Nodup := by
  induction t with
  | nil => exact nodup_nil
  | cons a c o down rest _ ih => exact nodup_cons.2 ⟨h.2.2.1, ih h.2.2.2.2⟩

theorem Wf.length_le (h : t.Wf) (hfuel : 256 ≤ fuel) : t.chars.length ≤ fuel := by
  have := h.nodup.length_le_card
  rw [Fintype.card_fin] at this
  omega

theorem Stored.congr (h : Stored m t) (heq : ∀ z ∈ t.cells, m'.node z = m.node z) :
    Stored m' t := by
  induction t with
  | nil => trivial
  | cons a c o down rest ihd ihr =>
    obtain ⟨hn, hd, hr⟩ := h
    obtain ⟨ha, heq⟩ := forall_mem_cons.1 heq
    obtain ⟨hdown, hrest⟩ := forall_mem_append.1 heq
    exact ⟨ha.trans hn, ihd hd hdown, ihr hr hrest⟩

/-- A node of the list. -/
theorem Stored.get (h : Stored m t) (hw : t.Wf) (hx : t.get c = some (x, o, down)) :
    m.thisChar x = c ∧ m.next x = ref o down ∧ Stored m down ∧ down.Wf ∧ (c = 0 → down = nil) ∧
      (c ≠ 0 → o = none ∧ Inner down) := by
  induction t with
  | nil => cases hx
  | cons a d o' down' rest _ ih =>
    obtain ⟨hn, hd, hr⟩ := h
    obtain ⟨hzero, hinner, -, hwd, hwr⟩ := hw
    rw [Sibs.get] at hx
    split at hx
    next hdc =>
      cases hx
      exact ⟨(congrArg Node.thisChar hn).trans hdc, congrArg Node.next hn, hd, hwd,
        hdc ▸ hzero, hdc ▸ hinner⟩
    next => exact ih hr hwr hx

theorem mem_of_get (hx : t.get c = some (x, o, down)) : x ∈ t.cells ∧ down.cells ⊆ t.cells := by
  induction t with
  | nil => cases hx
  | cons a d o' down' rest _ ih =>
    rw [get] at hx
    split at hx
    · cases hx
      exact ⟨mem_cons_self, fun z hz => mem_cons_of_mem _ (mem_append_left _ hz)⟩
    · exact ⟨mem_cons_of_mem _ (mem_append_right _ (ih hx).1),
        fun z hz => mem_cons_of_mem _ (mem_append_right _ ((ih hx).2 hz))⟩

/-! ## Loops along a list -/

/-- The address of the last sibling. -/
def last (a : Nat) : Sibs ο → Nat
  | nil => a
  | cons a _ _ _ rest => rest.last a

section

variable (h : Stored m t) (hb : t.head = some b) (hfuel : t.chars.length ≤ fuel)
include h hb hfuel

theorem scan_eq : scan m c fuel b = some ((t.get c).map Prod.fst) := by
  induction t generalizing b fuel with
  | nil => cases hb
  | cons a d o down rest _ ih =>
    obtain rfl := some.inj hb
    obtain ⟨fuel, rfl⟩ := Nat.exists_eq_succ_of_ne_zero (Nat.ne_zero_of_lt hfuel)
    rw [scan, show m.thisChar a = d from congrArg Node.thisChar h.1, show m.list a = rest.head from
      congrArg Node.list h.1, Sibs.get]
    split
    · rfl
    · cases hrest : rest.head with
      | none => cases rest <;> first | rfl | cases hrest
      | some b => exact ih h.2.2 hrest (Nat.le_of_succ_le_succ hfuel)

theorem follow_eq : follow m c fuel b = some (((t.get c).map Prod.fst).getD (t.last b)) := by
  induction t generalizing b fuel with
  | nil => cases hb
  | cons a d o down rest _ ih =>
    obtain rfl := some.inj hb
    obtain ⟨fuel, rfl⟩ := Nat.exists_eq_succ_of_ne_zero (Nat.ne_zero_of_lt hfuel)
    rw [follow, show m.thisChar a = d from congrArg Node.thisChar h.1,
      show m.list a = rest.head from congrArg Node.list h.1, Sibs.get]
    split
    · rfl
    · cases hrest : rest.head with
      | none => cases rest <;> first | rfl | cases hrest
      | some b =>
        refine (ih h.2.2 hrest (Nat.le_of_succ_le_succ hfuel)).trans ?_
        cases rest with
        | nil => cases hrest
        | cons => rfl

end

/-! ## Search -/

theorem find_ok (h : Stored m t) (hw : t.Wf) (hb : t.head = some b) (hfuel : 256 ≤ fuel) :
    find fuel m b s = some (t.look s) := by
  induction s generalizing t b with
  | nil =>
    rw [find, scan_eq h hb (hw.length_le hfuel), Sibs.look]
    cases hx : t.get 0 with
    | none => rfl
    | some e =>
      obtain ⟨x, o, down⟩ := e
      obtain ⟨-, hnext, -, -, hdown, -⟩ := h.get hw hx
      obtain rfl := hdown rfl
      cases o <;> simp [hnext, ref, head]
  | cons d s ih =>
    rw [find, scan_eq h hb (hw.length_le hfuel), Sibs.look]
    cases hx : t.get d with
    | none => rfl
    | some e =>
      obtain ⟨x, o, down⟩ := e
      obtain ⟨-, hnext, hs, hwd, -, hinner⟩ := h.get hw hx
      obtain ⟨rfl, hne, -⟩ := hinner d.2
      obtain ⟨b, hb⟩ := exists_head hne
      simp only [hnext, ref, hb, map_some, bind_some]
      exact ih hs hwd hb

/-! ## Changes of a list -/

/-- Another list follows. -/
def append : Sibs ο → Sibs ο → Sibs ο
  | nil, u => u
  | cons a c o down rest, u => cons a c o down (rest.append u)

/-- A node above a list, if there is one. -/
def above (a : Nat) (c : Fin 256) (o : Option ο) : Sibs ο → Sibs ο → Sibs ο
  | nil, rest => rest
  | u, rest => cons a c o u rest

/-- The list `u` is put below the sibling with the character `c`, which is dropped if `u` is empty.
-/
def alter : Sibs ο → Fin 256 → Sibs ο → Sibs ο
  | nil, _, _ => nil
  | cons a d o down rest, c, u =>
    if d = c then above a d o u rest else cons a d o down (rest.alter c u)

theorem get_append : (t.append u).get c = (t.get c).or (u.get c) := by
  induction t with
  | nil => rfl
  | cons a d o down rest _ ih =>
    rw [append, get, get, ih]
    split <;> rfl

theorem chars_append : (t.append u).chars = t.chars ++ u.chars := by
  induction t with
  | nil => rfl
  | cons a d o down rest _ ih => rw [append, chars, ih, chars, cons_append]

theorem cells_append : (t.append u).cells = t.cells ++ u.cells := by
  induction t with
  | nil => rfl
  | cons a d o down rest _ ih => rw [append, cells, ih, cells, cons_append, append_assoc]

theorem Wf.append (ht : t.Wf) (hu : u.Wf) (hdisj : ∀ c ∈ t.chars, c ∉ u.chars) :
    (t.append u).Wf := by
  induction t with
  | nil => exact hu
  | cons a d o down rest _ ih =>
    obtain ⟨hd, hrest⟩ := forall_mem_cons.1 hdisj
    refine ⟨ht.1, ht.2.1, ?_, ht.2.2.2.1, ih ht.2.2.2.2 hrest⟩
    rw [chars_append, mem_append, not_or]
    exact ⟨ht.2.2.1, hd⟩

theorem last_mem (hb : t.head = some b) : t.last b ∈ t.cells := by
  induction t generalizing b with
  | nil => cases hb
  | cons a d o down rest _ ih =>
    cases rest with
    | nil => exact mem_cons_self
    | cons => exact mem_cons_of_mem _ (mem_append_right _ (ih rfl))

theorem Stored.append (h : Stored m t) (hb : t.head = some b) (hnodup : t.cells.Nodup)
    (hsame : ∀ z ∈ t.cells, z ≠ t.last b → m'.node z = m.node z)
    (hlast : m'.node (t.last b) = Node.put false u.head (m.node (t.last b))) (hu : Stored m' u) :
    Stored m' (t.append u) := by
  induction t generalizing b with
  | nil => exact hu
  | cons a d o down rest _ ih =>
    obtain rfl := some.inj hb
    obtain ⟨hn, hd, hr⟩ := h
    rw [cells] at hnodup
    obtain ⟨ha, hcells⟩ := nodup_cons.1 hnodup
    obtain ⟨-, hrest, hdisj⟩ := nodup_append.1 hcells
    have hdown : ∀ {y}, y ∈ a :: rest.cells → ∀ z ∈ down.cells, z ≠ y := by
      rintro y hy z hz rfl
      rcases mem_cons.1 hy with rfl | hy
      · exact ha (mem_append_left _ hz)
      · exact hdisj z hz z hy rfl
    cases rest with
    | nil =>
      refine ⟨hlast.trans (congrArg (Node.put false u.head) hn), hd.congr fun z hz =>
        hsame z ?_ (hdown mem_cons_self z hz), hu⟩
      exact mem_cons_of_mem _ (mem_append_left _ hz)
    | cons a' d' o' down' rest =>
      have hmem := last_mem (t := cons a' d' o' down' rest) rfl
      have hne : a ≠ (cons a' d' o' down' rest).last a' :=
        fun heq => ha (mem_append_right _ (heq ▸ hmem))
      refine ⟨(hsame a mem_cons_self hne).trans hn, hd.congr fun z hz => hsame z ?_ ?_,
        ih hr rfl hrest (fun z hz => hsame z (mem_cons_of_mem _ (mem_append_right _ hz))) hlast⟩
      · exact mem_cons_of_mem _ (mem_append_left _ hz)
      · exact hdown (mem_cons_of_mem _ hmem) z hz

theorem get_alter_ne (h : e ≠ c) : (t.alter c u).get e = t.get e := by
  induction t with
  | nil => rfl
  | cons a d o down rest _ ih =>
    rw [alter]
    split
    next hd =>
      subst hd
      cases u <;> simp [above, get, h.symm]
    next => rw [get, get, ih]

theorem get_alter_self (hw : t.Wf) (hx : t.get c = some (x, o, down)) :
    (t.alter c u).get c = u.head.map fun _ => (x, o, u) := by
  induction t with
  | nil => cases hx
  | cons a d o' down' rest _ ih =>
    rw [get] at hx
    rw [alter]
    split at hx
    next hd =>
      subst hd
      cases hx
      rw [if_pos rfl]
      cases u with
      | nil => exact get_eq_none.2 hw.2.2.1
      | cons => simp [above, get, head]
    next hd => rw [if_neg hd, get, if_neg hd, ih hw.2.2.2.2 hx]

theorem chars_alter (t : Sibs ο) (c : Fin 256) (u : Sibs ο) : (t.alter c u).chars ⊆ t.chars := by
  induction t with
  | nil => exact fun _ h => h
  | cons a d o down rest _ ih =>
    rw [alter]
    split
    · cases u
      · exact subset_cons_self ..
      · exact fun _ h => h
    · exact cons_subset_cons _ ih

theorem Wf.alter (h : t.Wf) (hu : u.Wf) (hzero : c = 0 → u = nil) (hinner : u ≠ nil → Inner u) :
    (t.alter c u).Wf := by
  induction t with
  | nil => trivial
  | cons a d o down rest _ ih =>
    obtain ⟨hd0, hd, hnot, hwd, hwr⟩ := h
    rw [Sibs.alter]
    split
    next hdc =>
      subst hdc
      cases u with
      | nil => exact hwr
      | cons => exact ⟨hzero, fun h => ⟨(hd h).1, hinner nofun⟩, hnot, hu, hwr⟩
    next => exact ⟨hd0, hd, fun hmem => hnot (chars_alter rest c u hmem), hwd, ih hwr⟩

/-- The nodes before and after. -/
theorem cells_alter (hx : t.get c = some (x, o, down)) (u : Sibs ο) :
    ∃ A, t.cells.Perm (x :: (down.cells ++ A)) ∧
      (t.alter c u).cells.Perm ((u.head.elim [] fun _ => x :: u.cells) ++ A) := by
  induction t with
  | nil => cases hx
  | cons a d o' down' rest _ ih =>
    rw [get] at hx
    rw [alter]
    split at hx
    next hd =>
      cases hx
      rw [if_pos hd]
      refine ⟨rest.cells, .rfl, ?_⟩
      cases u <;> exact .rfl
    next hd =>
      obtain ⟨A, h, h'⟩ := ih hx
      rw [if_neg hd]
      refine ⟨a :: (down'.cells ++ A), ?_, ?_⟩
      · rw [← cons_append] at h ⊢
        exact (((h.append_left _).trans (perm_append_comm_assoc ..)).cons a).trans perm_middle.symm
      · exact (((h'.append_left _).trans (perm_append_comm_assoc ..)).cons a).trans perm_middle.symm

theorem look_alter {d : Sym} {v : Option ο} (hw : t.Wf) (hx : t.get d = some (x, o, down))
    (hu : u.look = update down.look s v) : (t.alter d u).look = update t.look (d :: s) v := by
  funext s'
  cases s' with
  | nil => rw [update_of_ne (by simp), look, get_alter_ne (Ne.symm d.2), look]
  | cons d' s' =>
    by_cases hd : d' = d
    · subst hd
      have hbelow : (t.alter d' u).look (d' :: s') = u.look s' := by
        rw [look, get_alter_self hw hx]
        cases u with
        | nil => exact (look_of_get_none rfl).symm
        | cons => rfl
      rw [hbelow, hu]
      by_cases hs : s' = s
      · rw [hs, update_self, update_self]
      · rw [update_of_ne hs, update_of_ne (by simpa using hs), look, hx, bind_some]
    · rw [look, get_alter_ne fun h => hd (Subtype.ext h), update_of_ne (by simp [hd]), look]

theorem head_alter (hne : u ≠ nil) : (t.alter c u).head = t.head := by
  cases t with
  | nil => rfl
  | cons a d o down rest =>
    rw [alter]
    split
    · cases u with
      | nil => exact (hne rfl).elim
      | cons => rfl
    · rfl

/-- The list below a node has become `u`, and the node refers to it. -/
theorem Stored.keep (h : Stored m t) (hnodup : t.cells.Nodup) (hx : t.get c = some (x, none, down))
    (hsame : ∀ z ∈ t.cells, z ≠ x → z ∉ down.cells → m'.node z = m.node z) (hne : u ≠ nil)
    (hput : m'.node x = Node.put true u.head (m.node x)) (hu : Stored m' u) :
    Stored m' (t.alter c u) := by
  induction t with
  | nil => trivial
  | cons a d o down' rest _ ih =>
    obtain ⟨hn, hd, hr⟩ := h
    rw [cells] at hnodup hsame
    obtain ⟨ha, hcells⟩ := nodup_cons.1 hnodup
    obtain ⟨-, hrest, hdisj⟩ := nodup_append.1 hcells
    rw [Sibs.get] at hx
    rw [Sibs.alter]
    split at hx
    next hdc =>
      cases hx
      rw [if_pos hdc]
      have hrest' : Stored m' rest :=
        hr.congr fun z hz => hsame z (by simp [hz]) (by grind) (by grind)
      cases u with
      | nil => exact (hne rfl).elim
      | cons => exact ⟨hput.trans (congrArg _ hn), hu, hrest'⟩
    next hdc =>
      obtain ⟨hxr, hdr⟩ := mem_of_get hx
      rw [if_neg hdc]
      refine ⟨(hsame a mem_cons_self (by grind) (by grind)).trans (hn.trans ?_),
        hd.congr fun z hz => hsame z (by simp [hz]) (by grind) (by grind),
        ih hr hrest hx fun z hz => hsame z (by simp [hz])⟩
      rw [head_alter hne]

/-! ## Insertion -/

/-- A new list for the rest of a string. -/
structure Branch (u : Sibs ο) (s : List Sym) (o : ο) : Prop where
  wf : u.Wf
  inner : Inner u
  chars : u.chars = [current s]
  look : u.look = update (fun _ => none) s (some o)

theorem branchOff_ok (o : ο) {L : List Nat} (h : m.Holds (b :: L)) (hc : m.thisChar b = current s)
    (hl : m.list b = none) : ∃ u, Stored (branchOff o b s m) u ∧ Branch u s o ∧ u.head = some b ∧
      m.Beside L u.cells (branchOff o b s m) := by
  have hL : ∀ z ∈ L, z ≠ b := fun z hz heq => (nodup_cons.1 h.nodup_owned).1 (heq ▸ hz)
  induction s generalizing b L m with
  | nil =>
    refine ⟨cons b 0 (some o) nil nil, ⟨?_, trivial, trivial⟩,
      ⟨⟨fun _ => rfl, by simp, by simp [Sibs.chars], trivial, trivial⟩, ⟨nofun, by simp [Sibs.get]⟩,
      rfl, ?_⟩, rfl, ?_⟩
    · rw [branchOff, Mem.setNext, Pool.node_modify_self]
      exact congrArg₂ (Node.mk · _ ·) hc hl
    · funext s'
      cases s' with
      | nil => simp [Sibs.look, Sibs.get]
      | cons d s' => simp [Sibs.look, Sibs.get, Ne.symm d.2]
    · exact (Pool.Beside.refl (l := [b]) h).modify mem_cons_self fun n =>
        { n with next := some (.object o) }
  | cons d r ih =>
    obtain ⟨n, hn⟩ : ∃ n, (Pool.getNode m).1 = n := ⟨_, rfl⟩
    obtain ⟨m1, hm1⟩ : ∃ m1, (Mem.setNext (Pool.getNode m).2 b (some (.node n))).start n
      (current r) = m1 := ⟨_, rfl⟩
    have hbranch : branchOff o b (d :: r) m = branchOff o n r m1 := by rw [← hm1, ← hn]; rfl
    have hfresh : n ∉ b :: L := hn ▸ h.fresh
    have hne : ∀ z ∈ b :: L, z ≠ n := fun z hz heq => hfresh (heq ▸ hz)
    have hholds : m1.Holds (n :: b :: L) := by
      rw [← hm1, ← hn]
      exact h.getNode.of_eq rfl rfl
    have hnode : m1.node b = ⟨d, some (.node n), none⟩ := by
      rw [← hm1, Mem.start, Pool.node_modify_ne (hne b mem_cons_self), Mem.setNext,
        Pool.node_modify_self, Pool.node_getNode]
      exact congrArg₂ (Node.mk · _ ·) hc hl
    obtain ⟨u, hu, hb, hhead, hbeside⟩ := ih hholds (by simp [← hm1, Mem.thisChar, Mem.start])
      (by simp [← hm1, Mem.list, Mem.start]) hne
    rw [hbranch]
    refine ⟨cons b d none u nil, ⟨?_, hu, trivial⟩,
      ⟨⟨fun hd => (d.2 hd).elim, fun _ => ⟨rfl, hb.inner⟩, by simp [Sibs.chars], hb.wf, trivial⟩,
      ⟨nofun, by simp [Sibs.get, d.2]⟩, rfl, ?_⟩, rfl, ?_, fun z hz => ?_⟩
    · rw [hbeside.same b mem_cons_self, hnode, ref, hhead]
      rfl
    · funext s'
      cases s' with
      | nil => simp [Sibs.look, Sibs.get, d.2]
      | cons d' s' =>
        by_cases hd : d = d'
        · subst hd
          simp [Sibs.look, Sibs.get, hb.look, update_apply]
        · have hd' : (d : Fin 256) ≠ d' := fun heq => hd (Subtype.ext heq)
          simp [Sibs.look, Sibs.get, hd', Ne.symm hd]
    · refine hbeside.holds.perm ?_
      rw [cells, cells, append_nil, cons_append]
      exact perm_middle
    · rw [hbeside.same z (mem_cons_of_mem _ hz), ← hm1, Mem.start,
        Pool.node_modify_ne (hne z (mem_cons_of_mem _ hz)), Mem.setNext,
          Pool.node_modify_ne (hL z hz), Pool.node_getNode]

theorem look_append (t u : Sibs ο) (s : List Sym) :
    (t.append u).look s = if t.get (current s) = none then u.look s else t.look s := by
  cases s with
  | nil =>
    rw [Sibs.look, get_append, Sibs.look, Sibs.look, current]
    cases t.get 0 <;> rfl
  | cons d s =>
    rw [Sibs.look, get_append, Sibs.look, Sibs.look, current]
    cases t.get d <;> rfl

theorem last_char (h : Stored m t) (hb : t.head = some b) : m.thisChar (t.last b) ∈ t.chars := by
  induction t generalizing b with
  | nil => cases hb
  | cons a d o down rest _ ih =>
    cases rest with
    | nil => exact mem_cons.2 (.inl (congrArg Node.thisChar h.1))
    | cons => exact mem_cons_of_mem _ (ih h.2.2 rfl)

/-- With the rest `r` of a string at the node `x`, the trie is one for the whole string. -/
def Continues (m : Mem ο) (t : Sibs ο) (s : List Sym) (x : Nat) (r : List Sym) : Prop :=
  ∀ {m' : Mem ο} {u : Sibs ο} {o : ο}, (∀ z ∈ t.cells, z ≠ x → m'.node z = m.node z) →
    m'.node x = Node.put false u.head (m.node x) → Stored m' u → Branch u r o →
    ∃ t', Stored m' t' ∧ t'.Wf ∧ t'.head = t.head ∧ (Inner t → Inner t') ∧
      (s ≠ [] → t'.get 0 = t.get 0) ∧ t'.cells.Perm (u.cells ++ t.cells) ∧
      t'.look = update t.look s (some o)

section

variable (h : Stored m t) (hw : t.Wf) (hnodup : t.cells.Nodup) (hb : t.head = some b)
include h hw hnodup hb

/-- The list ends without the character, and the branch is put behind its last node. -/
theorem continues_last (hx : t.get (current s) = none) : Continues m t s (t.last b) s := by
  intro m' u o hsame hlast hu hbranch
  refine ⟨t.append u, h.append hb hnodup hsame hlast hu, hw.append hbranch.wf fun c hc hmem => ?_,
    ?_, fun hin => ⟨?_, ?_⟩,
    fun hs => ?_, ?_, ?_⟩
  · rw [hbranch.chars, mem_singleton] at hmem
    exact get_eq_none.1 hx (hmem ▸ hc)
  · cases t with
    | nil => cases hb
    | cons => rfl
  · cases t with
    | nil => cases hb
    | cons => exact nofun
  · intro e he
    rw [get_append] at he
    cases h0 : t.get 0 with
    | none => exact hbranch.inner.2 e (by rwa [h0, none_or] at he)
    | some e' =>
      rw [h0, some_or] at he
      exact hin.2 e (h0.trans he)
  · have hu0 : u.get 0 = none := get_eq_none.2 (by
      rw [hbranch.chars, mem_singleton]
      obtain ⟨d, r, rfl⟩ := exists_cons_of_ne_nil hs
      exact Ne.symm d.2)
    rw [get_append, hu0, or_none]
  · rw [cells_append]
    exact perm_append_comm
  · funext s'
    rw [look_append, hbranch.look]
    by_cases hs : s' = s
    · rw [hs, if_pos hx, update_self, update_self]
    · rw [update_of_ne hs, update_of_ne hs]
      split
      next hn => exact (look_of_get_none hn).symm
      next => rfl

/-- The branch is put somewhere below a node of the list. -/
theorem Continues.below {d : Sym} {y : Nat} (hx : t.get d = some (x, none, down))
    (hy : y ∈ down.cells) (hr : Continues m down s y r) (hin : Inner down) :
    Continues m t (d :: s) y r := by
  intro m' u o hsame hlast hu hbranch
  obtain ⟨hxt, hsub⟩ := mem_of_get hx
  obtain ⟨A, hA, hA'⟩ := cells_alter hx nil
  have hxd : x ∉ down.cells :=
    fun hmem => (nodup_cons.1 (hA.nodup_iff.1 hnodup)).1 (mem_append_left _ hmem)
  obtain ⟨down', hs', hw', hhead, hin', -, hcells, hlook⟩ :=
    hr (fun z hz => hsame z (hsub hz)) hlast hu hbranch
  have hne : down' ≠ nil := (hin' hin).1
  obtain ⟨-, hnext, -⟩ := h.get hw hx
  refine ⟨t.alter d down', h.keep hnodup hx (fun z hz _ hzd => hsame z hz fun heq =>
    hzd (heq ▸ hy)) hne ?_ hs', hw.alter hw' (fun hd => (d.2 hd).elim) fun _ => hin' hin,
    head_alter hne, fun hi => ⟨?_, ?_⟩, fun _ => ?_, ?_, ?_⟩
  · rw [hsame x hxt fun heq => hxd (heq ▸ hy), Node.put, if_pos rfl, hhead]
    exact congrArg (fun p => (⟨(m.node x).thisChar, p, (m.node x).list⟩ : Node ο)) hnext
  · intro hnil
    have := head_alter (t := t) (c := d) hne
    rw [hnil, hb] at this
    cases this
  · rw [get_alter_ne (Ne.symm d.2)]
    exact hi.2
  · exact get_alter_ne (Ne.symm d.2)
  · obtain ⟨A, hA, hA'⟩ := cells_alter hx down'
    obtain ⟨b', hb'⟩ := exists_head hne
    rw [hb', Option.elim_some, cons_append] at hA'
    refine hA'.trans ((((hcells.append_right A).trans (by rw [append_assoc])).cons x).trans ?_)
    exact perm_middle.symm.trans (hA.symm.append_left _)
  · exact look_alter hw hx hlook

/-- Where a string leaves the trie. -/
theorem leave_ok (hin : s = [] → Inner t) (hfuel : 256 ≤ fuel) :
    (leave fuel m b s = some none ∧ t.look s ≠ none) ∨
      ∃ x r, leave fuel m b s = some (some (x, r)) ∧ x ∈ t.cells ∧
      t.look s = none ∧ Continues m t s x r := by
  induction s generalizing t b with
  | nil =>
    have hfollow := follow_eq (c := 0) h hb (hw.length_le hfuel)
    cases hx : t.get 0 with
    | none =>
      rw [hx] at hfollow
      have hne : m.thisChar (t.last b) ≠ 0 := fun heq => get_eq_none.1 hx (heq ▸ last_char h hb)
      refine .inr ⟨t.last b, [], ?_, last_mem hb, look_of_get_none hx,
        continues_last (s := []) h hw hnodup hb hx⟩
      simp [leave, hfollow, hne]
    | some e =>
      obtain ⟨x, o, down⟩ := e
      rw [hx] at hfollow
      obtain ⟨hchar, -⟩ := h.get hw hx
      refine .inl ⟨by simp [leave, hfollow, hchar], ?_⟩
      rw [Sibs.look, hx]
      exact (hin rfl).2 _ hx
  | cons d s ih =>
    have hfollow := follow_eq (c := d) h hb (hw.length_le hfuel)
    cases hx : t.get d with
    | none =>
      rw [hx] at hfollow
      have hne : m.thisChar (t.last b) ≠ d := fun heq => get_eq_none.1 hx (heq ▸ last_char h hb)
      refine .inr ⟨t.last b, d :: s, ?_, last_mem hb, look_of_get_none (s := d :: s) hx,
        continues_last (s := d :: s) h hw hnodup hb hx⟩
      simp [leave, hfollow, hne]
    | some e =>
      obtain ⟨x, o, down⟩ := e
      rw [hx] at hfollow
      obtain ⟨hchar, hnext, hs, hwd, -, hinner⟩ := h.get hw hx
      obtain ⟨rfl, hi⟩ := hinner d.2
      obtain ⟨b', hb'⟩ := exists_head hi.1
      obtain ⟨A, hA, -⟩ := cells_alter hx nil
      have hnd : down.cells.Nodup := (nodup_append.1 (nodup_cons.1 (hA.nodup_iff.1 hnodup)).2).1
      have hleave : leave fuel m b (d :: s) = leave fuel m b' s := by
        simp [leave, hfollow, hchar, hnext, ref, hb']
      have hlook : t.look (d :: s) = down.look s := by rw [Sibs.look, hx, bind_some]
      rw [hleave, hlook]
      rcases ih hs hwd hnd hb' fun _ => hi with hl | ⟨y, r, hl, hy, hnone, hr⟩
      · exact .inl hl
      · exact .inr ⟨y, r, hl, (mem_of_get hx).2 hy, hnone, hr.below h hw hnodup hb hx hy hi⟩

end

end Sibs

open Sibs

/-- The memory holds the trie `t`, whose first node is the root. -/
structure Shape (m : Mem ο) (root : Nat) (t : Sibs ο) : Prop where
  stored : t.Stored m
  wf : t.Wf
  holds : m.Holds t.cells
  head : t.head = some root
  root : t.get 0 = some (root, none, .nil)

theorem insert_ok {root : Nat} {t : Sibs ο} (o : ο) (h : Shape m root t) (hs : s ≠ [])
    (hfuel : 256 ≤ fuel) :
    ∃ m' t' i, insert fuel m root s o = some (m', i) ∧ Shape m' root t' ∧
      Entered t.look s o t'.look i := by
  rcases leave_ok h.stored h.wf h.holds.nodup_owned h.head (fun hnil => (hs hnil).elim) hfuel with
    ⟨hleave, hlook⟩ | ⟨x, r, hleave, hx, hlook, hcont⟩
  · exact ⟨m, t, -1, by rw [insert, hleave], h, .of_present hlook⟩
  obtain ⟨n, hn⟩ : ∃ n, (Pool.getNode m).1 = n := ⟨_, rfl⟩
  obtain ⟨m1, hm1⟩ : ∃ m1, (Mem.setList (Pool.getNode m).2 x (some n)).start n (current r) = m1 :=
    ⟨_, rfl⟩
  have hinsert : insert fuel m root s o = some (branchOff o n r m1, 0) := by
    rw [insert, hleave, ← hm1, ← hn]
  have hne : ∀ z ∈ t.cells, z ≠ n := fun z hz heq => h.holds.fresh (hn ▸ heq ▸ hz)
  have hholds : m1.Holds (n :: t.cells) := by
    rw [← hm1, ← hn]
    exact h.holds.getNode.of_eq rfl rfl
  obtain ⟨u, hu, hbranch, hhead, hbeside⟩ :=
    branchOff_ok (s := r) o hholds (by simp [← hm1, Mem.thisChar, Mem.start])
    (by simp [← hm1, Mem.list, Mem.start])
  have hnode : ∀ z ∈ t.cells, (branchOff o n r m1).node z =
      (Mem.setList (Pool.getNode m).2 x (some n)).node z := by
    intro z hz
    rw [hbeside.same z hz, ← hm1, Mem.start, Pool.node_modify_ne (hne z hz)]
  obtain ⟨t', hs', hw', hhead', -, hget, hcells, hlook'⟩ := hcont (fun z hz hzx => by
      rw [hnode z hz, Mem.setList, Pool.node_modify_ne hzx, Pool.node_getNode])
    (by rw [hnode x hx, Mem.setList, Pool.node_modify_self, Pool.node_getNode, hhead]; rfl) hu
    hbranch
  exact ⟨_, t', 0, hinsert, ⟨hs', hw', hbeside.holds.perm hcells.symm, hhead'.trans h.head,
    (hget hs).trans h.root⟩, .of_absent hlook hlook'⟩

end CLangProject.LiNTrie
