import CLangProject.AbInsert

/-!
# (2,4)-trees: keys in decreasing order

When every new key is smaller than all keys of the tree, only the nodes on the
leftmost path change. A node that is split leaves a node with two children behind,
which no later call touches. Such a tree (`Spine`) is hardly more than binary, so
that it is high for the number of its keys.
-/

namespace CLangProject.AbTree

open List Option

variable {κ ο : Type} {n : Nat} {l : List (κ × Cell κ ο)} {t low new fresh : Node κ ο}
  {path : List (Frame κ ο)}

/-- Entries of a node of height `n` such that, off the leftmost path, nodes of
height `m` have at most `2 ^ (m + 1)` entries below them. -/
def Spine : Nat → List (κ × Cell κ ο) → Prop
  | 0, _ => True
  | n + 1, l => ∃ k u r, l = (k, Block.cell u) :: r ∧ Spine n u.entries ∧
      ∀ e ∈ r, e.2.toList.length ≤ 2 ^ (n + 1)

/-- The path is the leftmost one; its end has height `n`. -/
def LeftPath : List (Frame κ ο) → Nat → Prop
  | [], _ => True
  | f :: path, n => f.index = 0 ∧ (∀ e ∈ f.block.entries.drop 1, e.2.toList.length ≤ 2 ^ (n + 1)) ∧
      LeftPath path (n + 1)

theorem length_below_le {m : Nat} (h : ∀ e ∈ l, e.2.toList.length ≤ m) :
    (below (n + 1) l).length ≤ l.length * m := by
  rw [below_succ, length_flatMap]
  have := sum_le_card_nsmul (l.map fun e => e.2.toList.length) m fun x hx => by
    obtain ⟨e, he, rfl⟩ := mem_map.1 hx
    exact h e he
  simpa using this

theorem Splits.spine (h : Splits n l low new) (hl : Spine n l) :
    Spine n low.entries ∧ new.toList.length ≤ 2 ^ (n + 1) := by
  cases n with
  | zero =>
    refine ⟨trivial, ?_⟩
    rw [toList_eq_below, h.new_height]
    have := (length_filterMap_le pair new.entries)
    rw [Block.length_entries, h.new_degree] at this
    exact this
  | succ n =>
    obtain ⟨k, u, r, rfl, hu, hr⟩ := hl
    refine ⟨⟨k, u, r.take 2, h.low_entries, hu, fun e he => hr e (mem_of_mem_take he)⟩, ?_⟩
    have hnew : ∀ e ∈ new.entries, e.2.toList.length ≤ 2 ^ (n + 1) := fun e he => by
      rw [h.new_entries] at he
      exact hr e (mem_of_mem_drop he)
    have := length_below_le (n := n) hnew
    rw [Block.length_entries, h.new_degree] at this
    rw [toList_eq_below, h.new_height]
    exact this.trans (by omega)

section Order

variable [LinearOrder κ] {f : Frame κ ο} {k : κ} {lo : WithBot κ} {hi : WithTop κ}

theorem plug_spine (hfits : Fits path n lo hi) (hpath : LeftPath path n) (hh : t.height = n)
    (ht : Spine n t.entries) : Spine (plug t path).height (plug t path).entries := by
  induction path generalizing t n lo hi with
  | nil => rwa [plug, hh]
  | cons f path ih =>
    obtain ⟨hfh, hidx, -, -, lo', hi', -, hfits'⟩ := hfits
    obtain ⟨h0, hlight, hpath'⟩ := hpath
    refine ih hfits' hpath' hfh ⟨f.block.key 0, t, f.block.entries.drop 1, ?_, ht, hlight⟩
    rw [entries_fill hidx, h0]
    rfl

theorem Grown.spine {t' : Node κ ο} (h : Grown n l path t') (hfits : Fits path n lo hi)
    (hpath : LeftPath path n) (hl : Spine n l) : Spine t'.height t'.entries := by
  induction h generalizing lo hi with
  | room t hh he =>
    subst he
    exact plug_spine hfits hpath hh hl
  | up hs _ ih =>
    obtain ⟨-, hidx, -, -, lo', hi', -, hfits'⟩ := hfits
    obtain ⟨h0, hlight, hpath'⟩ := hpath
    obtain ⟨hlow, hnew⟩ := hs.spine hl
    refine ih hfits' hpath' ⟨_, _, _, (widened_fill hidx _).trans (by rw [h0]; rfl), hlow, ?_⟩
    · intro e he
      rcases mem_cons.1 he with rfl | he
      · exact hnew
      · exact hlight e he
  | root low' k hs he hhl hh hrow =>
    obtain ⟨hlow, hnew⟩ := hs.spine hl
    rw [hh, hrow]
    refine ⟨k, low', _, rfl, he ▸ hlow, fun e hmem => ?_⟩
    obtain rfl := mem_singleton.1 hmem
    exact hnew

theorem Sub.toList_ne_nil {c : Cell κ ο} (h : Sub n lo hi c) : c.toList ≠ [] := by
  induction n generalizing lo hi c with
  | zero =>
    obtain ⟨t, rfl, hh, hA, -, hc⟩ := h
    obtain ⟨e, he⟩ := exists_mem_of_ne_nil _ (entries_ne_nil hA)
    obtain ⟨o, ho⟩ := (hc.2 e he).2
    refine ne_nil_of_mem (a := (e.1, o)) ?_
    change (e.1, o) ∈ t.toList
    rw [toList_eq_below, hh]
    exact mem_below_zero.2 (ho ▸ he)
  | succ n ih =>
    obtain ⟨t, rfl, hh, hA, -, hc⟩ := h
    obtain ⟨e, he⟩ := exists_mem_of_ne_nil _ (entries_ne_nil hA)
    obtain ⟨lo', hi', hsub⟩ := Row.exists_of_mem (P := Sub n) hc he
    obtain ⟨x, hx⟩ := exists_mem_of_ne_nil _ (ih hsub)
    refine ne_nil_of_mem (a := x) ?_
    change x ∈ t.toList
    rw [toList_eq_below, hh, below_succ]
    exact mem_flatMap.2 ⟨e, he, hx⟩

/-- A key below all others is below the separators. -/
theorem Content.lt_key {i : Nat} (hc : Content (n + 1) lo hi t.entries) (hh : t.height = n + 1)
    (hlt : ∀ e ∈ t.toList, k < e.1) (hi0 : i + 1 < t.degree) : k < t.key (i + 1) := by
  have hrow := hc
  rw [Block.entries_split (show i < t.degree by omega), Block.drop_entries hi0] at hrow
  obtain ⟨lo', hi', hhole, hsub⟩ := exists_hole (P := Sub n) hrow
  obtain ⟨rfl, -⟩ := hhole.right
  obtain ⟨e, he⟩ := exists_mem_of_ne_nil _ hsub.toList_ne_nil
  have hmem : e ∈ t.toList := by
    rw [toList_eq_below, hh, below_succ]
    exact mem_flatMap.2 ⟨t.entry i, mem_entries.2 ⟨i, by omega, rfl⟩, he⟩
  exact (hlt e hmem).trans (hsub.sorted.2 e he).lt

/-- The descent of a key below all others follows the leftmost path. -/
theorem descend_left {root : Node κ ο} (h : Stands root path n lo hi t) (h2 : 0 < n → 2 ≤ t.degree)
    (hk : Within lo hi k) (hlt : ∀ e ∈ t.toList, k < e.1) (hpath : LeftPath path n)
    (hspine : Spine n t.entries) :
    ∃ u path', descend k t.cell path = some (u, path') ∧ LeftPath path' 0 := by
  induction n generalizing t path lo hi with
  | zero => exact ⟨t, path, descend_leaf h.height, hpath⟩
  | succ n ih =>
    obtain ⟨i, lo', hi', u, hlower, hi, hu, hk', hs⟩ := h.step (h2 (Nat.succ_pos n)) hk
    obtain ⟨i', hlower', hlt', hlow, -⟩ := Block.lower_ok k h.pos h.degree_le
    obtain rfl : i' = i := some.inj (hlower'.symm.trans hlower)
    have hi0 : i' = 0 := by
      rcases hlow with h0 | hle
      · exact h0
      · by_contra hne
        obtain ⟨j, rfl⟩ := Nat.exists_eq_succ_of_ne_zero hne
        exact absurd (h.content.lt_key h.height hlt hlt') (not_lt.2 hle)
    subst hi0
    obtain ⟨k0, u', r, hentries, hspine', hlight⟩ := hspine
    have hcons := (Block.entries_cons h.pos).symm.trans hentries
    obtain rfl : u = u' :=
      cell_injective (hu.symm.trans (congrArg Prod.snd (List.cons.inj hcons).1))
    have hltu : ∀ e ∈ u.toList, k < e.1 := fun e he => by
      refine hlt e ?_
      rw [toList_eq_below, h.height, below_succ, hentries, flatMap_cons]
      exact mem_append_left _ he
    obtain ⟨v, path', hdesc, hleft⟩ := ih hs (fun _ => hs.least (cons_ne_nil _ _)) hk' hltu
      ⟨rfl, (List.cons.inj hcons).2 ▸ hlight, hpath⟩ hspine'
    refine ⟨v, path', ?_, hleft⟩
    rw [descend_inner (by rw [h.height]; omega) hlower hi, hu]
    exact hdesc

/-- The number of entries is small for the height. -/
theorem spine_length (hc : Content n lo hi l) (hl : l.length ≤ B) (hs : Spine n l) :
    (below n l).length + 2 ≤ 3 * 2 ^ (n + 1) := by
  have hl : l.length ≤ 4 := hl
  induction n generalizing l lo hi with
  | zero =>
    have : (below 0 l).length ≤ l.length := length_filterMap_le pair l
    omega
  | succ n ih =>
    obtain ⟨k, u, r, rfl, hu, hr⟩ := hs
    obtain ⟨lo', hi', u', hcell, hh, -, hB, hcu⟩ := Row.exists_of_mem (P := Sub n) hc mem_cons_self
    obtain rfl := cell_injective hcell
    have hfirst := ih hcu (by simpa using hB) hu (by simpa using hB)
    have hrest := length_below_le (n := n) hr
    have hlen : r.length ≤ 3 := by
      rw [length_cons] at hl
      omega
    have hmul : r.length * 2 ^ (n + 1) ≤ 3 * 2 ^ (n + 1) := Nat.mul_le_mul_right _ hlen
    have happ : (below (n + 1) ((k, u.cell) :: r)).length =
        (below n u.entries).length + (below (n + 1) r).length := by
      rw [below_succ, flatMap_cons, length_append, ← below_succ (n := n), ← hh, ← toList_eq_below]
      rfl
    rw [happ, pow_succ]
    omega

/-- A call with a key below all others. -/
theorem insert_spine (fresh : Node κ ο) (h : Whole t) (hs : Spine t.height t.entries)
    (hh : t.height ≤ nodeStack) (hlt : ∀ e ∈ t.toList, k < e.1) (o : ο) :
      ∃ t', insert fresh t k o = some (t', 0) ∧ Whole t' ∧ Spine t'.height t'.entries ∧
        t'.toList.Perm ((k, o) :: t.toList) := by
  by_cases hempty : t.height = 0 ∧ t.degree = 0
  · obtain ⟨t', ht', hh', hw, hp⟩ := insert_empty fresh hempty.1 hempty.2 k o
    exact ⟨t', ht', hw, hh' ▸ trivial, hp⟩
  · obtain ⟨u, path, lo, hi, hdesc, hk, hst⟩ := descendStack_ok h k hh
    obtain ⟨u', path', hdesc', hleft⟩ :=
      descend_left h.stands h.two_le (within_bot_top k) hlt trivial hs
    have habs : ∀ x, (k, x) ∉ t.toList := fun x hx => lt_irrefl _ (hlt _ hx)
    obtain ⟨i, t', ht', hw, hp, hg⟩ := insert_grown fresh hempty hdesc hk hst habs o
    obtain rfl : path' = path :=
      congrArg Prod.snd (some.inj (hdesc'.symm.trans (descend_of_descendStack hdesc)))
    exact ⟨t', ht', hw, hg.spine hst.fits hleft trivial, hp⟩

end Order

end CLangProject.AbTree
