import CLangProject.AbBlock
import CLangProject.Dictionary
import CLangProject.Row

/-!
# (2,4)-trees: shape and search

`Shape` is the shape of a whole tree. It follows from `Content`, which
also says between which bounds the keys of every subtree lie; `Fits` is the same
for the nodes on a path from the root. `find` ends at the leaf
at which `insert` and `delete` work, and finds there what the tree has stored.
-/

namespace CLangProject.AbTree

open List Option Function

variable {κ ο : Type}

/-! ## The entries of the leaves -/

def pair (e : κ × Cell κ ο) : Option (κ × ο) :=
  match e.2 with
  | .object (some o) => some (e.1, o)
  | _ => none

def Cell.toList : Cell κ ο → List (κ × ο)
  | object _ => []
  | node degree height key next =>
    if height = 0 then (List.range degree).filterMap fun i => pair (key i, next i)
    else (List.range degree).flatMap fun i => toList (next i)

def Block.toList (t : Node κ ο) : List (κ × ο) := t.cell.toList

/-- The entries below a node of height `n`, given its own entries. -/
def below (n : Nat) (l : List (κ × Cell κ ο)) : List (κ × ο) :=
  if n = 0 then l.filterMap pair else l.flatMap fun e => e.2.toList

variable {t u : Node κ ο} {n : Nat} {l l' : List (κ × Cell κ ο)}

theorem cell_injective (h : t.cell = u.cell) : t = u := by
  cases t
  cases u
  cases h
  rfl

theorem toList_eq_below : t.toList = below t.height t.entries := by
  unfold Block.toList Block.cell Cell.toList below
  split
  · rw [Block.entries, filterMap_map]
    rfl
  · rw [Block.entries, flatMap_map]
    rfl

theorem below_append : below n (l ++ l') = below n l ++ below n l' := by
  unfold below
  split <;> simp

theorem below_succ : below (n + 1) l = l.flatMap fun e => e.2.toList := rfl

theorem mem_below_zero {e : κ × ο} : e ∈ below 0 l ↔ (e.1, .object (some e.2)) ∈ l := by
  simp only [below, if_true, mem_filterMap]
  constructor
  · rintro ⟨⟨k, c⟩, hmem, heq⟩
    match c, heq with
    | .object (some o), heq =>
      obtain rfl := some.inj heq
      exact hmem
  · exact fun h => ⟨_, h, rfl⟩

theorem mem_entries {e : κ × Cell κ ο} : e ∈ t.entries ↔ ∃ i, i < t.degree ∧ t.entry i = e := by
  simp [Block.entries]

theorem entries_ne_nil (h : A ≤ t.degree) : t.entries ≠ [] := by
  refine ne_nil_of_length_pos ?_
  rw [Block.length_entries]
  exact lt_of_lt_of_le (by decide) h

theorem below_joint {k k' : κ} {c : Cell κ ο} :
    below n ((joint n k k', c) :: l) = below n ((k', c) :: l) := by
  cases n with
  | zero => rfl
  | succ n => rfl

theorem entries_fill {f : Frame κ ο} (h : f.index < f.block.degree) : (f.fill t).entries =
    f.block.entries.take f.index ++ (f.block.key f.index, t.cell) ::
      f.block.entries.drop (f.index + 1) := by
  have hset : (f.fill t).entries = f.block.entries.set f.index (f.block.key f.index, t.cell) := by
    rw [← Block.entries_assign]
    simp [Frame.fill, Block.assign]
  have hlen : f.index < f.block.entries.length := by simpa using h
  rw [hset, set_eq_take_append_cons_drop, if_pos hlen]

/-- The entries on the left of a path. -/
def leftOf : List (Frame κ ο) → List (κ × ο)
  | [] => []
  | f :: path => leftOf path ++ (f.block.entries.take f.index).flatMap fun e => e.2.toList

/-- The entries on the right of a path. -/
def rightOf : List (Frame κ ο) → List (κ × ο)
  | [] => []
  | f :: path => ((f.block.entries.drop (f.index + 1)).flatMap fun e => e.2.toList) ++ rightOf path

/-! ## Shape -/

variable [LinearOrder κ]

variable {path : List (Frame κ ο)} {root : Node κ ο} {k : κ} {e : κ × Cell κ ο} {c : Cell κ ο}

/-- Below a node of height `n` the heights decrease by one, all nodes have 2 to
4 entries, and a separator is above everything on its left and not above
anything on its right. -/
def Inside : Nat → Node κ ο → Prop
  | 0, t => ∀ e ∈ t.entries, ∃ o, e.2 = .object (some o)
  | n + 1, t =>
    (∀ e ∈ t.entries, ∃ u : Node κ ο, e.2 = u.cell ∧ u.height = n ∧ A ≤ u.degree ∧
      u.degree ≤ B ∧ Inside n u) ∧ t.entries.IsChain fun p q =>
      (∀ e ∈ p.2.toList, e.1 < q.1) ∧ ∀ e ∈ q.2.toList, q.1 ≤ e.1

structure Shape (t : Node κ ο) : Prop where
  degree_le : t.degree ≤ B
  two_le : 0 < t.height → 2 ≤ t.degree
  inside : Inside t.height t
  sorted : t.toList.Pairwise (·.1 < ·.1)

/-- The entries of a node of height `n` whose keys lie from `lo` up to `hi`. -/
def Content : Nat → WithBot κ → WithTop κ → List (κ × Cell κ ο) → Prop
  | 0, lo, hi, l => l.Pairwise (·.1 < ·.1) ∧ ∀ e ∈ l, Within lo hi e.1 ∧ ∃ o, e.2 = .object (some o)
  | n + 1, lo, hi, l =>
    Row (fun lo hi c => ∃ t : Node κ ο, c = t.cell ∧ t.height = n ∧ A ≤ t.degree ∧
      t.degree ≤ B ∧ Content n lo hi t.entries) lo hi l

/-- A node of height `n` below the root. -/
def Sub (n : Nat) (lo : WithBot κ) (hi : WithTop κ) (c : Cell κ ο) : Prop :=
  ∃ t : Node κ ο, c = t.cell ∧ t.height = n ∧ A ≤ t.degree ∧ t.degree ≤ B ∧
    Content n lo hi t.entries

theorem content_succ {lo : WithBot κ} {hi : WithTop κ} :
    Content (n + 1) lo hi l ↔ Row (Sub n) lo hi l := Iff.rfl

variable {lo lo' : WithBot κ} {hi hi' : WithTop κ}

theorem content_inhabits (h : Content n lo hi l) (hl : l ≠ []) : ∃ k, Within lo hi k := by
  induction n generalizing lo hi l with
  | zero =>
    obtain ⟨e, he⟩ := exists_mem_of_ne_nil l hl
    exact ⟨e.1, (h.2 e he).1⟩
  | succ n ih =>
    refine Row.inhabits ?_ h
    rintro lo hi _ ⟨t, -, -, hd, -, hc⟩
    exact ih hc (entries_ne_nil hd)

theorem sub_inhabits : Inhabits (Sub (κ := κ) (ο := ο) n) := by
  rintro lo hi _ ⟨t, -, -, hd, -, hc⟩
  exact content_inhabits hc (entries_ne_nil hd)

/-- Below a node the keys increase and lie within its bounds. -/
theorem Content.sorted (h : Content n lo hi l) :
    (below n l).Pairwise (·.1 < ·.1) ∧ ∀ e ∈ below n l, Within lo hi e.1 := by
  induction n generalizing lo hi l with
  | zero =>
    refine ⟨?_, fun e he => (h.2 _ (mem_below_zero.1 he)).1⟩
    rw [below, if_pos rfl, pairwise_filterMap]
    refine h.1.imp fun {e e'} hlt b hb b' hb' => ?_
    have hkey : ∀ {e : κ × Cell κ ο} {b : κ × ο}, pair e = some b → b.1 = e.1 := by
      rintro ⟨k, c⟩ b hb
      match c, hb with
      | .object (some o), hb =>
        obtain rfl := some.inj hb
        rfl
    rwa [hkey hb, hkey hb']
  | succ n ih =>
    refine Row.sorted (f := Cell.toList) (P := Sub n) sub_inhabits ?_ h
    rintro lo hi _ ⟨t, rfl, rfl, -, -, hc⟩
    change t.toList.Pairwise _ ∧ ∀ e ∈ t.toList, _
    rw [toList_eq_below]
    exact ih hc

theorem Sub.sorted (h : Sub n lo hi c) :
    c.toList.Pairwise (·.1 < ·.1) ∧ ∀ e ∈ c.toList, Within lo hi e.1 := by
  obtain ⟨t, rfl, rfl, -, -, hc⟩ := h
  change t.toList.Pairwise _ ∧ ∀ e ∈ t.toList, _
  rw [toList_eq_below]
  exact hc.sorted

theorem Content.inside (h : Content n lo hi t.entries) : Inside n t := by
  induction n generalizing t lo hi with
  | zero => exact fun e he => (h.2 e he).2
  | succ n ih =>
    refine ⟨fun e he => ?_, Row.separates (P := Sub n) (fun lo hi c hc => hc.sorted.2) h⟩
    obtain ⟨lo', hi', u, heq, hh, hA, hB, hc⟩ := Row.exists_of_mem h he
    exact ⟨u, heq, hh, hA, hB, ih hc⟩

/-- What holds of the whole tree between two calls. -/
structure Whole (t : Node κ ο) : Prop where
  degree_le : t.degree ≤ B
  two_le : 0 < t.height → 2 ≤ t.degree
  content : Content t.height ⊥ ⊤ t.entries

theorem Whole.sorted (h : Whole t) : t.toList.Pairwise (·.1 < ·.1) := by
  rw [toList_eq_below]
  exact h.content.sorted.1

theorem Whole.shape (h : Whole t) : Shape t := ⟨h.degree_le, h.two_le, h.content.inside, h.sorted⟩

/-! ## Joining and splitting entries -/

theorem content_join {s : κ} (h : Content n lo s l) (hl : l ≠ [])
    (h' : Content n s hi (e :: l')) : Content n lo hi (l ++ (joint n s e.1, e.2) :: l') := by
  cases n with
  | zero =>
    have hlt : ∀ a ∈ l, ∀ b ∈ e :: l', a.1 < b.1 := fun a ha b hb =>
      (h.2 a ha).1.lt.trans_le (h'.2 b hb).1.ge
    obtain ⟨k, hk⟩ := content_inhabits h hl
    obtain ⟨k', hk'⟩ := content_inhabits h' (cons_ne_nil _ _)
    refine ⟨pairwise_append.2 ⟨h.1, h'.1, hlt⟩, fun a ha => ?_⟩
    rcases mem_append.1 ha with ha | ha
    · exact ⟨⟨(h.2 a ha).1.1, (WithTop.coe_lt_coe.2 ((h.2 a ha).1.lt.trans_le hk'.ge)).trans hk'.2⟩,
        (h.2 a ha).2⟩
    · exact ⟨⟨hk.1.trans (WithBot.coe_le_coe.2 (hk.lt.le.trans (h'.2 a ha).1.ge)), (h'.2 a ha).1.2⟩,
        (h'.2 a ha).2⟩
  | succ n =>
    match l, hl with
    | p :: l, _ => exact row_append.2 ⟨h, row_head.1 h'⟩

theorem content_split (h : Content n lo hi (l ++ e :: l')) (hl : l ≠ []) :
    Content n lo e.1 l ∧ Content n e.1 hi (e :: l') := by
  cases n with
  | zero =>
    obtain ⟨hs, hs', hlt⟩ := pairwise_append.1 h.1
    refine ⟨⟨hs, fun a ha => ?_⟩, hs', fun a ha => ?_⟩
    · have hmem := h.2 a (mem_append_left _ ha)
      exact ⟨hmem.1.below (hlt a ha e mem_cons_self), hmem.2⟩
    · have hmem := h.2 a (mem_append_right _ ha)
      refine ⟨hmem.1.above ?_, hmem.2⟩
      rcases mem_cons.1 ha with rfl | ha
      · exact le_rfl
      · exact (rel_of_pairwise_cons hs' ha).le
  | succ n =>
    match l, hl with
    | p :: l, _ => exact row_append.1 h

/-- In an inner node the key of the first entry does not matter. -/
theorem content_joint {k' : κ} :
    Content n lo hi ((joint n k k', c) :: l) ↔ Content n lo hi ((k', c) :: l) := by
  cases n with
  | zero => exact Iff.rfl
  | succ n => exact row_head

/-! ## Paths -/

/-- Every node of the path is an inner node with 2 to 4 children; the node at its
end has height `n` and lies from `lo` up to `hi`. -/
def Fits : List (Frame κ ο) → Nat → WithBot κ → WithTop κ → Prop
  | [], _, lo, hi => lo = ⊥ ∧ hi = ⊤
  | f :: path, n, lo, hi => f.block.height = n + 1 ∧ f.index < f.block.degree ∧
      2 ≤ f.block.degree ∧ f.block.degree ≤ B ∧
        ∃ lo' hi', Hole (Sub n) lo' hi' (f.block.entries.take f.index) (f.block.key f.index)
          (f.block.entries.drop (f.index + 1)) lo hi ∧ Fits path (n + 1) lo' hi'

theorem plug_toList (h : Fits path n lo hi) :
    (plug t path).toList = leftOf path ++ t.toList ++ rightOf path := by
  induction path generalizing t n lo hi with
  | nil => simp [plug, leftOf, rightOf]
  | cons f path ih =>
    obtain ⟨hh, hi, -, -, lo', hi', -, hfits⟩ := h
    have hfill : (f.fill t).toList = below (n + 1) (f.fill t).entries := by
      rw [toList_eq_below]
      exact congrArg (below · _) hh
    rw [plug, ih hfits, hfill, entries_fill hi, below_succ]
    simp only [flatMap_append, flatMap_cons, leftOf, rightOf, append_assoc]
    rfl

/-- The entries beside a path are outside of the bounds at its end. -/
theorem Fits.beside (h : Fits path n lo hi) :
    (∀ e ∈ leftOf path, (e.1 : WithBot κ) < lo) ∧ ∀ e ∈ rightOf path, hi ≤ (e.1 : WithTop κ) := by
  induction path generalizing n lo hi with
  | nil => simp [leftOf, rightOf]
  | cons f path ih =>
    obtain ⟨-, -, -, -, lo', hi', hhole, hfits⟩ := h
    obtain ⟨hl, hr⟩ := ih hfits
    refine ⟨fun e he => ?_, fun e he => ?_⟩
    · rcases mem_append.1 he with he | he
      · exact (hl e he).trans_le (hhole.lo_le sub_inhabits)
      · exact hhole.left_lt sub_inhabits (fun _ _ _ hc => hc.sorted) e he
    · rcases mem_append.1 he with he | he
      · exact hhole.le_right sub_inhabits (fun _ _ _ hc => hc.sorted) e he
      · exact (hhole.le_hi sub_inhabits).trans (hr e he)

/-- A path with a node at its end that may be there. -/
theorem Fits.whole (h : Fits path t.height lo hi)
    (hc : Content t.height lo hi t.entries) (hB : t.degree ≤ B)
    (hroot : path = [] → 0 < t.height → 2 ≤ t.degree) (hA : path ≠ [] → A ≤ t.degree) :
    Whole (plug t path) := by
  induction path generalizing t lo hi with
  | nil =>
    obtain ⟨rfl, rfl⟩ := h
    exact ⟨hB, hroot rfl, hc⟩
  | cons f path ih =>
    obtain ⟨hh, hidx, h2, h4, lo', hi', hhole, hfits⟩ := h
    have hsub : Sub t.height lo hi t.cell := ⟨t, rfl, rfl, hA (cons_ne_nil _ _), hB, hc⟩
    refine ih (t := f.fill t) (by rw [show (f.fill t).height = t.height + 1 from hh]; exact hfits)
      ?_ h4
      (fun _ _ => h2) (fun _ => h2)
    rw [show (f.fill t).height = t.height + 1 from hh, content_succ, entries_fill hidx]
    exact hhole.fill_one hsub

/-- The node at the end of a path in a tree. -/
structure Stands (root : Node κ ο) (path : List (Frame κ ο)) (n : Nat) (lo : WithBot κ)
    (hi : WithTop κ) (t : Node κ ο) : Prop where
  height : t.height = n
  degree_le : t.degree ≤ B
  least : path ≠ [] → A ≤ t.degree
  content : Content n lo hi t.entries
  fits : Fits path n lo hi
  plug_eq : plug t path = root

theorem Whole.stands (h : Whole t) : Stands t [] t.height ⊥ ⊤ t :=
  ⟨rfl, h.degree_le, fun h => (h rfl).elim, h.content, ⟨rfl, rfl⟩, rfl⟩

theorem Stands.pos (h : Stands root path (n + 1) lo hi t) : 0 < t.degree := by
  have := Row.ne_nil (P := Sub n) h.content
  rw [← Block.length_entries]
  exact length_pos_of_ne_nil this

/-- One step of the descent. -/
theorem Stands.step
    (h : Stands root path (n + 1) lo hi t) (h2 : 2 ≤ t.degree) (hk : Within lo hi k) :
    ∃ i lo' hi' u, t.lower k = some i ∧ i < B ∧ t.next i = u.cell ∧ Within lo' hi' k ∧
      Stands root (⟨t, i⟩ :: path) n lo' hi' u := by
  obtain ⟨i, hlower, hlt, hlow, hup⟩ := Block.lower_ok k h.pos h.degree_le
  have hrow : Row (Sub n) lo hi (t.entries.take i ++ t.entry i :: t.entries.drop (i + 1)) := by
    rw [← Block.entries_split hlt]
    exact h.content
  obtain ⟨lo', hi', hhole, u, hu, hh, hA, hB, hc⟩ := exists_hole hrow
  refine ⟨i, lo', hi', u, hlower, hlt.trans_le h.degree_le, hu, ⟨?_, ?_⟩, hh, hB, fun _ => hA, hc,
    ⟨h.height, hlt, h2, h.degree_le, lo, hi, hhole, h.fits⟩, ?_⟩
  · rcases hhole.before with ⟨-, rfl⟩ | ⟨hpre, rfl⟩
    · exact hk.1
    · rcases hlow with rfl | hlow
      · exact (Row.ne_nil hpre rfl).elim
      · exact WithBot.coe_le_coe.2 hlow
  · rcases hhole.after with ⟨-, rfl⟩ | ⟨q, r, hpost, rfl, -⟩
    · exact hk.2
    · have hlen : (t.entries.drop (i + 1)).length = r.length + 1 := by rw [hpost, length_cons]
      rw [length_drop, Block.length_entries] at hlen
      rcases hup with hup | hup
      · omega
      · have hq : q = t.entry (i + 1) := by
          have := congrArg List.head? hpost
          rw [List.head?_drop, Block.entries_getElem? (by omega), List.head?_cons] at this
          exact (some.inj this).symm
        rw [hq]
        exact WithTop.coe_lt_coe.2 hup
  · rw [plug, ← h.plug_eq]
    congr 1
    change { t with next := update t.next i u.cell } = t
    rw [← hu]
    exact congrArg (Block.mk _ _ _) (update_eq_self i t.next)

theorem descend_leaf (hh : t.height = 0) : descend k t.cell path = some (t, path) := by
  rw [Block.cell, descend, if_neg (by rw [hh]; decide)]

theorem descend_inner {i : Nat} (hh : 0 < t.height) (hl : t.lower k = some i) (hi : i < B) :
    descend k t.cell path = descend k (t.next i) (⟨t, i⟩ :: path) := by
  rw [Block.cell, descend, if_pos hh]
  change (Block.lower t k).bind _ = _
  rw [hl, bind_some, if_pos hi]

/-- The descent ends at a block of height 0 after as many steps as the tree is
high. -/
theorem descend_ok (h : Stands root path n lo hi t)
    (h2 : 0 < n → 2 ≤ t.degree) (hk : Within lo hi k) :
    ∃ u path' lo' hi', descend k t.cell path = some (u, path') ∧ path'.length = path.length + n ∧
      Within lo' hi' k ∧ Stands root path' 0 lo' hi' u := by
  induction n generalizing t path lo hi with
  | zero =>
    exact ⟨t, path, lo, hi, descend_leaf h.height, rfl, hk, h⟩
  | succ n ih =>
    obtain ⟨i, lo', hi', u, hlower, hi, hu, hk', hs⟩ := h.step (h2 (Nat.succ_pos n)) hk
    obtain ⟨v, path', lo'', hi'', hdesc, hlen, hk'', hs'⟩ :=
      ih hs (fun _ => hs.least (cons_ne_nil _ _)) hk'
    refine ⟨v, path', lo'', hi'', ?_, by rw [hlen, length_cons]; omega, hk'', hs'⟩
    rw [descend_inner (by rw [h.height]; omega) hlower hi, hu]
    exact hdesc

/-- `find` and the descent of `insert` and `delete` end at the same leaf. -/
theorem findFrom_eq {q : κ} (c : Cell κ ο) (path : List (Frame κ ο)) :
    findFrom q c = (descend q c path).bind fun (u, _) => (u.lower q).bind (findEntry u q) := by
  induction c generalizing path with
  | object o => rfl
  | node degree height key next ih =>
    rw [findFrom, descend]
    by_cases hh : height > 0
    · simp only [if_pos hh]
      cases hl : Block.lower ⟨degree, height, key, next⟩ q with
      | none => rfl
      | some i =>
        simp only [bind_some]
        split
        · exact ih i _
        · rfl
    · simp only [if_neg hh, bind_some]

theorem Content.key_lt (hc : Content 0 lo hi t.entries) {i j : Nat} (hij : i < j)
    (hj : j < t.degree) :
    t.key i < t.key j := by
  have := pairwise_iff_getElem.1 hc.1 i j (by simp; omega) (by simpa using hj) hij
  simpa [Block.entries, Block.entry] using this

/-- The entry at which the search in a leaf ends is the one with the key, if
there is one. -/
theorem findEntry_ok (q : κ) (hc : Content 0 lo hi t.entries) (hpos : 0 < t.degree)
    (hB : t.degree ≤ B) : ∃ r, (t.lower q).bind (findEntry t q) = some r ∧
      ∀ o, r = some o ↔ (q, o) ∈ below 0 t.entries := by
  obtain ⟨i, hlower, hlt, hlow, hup⟩ := Block.lower_ok q hpos hB
  obtain ⟨o, ho⟩ := (hc.2 _ (mem_entries.2 ⟨i, hlt, rfl⟩)).2
  have ho : t.next i = .object (some o) := ho
  have hfound : ∀ j, j < t.degree → t.key j = q → j = i := fun j hj hq => by
    rcases lt_trichotomy j i with hji | hji | hji
    · have := hc.key_lt hji hlt
      rcases hlow with rfl | hlow
      · omega
      · exact absurd (hq ▸ this) (not_lt.2 hlow)
    · exact hji
    · rcases hup with hup | hup
      · omega
      · rcases Nat.eq_or_lt_of_le (Nat.succ_le_of_lt hji) with rfl | hlt'
        · exact absurd hup (not_lt.2 hq.le)
        · exact absurd (hup.trans (hc.key_lt hlt' hj)) (not_lt.2 hq.le)
  have hread : read t.key i = some (t.key i) ∧ read t.next i = some (t.next i) :=
    ⟨read_eq (hlt.trans_le hB), read_eq (hlt.trans_le hB)⟩
  by_cases hq : t.key i = q
  · refine ⟨some o, by simp [hlower, findEntry, hread, hq, ho, Cell.asObject], fun x => ?_⟩
    rw [mem_below_zero, mem_entries]
    constructor
    · rintro hx
      obtain rfl := some.inj hx
      exact ⟨i, hlt, by rw [Block.entry, hq, ho]⟩
    · rintro ⟨j, hj, he⟩
      obtain rfl := hfound j hj (congrArg Prod.fst he)
      have := (congrArg Prod.snd he).symm.trans ho
      simpa [eq_comm] using this
  · refine ⟨none, by simp [hlower, findEntry, hread, hq], fun x => iff_of_false (by simp) ?_⟩
    rw [mem_below_zero, mem_entries]
    rintro ⟨j, hj, he⟩
    obtain rfl := hfound j hj (congrArg Prod.fst he)
    exact hq (congrArg Prod.fst he)

/-- A key within the bounds at the end of a path is stored there or nowhere. -/
theorem Stands.mem_iff {o : ο} (h : Stands root path n lo hi t) (hk : Within lo hi k) :
    (k, o) ∈ root.toList ↔ (k, o) ∈ below n t.entries := by
  obtain ⟨hl, hr⟩ := h.fits.beside
  rw [← h.plug_eq, plug_toList h.fits, toList_eq_below, h.height]
  simp only [mem_append]
  constructor
  · rintro ((hmem | hmem) | hmem)
    · exact absurd (hl _ hmem) (not_lt.2 hk.1)
    · exact hmem
    · exact absurd hk.2 (not_lt.2 (hr _ hmem))
  · exact fun hmem => .inl (.inr hmem)

/-- `find` returns what is stored, unless the tree is empty. -/
theorem find_ok (q : κ) (h : Whole t) (hne : t.height = 0 → 0 < t.degree) :
    ∃ r, find t q = some r ∧ ∀ o, r = some o ↔ (q, o) ∈ t.toList := by
  obtain ⟨u, path, lo, hi, hdesc, hlen, hk, hs⟩ := descend_ok h.stands h.two_le (within_bot_top q)
  have hpos : 0 < u.degree := by
    by_cases hp : path = []
    · subst hp
      have hroot : u = t := hs.plug_eq
      rw [hroot] at hs ⊢
      exact hne hs.height
    · exact lt_of_lt_of_le (by decide) (hs.least hp)
  obtain ⟨r, hr, hmem⟩ := findEntry_ok q hs.content hpos hs.degree_le
  refine ⟨r, ?_, fun o => (hmem o).trans (hs.mem_iff hk).symm⟩
  rw [find, findFrom_eq t.cell [], hdesc, bind_some]
  exact hr

end CLangProject.AbTree
