import CLangProject.AbInsert

/-!
# (2,4)-trees: deletion

A node that has lost an entry is repaired together with a neighbour: the entries
of both nodes, read as one list, are either cut at another place or become one
node. In an inner node the key between them is the separator in the parent
(`joint`). `Repairs` is what the four repairs have in common, and the loop of
`delete` only uses that.
-/

namespace CLangProject.AbTree

open List Option Function

variable {κ ο : Type} {t src upper neighbor : Node κ ο} {n i j curr rest : Nat} {s : κ}
    {l : List (κ × Cell κ ο)}

/-! ## The loops -/

theorem appendEntries_ok (src : Node κ ο) (rest : Nat) (hi : i + rest < B) (hj : j + rest ≤ B) :
    ∃ t', appendEntries src rest j i t = some t' ∧ t'.height = t.height ∧
      t'.degree = i + rest + 1 ∧ ∀ m, t'.entry m =
        if i < m ∧ m ≤ i + rest then src.entry (j + (m - i - 1)) else t.entry m := by
  induction rest generalizing t i j with
  | zero => exact ⟨_, rfl, rfl, rfl, fun m => by rw [if_neg (by omega)]; rfl⟩
  | succ rest ih =>
    obtain ⟨t', ht', hh, hd, he⟩ :=
      ih (t := t.assign (i + 1) (src.entry j)) (i := i + 1) (j := j + 1) (by omega) (by omega)
    have hcopy : t.copy (i + 1) src j = some (t.assign (i + 1) (src.entry j)) :=
      Block.copy_eq (by omega) (by omega)
    refine ⟨t', by simpa [appendEntries, hcopy] using ht', hh, by omega, fun m => ?_⟩
    rw [he, Block.entry_assign, update_apply]
    split_ifs <;> first | rfl | omega | (congr 1; omega)

theorem absorb_ok (hpos : 0 < src.degree) (hB : t.degree + src.degree ≤ B) :
    ∃ t', absorb t src n s = some t' ∧ t'.height = t.height ∧
      t'.degree = t.degree + src.degree ∧ t'.entries =
        t.entries ++ (joint n s (src.key 0), src.next 0) :: src.entries.drop 1 := by
  obtain ⟨t', ht', hh, hd, he⟩ := appendEntries_ok (i := t.degree) (j := 1)
    (t := t.assign t.degree (joint n s (src.key 0), src.next 0)) src (src.degree - 1)
    (by omega) (by omega)
  refine ⟨t', ?_, hh, by omega, ?_⟩
  · have hread : read src.key 0 = some (src.key 0) ∧ read src.next 0 = some (src.next 0) :=
      ⟨read_eq (by decide), read_eq (by decide)⟩
    have hput : ∀ k, t.put t.degree k (src.next 0) = some (t.assign t.degree (k, src.next 0)) :=
      fun k => Block.put_eq (by omega)
    simpa [absorb, hread, hput] using ht'
  · refine ext_getElem (by simp; omega) fun m h1 h2 => ?_
    have hm : m < t.degree + src.degree := by simp at h1; omega
    simp only [Block.entries, getElem_map, getElem_range, he, Block.entry_assign,
      update_apply, getElem_append, length_map, length_range, getElem_cons, getElem_drop]
    split_ifs <;> first | rfl | omega

variable {p : Cell κ ο} {k : κ}

theorem push_ok (hd : t.degree < B) : ∃ t', push t k p = some t' ∧
    t'.height = t.height ∧ t'.degree = t.degree + 1 ∧ t'.entries = t.entries ++ [(k, p)] := by
  refine ⟨{ t.assign t.degree (k, p) with degree := t.degree + 1 }, by simp [push, Block.put_eq hd],
    rfl, rfl, ?_⟩
  change (List.range (t.degree + 1)).map (t.assign t.degree (k, p)).entry = _
  rw [Block.entry_assign, Block.map_range_update, range_succ, map_append]
  simp [Block.entries]

theorem popFront_ok (hd : 2 ≤ t.degree) (hB : t.degree ≤ B) : ∃ t', popFront t n = some t' ∧
    t'.height = t.height ∧ t'.degree = t.degree - 1 ∧
      t'.entries = (joint n (t.key 0) (t.key 1), t.next 1) :: t.entries.drop 2 := by
  obtain ⟨t', ht', -, hh, he⟩ := Block.closeGap_ok (i := 1)
    (t := t.assign 0 (joint n (t.key 0) (t.key 1), t.next 1))
    (show 1 + (t.degree - 2) < B by omega)
  refine ⟨{ t' with degree := t.degree - 1 }, ?_, hh, rfl, ?_⟩
  · simp [popFront, read_eq (show 0 < B by decide), read_eq (show 1 < B by decide),
      Block.put_eq (show 0 < B by decide), ht']
  · change (List.range (t.degree - 1)).map t'.entry = _
    refine ext_getElem (by simp; omega) fun m h1 h2 => ?_
    have hm : m < t.degree - 1 := by simpa using h1
    simp only [Block.entries, getElem_map, getElem_range, he, Block.entry_assign,
      update_apply, getElem_cons, getElem_drop]
    split_ifs <;> first | rfl | omega | contradiction | exact congrArg t.entry (by omega)

theorem pushFront_ok (hd : t.degree = 1) : ∃ t', pushFront t s k p = some t' ∧
    t'.height = t.height ∧ t'.degree = 2 ∧
      t'.entries = [(joint t.height (t.key 0) k, p), (joint t.height s (t.key 0), t.next 0)] := by
  refine ⟨{ (t.assign 1 (joint t.height s (t.key 0), t.next 0)).assign 0
      (joint t.height (t.key 0) k, p) with degree := 2 }, ?_, rfl, rfl, ?_⟩
  · simp [pushFront, hd, shiftUp, read_eq (show 0 < B by decide),
      Block.put_eq (show 0 < B by decide), Block.put_eq (show 1 < B by decide), Block.key_assign_ne]
  · change (List.range 2).map (Block.entry ((t.assign 1 _).assign 0 _)) = _
    simp [Block.entry_assign, range_succ]

/-! ## The four repairs on the arrays -/

theorem set_set_succ {α : Type} {l : List α} (h : i + 1 < l.length) (a b : α) :
    (l.set i a).set (i + 1) b = l.take i ++ a :: b :: l.drop (i + 2) := by
  rw [set_eq_take_append_cons_drop, if_pos (by simpa using h), take_set,
    drop_set_of_lt (by omega), set_eq_take_append_cons_drop, if_pos (by simp; omega)]
  simp [take_take]

section

variable (hc : curr + 1 < upper.degree) (hu : upper.degree ≤ B)
include hc hu

theorem shareRight_eq (hd : t.degree < B) (hn : 2 ≤ neighbor.degree) (hn' : neighbor.degree ≤ B) :
    ∃ t' n' upper' : Node κ ο, shareRight upper t neighbor curr = some upper' ∧
      t'.height = t.height ∧ t'.degree = t.degree + 1 ∧ n'.height = neighbor.height ∧
      n'.degree = neighbor.degree - 1 ∧ upper'.height = upper.height ∧
      upper'.degree = upper.degree ∧
      t'.entries = t.entries ++ [(joint t.height (upper.key (curr + 1)) (neighbor.key 0),
      neighbor.next 0)] ∧ n'.entries = (joint t.height (neighbor.key 0) (neighbor.key 1),
        neighbor.next 1) :: neighbor.entries.drop 2 ∧
      upper'.entries = upper.entries.take curr ++ (upper.key curr, t'.cell) ::
        (neighbor.key 1, n'.cell) :: upper.entries.drop (curr + 2) := by
  obtain ⟨t', ht', hh, hd', he⟩ :=
    push_ok (k := joint t.height (upper.key (curr + 1)) (neighbor.key 0))
    (p := neighbor.next 0) hd
  obtain ⟨n', hpop, hhn, hdn, hen⟩ := popFront_ok (n := t.height) hn hn'
  refine ⟨t', n', (upper.assign curr (upper.key curr, t'.cell)).assign (curr + 1)
    (neighbor.key 1, n'.cell), ?_, hh, hd', hhn, hdn, rfl, rfl, he, hen, ?_⟩
  · simp [shareRight, read_eq (show curr + 1 < B by omega), read_eq (show 0 < B by decide),
      read_eq (show 1 < B by decide), ht', hh, hpop, Block.setNext_eq (show curr < B by omega),
      Block.put_eq (show curr + 1 < B by omega)]
  · rw [Block.entries_assign, Block.entries_assign, set_set_succ (by simpa using hc)]

theorem shareLeft_eq (hd : t.degree = 1) (hn : 0 < neighbor.degree) (hn' : neighbor.degree ≤ B) :
    ∃ t' n' upper' : Node κ ο, shareLeft upper t neighbor (curr + 1) = some upper' ∧
      t'.height = t.height ∧ t'.degree = 2 ∧ n'.height = neighbor.height ∧
      n'.degree = neighbor.degree - 1 ∧ upper'.height = upper.height ∧
      upper'.degree = upper.degree ∧
      t'.entries = [(joint t.height (t.key 0) (neighbor.key (neighbor.degree - 1)),
        neighbor.next (neighbor.degree - 1)), (joint t.height (upper.key (curr + 1)) (t.key 0),
          t.next 0)] ∧
      n'.entries = neighbor.entries.take (neighbor.degree - 1) ∧
      upper'.entries = upper.entries.take curr ++ (upper.key curr, n'.cell) ::
        (neighbor.key (neighbor.degree - 1), t'.cell) :: upper.entries.drop (curr + 2) := by
  obtain ⟨t', ht', hh, hd', he⟩ := pushFront_ok (s := upper.key (curr + 1))
    (k := neighbor.key (neighbor.degree - 1)) (p := neighbor.next (neighbor.degree - 1)) hd
  let n' : Node κ ο := { neighbor with degree := neighbor.degree - 1 }
  have hlast : neighbor.degree - 1 < B := by omega
  refine ⟨t', n', (upper.assign curr (upper.key curr, n'.cell)).assign (curr + 1)
    (neighbor.key (neighbor.degree - 1), t'.cell), ?_, hh, hd', rfl, rfl, rfl, rfl, he, ?_, ?_⟩
  · simp [shareLeft, read_eq (show curr + 1 < B by omega), read_eq hlast, ht',
      Block.setNext_eq (show curr < B by omega), Block.put_eq (show curr + 1 < B by omega), n']
  · change (List.range (neighbor.degree - 1)).map neighbor.entry = _
    rw [Block.entries, ← map_take, take_range, Nat.min_eq_left (by omega)]
  · rw [Block.entries_assign, Block.entries_assign, set_set_succ (by simpa using hc)]

theorem joinRight_eq (hn : 0 < neighbor.degree) (hB : t.degree + neighbor.degree ≤ B) :
    ∃ t' upper' : Node κ ο, joinRight upper t neighbor curr = some upper' ∧
      t'.height = t.height ∧ t'.degree = t.degree + neighbor.degree ∧
      upper'.height = upper.height ∧ upper'.degree = upper.degree - 1 ∧
      t'.entries = t.entries ++ (joint t.height (upper.key (curr + 1)) (neighbor.key 0),
        neighbor.next 0) :: neighbor.entries.drop 1 ∧
      upper'.entries = upper.entries.take curr ++ (upper.key curr, t'.cell) ::
        upper.entries.drop (curr + 2) := by
  obtain ⟨t', ht', hh, hd, he⟩ := absorb_ok (n := t.height) (s := upper.key (curr + 1)) hn hB
  obtain ⟨upper', hup, hhu, hdu, heu⟩ :=
    Block.removeAt_ok (t := upper.assign curr (upper.key curr, t'.cell)) (i := curr + 1) hc hu
  refine ⟨t', upper', ?_, hh, hd, hhu, hdu, he, ?_⟩
  · simp [joinRight, read_eq (show curr + 1 < B by omega), ht',
      Block.setNext_eq (show curr < B by omega), hup]
  · have hlen : curr < upper.entries.length := by simp; omega
    rw [heu, Block.entries_assign, take_set, drop_set_of_lt (by omega),
      set_eq_take_append_cons_drop, if_pos (by simp; omega)]
    simp [take_take]

end

theorem joinLeft_eq (hc : curr + 2 = upper.degree) (hu : upper.degree ≤ B) (hd : 0 < t.degree)
    (hB : neighbor.degree + t.degree ≤ B) :
    ∃ n' upper' : Node κ ο, joinLeft upper t neighbor (curr + 1) = some upper' ∧
      n'.height = neighbor.height ∧ n'.degree = neighbor.degree + t.degree ∧
      upper'.height = upper.height ∧ upper'.degree = upper.degree - 1 ∧
      n'.entries = neighbor.entries ++ (joint t.height (upper.key (curr + 1)) (t.key 0),
        t.next 0) :: t.entries.drop 1 ∧
      upper'.entries = upper.entries.take curr ++ [(upper.key curr, n'.cell)] := by
  obtain ⟨n', hn', hh, hdn, he⟩ := absorb_ok (n := t.height) (s := upper.key (curr + 1)) hd hB
  refine ⟨n', { upper.assign curr (upper.key curr, n'.cell) with degree := upper.degree - 1 }, ?_,
    hh, hdn, rfl, rfl, he, ?_⟩
  · simp [joinLeft, read_eq (show curr + 1 < B by omega), hn',
      Block.setNext_eq (show curr < B by omega)]
  · change (List.range (upper.degree - 1)).map (upper.assign curr (upper.key curr, n'.cell)).entry =
      _
    rw [Block.entry_assign, Block.map_range_update, ← hc, show curr + 2 - 1 = curr + 1 by omega,
      range_succ, map_append, Block.entries, ← map_take, take_range, Nat.min_eq_left (by omega)]
    simp

/-! ## Repairs in the tree -/

theorem below_one {pre post : List (κ × Cell κ ο)} : below (n + 1) (pre ++ (s, t.cell) :: post) =
      below (n + 1) pre ++ (t.toList ++ below (n + 1) post) := by
  simp only [below_succ, flatMap_append, flatMap_cons]
  rfl

theorem below_cons : below (n + 1) ((s, t.cell) :: l) = t.toList ++ below (n + 1) l := rfl

section Order

variable [LinearOrder κ] {f : Frame κ ο} {path : List (Frame κ ο)} {lo lo' : WithBot κ}
  {hi hi' : WithTop κ}

/-- `upper` is the node of `f` after a repair of its child `t`, which is too
small: it may stand where the node of `f` stood, and it has the same entries
below it as that node with `t` in its place. -/
structure Repairs (f : Frame κ ο) (t : Node κ ο) (n : Nat) (lo : WithBot κ) (hi : WithTop κ)
    (upper : Node κ ο) : Prop where
  height : upper.height = n + 1
  row : Row (Sub n) lo hi upper.entries
  list : below (n + 1) upper.entries = below (n + 1) (f.block.entries.take f.index) ++ t.toList ++
      below (n + 1) (f.block.entries.drop (f.index + 1))

/-- A repair with a neighbour: it gives an entry away (`share`) if it can spare one, and
otherwise the two nodes become one (`join`). -/
structure Mends (f : Frame κ ο) (t : Node κ ο) (n : Nat) (lo : WithBot κ) (hi : WithTop κ)
    (neighbor : Node κ ο) (share join : Option (Node κ ο)) : Prop where
  share : A < neighbor.degree → ∃ upper, share = some upper ∧ upper.degree = f.block.degree ∧
    Repairs f t n lo hi upper
  join : ¬ A < neighbor.degree → ∃ upper, join = some upper ∧ upper.degree = f.block.degree - 1 ∧
    Repairs f t n lo hi upper

section Upper

variable {pre post es : List (κ × Cell κ ο)} {a b : Node κ ο} {k k' : κ} {c : Cell κ ο}

section

variable (hhole : Hole (Sub n) lo' hi' pre s post lo hi) (hhu : upper.height = n + 1)
include hhole hhu

/-- The entries of both nodes, now in the node `a`. -/
theorem Repairs.one (heu : upper.entries = pre ++ (s, a.cell) :: post) (ha : a.height = n)
    (hda : 2 ≤ a.degree ∧ a.degree ≤ 4) (hc : Content n lo hi a.entries)
    (hlist : below (n + 1) pre ++ (below n a.entries ++ below (n + 1) post) =
      below (n + 1) (f.block.entries.take f.index) ++ t.toList ++
        below (n + 1) (f.block.entries.drop (f.index + 1))) : Repairs f t n lo' hi' upper := by
  refine ⟨hhu, heu ▸ hhole.fill_one ⟨a, rfl, ha, hda.1, hda.2, hc⟩, ?_⟩
  rw [heu, below_one, toList_eq_below, ha, hlist]

/-- The entries of both nodes, cut before the entry that is the first one of `b` now. -/
theorem Repairs.two (heu : upper.entries = pre ++ (s, a.cell) :: (k, b.cell) :: post)
    (ha : a.height = n) (hda : 2 ≤ a.degree ∧ a.degree ≤ 4) (hb : b.height = n)
    (hdb : 2 ≤ b.degree ∧ b.degree ≤ 4) (heb : b.entries = (joint n k' k, c) :: es)
    (hc : Content n lo hi (a.entries ++ (k, c) :: es))
      (hlist : below (n + 1) pre ++ (below n (a.entries ++ (k, c) :: es) ++ below (n + 1) post) =
      below (n + 1) (f.block.entries.take f.index) ++ t.toList ++
        below (n + 1) (f.block.entries.drop (f.index + 1))) : Repairs f t n lo' hi' upper := by
  obtain ⟨hca, hcb⟩ := content_split hc (entries_ne_nil hda.1)
  have hsuba : Sub n lo k a.cell := ⟨a, rfl, ha, hda.1, hda.2, hca⟩
  have hsubb : Sub n k hi b.cell := ⟨b, rfl, hb, hdb.1, hdb.2, heb ▸ content_joint.2 hcb⟩
  refine ⟨hhu, ?_, ?_⟩
  · rw [heu]
    simpa using hhole.fill (row_cons_cons.2 ⟨hsuba, row_singleton.2 hsubb⟩)
  · rw [heu, below_one, below_cons, toList_eq_below, toList_eq_below, ha, hb, heb,
      below_joint, ← hlist, below_append, append_assoc (below n a.entries)]

end

end Upper

/-- A child on the right of the hole. -/
theorem right_neighbor (hhole : Hole (Sub n) lo' hi' (f.block.entries.take f.index)
    (f.block.key f.index) (f.block.entries.drop (f.index + 1)) lo hi)
    (hlt : f.index + 1 < f.block.degree) (hB : f.block.degree ≤ B) :
    ∃ neighbor hi'', f.block.child (f.index + 1) = some neighbor ∧
      hi = f.block.key (f.index + 1) ∧ neighbor.height = n ∧ A ≤ neighbor.degree ∧
        neighbor.degree ≤ B ∧ Content n (f.block.key (f.index + 1)) hi'' neighbor.entries ∧
          Hole (Sub n) lo' hi' (f.block.entries.take f.index) (f.block.key f.index)
            (f.block.entries.drop (f.index + 2)) lo hi'' ∧ f.block.entries.drop (f.index + 1) =
              (f.block.key (f.index + 1), neighbor.cell) :: f.block.entries.drop (f.index + 2) := by
  have hdrop : f.block.entries.drop (f.index + 1) =
      f.block.entry (f.index + 1) :: f.block.entries.drop (f.index + 2) :=
    Block.drop_entries hlt
  rw [hdrop] at hhole
  obtain ⟨rfl, hi'', ⟨u, hu, hh, hA, hBu, hc⟩, hhole'⟩ := hhole.right
  have hu : f.block.next (f.index + 1) = u.cell := hu
  refine ⟨u, hi'', ?_, rfl, hh, hA, hBu, hc, hhole', ?_⟩
  · rw [Block.child, read_eq (by omega), hu]
    rfl
  · rw [hdrop, ← hu]
    rfl

/-- The child takes over the first entry of its right neighbour, or all of them. -/
theorem repair_right (hf : f.block.height = n + 1) (hidx : f.index + 1 < f.block.degree)
    (hfB : f.block.degree ≤ B) (hhole : Hole (Sub n) lo' hi' (f.block.entries.take f.index)
    (f.block.key f.index) (f.block.entries.drop (f.index + 1)) lo hi)
    (hh : t.height = n) (hd : t.degree = 1) (hc : Content n lo hi t.entries) :
    ∃ neighbor, f.block.child (f.index + 1) = some neighbor ∧
      Mends f t n lo' hi' neighbor (shareRight f.block t neighbor f.index)
        (joinRight f.block t neighbor f.index) := by
  obtain ⟨neighbor, hi'', hchild, rfl, hhn, hA, hB, hcn, hhole', hdrop⟩ :=
    right_neighbor hhole hidx hfB
  have hA : 2 ≤ neighbor.degree := hA
  have hB : neighbor.degree ≤ 4 := hB
  have hcons := Block.entries_cons (show 0 < neighbor.degree by omega)
  have hne : t.entries ≠ [] := ne_nil_of_length_pos (by simp [hd])
  have hjoin := content_join hc hne (hcons ▸ hcn)
  have hlist : below n (t.entries ++ (joint n (f.block.key (f.index + 1)) (neighbor.key 0),
      neighbor.next 0) :: neighbor.entries.drop 1) = t.toList ++ neighbor.toList := by
    rw [below_append, below_joint, ← hcons, toList_eq_below, toList_eq_below, hh, hhn]
  refine ⟨neighbor, hchild, fun hlt => ?_, fun hge => ?_⟩
  · have hlt : 2 < neighbor.degree := hlt
    obtain ⟨t', n', upper, hup, hht, hdt, hhn', hdn, hhu, hdu, het, hen, heu⟩ :=
      shareRight_eq (t := t) hidx hfB (show t.degree < 4 by omega) hA hB
    -- The two nodes as one list, cut before entry 1 of the neighbour.
    rw [hh] at het hen
    have hfirst : neighbor.entries.drop 1 = (neighbor.key 1, neighbor.next 1) ::
        neighbor.entries.drop 2 :=
      Block.drop_entries hA
    rw [hfirst, append_cons, ← het] at hjoin hlist
    refine ⟨upper, hup, hdu, .two hhole' (hhu.trans hf) heu (hht.trans hh) (by omega)
      (hhn'.trans hhn)
      (by omega) hen hjoin ?_⟩
    rw [hlist, hdrop, below_cons]
    simp only [append_assoc]
  · have hge : ¬ 2 < neighbor.degree := hge
    obtain ⟨t', upper, hup, hht, hdt, hhu, hdu, het, heu⟩ := joinRight_eq (t := t) hidx hfB
      (show 0 < neighbor.degree by omega) (show t.degree + neighbor.degree ≤ 4 by omega)
    rw [hh] at het
    rw [← het] at hjoin hlist
    refine ⟨upper, hup, hdu, .one hhole' (hhu.trans hf) heu (hht.trans hh) (by omega) hjoin ?_⟩
    rw [hlist, hdrop, below_cons]
    simp only [append_assoc]

/-- A child on the left of the hole. -/
theorem left_neighbor (hcurr : f.index = curr + 1) (hhole : Hole (Sub n) lo' hi'
    (f.block.entries.take f.index) (f.block.key f.index) (f.block.entries.drop (f.index + 1)) lo hi)
    (hlt : f.index < f.block.degree) (hB : f.block.degree ≤ B) :
    ∃ neighbor lo'', f.block.child curr = some neighbor ∧
      lo = f.block.key f.index ∧ neighbor.height = n ∧ A ≤ neighbor.degree ∧
        neighbor.degree ≤ B ∧ Content n lo'' (f.block.key f.index) neighbor.entries ∧
          Hole (Sub n) lo' hi' (f.block.entries.take curr) (f.block.key curr)
            (f.block.entries.drop (f.index + 1)) lo'' hi ∧ f.block.entries.take f.index =
              f.block.entries.take curr ++ [(f.block.key curr, neighbor.cell)] := by
  have htake : f.block.entries.take f.index =
      f.block.entries.take curr ++ [f.block.entry curr] := by
    rw [hcurr, take_add_one, Block.entries_getElem? (by omega)]
    rfl
  rw [htake] at hhole
  obtain ⟨rfl, lo'', ⟨u, hu, hh, hA, hBu, hc⟩, hhole'⟩ := hhole.left
  have hu : f.block.next curr = u.cell := hu
  refine ⟨u, lo'', ?_, rfl, hh, hA, hBu, hc, hhole', ?_⟩
  · rw [Block.child, read_eq (by omega), hu]
    rfl
  · rw [htake, ← hu]
    rfl

/-- The child, the last one, takes over the last entry of its left neighbour, or
gives it its own. -/
theorem repair_left (hf : f.block.height = n + 1) (hcurr : f.index = curr + 1)
    (hidx : f.index + 1 = f.block.degree) (hfB : f.block.degree ≤ B)
    (hhole : Hole (Sub n) lo' hi' (f.block.entries.take f.index) (f.block.key f.index)
      (f.block.entries.drop (f.index + 1)) lo hi)
    (hh : t.height = n) (hd : t.degree = 1) (hc : Content n lo hi t.entries) :
    ∃ neighbor, f.block.child curr = some neighbor ∧
      Mends f t n lo' hi' neighbor (shareLeft f.block t neighbor f.index)
        (joinLeft f.block t neighbor f.index) := by
  obtain ⟨neighbor, lo'', hchild, rfl, hhn, hA, hB, hcn, hhole', htake⟩ :=
    left_neighbor hcurr hhole (by omega) hfB
  have hA : 2 ≤ neighbor.degree := hA
  have hB : neighbor.degree ≤ 4 := hB
  have ht : t.entries = [(t.key 0, t.next 0)] := by
    rw [Block.entries_cons (by omega), drop_eq_nil_of_le (by simp [hd])]
  have hnil : f.block.entries.drop (f.index + 1) = [] := drop_eq_nil_of_le (by simp; omega)
  have hjoin := content_join hcn (entries_ne_nil hA) (ht ▸ hc)
  have hlist : below n (neighbor.entries ++ [(joint n (f.block.key f.index) (t.key 0), t.next 0)]) =
      neighbor.toList ++ t.toList := by
    rw [below_append, below_joint, ← ht, toList_eq_below, toList_eq_below, hh, hhn]
  rw [hnil] at hhole'
  refine ⟨neighbor, hchild, fun hlt => ?_, fun hge => ?_⟩
  · have hlt : 2 < neighbor.degree := hlt
    obtain ⟨t', n', upper, hup, hht, hdt, hhn', hdn, hhu, hdu, het, hen, heu⟩ :=
      shareLeft_eq (show curr + 1 < f.block.degree by omega) hfB hd
        (show 0 < neighbor.degree by omega) hB
    rw [← hcurr] at hup het
    rw [hh] at het
    rw [show curr + 2 = f.index + 1 by omega, hnil] at heu
    -- The two nodes as one list, cut before the last entry of the neighbour.
    have hlast : neighbor.entries = n'.entries ++ [neighbor.entry (neighbor.degree - 1)] := by
      rw [hen]
      have := Block.entries_split (show neighbor.degree - 1 < neighbor.degree by omega)
      rwa [drop_eq_nil_of_le (by simp; omega)] at this
    rw [hlast, append_assoc, singleton_append] at hjoin hlist
    refine ⟨upper, hup, hdu, .two hhole' (hhu.trans hf) heu (hhn'.trans hhn) (by omega)
      (hht.trans hh)
      (by omega) het hjoin ?_⟩
    rw [show below n (n'.entries ++ (neighbor.key (neighbor.degree - 1),
      neighbor.next (neighbor.degree - 1)) :: _) = _ from hlist, htake, hnil, below_one]
    simp only [append_assoc]
    rfl
  · have hge : ¬ 2 < neighbor.degree := hge
    obtain ⟨n', upper, hup, hhn', hdn, hhu, hdu, hen, heu⟩ :=
      joinLeft_eq (show curr + 2 = f.block.degree by omega) hfB (show 0 < t.degree by omega)
        (show neighbor.degree + t.degree ≤ 4 by omega)
    rw [← hcurr] at hup hen
    rw [hh, drop_eq_nil_of_le (show t.entries.length ≤ 1 by simp [hd])] at hen
    rw [← hen] at hjoin hlist
    refine ⟨upper, hup, hdu, .one hhole' (hhu.trans hf) heu (hhn'.trans hhn) (by omega) hjoin ?_⟩
    rw [hlist, htake, hnil, below_one]
    simp only [append_assoc]
    rfl

theorem Repairs.toList (h : Repairs f t n lo hi upper) :
    leftOf path ++ upper.toList ++ rightOf path =
      leftOf (f :: path) ++ t.toList ++ rightOf (f :: path) := by
  rw [toList_eq_below, h.height, h.list]
  simp only [leftOf, rightOf, below_succ, append_assoc]

/-- The root has one child left. -/
theorem shrinkRoot_ok (hh : t.height = n + 1) (hd : t.degree = 1)
    (hc : Content (n + 1) ⊥ ⊤ t.entries) :
    ∃ t', shrinkRoot t = some t' ∧ Whole t' ∧ t'.toList = t.toList := by
  have ht : t.entries = [(t.key 0, t.next 0)] := by
    rw [Block.entries_cons (by omega), drop_eq_nil_of_le (by simp [hd])]
  rw [ht] at hc
  obtain ⟨u, hu, hhu, hA, hB, hcu⟩ := row_singleton.1 hc
  have hu : t.next 0 = u.cell := hu
  obtain ⟨t', ht', he⟩ := Block.copyEntries_entries (t := t) hB
  have hchild : t.child 0 = some u := by
    rw [Block.child, read_eq (by decide), hu]
    rfl
  refine ⟨{ t' with degree := u.degree, height := u.height }, by simp [shrinkRoot, hchild, ht'],
    ⟨hB, fun _ => hA, ?_⟩, ?_⟩
  · rw [show Block.entries { t' with degree := u.degree, height := u.height } = u.entries from he,
      hhu]
    exact hcu
  · rw [toList_eq_below, toList_eq_below,
      show Block.entries { t' with degree := u.degree, height := u.height } = u.entries from he, hh,
        ht, hu,
      below_cons, toList_eq_below]
    simp [below]

/-- Rebalancing keeps the entries and makes the tree whole again. -/
theorem deleteUp_ok (hfits : Fits path t.height lo hi) (hB : t.degree ≤ B)
    (hpos : path ≠ [] ∨ 0 < t.height → 0 < t.degree) (hc : Content t.height lo hi t.entries) :
    ∃ t', deleteUp t path = some t' ∧ Whole t' ∧
      t'.toList = leftOf path ++ t.toList ++ rightOf path := by
  induction path generalizing t lo hi with
  | nil =>
    obtain ⟨rfl, rfl⟩ := hfits
    simp only [deleteUp, leftOf, rightOf, nil_append, append_nil]
    by_cases hA : 2 ≤ t.degree
    · exact ⟨t, by simp [hA], ⟨hB, fun _ => hA, hc⟩, rfl⟩
    · by_cases hh : t.height = 0
      · exact ⟨t, by simp [hA, hh], ⟨hB, fun h => by omega, hc⟩, rfl⟩
      · have hd : t.degree = 1 := by
          have := hpos (.inr (by omega))
          omega
        obtain ⟨n, hn⟩ := Nat.exists_eq_succ_of_ne_zero hh
        rw [hn] at hc
        obtain ⟨t', ht', hw, hl⟩ := shrinkRoot_ok hn hd hc
        exact ⟨t', by simp [hA, hh, ht'], hw, hl⟩
  | cons f path ih =>
    by_cases hA : 2 ≤ t.degree
    · refine ⟨plug t (f :: path), by rw [deleteUp, if_pos hA], ?_, plug_toList hfits⟩
      exact hfits.whole hc hB (fun h => by cases h) fun _ => hA
    · have hd : t.degree = 1 := by
        have := hpos (.inl (cons_ne_nil _ _))
        omega
      obtain ⟨hh, hidx, h2, h4, lo', hi', hhole, hfits'⟩ := hfits
      -- What follows a repair that leaves the number of children, or takes one away.
      have hrepair : ∀ {neighbor share join}, Mends f t t.height lo' hi' neighbor share join →
          ∃ t', (if A < neighbor.degree then share.map (plug · path) else join.bind
            (deleteUp · path)) = some t' ∧ Whole t' ∧
              t'.toList = leftOf (f :: path) ++ t.toList ++ rightOf (f :: path) := by
        intro neighbor share join hm
        by_cases hlt : A < neighbor.degree
        · obtain ⟨upper, rfl, hdeg, hrep⟩ := hm.share hlt
          rw [← hrep.height] at hfits'
          rw [if_pos hlt, ← hrep.toList, ← plug_toList hfits']
          exact ⟨_, rfl, hfits'.whole (hrep.height ▸ hrep.row) (hdeg ▸ h4) (fun _ _ => hdeg ▸ h2)
            fun _ => hdeg ▸ h2, rfl⟩
        · obtain ⟨upper, rfl, hdeg, hrep⟩ := hm.join hlt
          rw [← hrep.height] at hfits'
          rw [if_neg hlt, ← hrep.toList]
          exact ih hfits' (by omega) (fun _ => by omega) (hrep.height ▸ hrep.row)
      rw [deleteUp, if_neg hA]
      by_cases hlast : f.index < f.block.degree - 1
      · obtain ⟨neighbor, hchild, hm⟩ := repair_right hh (by omega) h4 hhole rfl hd hc
        rw [if_pos hlast, hchild, bind_some]
        exact hrepair hm
      · have h0 : f.index ≠ 0 := by omega
        obtain ⟨curr, hcurr⟩ := Nat.exists_eq_succ_of_ne_zero h0
        obtain ⟨neighbor, hchild, hm⟩ := repair_left hh hcurr (by omega) h4 hhole rfl hd hc
        rw [if_neg hlast, if_neg h0, show f.index - 1 = curr by omega, hchild, bind_some]
        exact hrepair hm

/-! ## The whole call -/

theorem delete_tall (h : Whole t) (hh : nodeStack < t.height) (k : κ) : delete t k = none := by
  simp [delete, descendStack_tall h k hh]

variable {es : List (κ × ο)} {k : κ}

theorem lookup_eq_none (h : ∀ x, (k, x) ∉ es) : es.lookup k = none ∧ es.filter (·.1 ≠ k) = es := by
  refine ⟨lookup_eq_none_iff.2 fun p hp => ?_, filter_eq_self.2 fun p hp => ?_⟩
  · exact bne_iff_ne.2 fun heq : k = p.1 => h p.2 (heq ▸ hp)
  · exact decide_eq_true fun heq : p.1 = k => h p.2 (heq ▸ hp)

/-- Keys that increase occur once. -/
theorem lookup_middle {o : ο} {es' : List (κ × ο)}
    (h : (es ++ (k, o) :: es').Pairwise (·.1 < ·.1)) :
    (es ++ (k, o) :: es').lookup k = some o ∧
      (es ++ (k, o) :: es').filter (·.1 ≠ k) = es ++ es' := by
  obtain ⟨-, hcons, hlt⟩ := pairwise_append.1 h
  have hl : ∀ x, (k, x) ∉ es := fun x hx =>
    lt_irrefl _ (hlt _ hx (k, o) mem_cons_self)
  have hr : ∀ x, (k, x) ∉ es' := fun x hx =>
    lt_irrefl k (rel_of_pairwise_cons hcons hx : (k, o).1 < (k, x).1)
  constructor
  · rw [lookup_append, (lookup_eq_none hl).1]
    simp
  · rw [filter_append, (lookup_eq_none hl).2, filter_cons, (lookup_eq_none hr).2]
    simp

/-- Entry `m` of the leaf at the end of the path is taken out. -/
theorem deleteAt_ok {root u : Node κ ο} {m : Nat} (hs : Stands root path 0 lo hi u)
    (hm : m < u.degree) : ∃ t' o, u.next m = .object (some o) ∧
      deleteAt u path m = some (t', some o) ∧ Whole t' ∧ t'.toList = leftOf path ++
        below 0 (u.entries.take m) ++ (below 0 (u.entries.drop (m + 1)) ++ rightOf path) := by
  obtain ⟨o, ho⟩ := (hs.content.2 _ (mem_entries.2 ⟨m, hm, rfl⟩)).2
  obtain ⟨u', hu', hh', hd', he'⟩ := Block.removeAt_ok hm hs.degree_le
  have hc' : Content 0 lo hi u'.entries := by
    have hsub : u'.entries.Sublist u.entries := by
      rw [he', ← eraseIdx_eq_take_drop_succ]
      exact eraseIdx_sublist ..
    exact ⟨hs.content.1.sublist hsub, fun e he => hs.content.2 e (hsub.subset he)⟩
  have hheight : u'.height = 0 := hh'.trans hs.height
  have hfits := hs.fits
  rw [← hheight] at hc' hfits
  obtain ⟨t', ht', hw, hl⟩ := deleteUp_ok hfits (by have := hs.degree_le; omega) (fun hor => by
    rcases hor with hne | h0
    · have : 2 ≤ u.degree := hs.least hne
      omega
    · omega) hc'
  refine ⟨t', o, ho, ?_, hw, ?_⟩
  · simp [deleteAt, read_eq (show m < B by have := hs.degree_le; omega),
      show u.next m = .object (some o) from ho, Cell.asObject, hu', ht']
  · rw [hl, toList_eq_below, hheight, he', below_append]
    simp only [append_assoc]

theorem delete_ok (h : Whole t) (hh : t.height ≤ nodeStack) (k : κ) :
    ∃ t' r, delete t k = some (t', r) ∧ Whole t' ∧ r = t.toList.lookup k ∧
      t'.toList = t.toList.filter (·.1 ≠ k) ∧ (r = none → t' = t) := by
  obtain ⟨u, path, lo, hi, hdesc, hk, hs⟩ := descendStack_ok h k hh
  obtain ⟨m, hpos, -, hm, hfound, hbefore⟩ := Block.position_ok (t := u) (k := k)
      (show 0 + u.degree ≤ B by have := hs.degree_le; omega)
  rw [Nat.zero_add] at hm hfound
  by_cases hlast : m = u.degree
  · have habs : ∀ x, (k, x) ∉ t.toList := fun x hx => by
      obtain ⟨j, hj, he⟩ := mem_entries.1 (mem_below_zero.1 ((hs.mem_iff hk).1 hx))
      exact hbefore j (Nat.zero_le j) (by omega) (congrArg Prod.fst he)
    exact ⟨t, none, by simp [delete, hdesc, hpos, hlast], h, (lookup_eq_none habs).1.symm,
      (lookup_eq_none habs).2.symm, fun _ => rfl⟩
  · have hlt : m < u.degree := by omega
    obtain ⟨t', o, ho, hdel, hw, hl⟩ := deleteAt_ok hs hlt
    have hsplit := Block.entries_split hlt
    rw [show u.entry m = (k, .object (some o)) from Prod.ext (hfound hlt) ho] at hsplit
    have htree : t.toList = (leftOf path ++ below 0 (u.entries.take m)) ++ (k, o) ::
        (below 0 (u.entries.drop (m + 1)) ++ rightOf path) := by
      have hcons : below 0 ((k, .object (some o)) :: u.entries.drop (m + 1)) =
          (k, o) :: below 0 (u.entries.drop (m + 1)) := rfl
      rw [← hs.plug_eq, plug_toList hs.fits, toList_eq_below, hs.height]
      nth_rewrite 1 [hsplit]
      rw [below_append, hcons]
      simp only [append_assoc, cons_append]
    have hsorted := h.sorted
    rw [htree] at hsorted
    refine ⟨t', some o, by simp [delete, hdesc, hpos, hlast, hdel], hw, ?_, ?_, fun h => by cases h⟩
    · rw [htree, (lookup_middle hsorted).1]
    · rw [htree, (lookup_middle hsorted).2, hl]

end Order

end CLangProject.AbTree
