import CLangProject.AbShape

/-!
# (2,4)-trees: insertion

A new entry goes into the leaf, or into a node on the way up when the node below
has been split. The step from a split node to its parent is `Fits.widen`; the
loop then only has to add one entry to a node at the right place.
-/

namespace CLangProject.AbTree

open List Option

variable {κ ο : Type}

variable {t low new fresh : Node κ ο} {l : List (κ × Cell κ ο)} {path : List (Frame κ ο)}
    {f : Frame κ ο} {n i : Nat} {k x : κ}
  {p : Cell κ ο}

/-- The entries with a new one at place `i`. -/
def widened (l : List (κ × Cell κ ο)) (i : Nat) (e : κ × Cell κ ο) : List (κ × Cell κ ο) :=
  l.take i ++ e :: l.drop i

theorem widened_fill (h : f.index < f.block.degree) (e : κ × Cell κ ο) :
    widened (f.fill t).entries (f.index + 1) e = f.block.entries.take f.index ++
      (f.block.key f.index, t.cell) :: [e] ++ f.block.entries.drop (f.index + 1) := by
  have hlen : (f.block.entries.take f.index).length = f.index := by simp; omega
  have hle : (f.block.entries.take f.index).length ≤ f.index + 1 := by omega
  rw [widened, entries_fill h, take_append, drop_append, hlen, take_of_length_le hle,
    drop_of_length_le hle]
  simp

theorem below_widened_fill (h : f.index < f.block.degree) :
    leftOf path ++ below (n + 1) (widened (f.fill t).entries (f.index + 1) (x, new.cell)) ++
      rightOf path = leftOf (f :: path) ++ (t.toList ++ new.toList) ++ rightOf (f :: path) := by
  rw [widened_fill h, below_succ]
  simp only [flatMap_append, flatMap_cons, flatMap_nil, leftOf, rightOf, append_assoc]
  rfl

theorem below_widened_perm {o : ο} (l : List (κ × Cell κ ο)) :
    (below 0 (widened l i (k, .object (some o)))).Perm ((k, o) :: below 0 l) := by
  have hcons : below 0 ((k, .object (some o)) :: l.drop i) = (k, o) :: below 0 (l.drop i) := rfl
  rw [widened, below_append, hcons]
  refine perm_middle.trans ?_
  rw [← below_append, take_append_drop]

/-- The root has been split. -/
theorem growRoot_ok (fresh new : Node κ ο) (hB : t.degree ≤ B) :
    ∃ low t' : Node κ ο, growRoot fresh t k new = some t' ∧
    low.entries = t.entries ∧ low.height = t.height ∧ low.degree = t.degree ∧
      t'.height = t.height + 1 ∧ t'.degree = 2 ∧
        t'.entries = [(t.key 0, low.cell), (k, new.cell)] := by
  obtain ⟨low, hlow, he⟩ := Block.copyEntries_entries (t := fresh) hB
  let low' : Node κ ο := { low with height := t.height, degree := t.degree }
  refine ⟨low', { (t.assign 0 (t.key 0, low'.cell)).assign 1 (k, new.cell) with
    height := t.height + 1, degree := 2 }, ?_, he, rfl, rfl, rfl, rfl, ?_⟩
  · simp [growRoot, hlow, Block.setNext_eq (show 0 < B by decide),
      Block.put_eq (show 1 < B by decide), low']
  · change (List.range 2).map ((t.assign 0 (t.key 0, low'.cell)).assign 1 (k, new.cell)).entry = _
    simp [Block.entry_assign, range_succ]

/-- Five entries of a node of height `n`, divided between two nodes. -/
structure Splits (n : Nat) (l : List (κ × Cell κ ο)) (low new : Node κ ο) : Prop where
  low_height : low.height = n
  new_height : new.height = n
  low_entries : low.entries = l.take 3
  new_entries : new.entries = l.drop 3
  length : l.length = 5

section

variable (h : Splits n l low new)
include h

theorem Splits.append : low.entries ++ new.entries = l := by
  rw [h.low_entries, h.new_entries, take_append_drop]

theorem Splits.toList : low.toList ++ new.toList = below n l := by
  rw [← h.append, below_append, toList_eq_below, toList_eq_below, h.low_height, h.new_height]

theorem Splits.low_degree : low.degree = 3 := by
  rw [← Block.length_entries, h.low_entries, length_take, h.length]
  rfl

theorem Splits.new_degree : new.degree = 2 := by
  rw [← Block.length_entries, h.new_entries, length_drop, h.length]

end

/-- What the loop of `insert` has made of the tree, when the node at the end of
the path has got the entries `l`. -/
inductive Grown : Nat → List (κ × Cell κ ο) → List (Frame κ ο) → Node κ ο → Prop
  | room {n : Nat} {l : List (κ × Cell κ ο)} {path : List (Frame κ ο)} (t : Node κ ο) :
      t.height = n → t.entries = l → Grown n l path (plug t path)
  | up {n : Nat} {l : List (κ × Cell κ ο)} {f : Frame κ ο} {path : List (Frame κ ο)}
      {low new t : Node κ ο} : Splits n l low new →
      Grown (n + 1) (widened (f.fill low).entries (f.index + 1) (new.key 0, new.cell)) path t →
      Grown n l (f :: path) t
  | root {n : Nat} {l : List (κ × Cell κ ο)} {low new t : Node κ ο} (low' : Node κ ο) (k : κ) :
      Splits n l low new → low'.entries = low.entries → low'.height = n → t.height = n + 1 →
      t.entries = [(k, low'.cell), (new.key 0, new.cell)] → Grown n l [] t

/-! ## The loop -/

variable [LinearOrder κ] {lo : WithBot κ} {hi : WithTop κ}

/-- The node at the end of the path has been split at `x`; its upper half
becomes a new entry of the parent. -/
theorem Fits.widen (h : Fits (f :: path) n lo hi) (hlow : Sub n lo x t.cell)
    (hup : Sub n x hi new.cell) : (f.fill t).Gap x (f.index + 1) ∧
      ∃ lo' hi', Fits path (n + 1) lo' hi' ∧
        Content (n + 1) lo' hi' (widened (f.fill t).entries (f.index + 1) (x, new.cell)) := by
  obtain ⟨hh, hidx, h2, h4, lo', hi', hhole, hfits⟩ := h
  obtain ⟨y, hy⟩ := sub_inhabits _ _ _ hlow
  obtain ⟨z, hz⟩ := sub_inhabits _ _ _ hup
  have hstart : (f.fill t).start = 1 :=
    if_pos (by rw [show (f.fill t).height = n + 1 from hh]; omega)
  refine ⟨⟨by omega, hidx, ?_, fun j h1 h2 => ?_⟩, lo', hi', hfits, ?_⟩
  · rcases hhole.before with ⟨hpre, -⟩ | ⟨-, rfl⟩
    · have : f.index = 0 := by
        have := congrArg List.length hpre
        simp at this
        omega
      exact .inl (by omega)
    · exact .inr (hy.ge.trans hy.lt.le)
  · have hj : j < f.block.degree := h2
    have hmem : f.block.entry j ∈ f.block.entries.drop (f.index + 1) :=
      mem_of_getElem? (i := j - (f.index + 1)) (by
        rw [List.getElem?_drop, show f.index + 1 + (j - (f.index + 1)) = j by omega,
          Block.entries_getElem? hj])
    rcases hhole.after with ⟨hnil, -⟩ | ⟨q, r, hpost, rfl, hrow⟩
    · rw [hnil] at hmem
      cases hmem
    · rw [hpost] at hmem hrow
      exact hrow.lt_sep sub_inhabits (hz.ge.trans_lt hz.lt) _ hmem
  · rw [widened_fill hidx]
    exact hhole.fill (row_cons_cons.2 ⟨hlow, row_singleton.2 hup⟩)

theorem Splits.sub (h : Splits n l low new) (hc : Content n lo hi l) :
    Sub n lo (new.key 0) low.cell ∧ Sub n (new.key 0) hi new.cell := by
  have hnew := Block.entries_cons (show 0 < new.degree by rw [h.new_degree]; decide)
  rw [← h.append, hnew] at hc
  obtain ⟨hc1, hc2⟩ := content_split hc (entries_ne_nil (h.low_degree.symm ▸ by decide))
  rw [← hnew] at hc2
  exact ⟨⟨low, rfl, h.low_height, h.low_degree.symm ▸ by decide, h.low_degree.symm ▸ by decide,
    hc1⟩, ⟨new, rfl, h.new_height, h.new_degree.symm ▸ by decide, h.new_degree.symm ▸ by decide,
      hc2⟩⟩

/-- A full node with a new entry at place `i`. -/
theorem split_splits (fresh : Node κ ο) (hd : t.degree = B) (hgap : t.Gap k i) :
    ∃ low new, t.split fresh k p = some (low, new) ∧
      Splits t.height (widened t.entries i (k, p)) low new := by
  obtain ⟨i', low, new, hgap', hsplit, hh, hh', -, -, hlow, hnew⟩ :=
    Block.split_ok (k := k) (p := p) fresh hd
  obtain rfl := hgap'.unique hgap
  refine ⟨low, new, hsplit, hh, hh', hlow, hnew, ?_⟩
  have hle := hgap.le_degree
  have hd : t.degree = 4 := hd
  simp [widened]
  omega

theorem insertUp_room (hd : t.degree < B) :
    insertUp fresh t k p path = (t.addEntry k p).map fun t => plug t path := by
  cases path <;> rw [insertUp, if_pos hd]

/-- The node still has room. -/
theorem insertUp_room_ok (fresh : Node κ ο) (hfits : Fits path t.height lo hi) (hd : t.degree < B)
    (hroot : 0 < t.height → 2 ≤ t.degree) (hA : path ≠ [] → A ≤ t.degree) (hgap : t.Gap k i)
    (hc : Content t.height lo hi (widened t.entries i (k, p))) :
    ∃ t', insertUp fresh t k p path = some t' ∧ Whole t' ∧ t'.toList =
      leftOf path ++ below t.height (widened t.entries i (k, p)) ++ rightOf path ∧
        Grown t.height (widened t.entries i (k, p)) path t' := by
  have hstart : t.start ≤ t.degree := by
    unfold Block.start
    split <;> omega
  obtain ⟨i', t', hgap', ht', hh, hd', he⟩ := Block.addEntry_ok (k := k) (p := p) hd hstart
  obtain rfl := hgap'.unique hgap
  have he : t'.entries = widened t.entries i' (k, p) := he
  rw [← he, ← hh] at hc ⊢
  rw [← hh] at hfits hroot
  refine ⟨plug t' path, by rw [insertUp_room hd, ht', map_some],
    hfits.whole hc (by omega) (fun _ h => ?_) fun h => ?_, ?_, .room t' rfl rfl⟩
  · exact (hroot h).trans (by omega)
  · exact (hA h).trans (by omega)
  · rw [plug_toList hfits, toList_eq_below]

theorem insertUp_full (hd : ¬ t.degree < B)
    (hsplit : t.split fresh k p = some (low, new)) (hx : read new.key 0 = some x) :
    insertUp fresh t k p path = match path with
      | f :: path => insertUp fresh (f.fill low) x new.cell path
      | [] => growRoot fresh low x new := by
  rw [insertUp, if_neg hd, hsplit]
  cases path <;> simp [hx]

theorem insertUp_ok (fresh : Node κ ο) (hfits : Fits path t.height lo hi) (hB : t.degree ≤ B)
    (hroot : 0 < t.height → 2 ≤ t.degree) (hA : path ≠ [] → A ≤ t.degree) (hgap : t.Gap k i)
    (hc : Content t.height lo hi (widened t.entries i (k, p))) :
    ∃ t', insertUp fresh t k p path = some t' ∧ Whole t' ∧ t'.toList =
      leftOf path ++ below t.height (widened t.entries i (k, p)) ++ rightOf path ∧
        Grown t.height (widened t.entries i (k, p)) path t' := by
  induction path generalizing t lo hi k p i with
  | nil =>
    rcases Nat.lt_or_eq_of_le hB with hd | hd
    · exact insertUp_room_ok fresh hfits hd hroot hA hgap hc
    · obtain ⟨low, new, hsplit, hs⟩ := split_splits (p := p) fresh hd hgap
      obtain ⟨low', t', ht', he, hhl, hdl, hh', hd'', hrow⟩ :=
        growRoot_ok (t := low) (k := new.key 0) fresh new (hs.low_degree.symm ▸ by decide)
      obtain ⟨rfl, rfl⟩ := hfits
      obtain ⟨⟨u, hu, hhu, hAu, hBu, hcu⟩, hnew⟩ := hs.sub hc
      obtain rfl := cell_injective hu
      have hlow' : Sub t.height ⊥ (new.key 0) low'.cell :=
        ⟨low', rfl, hhl.trans hhu, hdl ▸ hAu, hdl ▸ hBu, he ▸ hcu⟩
      refine ⟨t', ?_, ⟨hd''.symm ▸ by decide, fun _ => hd''.ge, ?_⟩, ?_,
        .root low' _ hs he (hhl.trans hhu) (by rw [hh', hhu]) hrow⟩
      · rw [insertUp_full (by omega) hsplit (read_eq (by decide))]
        exact ht'
      · rw [hh', hhu, hrow]
        exact row_cons_cons.2 ⟨hlow', row_singleton.2 hnew⟩
      · have hlow : low'.toList = low.toList := by rw [toList_eq_below, toList_eq_below, hhl, he]
        rw [← hs.toList, toList_eq_below, hh', hrow, below_succ, leftOf, rightOf, ← hlow]
        simp [Block.toList]
  | cons f path ih =>
    rcases Nat.lt_or_eq_of_le hB with hd | hd
    · exact insertUp_room_ok fresh hfits hd hroot hA hgap hc
    · obtain ⟨low, new, hsplit, hs⟩ := split_splits (p := p) fresh hd hgap
      obtain ⟨hlow, hnew⟩ := hs.sub hc
      obtain ⟨hgap', lo', hi', hfits', hc'⟩ := hfits.widen hlow hnew
      obtain ⟨hh, hidx, h2, h4, -⟩ := hfits
      have hh : (f.fill low).height = t.height + 1 := hh
      rw [← hh] at hfits' hc'
      obtain ⟨t', ht', hw, hl, hg⟩ := ih hfits' h4 (fun _ => h2) (fun _ => h2) hgap' hc'
      rw [hh] at hg
      refine ⟨t', ?_, hw, ?_, .up hs hg⟩
      · rw [insertUp_full (by omega) hsplit (read_eq (by decide))]
        exact ht'
      · rw [hl, hh, below_widened_fill hidx, hs.toList]

/-! ## The whole call -/

theorem exists_gap (t : Node κ ο) (k : κ) (h : t.start ≤ t.degree) : ∃ i, t.Gap k i := by
  have hex : ∀ n, t.start ≤ n → ∃ i, t.start ≤ i ∧ i ≤ n ∧ (i = t.start ∨ t.key (i - 1) ≤ k) ∧
      ∀ j, i ≤ j → j < n → k < t.key j := fun n hn => by
    induction n, hn using Nat.le_induction with
    | base => exact ⟨t.start, le_rfl, le_rfl, .inl rfl, fun j h1 h2 => by omega⟩
    | succ n hn ih =>
      by_cases hk : k < t.key n
      · obtain ⟨i, hs, hin, hbefore, hafter⟩ := ih
        refine ⟨i, hs, by omega, hbefore, fun j h1 h2 => ?_⟩
        rcases Nat.lt_succ_iff_lt_or_eq.1 h2 with h | rfl
        · exact hafter j h1 h
        · exact hk
      · exact ⟨n + 1, by omega, le_rfl, .inr (not_lt.1 hk), fun j h1 h2 => by omega⟩
  obtain ⟨i, hs, hin, hbefore, hafter⟩ := hex t.degree h
  exact ⟨i, hs, hin, hbefore, hafter⟩

/-- A new key in its place in a leaf. -/
theorem content_widened {o : ο} (hc : Content 0 lo hi t.entries) (hh : t.height = 0)
    (hk : Within lo hi k) (habs : ∀ x, (k, x) ∉ below 0 t.entries) (hgap : t.Gap k i) :
    Content 0 lo hi (widened t.entries i (k, .object (some o))) := by
  have hne : ∀ j, j < t.degree → t.key j ≠ k := fun j hj heq => by
    obtain ⟨x, hx⟩ := (hc.2 _ (mem_entries.2 ⟨j, hj, rfl⟩)).2
    refine habs x (mem_below_zero.2 (mem_entries.2 ⟨j, hj, ?_⟩))
    exact Prod.ext heq hx
  have hstart : t.start = 0 := if_neg (by omega)
  have hbefore : ∀ e ∈ t.entries.take i, e.1 < k := fun e he => by
    obtain ⟨j, hj, rfl⟩ := mem_take_iff_getElem.1 he
    have hj' : j < i ∧ j < t.degree := by simpa using hj
    have hle : t.key (i - 1) ≤ k := hgap.before.resolve_left (by omega)
    have hlast : i - 1 < t.degree := by
      have := hgap.le_degree
      omega
    have hmono : t.key j ≤ t.key (i - 1) := by
      rcases Nat.eq_or_lt_of_le (show j ≤ i - 1 by omega) with rfl | h
      · exact le_rfl
      · exact (hc.key_lt h hlast).le
    have hlt := lt_of_le_of_ne (hmono.trans hle) (hne j hj'.2)
    simpa [Block.entries, Block.entry] using hlt
  have hafter : ∀ e ∈ t.entries.drop i, k < e.1 := fun e he => by
    obtain ⟨j, hj, rfl⟩ := mem_drop_iff_getElem.1 he
    have hj' : i + j < t.degree := by simpa [Nat.add_comm] using hj
    have := hgap.after (i + j) (by omega) hj'
    simpa [Block.entries, Block.entry] using this
  refine ⟨?_, fun e he => ?_⟩
  · refine pairwise_append.2 ⟨hc.1.sublist (take_sublist _ _), pairwise_cons.2
      ⟨hafter, hc.1.sublist (drop_sublist _ _)⟩, fun a ha b hb => ?_⟩
    rcases mem_cons.1 hb with rfl | hb
    · exact hbefore a ha
    · exact (hbefore a ha).trans (hafter b hb)
  · rcases mem_append.1 he with he | he
    · exact hc.2 e (mem_of_mem_take he)
    · rcases mem_cons.1 he with rfl | he
      · exact ⟨hk, o, rfl⟩
      · exact hc.2 e (mem_of_mem_drop he)

theorem descendStack_ok (h : Whole t) (k : κ) (hh : t.height ≤ nodeStack) :
    ∃ u path lo hi, descendStack k t = some (u, path) ∧ Within lo hi k ∧
      Stands t path 0 lo hi u := by
  obtain ⟨u, path, lo, hi, hdesc, hlen, hk, hs⟩ := descend_ok h.stands h.two_le (within_bot_top k)
  refine ⟨u, path, lo, hi, ?_, hk, hs⟩
  have hle : path.length ≤ nodeStack := by simpa [hlen] using hh
  simp [descendStack, hdesc, hle]

theorem descend_of_descendStack {u : Node κ ο} (h : descendStack k t = some (u, path)) :
    descend k t.cell [] = some (u, path) := by
  cases hd : descend k t.cell [] with
  | none => simp [descendStack, hd] at h
  | some r =>
    simp only [descendStack, hd, bind_eq_bind, bind_some] at h
    split at h
    · exact h
    · cases h

/-- A tree of height 21 needs 21 entries on the stacks. -/
theorem descendStack_tall (h : Whole t) (k : κ) (hh : nodeStack < t.height) :
    descendStack k t = none := by
  obtain ⟨u, path, lo, hi, hdesc, hlen, -⟩ := descend_ok h.stands h.two_le (within_bot_top k)
  have hgt : ¬ path.length ≤ nodeStack := by simpa [hlen] using hh
  simp [descendStack, hdesc, hgt]

/-- The first entry of an empty tree. -/
theorem insert_empty (fresh : Node κ ο) (hh : t.height = 0) (hd : t.degree = 0) (k : κ) (o : ο) :
    ∃ t', insert fresh t k o = some (t', 0) ∧ t'.height = 0 ∧ Whole t' ∧
      t'.toList.Perm ((k, o) :: t.toList) := by
  have hentries : Block.entries { t.assign 0 (k, .object (some o)) with degree := 1 } =
      [(k, .object (some o))] := by
    change (List.range 1).map (t.assign 0 (k, .object (some o))).entry = _
    simp [Block.entry_assign]
  refine ⟨{ t.assign 0 (k, .object (some o)) with degree := 1 }, ?_, hh,
    ⟨show 1 ≤ B by decide, fun h => ?_, ?_⟩, ?_⟩
  · simp [insert, hh, hd, Block.put_eq (show 0 < B by decide)]
  · exact absurd hh (Nat.pos_iff_ne_zero.1 h)
  · rw [hentries, Block.height_assign, hh]
    exact ⟨pairwise_singleton _ _, by simp [within_bot_top]⟩
  · have hnil : t.toList = [] := by rw [toList_eq_below, Block.entries, hh, hd]; rfl
    rw [toList_eq_below, hentries, Block.height_assign, hh, hnil]
    exact Perm.refl _

/-- The entries of the leaf at the end of the path get a new one, and the tree
grows from there. -/
theorem insert_grown (fresh : Node κ ο) {root : Node κ ο}
    (hne : ¬ (root.height = 0 ∧ root.degree = 0)) (hdesc : descendStack k root = some (t, path))
    (hk : Within lo hi k) (hs : Stands root path 0 lo hi t) (habs : ∀ x, (k, x) ∉ root.toList)
    (o : ο) :
    ∃ i t', insert fresh root k o = some (t', 0) ∧ Whole t' ∧
      t'.toList.Perm ((k, o) :: root.toList) ∧
        Grown 0 (widened t.entries i (k, .object (some o))) path t' := by
  have habs' : ∀ x, (k, x) ∉ below 0 t.entries := fun x hx => habs x ((hs.mem_iff hk).2 hx)
  have hstart : t.start = 0 := if_neg (by rw [hs.height]; decide)
  obtain ⟨i, hgap⟩ := exists_gap t k (by omega)
  have hc := content_widened (o := o) hs.content hs.height hk habs' hgap
  have hfits := hs.fits
  rw [← hs.height] at hc hfits
  obtain ⟨t', ht', hw, hl, hg⟩ := insertUp_ok fresh hfits hs.degree_le
    (fun h0 => absurd hs.height (Nat.pos_iff_ne_zero.1 h0)) hs.least hgap hc
  rw [hs.height] at hg
  refine ⟨i, t', by simp [insert, hne, hdesc, ht'], hw, ?_, hg⟩
  rw [hl, ← hs.plug_eq, plug_toList hs.fits, toList_eq_below, hs.height, append_assoc, append_assoc]
  refine ((below_widened_perm t.entries).append_right _).append_left _ |>.trans ?_
  exact perm_middle

theorem insert_ok (fresh : Node κ ο) (h : Whole t) (hh : t.height ≤ nodeStack)
    (habs : ∀ x, (k, x) ∉ t.toList) (o : ο) :
    ∃ t', insert fresh t k o = some (t', 0) ∧ Whole t' ∧ t'.toList.Perm ((k, o) :: t.toList) := by
  by_cases hempty : t.height = 0 ∧ t.degree = 0
  · obtain ⟨t', ht', -, hw, hp⟩ := insert_empty fresh hempty.1 hempty.2 k o
    exact ⟨t', ht', hw, hp⟩
  · obtain ⟨u, path, lo, hi, hdesc, hk, hs⟩ := descendStack_ok h k hh
    obtain ⟨i, t', ht', hw, hp, -⟩ := insert_grown fresh hempty hdesc hk hs habs o
    exact ⟨t', ht', hw, hp⟩

theorem insert_tall (h : Whole t) (hh : nodeStack < t.height) (k : κ) (o : ο) :
    insert fresh t k o = none := by
  have hne : ¬ (t.height = 0 ∧ t.degree = 0) := fun h0 => by omega
  simp [insert, hne, descendStack_tall h k hh]

end CLangProject.AbTree
