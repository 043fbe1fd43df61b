import CLangProject.AbMap
import CLangProject.AbRun

/-!
# (2,4)-trees: repeated keys

`insert` accepts a key that the tree has already. Equal keys may then be spread
over several leaves, with equal separators between them. When a node is split,
its parent looks for the place of the new separator by comparing keys, and
behind an equal separator that place is not the one next to the node.

As long as this does not happen (`ClearUp`), the keys stay in order. To see it,
every key is given the time of its insertion as a tag. The tagged keys are
distinct, a run with them keeps all invariants of a run without repeated keys,
and forgetting the tags gives the run of the program (`Tagged`).
-/

namespace CLangProject.AbTree

open List Option Function

variable {κ κ' ο : Type}

/-! ## Separators that do not coincide -/

section Clear

variable [LinearOrder κ]

/-- The fourth one of the four keys of a full node and `k`. -/
def Block.fourthKey {ν : Type} (t : Block κ ν) (k : κ) : κ :=
  if k < t.key 3 then if k < t.key 2 then t.key 2 else k else t.key 3

/-- From a full node up, as long as the nodes are full: the fourth key of the node and the new key
differs from the separator behind the node in its parent, and is the new key of the parent. -/
def ClearUp : Node κ ο → κ → List (Frame κ ο) → Prop
  | _, _, [] => True
  | t, k, x :: path => t.degree < B ∨
      (x.index + 1 < x.block.degree → x.block.key (x.index + 1) ≠ t.fourthKey k) ∧
        ClearUp x.block (t.fourthKey k) path

instance decidableClearUp : (t : Node κ ο) → (k : κ) → (path : List (Frame κ ο)) →
    Decidable (ClearUp t k path)
  | _, _, [] => inferInstanceAs (Decidable True)
  | t, k, x :: path =>
    have := decidableClearUp x.block (t.fourthKey k) path
    inferInstanceAs (Decidable (_ ∨ _ ∧ _))

/-- The call inserts a key, and one of the separators that it adds is equal to
the one behind it. -/
def Coincides (t : Node κ ο) : Call κ ο → Prop
  | .insert k _ => ∃ r ∈ descendStack k t, ¬ ClearUp r.1 k r.2
  | .delete _ => False

instance (t : Node κ ο) : (c : Call κ ο) → Decidable (Coincides t c)
  | .insert k _ => inferInstanceAs (Decidable (∃ r ∈ descendStack k t, ¬ ClearUp r.1 k r.2))
  | .delete _ => inferInstanceAs (Decidable False)

/-- The keys in the leaves do not decrease, and every key stored can be
deleted. -/
structure Ordered (t : Node κ ο) : Prop where
  sorted : (t.toList.map Prod.fst).Pairwise (· ≤ ·)
  deletes : ∀ k ∈ t.toList.map Prod.fst, ¬ Tall t (.delete k) →
    ∃ t' o, delete t k = some (t', some o)

end Clear

/-! ## All separators are stored -/

/-- The keys in the leaves and the separators are in `S`. -/
def Cell.Held (S : κ → Prop) : Cell κ ο → Prop
  | object _ => True
  | node degree height key next => (∀ i, i < degree → min height 1 ≤ i → S (key i)) ∧
      ∀ i, i < degree → (next i).Held S

/-- The same for a list of entries of a node of height `n`. -/
def Held (S : κ → Prop) (n : Nat) (l : List (κ × Cell κ ο)) : Prop :=
  (∀ e ∈ l.drop (min n 1), S e.1) ∧ ∀ e ∈ l, e.2.Held S

variable {S S' : κ → Prop} {t fresh : Node κ ο} {n : Nat} {l : List (κ × Cell κ ο)}
  {path : List (Frame κ ο)} {k : κ} {p : Cell κ ο}

theorem mem_drop_entries {m : Nat} {e : κ × Cell κ ο} :
    e ∈ t.entries.drop m ↔ ∃ i, i < t.degree ∧ m ≤ i ∧ t.entry i = e := by
  rw [mem_iff_getElem?]
  constructor
  · rintro ⟨i, hi⟩
    rw [List.getElem?_drop] at hi
    obtain ⟨hlt, he⟩ := List.getElem?_eq_some_iff.1 hi
    rw [Block.length_entries] at hlt
    refine ⟨m + i, hlt, Nat.le_add_right m i, ?_⟩
    simpa [Block.entries] using he
  · rintro ⟨i, hi, hm, he⟩
    refine ⟨i - m, ?_⟩
    rw [List.getElem?_drop, Nat.add_sub_cancel' hm, Block.entries_getElem? hi, he]

theorem held_cell : t.cell.Held S ↔ Held S t.height t.entries := by
  refine and_congr ⟨fun h e he => ?_, fun h i hi hm => ?_⟩ ⟨fun h e he => ?_, fun h i hi => ?_⟩
  · obtain ⟨i, hi, hm, rfl⟩ := mem_drop_entries.1 he
    exact h i hi hm
  · exact h _ (mem_drop_entries.2 ⟨i, hi, hm, rfl⟩)
  · obtain ⟨i, hi, rfl⟩ := mem_entries.1 he
    exact h i hi
  · exact h _ (mem_entries.2 ⟨i, hi, rfl⟩)

theorem Cell.Held.mono {c : Cell κ ο} (h : c.Held S) (hS : ∀ s, S s → S' s) : c.Held S' := by
  induction c with
  | object o => trivial
  | node degree height key next ih =>
    exact ⟨fun i hi hm => hS _ (h.1 i hi hm), fun i hi => ih i (h.2 i hi)⟩

theorem held_fill {x : Frame κ ο} (hx : x.block.cell.Held S) (ht : t.cell.Held S) :
    (x.fill t).cell.Held S := by
  refine ⟨hx.1, fun i hi => ?_⟩
  change Cell.Held S (update x.block.next x.index t.cell i)
  rw [update_apply]
  split
  · exact ht
  · exact hx.2 i hi

theorem held_plug (hpath : ∀ x ∈ path, x.block.cell.Held S) (ht : t.cell.Held S) :
    (plug t path).cell.Held S := by
  induction path generalizing t with
  | nil => exact ht
  | cons x path ih =>
    exact ih (fun y hy => hpath y (mem_cons_of_mem _ hy)) (held_fill (hpath x mem_cons_self) ht)

theorem Splits.held {low new : Node κ ο} (h : Splits n l low new) (hl : Held S n l) :
    low.cell.Held S ∧ new.cell.Held S ∧ S (new.key 0) := by
  have hnew := Block.entries_cons (show 0 < new.degree by rw [h.new_degree]; decide)
  refine ⟨held_cell.2 ?_, held_cell.2 ?_, ?_⟩
  · rw [h.low_height, h.low_entries]
    refine ⟨fun e he => hl.1 e ?_, fun e he => hl.2 e (mem_of_mem_take he)⟩
    rw [drop_take] at he
    exact mem_of_mem_take he
  · rw [h.new_height, h.new_entries]
    refine ⟨fun e he => hl.1 e ?_, fun e he => hl.2 e (mem_of_mem_drop he)⟩
    rw [drop_drop] at he
    exact drop_subset_drop_left _ (by omega) he
  · rw [h.new_entries] at hnew
    have hmem : (new.key 0, new.next 0) ∈ l.drop 3 := hnew ▸ mem_cons_self
    exact hl.1 _ (drop_subset_drop_left _ (by omega) hmem)

/-- A separator added by `insert` is the least key of a leaf. -/
theorem Grown.held (h : Grown n l path t) (hl : Held S n l)
    (hpath : ∀ x ∈ path, x.block.cell.Held S) : t.cell.Held S := by
  induction h with
  | room t hh he =>
    refine held_plug hpath (held_cell.2 ?_)
    rwa [hh, he]
  | @up n l x path low new t hs _ ih =>
    obtain ⟨hlow, hnew, hkey⟩ := hs.held hl
    have hfill := held_cell.1 (held_fill (hpath x mem_cons_self) hlow)
    refine ih ⟨fun e he => ?_, fun e he => ?_⟩ fun y hy => hpath y (mem_cons_of_mem _ hy)
    · rw [show min (n + 1) 1 = 1 by omega, widened, drop_append] at he
      rcases mem_append.1 he with he | he
      · rw [drop_take] at he
        exact hfill.1 e (drop_subset_drop_left _ (min_le_right _ 1) (mem_of_mem_take he))
      · rcases mem_cons.1 (mem_of_mem_drop he) with rfl | he
        · exact hkey
        · exact hfill.1 e (drop_subset_drop_left _ (by omega) he)
    · rcases mem_append.1 he with he | he
      · exact hfill.2 e (mem_of_mem_take he)
      · rcases mem_cons.1 he with rfl | he
        · exact hnew
        · exact hfill.2 e (mem_of_mem_drop he)
  | @root n l low new t low' k hs he hh' hh ht =>
    obtain ⟨hlow, hnew, hkey⟩ := hs.held hl
    have hlow' : low'.cell.Held S := by
      rw [held_cell, he, hh', ← hs.low_height]
      exact held_cell.1 hlow
    rw [held_cell, hh, ht]
    refine ⟨fun e he => ?_, fun e he => ?_⟩
    · rw [show min (n + 1) 1 = 1 by omega, drop_one, tail_cons, mem_singleton] at he
      subst he
      exact hkey
    · rcases mem_pair.1 he with rfl | rfl
      · exact hlow'
      · exact hnew

/-! ## Forgetting part of the keys -/

section Forget

variable [LinearOrder κ] [LinearOrder κ'] {f : κ → κ'} {lo : WithBot κ} {hi : WithTop κ}

/-- A lower bound of a node on the path is a separator above it. -/
theorem Fits.lo_held (h : Fits path n lo hi) (hpath : ∀ x ∈ path, x.block.cell.Held S) :
    lo = ⊥ ∨ ∃ s, S s ∧ lo = s := by
  induction path generalizing n lo hi with
  | nil => exact .inl h.1
  | cons x path ih =>
    obtain ⟨hh, hidx, h2, h4, lo', hi', hhole, hfits⟩ := h
    rcases hhole.before with ⟨-, rfl⟩ | ⟨hpre, rfl⟩
    · exact ih hfits fun y hy => hpath y (mem_cons_of_mem _ hy)
    · have hpos : x.index ≠ 0 := fun h0 => Row.ne_nil hpre (by rw [h0, take_zero])
      exact .inr ⟨_, (hpath x mem_cons_self).1 x.index hidx (by omega), rfl⟩

variable {u low new : Node κ ο}

/-- The descent takes the same way when `f k` is compared with the images of
the separators. -/
theorem descend_map {root : Node κ ο} {path' : List (Frame κ ο)} (h : Stands root path n lo hi t)
    (h2 : 0 < n → 2 ≤ t.degree) (hk : Within lo hi k) (ht : t.cell.Held S)
    (hpath : ∀ x ∈ path, x.block.cell.Held S) (hS : ∀ s, S s → (f k < f s ↔ k < s))
    (hdesc : descend k t.cell path = some (u, path')) :
    descend (f k) (mapKeys f t).cell (path.map (Frame.map f)) =
      some (mapKeys f u, path'.map (Frame.map f)) ∧
        u.cell.Held S ∧ ∀ x ∈ path', x.block.cell.Held S := by
  induction n generalizing t path lo hi with
  | zero =>
    rw [descend_leaf h.height] at hdesc
    obtain ⟨rfl, rfl⟩ := Prod.mk.inj (some.inj hdesc)
    exact ⟨descend_leaf h.height, ht, hpath⟩
  | succ n ih =>
    obtain ⟨i, lo', hi', v, hlower, hi, hv, hk', hs⟩ := h.step (h2 (Nat.succ_pos n)) hk
    have hidx : i < t.degree := hs.fits.2.1
    have hpos : 0 < t.height := by rw [h.height]; omega
    have hagree : Block.Agree f k t.key 1 t.degree := fun j h1 h2 =>
      hS _ (ht.1 j h2 (by omega))
    have hv' : v.cell.Held S := hv ▸ ht.2 i hidx
    rw [descend_inner hpos hlower hi, hv] at hdesc
    rw [descend_inner (t := mapKeys f t) hpos ((Block.lower_map hagree).trans hlower) hi,
      show (mapKeys f t).next i = (mapKeys f v).cell from congrArg (Cell.map f) hv]
    refine ih hs (fun _ => hs.least (cons_ne_nil _ _)) hk' hv' (fun x hx => ?_) hdesc
    rcases mem_cons.1 hx with rfl | hx
    · exact ht
    · exact hpath x hx

theorem descendStack_map (h : Whole t) (ht : t.cell.Held S) (hS : ∀ s, S s → (f k < f s ↔ k < s))
    (hdesc : descendStack k t = some (u, path)) :
    descendStack (f k) (mapKeys f t) = some (mapKeys f u, path.map (Frame.map f)) ∧
      u.cell.Held S ∧ ∀ x ∈ path, x.block.cell.Held S := by
  obtain ⟨hmap, hu, hpath⟩ := descend_map h.stands h.two_le (within_bot_top k) ht
    (fun x hx => by cases hx) hS (descend_of_descendStack hdesc)
  refine ⟨?_, hu, hpath⟩
  have hlen : path.length ≤ nodeStack := by
    by_contra hlen
    simp [descendStack, descend_of_descendStack hdesc, hlen] at hdesc
  simp [descendStack, show descend (f k) (mapKeys f t).cell [] = _ from hmap, hlen]

/-- The parent of a node that was split compares the new separator with its
own ones. -/
theorem agree_fill {x : Frame κ ο} {s : κ} (hf : Monotone f) (hidx : x.index < x.block.degree)
    (hc : Content (n + 1) lo hi (widened (x.fill low).entries (x.index + 1) (s, new.cell)))
    (hclear : x.index + 1 < x.block.degree → f (x.block.key (x.index + 1)) ≠ f s) :
    Block.Agree f s (x.fill low).key 1 x.block.degree := by
  have hsorted := Row.tail_sorted sub_inhabits (content_succ.1 hc)
  have hne : (x.fill low).entries.take (x.index + 1) ≠ [] := by
    refine ne_nil_of_length_pos ?_
    rw [length_take, Block.length_entries]
    exact lt_min (Nat.succ_pos _) (Nat.zero_lt_of_lt hidx)
  rw [widened, tail_append_of_ne_nil hne, pairwise_append] at hsorted
  obtain ⟨-, hafter, hbefore⟩ := hsorted
  obtain ⟨hlt, hrest⟩ := pairwise_cons.1 hafter
  intro j h1 h2
  rcases Nat.lt_or_ge x.index j with hj | hj
  · have hmem : ∀ m, x.index < m → m < x.block.degree →
        (x.fill low).entry m ∈ (x.fill low).entries.drop (x.index + 1) :=
      fun m h1 h2 => mem_drop_entries.2 ⟨m, h2, h1, rfl⟩
    have hs : s < (x.fill low).key (x.index + 1) := hlt _ (hmem _ (Nat.lt_succ_self _) (by omega))
    have hle : (x.fill low).key (x.index + 1) ≤ (x.fill low).key j := by
      rcases Nat.eq_or_lt_of_le (Nat.succ_le_of_lt hj) with rfl | hj'
      · exact le_rfl
      · rw [Block.drop_entries (show x.index + 1 < (x.fill low).degree by
          exact lt_of_le_of_lt hj h2)] at hrest
        exact (rel_of_pairwise_cons hrest (mem_drop_entries.2 ⟨j, h2, hj', rfl⟩)).le
    refine iff_of_true ?_ (hlt _ (hmem j hj h2))
    exact (lt_of_le_of_ne (hf hs.le) (hclear (by omega)).symm).trans_le (hf hle)
  · have hmem : (x.fill low).entry j ∈ ((x.fill low).entries.take (x.index + 1)).tail := by
      refine mem_of_getElem? (i := j - 1) ?_
      rw [← drop_one, List.getElem?_drop, Nat.add_sub_cancel' h1,
        List.getElem?_take_of_lt (by omega), Block.entries_getElem? (t := x.fill low) h2]
    have hjs : (x.fill low).key j < s := hbefore _ hmem _ mem_cons_self
    exact iff_of_false (not_lt.2 (hf hjs.le)) (not_lt.2 hjs.le)

theorem Block.key_of_split {ν : Type} {t fresh low new : Block κ ν} {p : ν}
    (h : t.split fresh k p = some (low, new)) : new.key 0 = t.fourthKey k := by
  change (fillUpper t k p 2 4 false fresh).bind _ = _ at h
  obtain ⟨⟨i, done, u⟩, hu, h⟩ := bind_eq_some_iff.1 h
  have hkey : new.key = u.key := by
    cases done with
    | true =>
      obtain ⟨-, rfl⟩ := Prod.mk.inj (some.inj h)
      rfl
    | false =>
      obtain ⟨t', -, h⟩ := bind_eq_some_iff.1 h
      obtain ⟨-, rfl⟩ := Prod.mk.inj (some.inj h)
      rfl
  rw [hkey]
  rw [fillUpper_eq] at hu
  unfold fourthKey
  split_ifs at hu ⊢ <;> cases hu <;> rfl

theorem clearUp_fill {x : Frame κ ο} : ClearUp (x.fill t) k path ↔ ClearUp x.block k path := by
  cases path <;> rfl

theorem split_mapKeys (hd : t.degree = B) (hagree : Block.Agree f k t.key t.start t.degree)
    (hsplit : t.split fresh k p = some (low, new)) :
    (mapKeys f t).split (mapKeys f fresh) (f k) (p.map f) =
      some (mapKeys f low, mapKeys f new) := by
  rw [hd] at hagree
  refine (Block.split_map hagree).trans ?_
  rw [hsplit]
  rfl

theorem insertUp_room_map (hd : t.degree < B) (hagree : Block.Agree f k t.key t.start t.degree) :
    insertUp (mapKeys f fresh) (mapKeys f t) (f k) (p.map f) (path.map (Frame.map f)) =
      (insertUp fresh t k p path).map (mapKeys f) := by
  have hadd : (mapKeys f t).addEntry (f k) (p.map f) = (t.addEntry k p).map (mapKeys f) :=
    Block.addEntry_map hagree
  rw [insertUp_room hd, insertUp_room (show (mapKeys f t).degree < B from hd), hadd]
  exact map_plug

theorem insertUp_map (fresh : Node κ ο) {i : Nat} (hf : Monotone f)
    (hfits : Fits path t.height lo hi) (hB : t.degree ≤ B) (hgap : t.Gap k i)
    (hc : Content t.height lo hi (widened t.entries i (k, p)))
    (hagree : Block.Agree f k t.key t.start t.degree)
    (hclear : ClearUp (mapKeys f t) (f k) (path.map (Frame.map f))) :
    insertUp (mapKeys f fresh) (mapKeys f t) (f k) (p.map f) (path.map (Frame.map f)) =
      (insertUp fresh t k p path).map (mapKeys f) := by
  induction path generalizing t lo hi k p i with
  | nil =>
    rcases Nat.lt_or_eq_of_le hB with hd | hd
    · exact insertUp_room_map hd hagree
    · obtain ⟨low, new, hsplit, hs⟩ := split_splits (p := p) fresh hd hgap
      have hsplit' := split_mapKeys hd hagree hsplit
      rw [insertUp_full (by omega) hsplit (read_eq (by decide)), map_nil,
        insertUp_full (show ¬ (mapKeys f t).degree < B from not_lt.2 hd.ge) hsplit'
          (read_eq (by decide))]
      exact growRoot_map
  | cons x path ih =>
    rcases Nat.lt_or_eq_of_le hB with hd | hd
    · exact insertUp_room_map hd hagree
    · obtain ⟨low, new, hsplit, hs⟩ := split_splits (p := p) fresh hd hgap
      have hsplit' := split_mapKeys hd hagree hsplit
      obtain ⟨hlow, hnew⟩ := hs.sub hc
      obtain ⟨hgap', lo', hi', hfits', hc'⟩ := hfits.widen hlow hnew
      obtain ⟨hh, hidx, h2, h4, -⟩ := hfits
      obtain ⟨hsep, hup⟩ := hclear.resolve_left (not_lt.2 hd.ge)
      rw [← Block.key_of_split hsplit'] at hsep hup
      have hagree' := agree_fill hf hidx hc' hsep
      have hh : (x.fill low).height = t.height + 1 := hh
      rw [← hh] at hfits' hc'
      rw [insertUp_full (by omega) hsplit (read_eq (by decide)), map_cons,
        insertUp_full (show ¬ (mapKeys f t).degree < B from not_lt.2 hd.ge) hsplit'
          (read_eq (by decide))]
      dsimp only
      rw [fill_map]
      refine ih hfits' h4 hgap' hc' ?_ (fill_map (f := f) ▸ clearUp_fill.2 hup)
      rwa [Block.start, if_pos (by rw [hh]; omega)]

theorem insert_map (fresh : Node κ ο) {o : ο} (hf : Monotone f) (h : Whole t)
    (hh : t.height ≤ nodeStack) (ht : t.cell.Held S) (hS : ∀ s, S s → (f k < f s ↔ k < s))
    (habs : ∀ x, (k, x) ∉ t.toList) (hclear : ¬ Coincides (mapKeys f t) (.insert (f k) o)) :
    insert (mapKeys f fresh) (mapKeys f t) (f k) o =
      (insert fresh t k o).map (Prod.map (mapKeys f) id) := by
  by_cases hempty : t.height = 0 ∧ t.degree = 0
  · rw [insert, insert, if_pos hempty,
      if_pos (show (mapKeys f t).height = 0 ∧ (mapKeys f t).degree = 0 from hempty)]
    exact bind_eq_map_bind (Block.put_map (g := Cell.map f) (p := Cell.object (some o))) fun _ _ =>
      rfl
  · obtain ⟨u, path, lo, hi, hdesc, hk, hs⟩ := descendStack_ok h k hh
    obtain ⟨hmap, hu, -⟩ := descendStack_map h ht hS hdesc
    have habs' : ∀ x, (k, x) ∉ below 0 u.entries := fun x hx => habs x ((hs.mem_iff hk).2 hx)
    obtain ⟨i, hgap⟩ := exists_gap u k (by
      rw [Block.start, if_neg (by rw [hs.height]; decide)]
      exact Nat.zero_le _)
    have hc := content_widened (o := o) hs.content hs.height hk habs' hgap
    have hfits := hs.fits
    rw [← hs.height] at hc hfits
    have hagree : Block.Agree f k u.key u.start u.degree := fun j _ h2 =>
      hS _ (hu.1 j h2 (by rw [hs.height]; exact Nat.zero_le _))
    have hup := insertUp_map fresh hf hfits hs.degree_le hgap hc hagree
      (not_not.1 fun hn => hclear ⟨_, hmap, hn⟩)
    rw [insert, insert, if_neg hempty,
      if_neg (show ¬ ((mapKeys f t).height = 0 ∧ (mapKeys f t).degree = 0) from hempty), hdesc,
        hmap]
    simp only [bind_eq_bind, bind_some]
    rw [Cell.map] at hup
    rw [hup, Option.map_map, Option.map_map]
    rfl

end Forget

/-! ## Keys with the time of their insertion -/

section Tags

/-- The key without its tag. -/
def untag (s : κ ×ₗ Nat) : κ := (ofLex s).1

theorem mapKeys_tag (fresh : Node κ ο) :
    mapKeys untag (mapKeys (fun k => toLex (k, 0)) fresh) = fresh := by
  have hcell : ∀ c : Cell κ ο, (c.map fun k => toLex (k, 0)).map untag = c := fun c => by
    induction c with
    | object o => rfl
    | node degree height key next ih => exact congrArg (Cell.node _ _ _) (funext ih)
  exact congrArg (Block.mk _ _ _) (funext fun i => hcell (fresh.next i))

variable [LinearOrder κ]

theorem untag_monotone : Monotone (untag (κ := κ)) := fun s s' h => Prod.Lex.monotone_fst s s' h

/-- A key with a new tag comes behind all equal ones. -/
theorem untag_lt_iff {s : κ ×ₗ Nat} {m : Nat} (h : (ofLex s).2 < m) (k : κ) :
    untag (toLex (k, m)) < untag s ↔ toLex (k, m) < s := by
  rw [Prod.Lex.lt_iff]
  refine ⟨.inl, fun hlt => hlt.resolve_right fun h' => ?_⟩
  exact absurd h'.2 (not_lt.2 h.le)

/-- `T` is the tree `t` with tags below `m`. -/
structure Tagged (m : Nat) (t : Node κ ο) (T : Node (κ ×ₗ Nat) ο) : Prop where
  map_eq : mapKeys untag T = t
  whole : Whole T
  held : T.cell.Held (· ∈ T.toList.map Prod.fst)
  tag_lt : ∀ s ∈ T.toList.map Prod.fst, (ofLex s).2 < m

variable {m : Nat} {T : Node (κ ×ₗ Nat) ο}

theorem Tagged.toList (h : Tagged m t T) : t.toList = T.toList.map (Prod.map untag id) := by
  rw [← h.map_eq, toList_mapKeys]

theorem Tagged.sorted (h : Tagged m t T) : (t.toList.map Prod.fst).Pairwise (· ≤ ·) := by
  rw [h.toList, List.map_map, pairwise_map]
  exact h.whole.sorted.imp fun hlt => untag_monotone hlt.le

/-- The keys of a leaf are stored. -/
theorem Whole.held_of_leaf (h : Whole T) (hh : T.height = 0) :
    T.cell.Held (· ∈ T.toList.map Prod.fst) := by
  have hc := h.content
  rw [hh] at hc
  rw [held_cell]
  refine ⟨fun e he => ?_, fun e he => ?_⟩
  · have he := mem_of_mem_drop he
    obtain ⟨-, o, ho⟩ := hc.2 e he
    refine mem_map.2 ⟨(e.1, o), ?_, rfl⟩
    rw [toList_eq_below, hh, mem_below_zero]
    exact ho ▸ he
  · obtain ⟨-, o, ho⟩ := hc.2 e he
    rw [ho]
    trivial

variable {o : ο}

theorem insert_held {F : Node (κ ×ₗ Nat) ο} {K : κ ×ₗ Nat} (h : Whole T) (hh : T.height ≤ nodeStack)
    (hT : T.cell.Held (· ∈ T.toList.map Prod.fst)) (habs : ∀ x, (K, x) ∉ T.toList) :
    ∃ T', AbTree.insert F T K o = some (T', 0) ∧ Whole T' ∧ T'.toList.Perm ((K, o) :: T.toList) ∧
      T'.cell.Held (· ∈ T'.toList.map Prod.fst) := by
  by_cases hempty : T.height = 0 ∧ T.degree = 0
  · obtain ⟨T', ht', hh', hw, hp⟩ := insert_empty F hempty.1 hempty.2 K o
    exact ⟨T', ht', hw, hp, hw.held_of_leaf hh'⟩
  · obtain ⟨u, path, lo, hi, hdesc, hk, hs⟩ := descendStack_ok h K hh
    obtain ⟨i, T', ht', hw, hp, hg⟩ := insert_grown F hempty hdesc hk hs habs o
    have hsub : ∀ s, s ∈ T.toList.map Prod.fst → s ∈ T'.toList.map Prod.fst := fun s hs => by
      rw [(hp.map Prod.fst).mem_iff]
      exact mem_cons_of_mem _ hs
    obtain ⟨-, hu, hpath⟩ := descendStack_map (f := id) h hT (fun _ _ => Iff.rfl) hdesc
    have hu' := held_cell.1 (hu.mono hsub)
    rw [hs.height] at hu'
    refine ⟨T', ht', hw, hp, hg.held ⟨fun e he => ?_, fun e he => ?_⟩ fun x hx =>
      (hpath x hx).mono hsub⟩
    all_goals rcases mem_append.1 (show e ∈ widened u.entries i _ from he) with he | he
    · exact hu'.1 e (mem_of_mem_take he)
    · rcases mem_cons.1 he with rfl | he
      · rw [(hp.map Prod.fst).mem_iff]
        exact mem_cons_self
      · exact hu'.1 e (mem_of_mem_drop he)
    · exact hu'.2 e (mem_of_mem_take he)
    · rcases mem_cons.1 he with rfl | he
      · trivial
      · exact hu'.2 e (mem_of_mem_drop he)

section

variable (h : Tagged m t T)
include h

theorem Tagged.insert (fresh : Node κ ο) (hh : t.height ≤ nodeStack)
    (hclear : ¬ Coincides t (.insert k o)) :
    ∃ t' T', insert fresh t k o = some (t', 0) ∧ Tagged (m + 1) t' T' ∧
      t'.toList.Perm ((k, o) :: t.toList) := by
  obtain ⟨rfl, hw, hheld, htag⟩ := h
  have habs : ∀ x, (toLex (k, m), x) ∉ T.toList := fun x hx =>
    lt_irrefl m (htag _ (mem_map.2 ⟨_, hx, rfl⟩))
  obtain ⟨T', hT', hw', hp, hheld'⟩ :=
    insert_held (F := mapKeys (fun k => toLex (k, 0)) fresh) (o := o) hw hh hheld habs
  have hmap := insert_map (mapKeys (fun k => toLex (k, 0)) fresh) untag_monotone hw hh hheld
    (fun s hs => untag_lt_iff (htag s hs) k) habs hclear
  rw [mapKeys_tag, hT'] at hmap
  refine ⟨mapKeys untag T', T', hmap, ⟨rfl, hw', hheld', fun s hs => ?_⟩, ?_⟩
  · rcases mem_cons.1 ((hp.map Prod.fst).mem_iff.1 hs) with rfl | hs
    · exact Nat.lt_succ_self m
    · exact (htag s hs).trans (Nat.lt_succ_self m)
  · rw [toList_mapKeys, toList_mapKeys]
    exact hp.map _

/-- The leaf that the descent for `k` reaches has an entry with this key, if any
leaf has one: otherwise the separator on its left would have the key, and it is
stored to its right. -/
theorem Tagged.exists_entry {u : Node (κ ×ₗ Nat) ο} {path : List (Frame (κ ×ₗ Nat) ο)}
    {lo : WithBot (κ ×ₗ Nat)} {hi : WithTop (κ ×ₗ Nat)}
    (hk : k ∈ t.toList.map Prod.fst) (hs : Stands T path 0 lo hi u)
    (hwithin : Within lo hi (toLex (k, m)))
    (hpath : ∀ x ∈ path, x.block.cell.Held (· ∈ T.toList.map Prod.fst)) :
    ∃ j, j < u.degree ∧ untag (u.key j) = k := by
  have hleaf : ∀ s ∈ T.toList.map Prod.fst, lo ≤ s → s ≤ toLex (k, m) → untag s = k →
      ∃ j, j < u.degree ∧ untag (u.key j) = k := fun s hmem hlo hle heq => by
    obtain ⟨⟨_, o⟩, hin, rfl⟩ := mem_map.1 hmem
    have hin := (hs.mem_iff ⟨hlo, (WithTop.coe_le_coe.2 hle).trans_lt hwithin.2⟩).1 hin
    obtain ⟨j, hj, he⟩ := mem_entries.1 (mem_below_zero.1 hin)
    exact ⟨j, hj, (congrArg (fun e => untag e.1) he).trans heq⟩
  rw [h.toList, List.map_map] at hk
  obtain ⟨e, he, heq⟩ := mem_map.1 hk
  have heq : untag e.1 = k := heq
  have hmem : e.1 ∈ T.toList.map Prod.fst := mem_map.2 ⟨e, he, rfl⟩
  have hlt : e.1 < toLex (k, m) := Prod.Lex.lt_iff.2 (.inr ⟨heq, h.tag_lt _ hmem⟩)
  by_cases hlo : lo ≤ e.1
  · exact hleaf _ hmem hlo hlt.le heq
  · rcases hs.fits.lo_held hpath with rfl | ⟨s, hmem', rfl⟩
    · exact absurd bot_le hlo
    · have hge := hwithin.ge
      have hes : e.1 < s := WithBot.coe_lt_coe.1 (not_le.1 hlo)
      refine hleaf s hmem' le_rfl hge (le_antisymm (untag_monotone hge) ?_)
      rw [← heq]
      exact untag_monotone hes.le

theorem Tagged.delete (hh : t.height ≤ nodeStack)
    (hk : k ∈ t.toList.map Prod.fst) : ∃ t' o, delete t k = some (t', some o) := by
  obtain ⟨u, path, lo, hi, hdesc, hwithin, hs⟩ :=
    descendStack_ok h.whole (toLex (k, m)) (by rw [← h.map_eq] at hh; exact hh)
  obtain ⟨hmap, hu, hpath⟩ :=
    descendStack_map h.whole h.held (fun s hs => untag_lt_iff (h.tag_lt s hs) k) hdesc
  rw [h.map_eq] at hmap
  obtain ⟨j, hj, hjk⟩ := h.exists_entry hk hs hwithin hpath
  obtain ⟨i, hpos, -, hi, -, hbefore⟩ := Block.position_ok (t := mapKeys untag u) (k := k)
    (show 0 + u.degree ≤ B by have := hs.degree_le; omega)
  have hlt : i < u.degree := by
    by_contra hge
    exact hbefore j (Nat.zero_le j) (by omega) hjk
  obtain ⟨T', o, ho, hdel, -⟩ := deleteAt_ok hs hlt
  refine ⟨mapKeys untag T', o, ?_⟩
  have hmap : descendStack k t = some (mapKeys untag u, path.map (Frame.map untag)) := hmap
  have hpos : Block.position (mapKeys untag u) k (mapKeys untag u).degree 0 = some i := hpos
  have hne : ¬ i = (mapKeys untag u).degree := ne_of_lt hlt
  simp [AbTree.delete, hmap, hpos, hne, deleteAt_map, hdel]

theorem Tagged.ordered : Ordered t := ⟨h.sorted, fun _ hk hh => h.delete (not_lt.1 hh) hk⟩

end

/-- If no call splits a node at a key equal to the separator behind the node,
and none is made on a tree of more than 20 levels above the leaves, then after
every call the keys in the leaves are in order and every key stored can be
deleted. -/
theorem ordered_of_clear (fresh : Node κ ο) (es : List (κ × ο))
    (h : (store fresh).Avoids (fun t c => Tall t c ∨ Coincides t c) (createTree fresh)
      (es.map fun e => .insert e.1 e.2)) :
    (store fresh).Runs (fun t c a t' => Effect t c a t' ∧ Ordered t') (createTree fresh)
      (es.map fun e => .insert e.1 e.2) := by
  have hrun : ∀ (es : List (κ × ο)) m t T, Tagged m t T → (store fresh).Avoids
      (fun t c => Tall t c ∨ Coincides t c) t (es.map fun e => .insert e.1 e.2) →
      (store fresh).Runs (fun t c a t' => Effect t c a t' ∧ Ordered t') t
        (es.map fun e => .insert e.1 e.2) := fun es => by
    induction es with
    | nil => exact fun _ _ _ _ _ => trivial
    | cons e es ih =>
      intro m t T ht hav
      obtain ⟨hnot, hrest⟩ := hav
      rw [not_or] at hnot
      obtain ⟨t', T', hins, ht', hperm⟩ := ht.insert fresh (not_lt.1 hnot.1) hnot.2
      have hstep : (store fresh).step t (.insert e.1 e.2) = some (t', .inserted 0) := by
        simp [Store.step, store, hins]
      exact ⟨t', .inserted 0, hstep, ⟨⟨rfl, hperm⟩, ht'.ordered⟩, ih _ _ _ ht' (hrest t' _ hstep)⟩
  refine hrun es 0 _ (createTree (mapKeys (fun k => toLex (k, 0)) fresh)) ⟨?_, ?_, ?_, ?_⟩ h
  · exact congrArg createTree (mapKeys_tag fresh)
  · exact whole_createTree.1
  · exact Whole.held_of_leaf whole_createTree.1 rfl
  · intro s hs
    cases hs

end Tags

/-- Insertions of the same object under the given keys. -/
def inserts (ks : List Nat) : List (Key × Nat) := ks.map fun k => (key k, 1)

/-- Six equal keys in two leaves. -/
theorem ordered_sixFives : (store blank).Runs (fun t c a t' => Effect t c a t' ∧ Ordered t')
    (createTree blank) ((inserts [5, 5, 5, 5, 5, 9, 5, 1]).map fun e => .insert e.1 e.2) :=
  ordered_of_clear blank (inserts [5, 5, 5, 5, 5, 9, 5, 1]) (by decide +kernel)

/-- The last of these insertions splits the first leaf at 5, and the separator
behind that leaf is 5 too. The leaves are then 1, 2, 5 and 5, 5, 9 and 5, 5; the
key 9 is not found by `delete` any more. -/
theorem not_ordered_fiveFives : (¬ (store blank).Runs (fun t c a t' => Effect t c a t' ∧ Ordered t')
    (createTree blank) ((inserts [5, 5, 5, 5, 5, 9, 1, 2]).map fun e => .insert e.1 e.2)) ∧
      ∃ t ∈ (store blank).run (createTree blank)
          ((inserts [5, 5, 5, 5, 5, 9, 1, 2]).map fun e => .insert e.1 e.2),
        t.toList.map Prod.fst = [1, 2, 5, 5, 5, 9, 5, 5].map key ∧
          (delete t (key 9)).map Prod.snd = some none := by
  have hend : ∃ t ∈ (store blank).run (createTree blank)
      ((inserts [5, 5, 5, 5, 5, 9, 1, 2]).map fun e => .insert e.1 e.2),
      t.toList.map Prod.fst = [1, 2, 5, 5, 5, 9, 5, 5].map key ∧
        (delete t (key 9)).map Prod.snd = some none := by decide +kernel
  refine ⟨fun hruns => ?_, hend⟩
  obtain ⟨t, ht, hkeys, -⟩ := hend
  have hsorted := hruns.of_run (P := fun t => (t.toList.map Prod.fst).Pairwise (· ≤ ·))
    (fun _ _ _ _ h => h.2.sorted) Pairwise.nil ht
  rw [hkeys] at hsorted
  exact absurd hsorted (by decide)

end CLangProject.AbTree
