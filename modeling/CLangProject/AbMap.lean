import CLangProject.AbDelete

/-!
# (2,4)-trees: other keys

Replacing every key of a tree by its image under a function commutes with all
that the program does to the tree, as long as the comparisons it makes have the
same results (`Agree`). `delete` compares keys only on its way down and in the
leaf; the repair of underfull nodes needs no condition at all.
-/

namespace CLangProject.AbTree

open List Option

variable {κ κ' ν ν' ο α β γ δ : Type}

/-- Two computations that correspond up to `r` and then up to `s`. -/
theorem bind_eq_map_bind {x : Option α} {y : Option β} {F : α → Option γ} {G : β → Option δ}
    {r : α → β} {s : γ → δ} (hx : y = x.map r) (h : ∀ a, x = some a → G (r a) = (F a).map s) :
    y.bind G = (x.bind F).map s := by
  subst hx
  cases x with
  | none => rfl
  | some a => exact h a rfl

/-! ## Arrays and nodes -/

theorem read_comp (f : α → β) (a : Nat → α) (i : Nat) : read (f ∘ a) i = (read a i).map f := by
  unfold read
  split <;> rfl

theorem read_eq_some {a : Nat → α} {i : Nat} {x : α} (h : read a i = some x) : i < B ∧ x = a i := by
  unfold read at h
  split at h
  next hi => exact ⟨hi, (some.inj h).symm⟩
  next => cases h

theorem write_comp (f : α → β) (a : Nat → α) (i : Nat) (x : α) :
    write (f ∘ a) i (f x) = (write a i x).map (f ∘ ·) := by
  unfold write
  split
  · rw [map_some, Function.comp_update]
  · rfl

namespace Block

variable {f : κ → κ'} {g : ν → ν'} {t src : Block κ ν} {i j : Nat} {k : κ} {p : ν}

def map (f : κ → κ') (g : ν → ν') (t : Block κ ν) : Block κ' ν' :=
  ⟨t.degree, t.height, f ∘ t.key, g ∘ t.next⟩

theorem read_key_map : read (t.map f g).key i = (read t.key i).map f := read_comp f t.key i

theorem read_next_map : read (t.map f g).next i = (read t.next i).map g := read_comp g t.next i

theorem setKey_map : (t.map f g).setKey i (f k) = (t.setKey i k).map (map f g) := by
  simp only [setKey, map, write_comp, Option.map_map]
  rfl

theorem setNext_map : (t.map f g).setNext i (g p) = (t.setNext i p).map (map f g) := by
  simp only [setNext, map, write_comp, Option.map_map]
  rfl

theorem put_map : (t.map f g).put i (f k) (g p) = (t.put i k p).map (map f g) :=
  bind_eq_map_bind setKey_map fun _ _ => setNext_map

theorem copy_map : (t.map f g).copy j (src.map f g) i = (t.copy j src i).map (map f g) :=
  bind_eq_map_bind read_key_map fun _ _ => bind_eq_map_bind read_next_map fun _ _ => put_map

theorem key_of_copy {t' : Block κ ν} {m : Nat} (h : t.copy j src i = some t') (hm : m ≠ j) :
    t'.key m = t.key m := by
  have hB : i < B ∧ j < B := by
    by_contra hn
    rw [not_and_or] at hn
    rcases hn with hn | hn <;> simp [copy, put, setKey, read, write, hn] at h
  rw [copy_eq hB.2 hB.1] at h
  obtain rfl := some.inj h
  exact key_assign_ne hm

theorem copyEntries_map (rest : Nat) : copyEntries (src.map f g) rest i (t.map f g) =
    (copyEntries src rest i t).map (map f g) := by
  induction rest generalizing i t with
  | zero => rfl
  | succ rest ih => exact bind_eq_map_bind copy_map fun _ _ => ih

theorem closeGap_map (rest : Nat) : closeGap rest i (t.map f g) =
    (closeGap rest i t).map (map f g) := by
  induction rest generalizing i t with
  | zero => rfl
  | succ rest ih => exact bind_eq_map_bind copy_map fun _ _ => ih

theorem removeAt_map : (t.map f g).removeAt i = (t.removeAt i).map (map f g) :=
  closeGap_map (t := { t with degree := t.degree - 1 }) _

/-! ## Comparisons -/

variable [LinearOrder κ] [LinearOrder κ']

/-- The comparisons of `k` with the keys from `s` to `n - 1` have the same
results for the images. -/
def Agree (f : κ → κ') (k : κ) (key : Nat → κ) (s n : Nat) : Prop :=
  ∀ i, s ≤ i → i < n → (f k < f (key i) ↔ k < key i)

theorem narrow_map {key : Nat → κ} {l u : Nat} (rounds : Nat) (h : Agree f k key (l + 1) u) :
    narrow (f ∘ key) (f k) rounds l u = narrow key k rounds l u := by
  induction rounds generalizing l u with
  | zero => rfl
  | succ rounds ih =>
    rw [narrow, narrow]
    split
    next hgo =>
      rw [read_comp]
      by_cases hB : (u + l) / 2 < B
      · have hk := h ((u + l) / 2) (by omega) (by omega)
        rw [read_eq hB]
        simp only [map_some, bind_eq_bind, bind_some, hk]
        rw [ih fun i h1 h2 => h i h1 (by omega), ih fun i h1 h2 => h i (by omega) h2]
      · simp [read, hB]
    next => rfl

theorem lower_map (h : Agree f k t.key 1 t.degree) : (t.map f g).lower (f k) = t.lower k :=
  narrow_map t.degree h

variable {s : Nat}

theorem makeGap_map (h : Agree f k t.key s i) :
    makeGap s (f k) i (t.map f g) = (makeGap s k i t).map (Prod.map id (map f g)) := by
  induction i generalizing t with
  | zero => rfl
  | succ i ih =>
    rw [makeGap, makeGap]
    split
    next hs =>
      refine bind_eq_map_bind read_key_map fun a ha => ?_
      obtain ⟨hB, rfl⟩ := read_eq_some ha
      rw [if_congr (h i (by omega) (by omega)) rfl rfl]
      split
      · refine bind_eq_map_bind copy_map fun t' ht' => ih fun j h1 h2 => ?_
        rw [key_of_copy ht' (by omega)]
        exact h j h1 (by omega)
      · rfl
    next => rfl

theorem addEntry_map (h : Agree f k t.key t.start t.degree) :
    (t.map f g).addEntry (f k) (g p) = (t.addEntry k p).map (map f g) :=
  bind_eq_map_bind (makeGap_map h) fun (_, _) _ => bind_eq_map_bind put_map fun _ _ => rfl

theorem fillUpper_map {new : Block κ ν} {done : Bool} (j : Nat) (h : Agree f k t.key (i - j) i) :
    fillUpper (t.map f g) (f k) (g p) j i done (new.map f g) =
      (fillUpper t k p j i done new).map (Prod.map id (Prod.map id (map f g))) := by
  induction j generalizing i done new with
  | zero => rfl
  | succ j ih =>
    cases i with
    | zero => rfl
    | succ i =>
      refine bind_eq_map_bind read_key_map fun a ha => ?_
      obtain ⟨hB, rfl⟩ := read_eq_some ha
      have hk := h i (by omega) (by omega)
      simp only [hk]
      split
      · exact bind_eq_map_bind copy_map fun _ _ => ih fun m h1 h2 => h m (by omega) (by omega)
      · exact bind_eq_map_bind put_map fun _ _ => ih fun m h1 h2 => h m (by omega) h2

theorem fillLower_map (h : Agree f k t.key s i) :
    fillLower s (f k) (g p) i (t.map f g) = (fillLower s k p i t).map (map f g) := by
  induction i generalizing t with
  | zero => exact put_map
  | succ i ih =>
    refine bind_eq_map_bind read_key_map fun a ha => ?_
    obtain ⟨hB, rfl⟩ := read_eq_some ha
    have hk : f k < f (t.key i) ∧ s ≤ i ↔ k < t.key i ∧ s ≤ i :=
      and_congr_left fun hs => h i hs (by omega)
    simp only [hk]
    split
    · refine bind_eq_map_bind copy_map fun t' ht' => ih fun j h1 h2 => ?_
      rw [key_of_copy ht' (by omega)]
      exact h j h1 (by omega)
    · exact put_map

theorem split_map {fresh : Block κ ν} (h : Agree f k t.key t.start B) :
    (t.map f g).split (fresh.map f g) (f k) (g p) =
      (t.split fresh k p).map (Prod.map (map f g) (map f g)) := by
  have hs : t.start ≤ 1 := by
    unfold start
    split <;> omega
  refine bind_eq_map_bind (fillUpper_map 2 fun i h1 h2 =>
      h i (hs.trans (le_trans (by decide) h1)) h2)
    fun (i, done, new) hnew => ?_
  have hi : i ≤ B := by
    rw [show fillUpper t k p ((B - 1) / 2 + 1) B false fresh = _ from fillUpper_eq fresh] at hnew
    split_ifs at hnew <;> cases hnew <;> decide
  cases done with
  | true => rfl
  | false =>
    exact bind_eq_map_bind (fillLower_map fun j h1 h2 => h j h1 (h2.trans_le hi)) fun _ _ => rfl

end Block

/-! ## Trees -/

def Cell.map (f : κ → κ') : Cell κ ο → Cell κ' ο
  | object o => object o
  | node degree height key next => node degree height (f ∘ key) fun i => (next i).map f

/-- A tree with other keys. -/
def mapKeys (f : κ → κ') (t : Node κ ο) : Node κ' ο := t.map f (Cell.map f)

def Frame.map (f : κ → κ') (x : Frame κ ο) : Frame κ' ο := ⟨mapKeys f x.block, x.index⟩

variable {f : κ → κ'} {t fresh : Node κ ο} {i : Nat} {k : κ} {p : Cell κ ο}

theorem cell_mapKeys : (mapKeys f t).cell = t.cell.map f := rfl

theorem fill_map {x : Frame κ ο} : (x.map f).fill (mapKeys f t) = mapKeys f (x.fill t) := by
  rw [Frame.fill, cell_mapKeys]
  simp only [Frame.fill, Frame.map, mapKeys, Block.map, Function.comp_update]

theorem plug_map (path : List (Frame κ ο)) :
    plug (mapKeys f t) (path.map (Frame.map f)) = mapKeys f (plug t path) := by
  induction path generalizing t with
  | nil => rfl
  | cons x path ih => rw [map_cons, plug, plug, fill_map, ih]

variable {u : Node κ ο}

theorem setChild_map :
    (mapKeys f t).setNext i (mapKeys f u).cell = (t.setNext i u.cell).map (mapKeys f) :=
  Block.setNext_map (p := u.cell)

theorem putChild_map :
    (mapKeys f t).put i (f k) (mapKeys f u).cell = (t.put i k u.cell).map (mapKeys f) :=
  Block.put_map (p := u.cell)

theorem growRoot_map {new : Node κ ο} :
    growRoot (mapKeys f fresh) (mapKeys f t) (f k) (mapKeys f new) =
      (growRoot fresh t k new).map (mapKeys f) := by
  refine bind_eq_map_bind (Block.copyEntries_map _) fun low _ => ?_
  exact bind_eq_map_bind (setChild_map (u := { low with height := t.height, degree := t.degree }))
    fun _ _ => bind_eq_map_bind putChild_map fun _ _ => rfl

theorem child_map : (mapKeys f t).child i = (t.child i).map (mapKeys f) :=
  bind_eq_map_bind Block.read_next_map fun c _ => by cases c <;> rfl

theorem toList_map (c : Cell κ ο) : (c.map f).toList = c.toList.map (Prod.map f id) := by
  induction c with
  | object o => rfl
  | node degree height key next ih =>
    rw [Cell.map, Cell.toList, Cell.toList]
    split
    · rw [map_filterMap]
      refine filterMap_congr fun i _ => ?_
      simp only [pair, Function.comp_apply]
      rcases next i with (_ | o) | _ <;> rfl
    · rw [map_flatMap]
      exact flatMap_congr fun i _ => ih i

theorem toList_mapKeys : (mapKeys f t).toList = t.toList.map (Prod.map f id) := toList_map t.cell

/-! ## Underfull nodes -/

section Underfull

variable {upper neighbor src : Node κ ο} {curr height : Nat} {s : κ}

theorem joint_map : joint height (f s) (f k) = f (joint height s k) := (apply_ite f _ _ _).symm

theorem push_map : push (mapKeys f t) (f k) (p.map f) = (push t k p).map (mapKeys f) :=
  bind_eq_map_bind Block.put_map fun _ _ => rfl

theorem popFront_map : popFront (mapKeys f t) height = (popFront t height).map (mapKeys f) := by
  simp only [popFront, bind_eq_bind]
  refine bind_eq_map_bind Block.read_key_map fun _ _ =>
    bind_eq_map_bind Block.read_key_map fun _ _ =>
    bind_eq_map_bind Block.read_next_map fun _ _ => ?_
  rw [joint_map]
  exact bind_eq_map_bind Block.put_map fun _ _ =>
    bind_eq_map_bind (Block.closeGap_map _) fun _ _ => rfl

theorem shareRight_map : shareRight (mapKeys f upper) (mapKeys f t) (mapKeys f neighbor) curr =
    (shareRight upper t neighbor curr).map (mapKeys f) := by
  simp only [shareRight, bind_eq_bind]
  refine bind_eq_map_bind Block.read_key_map fun _ _ =>
    bind_eq_map_bind Block.read_key_map fun _ _ =>
    bind_eq_map_bind Block.read_next_map fun _ _ => ?_
  rw [joint_map]
  exact bind_eq_map_bind push_map fun _ _ => bind_eq_map_bind Block.read_key_map fun _ _ =>
    bind_eq_map_bind popFront_map fun _ _ => bind_eq_map_bind setChild_map fun _ _ => putChild_map

theorem appendEntries_map (rest : Nat) {j : Nat} :
    appendEntries (mapKeys f src) rest j i (mapKeys f t) =
      (appendEntries src rest j i t).map (mapKeys f) := by
  induction rest generalizing i j t with
  | zero => rfl
  | succ rest ih => exact bind_eq_map_bind Block.copy_map fun _ _ => ih

theorem absorb_map : absorb (mapKeys f t) (mapKeys f src) height (f s) =
    (absorb t src height s).map (mapKeys f) := by
  simp only [absorb, bind_eq_bind]
  refine bind_eq_map_bind Block.read_key_map fun _ _ =>
    bind_eq_map_bind Block.read_next_map fun _ _ => ?_
  rw [joint_map]
  exact bind_eq_map_bind Block.put_map fun _ _ => appendEntries_map _

theorem joinRight_map : joinRight (mapKeys f upper) (mapKeys f t) (mapKeys f neighbor) curr =
    (joinRight upper t neighbor curr).map (mapKeys f) :=
  bind_eq_map_bind Block.read_key_map fun _ _ => bind_eq_map_bind absorb_map fun _ _ =>
    bind_eq_map_bind setChild_map fun _ _ => Block.removeAt_map

theorem shiftUp_map : (j : Nat) → (t : Node κ ο) →
    shiftUp j (mapKeys f t) = (shiftUp j t).map (mapKeys f)
  | 0, _ | 1, _ => rfl
  | j + 2, _ => bind_eq_map_bind Block.copy_map fun t' _ => shiftUp_map (j + 1) t'

theorem pushFront_map : pushFront (mapKeys f t) (f s) (f k) (p.map f) =
    (pushFront t s k p).map (mapKeys f) := by
  simp only [pushFront, bind_eq_bind]
  refine bind_eq_map_bind (shiftUp_map _ t) fun _ _ =>
    bind_eq_map_bind Block.read_key_map fun _ _ =>
    bind_eq_map_bind Block.read_next_map fun _ _ => ?_
  rw [joint_map]
  refine bind_eq_map_bind Block.put_map fun _ _ => bind_eq_map_bind Block.read_key_map fun _ _ => ?_
  rw [joint_map]
  exact bind_eq_map_bind Block.put_map fun _ _ => rfl

theorem shareLeft_map : shareLeft (mapKeys f upper) (mapKeys f t) (mapKeys f neighbor) curr =
    (shareLeft upper t neighbor curr).map (mapKeys f) :=
  bind_eq_map_bind Block.read_key_map fun _ _ => bind_eq_map_bind Block.read_key_map fun _ _ =>
    bind_eq_map_bind Block.read_next_map fun _ _ => bind_eq_map_bind pushFront_map fun _ _ =>
      bind_eq_map_bind (setChild_map (u := { neighbor with degree := neighbor.degree - 1 }))
        fun _ _ => putChild_map

theorem joinLeft_map : joinLeft (mapKeys f upper) (mapKeys f t) (mapKeys f neighbor) curr =
    (joinLeft upper t neighbor curr).map (mapKeys f) :=
  bind_eq_map_bind Block.read_key_map fun _ _ => bind_eq_map_bind absorb_map fun _ _ =>
    bind_eq_map_bind setChild_map fun _ _ => rfl

theorem shrinkRoot_map : shrinkRoot (mapKeys f t) = (shrinkRoot t).map (mapKeys f) :=
  bind_eq_map_bind child_map fun _ _ => bind_eq_map_bind (Block.copyEntries_map _) fun _ _ => rfl

variable {path : List (Frame κ ο)}

theorem map_plug {o : Option (Node κ ο)} :
    (o.map (mapKeys f)).map (fun upper => plug upper (path.map (Frame.map f))) =
      (o.map fun upper => plug upper path).map (mapKeys f) := by
  cases o with
  | none => rfl
  | some u => exact congrArg some (plug_map path)

theorem deleteUp_map :
    deleteUp (mapKeys f t) (path.map (Frame.map f)) = (deleteUp t path).map (mapKeys f) := by
  induction path generalizing t with
  | nil =>
    change ite _ _ (ite _ _ (ite _ _ _)) = Option.map _ (ite _ _ (ite _ _ (ite _ _ _)))
    simp only [apply_ite (Option.map (mapKeys f)), ← shrinkRoot_map]
    rfl
  | cons x path ih =>
    have hchild : ∀ i, (x.map f).block.child i = (x.block.child i).map (mapKeys f) :=
      fun i => child_map
    rw [map_cons, deleteUp, deleteUp]
    simp only [apply_ite (Option.map (mapKeys f))]
    refine if_congr Iff.rfl (congrArg some ?_) (if_congr Iff.rfl ?_ (if_congr Iff.rfl rfl ?_))
    · exact plug_map (x :: path)
    all_goals
      refine bind_eq_map_bind (hchild _) fun neighbor _ => ?_
      rw [apply_ite (Option.map (mapKeys f))]
      refine if_congr Iff.rfl ?_ (bind_eq_map_bind ?_ fun _ _ => ih)
    · rw [← map_plug, ← shareRight_map]
      rfl
    · exact joinRight_map
    · rw [← map_plug, ← shareLeft_map]
      rfl
    · exact joinLeft_map

theorem deleteAt_map {leaf : Node κ ο} : deleteAt (mapKeys f leaf) (path.map (Frame.map f)) i =
      (deleteAt leaf path i).map (Prod.map (mapKeys f) id) := by
  simp only [deleteAt, bind_eq_bind]
  refine bind_eq_map_bind Block.read_next_map fun c _ => ?_
  have hc : (c.map f).asObject = c.asObject.map id := by cases c <;> rfl
  refine bind_eq_map_bind hc fun _ _ => bind_eq_map_bind Block.removeAt_map fun u _ => ?_
  rw [show deleteUp (u.map f (Cell.map f)) _ = _ from deleteUp_map, Option.map_map, Option.map_map]
  rfl

end Underfull

end CLangProject.AbTree
