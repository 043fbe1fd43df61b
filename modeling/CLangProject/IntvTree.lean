import CLangProject.MakeTree

/-!
# The interval tree of `ch4/intv_tree.c`

The tree is built once, over the endpoints of all intervals. An interval
`[low, up[` is kept at the first node on the way down whose key separates its
endpoints, `low ≤ key < up`, in two lists: `left_list` for queries that turn
left at the node, `right_list` for those that turn right. A query reads a list
up to the first entry that fails its test.

`place` says where the intervals go: each list of a node holds those that the
node separates, in the order of the array they were inserted from
(`leftInsertAll`, `rightInsertAll`). The left lists are therefore ordered by
`low`, and reading one up to the first miss finds what it should. The right
lists are ordered by `up` as well, the least first, and are read as if the
greatest came first. Besides, an interval without a node that separates it is
not kept at all. `Answerable` is the exact condition under which a query is
answered correctly all the same.
-/

namespace CLangProject.IntvTree

open LeafTree List Option

variable {κ : Type}

/-! ## The code -/

structure Interval (κ : Type) where
  low : κ
  up : κ
  deriving DecidableEq, Repr

structure ListNode (κ : Type) where
  key : κ
  object : Interval κ
  deriving DecidableEq, Repr

/-- The two lists of a node. -/
structure Lists (κ : Type) where
  leftList : List (ListNode κ)
  rightList : List (ListNode κ)
  deriving DecidableEq, Repr

abbrev Tree (κ : Type) := LeafTree (Lists κ) κ Unit

def emptyTree (itree : LeafTree Unit κ Unit) : Tree κ := itree.mapTag fun _ => ⟨[], []⟩

/-- Copy the entries of a list to the result, up to the first that fails the
test. -/
def collect (test : ListNode κ → Bool) : List (ListNode κ) → List (Interval κ) → List (Interval κ)
  | [], res => res
  | n :: currentList, res =>
    if test n then collect test currentList (n.object :: res) else res

section Calls

variable [LinearOrder κ]

/-- The loop of `find_intervals`. -/
def findLoop (queryKey : κ) : Tree κ → List (Interval κ) → List (Interval κ)
  | leaf _ _ _, res => res
  | node c k l r, res =>
    if queryKey < k then findLoop queryKey l (collect (fun n => n.key ≤ queryKey) c.leftList res)
    else findLoop queryKey r (collect (fun n => n.key ≥ queryKey) c.rightList res)

/-- A tree of `make_tree` has no `NULL` on the left, so that the test for the
empty tree is not needed. -/
def findIntervals (tree : Tree κ) (queryKey : κ) : List (Interval κ) := findLoop queryKey tree []

/-- Go down to the first node whose key separates the endpoints of `i` and
change its lists. -/
def insertInterval (add : Interval κ → Lists κ → Lists κ) (i : Interval κ) : Tree κ → Tree κ
  | leaf c k o => leaf c k o
  | node c k l r =>
    if i.up ≤ k then node c k (insertInterval add i l) r
    else if k < i.low then node c k l (insertInterval add i r)
    else node (add i c) k l r

def leftInsertInterval : Interval κ → Tree κ → Tree κ :=
  insertInterval fun i c => { c with leftList := ⟨i.low, i⟩ :: c.leftList }

def rightInsertInterval : Interval κ → Tree κ → Tree κ :=
  insertInterval fun i c => { c with rightList := ⟨i.up, i⟩ :: c.rightList }

end Calls

def keyList (intervals : List (Interval Key)) : List Key :=
  distinct (sortKeys (intervals.flatMap fun i => [i.low, i.up]))

/-- The tree without its lists; `main` reads `keys[-1]` if there is no
interval. -/
def makeKeyTree (intervals : List (Interval Key)) : Option (LeafTree Unit Key Unit) :=
  match intervals with
  | [] => none
  | _ :: _ => makeTree (keyEntries (keyList intervals))

/-- What `main` does before the query phase; `intervalsA` and `intervalsB` are
the arrays after they have been sorted, by `low` and by `up`. Both are gone
through from their ends. -/
def build (intervals intervalsA intervalsB : List (Interval Key)) : Option (Tree Key) := do
  let itree ← makeKeyTree intervals
  let itree := intervalsA.foldr leftInsertInterval (emptyTree itree)
  some (intervalsB.foldr rightInsertInterval itree)

/-! ## Lists -/

theorem takeWhile_eq_filter {α : Type} {p : α → Bool} {l : List α}
    (h : l.Pairwise fun i j => p j → p i) : l.takeWhile p = l.filter p := by
  induction l with
  | nil => rfl
  | cons i l ih =>
    obtain ⟨hi, hl⟩ := pairwise_cons.1 h
    by_cases hp : p i
    · simp [hp, ih hl]
    · have hnone : l.filter p = [] := filter_eq_nil_iff.2 fun j hj hpj => hp (hi j hj hpj)
      simp [hp, hnone]

/-- Two lists divided by the same property are permutations of each other if
their parts are. -/
theorem perm_append_iff {α : Type} {s : α → Bool} {P Q X Y : List α} (hP : ∀ x ∈ P, s x)
    (hQ : ∀ x ∈ Q, s x) (hX : ∀ x ∈ X, ¬ s x) (hY : ∀ x ∈ Y, ¬ s x) :
    (P ++ X).Perm (Q ++ Y) ↔ P.Perm Q ∧ X.Perm Y := by
  constructor
  · intro h
    have h1 := h.filter s
    rw [filter_append, filter_append, filter_eq_self.2 hP, filter_eq_self.2 hQ,
      filter_eq_nil_iff.2 hX, filter_eq_nil_iff.2 hY, append_nil, append_nil] at h1
    exact ⟨h1, (perm_append_left_iff Q).1 ((h1.symm.append_right X).trans h)⟩
  · exact fun h => h.1.append h.2

theorem collect_map (test : ListNode κ → Bool) (mk : Interval κ → ListNode κ)
    (hmk : ∀ i, (mk i).object = i) (is res : List (Interval κ)) :
    collect test (is.map mk) res = (is.takeWhile fun i => test (mk i)).reverse ++ res := by
  induction is generalizing res with
  | nil => rfl
  | cons i is ih =>
    by_cases h : test (mk i)
    · simp [collect, h, ih, hmk]
    · simp [collect, h]

/-! ## Where the intervals are kept -/

section Order

variable [LinearOrder κ]

/-- `k` separates the endpoints of `i`. -/
def Interval.Sep (k : κ) (i : Interval κ) : Prop := i.low ≤ k ∧ k < i.up

def Interval.Contains (q : κ) (i : Interval κ) : Prop := i.low ≤ q ∧ q < i.up

instance (k : κ) (i : Interval κ) : Decidable (i.Sep k) := inferInstanceAs (Decidable (_ ∧ _))

instance (q : κ) (i : Interval κ) : Decidable (i.Contains q) := inferInstanceAs (Decidable (_ ∧ _))

variable {q k : κ} {i : Interval κ} {A B is : List (Interval κ)} {t : LeafTree Unit κ Unit}

/-- The intervals that a node with the key `k` keeps. -/
def kept (k : κ) (is : List (Interval κ)) : List (Interval κ) := is.filter (·.Sep k)

/-- The intervals that it passes on to its left child. -/
def below (k : κ) (is : List (Interval κ)) : List (Interval κ) := is.filter (·.up ≤ k)

/-- The intervals that it passes on to its right child. -/
def above (k : κ) (is : List (Interval κ)) : List (Interval κ) := is.filter (k < ·.low)

/-- The tree with the intervals of `A` in the left lists and those of `B` in
the right lists. -/
def place (A B : List (Interval κ)) : LeafTree Unit κ Unit → Tree κ
  | leaf _ k o => leaf ⟨[], []⟩ k o
  | node _ k l r =>
    node ⟨(kept k A).map fun i => ⟨i.low, i⟩, (kept k B).map fun i => ⟨i.up, i⟩⟩ k
      (place (below k A) (below k B) l) (place (above k A) (above k B) r)

theorem emptyTree_eq (t : LeafTree Unit κ Unit) : emptyTree t = place [] [] t := by
  induction t with
  | leaf => rfl
  | node c k l r ihl ihr => exact congrArg₂ (node _ k) ihl ihr

/-- A nonempty interval goes one of three ways at a node. -/
theorem Interval.trichotomy (h : i.low < i.up) (k : κ) :
    (i.up ≤ k ∧ ¬ k < i.low ∧ ¬ i.Sep k) ∨ (¬ i.up ≤ k ∧ k < i.low ∧ ¬ i.Sep k) ∨
      (¬ i.up ≤ k ∧ ¬ k < i.low ∧ i.Sep k) := by
  unfold Interval.Sep
  rcases lt_or_ge k i.up with hup | hup
  · rcases lt_or_ge k i.low with hlow | hlow
    · exact .inr (.inl ⟨not_le_of_gt hup, hlow, fun hs => not_lt_of_ge hs.1 hlow⟩)
    · exact .inr (.inr ⟨not_le_of_gt hup, not_lt_of_ge hlow, hlow, hup⟩)
  · exact .inl ⟨hup, not_lt_of_ge (h.le.trans hup), fun hs => not_le_of_gt hs.2 hup⟩

theorem insert_place (h : i.low < i.up) (A B : List (Interval κ)) (t : LeafTree Unit κ Unit) :
    leftInsertInterval i (place A B t) = place (i :: A) B t ∧
      rightInsertInterval i (place A B t) = place A (i :: B) t := by
  induction t generalizing A B with
  | leaf => exact ⟨rfl, rfl⟩
  | node c k l r ihl ihr =>
    unfold leftInsertInterval rightInsertInterval at *
    rcases i.trichotomy h k with ⟨h1, h2, h3⟩ | ⟨h1, h2, h3⟩ | ⟨h1, h2, h3⟩
    · simp [place, insertInterval, kept, below, above, h1, h2, h3, ihl]
    · simp [place, insertInterval, kept, below, above, h1, h2, h3, ihr]
    · simp [place, insertInterval, kept, below, above, h1, h2, h3]

theorem leftInsertAll (h : ∀ i ∈ A, i.low < i.up) :
    A.foldr leftInsertInterval (emptyTree t) = place A [] t := by
  induction A with
  | nil => exact emptyTree_eq t
  | cons i A ih =>
    obtain ⟨hi, hA⟩ := forall_mem_cons.1 h
    rw [foldr_cons, ih hA, (insert_place hi ..).1]

theorem rightInsertAll (h : ∀ i ∈ B, i.low < i.up) :
    B.foldr rightInsertInterval (place A [] t) = place A B t := by
  induction B with
  | nil => rfl
  | cons i B ih =>
    obtain ⟨hi, hB⟩ := forall_mem_cons.1 h
    rw [foldr_cons, ih hB, (insert_place hi ..).2]

/-! ## What a query reads -/

/-- The intervals a query finds. -/
def found (q : κ) (A B : List (Interval κ)) : LeafTree Unit κ Unit → List (Interval κ)
  | leaf _ _ _ => []
  | node _ k l r =>
    if q < k then (kept k A).takeWhile (·.low ≤ q) ++ found q (below k A) (below k B) l
    else (kept k B).takeWhile (q ≤ ·.up) ++ found q (above k A) (above k B) r

theorem findLoop_place (A B : List (Interval κ)) (t : LeafTree Unit κ Unit)
    (res : List (Interval κ)) : (findLoop q (place A B t) res).Perm (found q A B t ++ res) := by
  have hpiece : ∀ s rest res : List (Interval κ),
      (rest ++ (s.reverse ++ res)).Perm (s ++ rest ++ res) := fun s rest res => by
    rw [← append_assoc]
    exact (perm_append_comm.trans ((reverse_perm s).append_right rest)).append_right res
  induction t generalizing A B res with
  | leaf => exact .rfl
  | node c k l r ihl ihr =>
    rw [place, findLoop, found]
    split
    · rw [collect_map _ _ fun _ => rfl]
      exact (ihl ..).trans (hpiece ..)
    · rw [collect_map _ _ fun _ => rfl]
      exact (ihr ..).trans (hpiece ..)

/-! ## When a list is read correctly -/

/-- A right list with the intervals of `is` gives the right answer: all of them
end after `q`, or none does and the one read first ends before `q`. -/
def Readable (q : κ) (is : List (Interval κ)) : Prop :=
  (∀ i ∈ is, q < i.up) ∨ (∃ i ∈ is, i.up < q) ∧ ∀ i ∈ is, i.up ≤ q

instance (q : κ) (is : List (Interval κ)) : Decidable (Readable q is) :=
  inferInstanceAs (Decidable (_ ∨ _))

theorem readable_perm (h : A.Perm B) : Readable q A ↔ Readable q B := by
  simp only [Readable, h.mem_iff]

theorem takeWhile_perm_iff (h : B.Pairwise fun i j => i.up ≤ j.up) :
    (B.takeWhile (q ≤ ·.up)).Perm (B.filter (q < ·.up)) ↔ Readable q B := by
  cases B with
  | nil => simp [Readable]
  | cons i B =>
    have hle : ∀ j ∈ i :: B, i.up ≤ j.up := fun j hj => by
      rcases mem_cons.1 hj with rfl | hj
      · exact le_rfl
      · exact (pairwise_cons.1 h).1 j hj
    rcases lt_or_ge i.up q with hlt | hge
    · -- nothing is read
      have htake : (i :: B).takeWhile (q ≤ ·.up) = [] := by simp [hlt]
      rw [htake, nil_perm, filter_eq_nil_iff]
      constructor
      · exact fun hnone => .inr ⟨⟨i, mem_cons_self, hlt⟩, fun j hj => by
          simpa using hnone j hj⟩
      · rintro (hall | ⟨-, hall⟩) j hj
        · exact absurd (hall i mem_cons_self) hlt.not_gt
        · simpa using hall j hj
    · -- the whole list is read
      have htake : (i :: B).takeWhile (q ≤ ·.up) = i :: B :=
        takeWhile_eq_self_iff.2 fun j hj => decide_eq_true (hge.trans (hle j hj))
      rw [htake]
      constructor
      · intro hperm
        exact .inl fun j hj => by simpa using (mem_filter.1 (hperm.mem_iff.1 hj)).2
      · rintro (hall | ⟨⟨j, hj, hlt⟩, -⟩)
        · exact Perm.of_eq (filter_eq_self.2 fun j hj => decide_eq_true (hall j hj)).symm
        · exact absurd (hge.trans (hle j hj)) (not_le_of_gt hlt)

/-- The query is answered correctly, in terms of the lists it reads: no interval
that contains `q` has been passed on to a leaf, and every right list on the way
is readable. -/
def Reads (q : κ) (is : List (Interval κ)) : LeafTree Unit κ Unit → Prop
  | leaf _ _ _ => ∀ i ∈ is, ¬ i.Contains q
  | node _ k l r =>
    if q < k then Reads q (below k is) l else Readable q (kept k is) ∧ Reads q (above k is) r

/-- A query that has found `P` at a node and `X` below it is right if `P` are
those of the intervals at the node, and `X` are those of the intervals passed on
to the child, that contain `q`. -/
theorem perm_turn_iff {p : Interval κ → Bool} {P X : List (Interval κ)}
    (hp : ∀ i, p i → ¬ i.Sep k) (hq : ∀ i ∈ is, i.Contains q → ¬ i.Sep k → p i)
    (hP : ∀ i ∈ P, i.Sep k) (hX : ∀ i ∈ X, ¬ i.Sep k) :
    (P ++ X).Perm (is.filter (·.Contains q)) ↔
      P.Perm ((kept k is).filter (·.Contains q)) ∧
        X.Perm ((is.filter p).filter (·.Contains q)) := by
  have hkept : (kept k is).filter (·.Contains q) =
      (is.filter (·.Contains q)).filter (fun i => decide (i.Sep k)) := by
    rw [kept, List.filter_filter, List.filter_filter]
    exact filter_congr fun i _ => Bool.and_comm _ _
  have hpassed : (is.filter p).filter (·.Contains q) =
      (is.filter (·.Contains q)).filter (fun i => !decide (i.Sep k)) := by
    rw [List.filter_filter, List.filter_filter]
    refine filter_congr fun i hi => ?_
    rw [Bool.eq_iff_iff]
    simp only [Bool.and_eq_true, decide_eq_true_eq, Bool.not_eq_true', decide_eq_false_iff_not]
    exact ⟨fun h => ⟨hp i h.2, h.1⟩, fun h => ⟨h.2, hq i hi h.2 h.1⟩⟩
  have hsplit := filter_append_perm (fun i : Interval κ => decide (i.Sep k))
    (is.filter (·.Contains q))
  rw [hkept, hpassed, ← hsplit.congr_right]
  refine perm_append_iff (s := fun i => decide (i.Sep k)) ?_ ?_ ?_ ?_
  · exact fun i hi => decide_eq_true (hP i hi)
  · exact fun i hi => (mem_filter.1 hi).2
  · exact fun i hi h => hX i hi (of_decide_eq_true h)
  · exact fun i hi h => by simp [h] at hi

theorem mem_found (h : i ∈ found q A B t) : i ∈ A ∨ i ∈ B := by
  induction t generalizing A B with
  | leaf => simp [found] at h
  | node c k l r ihl ihr =>
    have hsub : ∀ {p : Interval κ → Bool}, (i ∈ A.filter p ∨ i ∈ B.filter p) → i ∈ A ∨ i ∈ B :=
      Or.imp (mem_of_mem_filter) (mem_of_mem_filter)
    rw [found] at h
    split at h
    · rcases mem_append.1 h with h | h
      · exact hsub (.inl ((takeWhile_sublist _).subset h))
      · exact hsub (ihl h)
    · rcases mem_append.1 h with h | h
      · exact hsub (.inr ((takeWhile_sublist _).subset h))
      · exact hsub (ihr h)

theorem sep_of_mem_kept (h : i ∈ kept k is) : i.Sep k := of_decide_eq_true (mem_filter.1 h).2

/-- On a left turn the list is read correctly. -/
theorem takeWhile_low_perm (hA : A.Perm is) (hlow : A.Pairwise fun i j => i.low ≤ j.low)
    (hq : q < k) :
    ((kept k A).takeWhile (·.low ≤ q)).Perm ((kept k is).filter (·.Contains q)) := by
  have hsorted : (kept k A).Pairwise fun i j => i.low ≤ j.low := hlow.filter _
  rw [takeWhile_eq_filter (hsorted.imp fun hle h =>
    decide_eq_true (hle.trans (of_decide_eq_true h)))]
  have hcongr : (kept k A).filter (·.low ≤ q) = (kept k A).filter (·.Contains q) :=
    filter_congr fun i hi => by
      simp [Interval.Contains, hq.trans (sep_of_mem_kept hi).2]
  rw [hcongr]
  exact (hA.filter _).filter _

/-- On a right turn it need not be. -/
theorem takeWhile_up_perm_iff (hB : B.Perm is) (hup : B.Pairwise fun i j => i.up ≤ j.up)
    (hq : k ≤ q) :
    ((kept k B).takeWhile (q ≤ ·.up)).Perm ((kept k is).filter (·.Contains q)) ↔
      Readable q (kept k is) := by
  have hcongr : (kept k B).filter (q < ·.up) = (kept k B).filter (·.Contains q) :=
    filter_congr fun i hi => by
      simp [Interval.Contains, (sep_of_mem_kept hi).1.trans hq]
  have hkept : (kept k B).Perm (kept k is) := hB.filter _
  have hsorted : (kept k B).Pairwise fun i j => i.up ≤ j.up := hup.filter _
  rw [← (hkept.filter _).congr_right, ← hcongr, takeWhile_perm_iff hsorted]
  exact readable_perm hkept

theorem found_perm_iff (hA : A.Perm is) (hB : B.Perm is)
    (hlow : A.Pairwise fun i j => i.low ≤ j.low) (hup : B.Pairwise fun i j => i.up ≤ j.up) :
    (found q A B t).Perm (is.filter (·.Contains q)) ↔ Reads q is t := by
  induction t generalizing A B is with
  | leaf => simp [found, Reads, nil_perm]
  | node c k l r ihl ihr =>
    rw [found, Reads]
    by_cases hq : q < k
    · have hnot : ∀ i : Interval κ, decide (i.up ≤ k) → ¬ i.Sep k := fun i hi hs =>
        not_le_of_gt hs.2 (of_decide_eq_true hi)
      rw [if_pos hq, if_pos hq, perm_turn_iff (p := fun i => decide (i.up ≤ k)) hnot,
        and_iff_right (takeWhile_low_perm hA hlow hq)]
      · exact ihl (hA.filter _) (hB.filter _) (hlow.filter _) (hup.filter _)
      · exact fun i _ hc hs => decide_eq_true (not_lt.1 fun h => hs ⟨hc.1.trans hq.le, h⟩)
      · exact fun i hi => sep_of_mem_kept ((takeWhile_sublist _).subset hi)
      · exact fun i hi => hnot i
          ((mem_found hi).elim (fun h => (mem_filter.1 h).2) fun h => (mem_filter.1 h).2)
    · have hnot : ∀ i : Interval κ, decide (k < i.low) → ¬ i.Sep k := fun i hi hs =>
        not_lt_of_ge hs.1 (of_decide_eq_true hi)
      rw [if_neg hq, if_neg hq, perm_turn_iff (p := fun i => decide (k < i.low)) hnot,
        takeWhile_up_perm_iff hB hup (not_lt.1 hq)]
      · exact and_congr_right fun _ =>
          ihr (hA.filter _) (hB.filter _) (hlow.filter _) (hup.filter _)
      · exact fun i _ hc hs =>
          decide_eq_true (not_le.1 fun h => hs ⟨h, (not_lt.1 hq).trans_lt hc.2⟩)
      · exact fun i hi => sep_of_mem_kept ((takeWhile_sublist _).subset hi)
      · exact fun i hi => hnot i
          ((mem_found hi).elim (fun h => (mem_filter.1 h).2) fun h => (mem_filter.1 h).2)

/-! ## The condition in terms of the intervals -/

/-- The key of the node that keeps `i`. -/
def home (i : Interval κ) : LeafTree Unit κ Unit → Option κ
  | leaf _ _ _ => none
  | node _ k l r => if i.up ≤ k then home i l else if k < i.low then home i r else some k

/-- The keys at which the search for `q` turns right. -/
def turns (q : κ) : LeafTree Unit κ Unit → List κ
  | leaf _ _ _ => []
  | node _ k l r => if q < k then turns q l else k :: turns q r

theorem home_eq_some (h : home i t = some k) : Interior k t ∧ i.Sep k := by
  induction t with
  | leaf => simp [home] at h
  | node c k' l r ihl ihr =>
    unfold home at h
    split at h
    case isTrue => exact ⟨.inr (.inl (ihl h).1), (ihl h).2⟩
    case isFalse hup =>
      split at h
      case isTrue => exact ⟨.inr (.inr (ihr h).1), (ihr h).2⟩
      case isFalse hlow =>
        obtain rfl := some.inj h
        exact ⟨.inl rfl, not_lt.1 hlow, not_le.1 hup⟩

theorem interior_of_mem_turns (h : k ∈ turns q t) : Interior k t := by
  induction t with
  | leaf => simp [turns] at h
  | node c k' l r ihl ihr =>
    unfold turns at h
    split at h
    · exact .inr (.inl (ihl h))
    · rcases mem_cons.1 h with rfl | h
      · exact .inl rfl
      · exact .inr (.inr (ihr h))

/-- An interval is kept if there is a key that separates its endpoints. -/
theorem home_eq_none_iff (hs : t.Search) (he : t.Exact) (hi : i.low < i.up) :
    home i t = none ↔ ∀ k, Interior k t → ¬ i.Sep k := by
  induction t with
  | leaf => simp [home, Interior]
  | node c k l r ihl ihr =>
    obtain ⟨-, -, hsl, hsr⟩ := id hs
    obtain ⟨-, hel, her⟩ := id he
    have hcases := fun x hx => Interior.cases (x := x) hs he hx
    rw [home]
    rcases i.trichotomy hi k with ⟨h1, -, h3⟩ | ⟨h1, h2, h3⟩ | ⟨h1, h2, h3⟩
    · rw [if_pos h1, ihl hsl hel]
      refine ⟨fun h x hx => ?_, fun h x hx => h x (.inr (.inl hx))⟩
      rcases hcases x hx with rfl | ⟨-, hx⟩ | ⟨hlt, -⟩
      · exact h3
      · exact h x hx
      · exact fun hsep => not_lt_of_ge h1 (hlt.trans hsep.2)
    · rw [if_neg h1, if_pos h2, ihr hsr her]
      refine ⟨fun h x hx => ?_, fun h x hx => h x (.inr (.inr hx))⟩
      rcases hcases x hx with rfl | ⟨hlt, -⟩ | ⟨-, hx⟩
      · exact h3
      · exact fun hsep => not_le_of_gt h2 (hsep.1.trans hlt.le)
      · exact h x hx
    · rw [if_neg h1, if_neg h2]
      exact iff_of_false (by simp) fun h => h k (.inl rfl) h3

/-- The intervals a node keeps, by its key. -/
def keptAt (t : LeafTree Unit κ Unit) (k : κ) (is : List (Interval κ)) : List (Interval κ) :=
  is.filter fun i => home i t = some k

theorem home_node_iff {c : Unit} {x : κ} {l r : LeafTree Unit κ Unit} (hi : i.low < i.up) :
    home i (node c k l r) = some x ↔
      (i.Sep k ∧ k = x) ∨ (home i l = some x ∧ i.up ≤ k) ∨ (home i r = some x ∧ k < i.low) := by
  rw [home]
  rcases i.trichotomy hi k with ⟨h1, h2, h3⟩ | ⟨h1, h2, h3⟩ | ⟨h1, h2, h3⟩
  · simp [h1, h2, h3]
  · simp [h1, h2, h3]
  · simp [h1, h2, h3]

section Node

variable {c : Unit} {x : κ} {l r : LeafTree Unit κ Unit}

section

variable (hs : (node c k l r).Search) (he : (node c k l r).Exact)
include hs he

theorem interior_left_lt (hx : Interior x l) : x < k := by
  obtain ⟨hl, -, hsl, -⟩ := hs
  obtain ⟨-, o, ho⟩ := hsl.firstKey_lt he.2.1 hx
  exact hl _ ho

theorem lt_interior_right (hx : Interior x r) : k < x := by
  obtain ⟨-, -, -, hsr⟩ := hs
  exact he.1 ▸ (hsr.firstKey_lt he.2.2 hx).1

end

variable (hs : (node c k l r).Search) (he : (node c k l r).Exact) (his : ∀ i ∈ is, i.low < i.up)

include hs he his

theorem keptAt_self : keptAt (node c k l r) k is = kept k is := by
  refine filter_congr fun i hi => decide_eq_decide.2 ?_
  rw [home_node_iff (his i hi)]
  constructor
  · rintro (⟨h, -⟩ | ⟨h, -⟩ | ⟨h, -⟩)
    · exact h
    · exact absurd (interior_left_lt hs he (home_eq_some h).1) (lt_irrefl k)
    · exact absurd (lt_interior_right hs he (home_eq_some h).1) (lt_irrefl k)
  · exact fun h => .inl ⟨h, rfl⟩

theorem keptAt_left (hx : Interior x l) : keptAt (node c k l r) x is = keptAt l x (below k is) := by
  have hlt := interior_left_lt hs he hx
  rw [keptAt, keptAt, below, List.filter_filter]
  refine filter_congr fun i hi => ?_
  rw [← Bool.decide_and, decide_eq_decide, home_node_iff (his i hi)]
  constructor
  · rintro (⟨-, rfl⟩ | h | ⟨h, -⟩)
    · exact absurd hlt (lt_irrefl k)
    · exact h
    · exact absurd (lt_interior_right hs he (home_eq_some h).1) hlt.not_gt
  · exact fun h => .inr (.inl h)

theorem keptAt_right (hx : Interior x r) :
    keptAt (node c k l r) x is = keptAt r x (above k is) := by
  have hlt := lt_interior_right hs he hx
  rw [keptAt, keptAt, above, List.filter_filter]
  refine filter_congr fun i hi => ?_
  rw [← Bool.decide_and, decide_eq_decide, home_node_iff (his i hi)]
  constructor
  · rintro (⟨-, rfl⟩ | ⟨h, -⟩ | h)
    · exact absurd hlt (lt_irrefl k)
    · exact absurd (interior_left_lt hs he (home_eq_some h).1) hlt.not_gt
    · exact h
  · exact fun h => .inr (.inr h)

end Node

theorem reads_iff (hs : t.Search) (he : t.Exact) (his : ∀ i ∈ is, i.low < i.up) :
    Reads q is t ↔ (∀ i ∈ is, i.Contains q → home i t ≠ none) ∧
      ∀ k ∈ turns q t, Readable q (keptAt t k is) := by
  induction t generalizing is with
  | leaf => simp [Reads, home, turns]
  | node c k l r ihl ihr =>
    obtain ⟨-, -, hsl, hsr⟩ := id hs
    obtain ⟨-, hel, her⟩ := id he
    have hbelow : ∀ i ∈ below k is, i.low < i.up := fun i hi => his i (mem_of_mem_filter hi)
    have habove : ∀ i ∈ above k is, i.low < i.up := fun i hi => his i (mem_of_mem_filter hi)
    rw [Reads, turns]
    by_cases hq : q < k
    · rw [if_pos hq, if_pos hq, ihl hsl hel hbelow]
      refine and_congr ⟨fun h i hi hc => ?_, fun h i hi hc => ?_⟩
        (forall₂_congr fun x hx => by rw [keptAt_left hs he his (interior_of_mem_turns hx)])
      · rw [home]
        split
        case isTrue hup => exact h i (mem_filter.2 ⟨hi, decide_eq_true hup⟩) hc
        case isFalse => simp [not_lt_of_ge (hc.1.trans hq.le)]
      · obtain ⟨hi, hup⟩ := mem_filter.1 hi
        have := h i hi hc
        rwa [home, if_pos (of_decide_eq_true hup)] at this
    · rw [if_neg hq, if_neg hq, ihr hsr her habove,
        forall_mem_cons, keptAt_self hs he his, and_left_comm]
      refine and_congr ⟨fun h i hi hc => ?_, fun h i hi hc => ?_⟩ (and_congr_right fun _ =>
        forall₂_congr fun x hx => by rw [keptAt_right hs he his (interior_of_mem_turns hx)])
      · rw [home, if_neg (not_le_of_gt ((not_lt.1 hq).trans_lt hc.2))]
        split
        case isTrue hlow => exact h i (mem_filter.2 ⟨hi, decide_eq_true hlow⟩) hc
        case isFalse => simp
      · obtain ⟨hi, hlow⟩ := mem_filter.1 hi
        have hlow : k < i.low := of_decide_eq_true hlow
        have := h i hi hc
        rwa [home, if_neg (not_le_of_gt (hlow.trans (his i hi))), if_pos hlow] at this

/-- When a query for `q` is answered correctly: every interval that contains `q`
has an endpoint of some interval, other than the least of all, below its own
upper end and not below its lower end; and where the search turns right, the
intervals kept at the node either all end after `q`, or all end at or before
`q` and one of them before it. -/
structure Answerable (q : κ) (is : List (Interval κ)) (keys : List κ)
    (t : LeafTree Unit κ Unit) : Prop where
  separated : ∀ i ∈ is, i.Contains q → ∃ x ∈ keys, (∃ y ∈ keys, y < x) ∧ i.Sep x
  readable : ∀ k ∈ turns q t, Readable q (keptAt t k is)

theorem reads_iff_answerable {keys : List κ} (hs : t.Search) (he : t.Exact)
    (htl : t.toList = keyEntries keys) (his : ∀ i ∈ is, i.low < i.up) :
    Reads q is t ↔ Answerable q is keys t := by
  have hinterior : ∀ x, Interior x t ↔ x ∈ keys ∧ ∃ y ∈ keys, y < x := by
    have hmem : ∀ x, (x, ()) ∈ t.toList ↔ x ∈ keys := fun x => by simp [htl, keyEntries]
    intro x
    constructor
    · intro hx
      obtain ⟨hlt, ⟨⟩, hx⟩ := hs.firstKey_lt he hx
      obtain ⟨⟨⟩, hfirst⟩ := t.firstKey_mem
      exact ⟨(hmem x).1 hx, t.firstKey, (hmem _).1 hfirst, hlt⟩
    · rintro ⟨hx, y, hy, hlt⟩
      exact hs.interior he ((hmem x).2 hx) ((hs.firstKey_le ((hmem y).2 hy)).trans_lt hlt)
  have hhome : ∀ i ∈ is, (home i t ≠ none ↔ ∃ x ∈ keys, (∃ y ∈ keys, y < x) ∧ i.Sep x) := by
    intro i hi
    rw [ne_eq, home_eq_none_iff hs he (his i hi)]
    simp only [hinterior, not_forall, not_not, exists_prop, and_assoc]
  rw [reads_iff hs he his]
  constructor
  · intro h
    exact ⟨fun i hi hc => (hhome i hi).1 (h.1 i hi hc), h.2⟩
  · intro h
    exact ⟨fun i hi hc => (hhome i hi).2 (h.separated i hi hc), h.readable⟩

end Order

/-- `[1, 4[`, `[2, 6[` and `[3, 7[`, in the order of their endpoints on either
side. -/
def threeIntervals : List (Interval Key) :=
  [⟨⟨1, by decide⟩, ⟨4, by decide⟩⟩, ⟨⟨2, by decide⟩, ⟨6, by decide⟩⟩,
    ⟨⟨3, by decide⟩, ⟨7, by decide⟩⟩]

/-- The single interval `[1, 2[`. -/
def oneInterval : List (Interval Key) := [⟨⟨1, by decide⟩, ⟨2, by decide⟩⟩]

end CLangProject.IntvTree
