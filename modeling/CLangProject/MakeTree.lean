import CLangProject.Key
import CLangProject.LeafContext

/-!
# Building a leaf tree from a sorted list

The programs of `ch4` that answer queries on a fixed set build their tree once,
with a function `make_tree` that all of them share. It takes a sorted list of
entries and expands a root into as many leaves as the list is long, halving
the number at each node. The nodes still to be expanded wait on an array of
100 entries.

The tree that results is in search order, and more: the key of an interior
node is exactly the least key on its right (`Exact`). So each key but the least
one stands in exactly one interior node, and a search for it meets that node.
-/

namespace CLangProject

open List

namespace LeafTree

variable {τ κ ο : Type*}

/-! ## Exact trees -/

/-- The key of the leftmost leaf. -/
def firstKey : LeafTree τ κ ο → κ
  | leaf _ k _ => k
  | node _ _ l _ => l.firstKey

/-- Every interior node has the key of the first leaf on its right. -/
def Exact : LeafTree τ κ ο → Prop
  | leaf _ _ _ => True
  | node _ k l r => k = r.firstKey ∧ l.Exact ∧ r.Exact

/-- `x` is the key of an interior node. -/
def Interior (x : κ) : LeafTree τ κ ο → Prop
  | leaf _ _ _ => False
  | node _ k l r => x = k ∨ Interior x l ∨ Interior x r

theorem firstKey_mem (t : LeafTree τ κ ο) : ∃ o, (t.firstKey, o) ∈ t.toList := by
  induction t with
  | leaf c k o => exact ⟨o, by simp [firstKey, toList]⟩
  | node c k l r ihl _ =>
    obtain ⟨o, ho⟩ := ihl
    exact ⟨o, by simp [firstKey, toList, ho]⟩

section Order

variable [LinearOrder κ]

variable {t : LeafTree τ κ ο} {p : κ × ο} {x : κ}

theorem Search.firstKey_le (h : t.Search) (hp : p ∈ t.toList) : t.firstKey ≤ p.1 := by
  induction t with
  | leaf c k o =>
    obtain rfl : p = (k, o) := by simpa [toList] using hp
    exact le_refl k
  | node c k l r ihl _ =>
    obtain ⟨hl, hr, hsl, -⟩ := h
    rcases mem_append.1 hp with hp | hp
    · exact ihl hsl hp
    · obtain ⟨o, ho⟩ := l.firstKey_mem
      exact (hl _ ho).le.trans (hr p hp)

/-- The keys of a list of entries determine the search order of an exact tree. -/
theorem Exact.search (h : t.Exact) (hs : t.toList.Pairwise fun p q => p.1 < q.1) : t.Search := by
  induction t with
  | leaf => trivial
  | node c k l r ihl ihr =>
    obtain ⟨rfl, hl, hr⟩ := h
    obtain ⟨hsl, hsr, hlr⟩ := pairwise_append.1 hs
    obtain ⟨o, ho⟩ := r.firstKey_mem
    exact ⟨fun p hp => hlr p hp _ ho, fun p hp => (ihr hr hsr).firstKey_le hp, ihl hl hsl,
      ihr hr hsr⟩

/-- The keys of the interior nodes are keys of leaves, but not the first one. -/
theorem Search.firstKey_lt (h : t.Search) (he : t.Exact) (hx : Interior x t) :
    t.firstKey < x ∧ ∃ o, (x, o) ∈ t.toList := by
  induction t with
  | leaf => exact hx.elim
  | node c k l r ihl ihr =>
    obtain ⟨hl, hr, hsl, hsr⟩ := h
    obtain ⟨rfl, hel, her⟩ := he
    obtain ⟨o, ho⟩ := l.firstKey_mem
    have hk : (node c r.firstKey l r).firstKey < r.firstKey := hl _ ho
    rcases hx with rfl | hx | hx
    · obtain ⟨o, ho⟩ := r.firstKey_mem
      exact ⟨hk, o, by simp [toList, ho]⟩
    · obtain ⟨hx, o, ho⟩ := ihl hsl hel hx
      exact ⟨hx, o, by simp [toList, ho]⟩
    · obtain ⟨hx, o, ho⟩ := ihr hsr her hx
      exact ⟨hk.trans hx, o, by simp [toList, ho]⟩

/-- Where the search for the key of an interior node goes on. -/
theorem Interior.cases {c : τ} {k : κ} {l r : LeafTree τ κ ο} (h : (node c k l r).Search)
    (he : (node c k l r).Exact) (hx : Interior x (node c k l r)) :
    x = k ∨ (x < k ∧ Interior x l) ∨ (k < x ∧ Interior x r) := by
  obtain ⟨hl, -, hsl, hsr⟩ := h
  obtain ⟨hk, hel, her⟩ := he
  rcases hx with rfl | hx | hx
  · exact .inl rfl
  · obtain ⟨-, o, ho⟩ := hsl.firstKey_lt hel hx
    exact .inr (.inl ⟨hl _ ho, hx⟩)
  · exact .inr (.inr ⟨hk ▸ (hsr.firstKey_lt her hx).1, hx⟩)

/-- Every key but the first is the key of an interior node. -/
theorem Search.interior (h : t.Search) (he : t.Exact) (hp : p ∈ t.toList) (hlt : t.firstKey < p.1) :
    Interior p.1 t := by
  induction t with
  | leaf c k o =>
    obtain rfl : p = (k, o) := by simpa [toList] using hp
    exact absurd hlt (lt_irrefl k)
  | node c k l r ihl ihr =>
    obtain ⟨-, hr, hsl, hsr⟩ := h
    obtain ⟨rfl, hel, her⟩ := he
    rcases mem_append.1 hp with hp | hp
    · exact .inr (.inl (ihl hsl hel hp hlt))
    · rcases (hr p hp).eq_or_lt with heq | hlt
      · exact .inl heq.symm
      · exact .inr (.inr (ihr hsr her hp hlt))

end Order

/-! ## Trees that differ in their tags only -/

section Alike

variable {τ' : Type*} {t : LeafTree τ κ ο} {t' : LeafTree τ' κ ο}

/-- The same nodes with the same keys and entries, whatever their tags. -/
def Alike (t : LeafTree τ κ ο) (t' : LeafTree τ' κ ο) : Prop :=
  t.mapTag (fun _ => ()) = t'.mapTag fun _ => ()

theorem alike_mapTag (f : τ → τ') (t : LeafTree τ κ ο) : Alike (t.mapTag f) t := by
  induction t with
  | leaf => rfl
  | node c k l r ihl ihr => exact congrArg₂ (node () k) ihl ihr

theorem alike_paint (c : τ) (t : LeafTree τ κ ο) : Alike (t.paint c) t := by cases t <;> rfl

theorem Alike.node {c : τ} {c' : τ'} {k : κ} {l r : LeafTree τ κ ο} {l' r' : LeafTree τ' κ ο}
    (hl : Alike l l') (hr : Alike r r') : Alike (node c k l r) (node c' k l' r') :=
  congrArg₂ (LeafTree.node () k) hl hr

theorem firstKey_mapTag (f : τ → τ') (t : LeafTree τ κ ο) : (t.mapTag f).firstKey = t.firstKey := by
  induction t with
  | leaf => rfl
  | node c k l r ihl _ => exact ihl

theorem exact_mapTag (f : τ → τ') (t : LeafTree τ κ ο) : (t.mapTag f).Exact ↔ t.Exact := by
  induction t with
  | leaf => rfl
  | node c k l r ihl ihr => simp [mapTag, Exact, firstKey_mapTag, ihl, ihr]

theorem interior_mapTag (f : τ → τ') (t : LeafTree τ κ ο) (x : κ) :
    Interior x (t.mapTag f) ↔ Interior x t := by
  induction t with
  | leaf => rfl
  | node c k l r ihl ihr => simp [mapTag, Interior, ihl, ihr]

theorem Alike.exact (h : Alike t t') : t.Exact ↔ t'.Exact := by
  rw [← exact_mapTag fun _ => (), h, exact_mapTag]

theorem Alike.interior (h : Alike t t') (x : κ) : Interior x t ↔ Interior x t' := by
  rw [← interior_mapTag fun _ => (), h, interior_mapTag]

theorem Alike.search [LinearOrder κ] (h : Alike t t') : t.Search ↔ t'.Search := by
  rw [← search_mapTag (f := fun _ => ()), h, search_mapTag]

end Alike

/-! ## `make_tree` -/

/-- Expand one node, with `sp` others left on the stack, into `number` leaves
filled from `list`. Its left child is expanded completely before its right
child, the number of which waits on the stack. The first leaf of the right
child fills in the key of the node. In the code `length` and `number` are of type
`int`: the list has less than `2 ^ 31` entries. -/
def makeTreeFrom : Nat → Nat → Nat → List (κ × ο) → Option (LeafTree Unit κ ο × List (κ × ο))
  | 0, _, _, _ => none
  | fuel + 1, number, sp, list =>
    if 1 < number then
      -- `stack[ st_p++ ]` twice: the array has 100 entries
      if sp + 2 ≤ 100 then do
        let (l, list) ← makeTreeFrom fuel (number / 2) (sp + 1) list
        let (r, list) ← makeTreeFrom fuel (number - number / 2) sp list
        some (node () r.firstKey l r, list)
      else none
    else
      match list with
      | [] => none
      | (k, o) :: list => some (leaf () k o, list)

/-- `make_tree`. A number of leaves is halved at every step, so that the
recursion is no deeper than the list is long. -/
def makeTree (list : List (κ × ο)) : Option (LeafTree Unit κ ο) :=
  (makeTreeFrom (list.length + 1) list.length 0 list).map Prod.fst

theorem makeTreeFrom_ok (fuel number sp d : Nat) (list : List (κ × ο)) (hpos : 0 < number)
    (hfuel : number ≤ fuel) (hlen : number ≤ list.length) (hd : number ≤ 2 ^ d)
    (hsp : sp + d < 100) :
    ∃ t, makeTreeFrom fuel number sp list = some (t, list.drop number) ∧
      t.toList = list.take number ∧ t.Exact ∧ t.height ≤ d + 1 := by
  induction fuel generalizing number sp d list with
  | zero => omega
  | succ fuel ih =>
    by_cases hn : 1 < number
    · obtain ⟨d, rfl⟩ : ∃ d', d = d' + 1 := Nat.exists_eq_succ_of_ne_zero fun h => by subst h; omega
      rw [Nat.pow_succ] at hd
      obtain ⟨l, hl, hltl, hle, hlh⟩ :=
        ih (number / 2) (sp + 1) d list (by omega) (by omega) (by omega) (by omega) (by omega)
      obtain ⟨r, hr, hrtl, hre, hrh⟩ :=
        ih (number - number / 2) sp d (list.drop (number / 2)) (by omega) (by omega)
          (by rw [length_drop]; omega) (by omega) (by omega)
      have hhalf : number / 2 + (number - number / 2) = number := by omega
      rw [drop_drop, hhalf] at hr
      refine ⟨node () r.firstKey l r, ?_, ?_, ⟨rfl, hle, hre⟩, ?_⟩
      · simp [makeTreeFrom, hn, show sp + 2 ≤ 100 by omega, hl, hr]
      · rw [toList, hltl, hrtl, ← take_add, hhalf]
      · simp only [height]
        omega
    · obtain rfl : number = 1 := by omega
      obtain ⟨⟨k, o⟩, list, rfl⟩ := exists_cons_of_length_pos hlen
      exact ⟨leaf () k o, by simp [makeTreeFrom], by simp [toList], trivial, by simp [height]⟩

variable [LinearOrder κ]

/-- A list of entries with increasing keys becomes an exact search tree. -/
theorem makeTree_ok {d : Nat} {list : List (κ × ο)} (hne : list ≠ [])
    (hs : list.Pairwise fun p q => p.1 < q.1) (hlen : list.length ≤ 2 ^ d) (hd : d < 100) :
    ∃ t, makeTree list = some t ∧ t.toList = list ∧ t.Search ∧ t.Exact ∧ t.height ≤ d + 1 := by
  obtain ⟨t, ht, htl, he, hh⟩ := makeTreeFrom_ok (list.length + 1) list.length 0 d list
    (length_pos_iff.2 hne) (Nat.le_succ _) le_rfl hlen (by omega)
  rw [take_length] at htl
  exact ⟨t, by rw [makeTree, ht]; rfl, htl, he.search (htl ▸ hs), he, hh⟩

end LeafTree

/-! ## The list of keys -/

section Distinct

variable {κ : Type*} [LinearOrder κ]

/-- Put `key` in front of the list, unless it is there already. -/
def pushKey (key : κ) : List κ → List κ
  | [] => [key]
  | prev :: list => if key = prev then prev :: list else key :: prev :: list

/-- The loop of `main` that turns the array of keys, which it has sorted, into
the list for `make_tree`, from the end of the array on. -/
def distinct (keys : List κ) : List κ := keys.foldr pushKey []

/-- The endpoints of the intervals, as `main` sorts them. -/
def sortKeys (keys : List κ) : List κ := keys.insertionSort (· ≤ ·)

variable {list keys : List κ} {key x : κ}

theorem mem_pushKey : x ∈ pushKey key list ↔ x = key ∨ x ∈ list := by
  cases list with
  | nil => simp [pushKey]
  | cons prev list => by_cases h : key = prev <;> simp [pushKey, h]

theorem mem_distinct : x ∈ distinct keys ↔ x ∈ keys := by
  induction keys with
  | nil => exact Iff.rfl
  | cons key keys ih => rw [distinct, foldr_cons, mem_pushKey, mem_cons, ← ih, distinct]

theorem pushKey_increasing (h : list.Pairwise (· < ·)) (hle : ∀ x ∈ list, key ≤ x) :
    (pushKey key list).Pairwise (· < ·) := by
  cases list with
  | nil => simp [pushKey]
  | cons prev list =>
    by_cases hne : key = prev
    · rwa [pushKey, if_pos hne]
    · rw [pushKey, if_neg hne]
      refine pairwise_cons.2 ⟨fun x hx => ?_, h⟩
      have hlt : key < prev := lt_of_le_of_ne (hle prev mem_cons_self) hne
      rcases mem_cons.1 hx with rfl | hx
      · exact hlt
      · exact hlt.trans ((pairwise_cons.1 h).1 x hx)

theorem distinct_increasing (h : keys.Pairwise (· ≤ ·)) : (distinct keys).Pairwise (· < ·) := by
  induction keys with
  | nil => exact Pairwise.nil
  | cons key keys ih =>
    obtain ⟨hle, hkeys⟩ := pairwise_cons.1 h
    exact pushKey_increasing (ih hkeys) fun x hx => hle x (mem_distinct.1 hx)

theorem distinct_sortKeys_increasing (keys : List κ) :
    (distinct (sortKeys keys)).Pairwise (· < ·) :=
  distinct_increasing (pairwise_insertionSort ..)

theorem mem_distinct_sortKeys : x ∈ distinct (sortKeys keys) ↔ x ∈ keys :=
  mem_distinct.trans (perm_insertionSort _ keys).mem_iff

/-- A list of different keys as the list of entries that `make_tree` reads; the
objects of the leaves have no meaning. -/
def keyEntries (keys : List κ) : List (κ × Unit) := keys.map fun k => (k, ())

/-- An `int` has too few values to overrun the array of `make_tree`. -/
theorem makeTree_keyEntries {keys : List Key} (hne : keys ≠ []) (h : keys.Pairwise (· < ·)) :
    ∃ t, LeafTree.makeTree (keyEntries keys) = some t ∧ t.toList = keyEntries keys ∧ t.Search ∧
      t.Exact := by
  have hlen : (keyEntries keys).length ≤ 2 ^ 32 := by
    have hnodup : keys.Nodup := h.imp ne_of_lt
    rw [keyEntries, length_map, ← card_key]
    exact hnodup.length_le_card
  obtain ⟨t, ht, htl, hs, he, -⟩ := LeafTree.makeTree_ok (d := 32) (by simpa [keyEntries] using hne)
    (pairwise_map.2 h) hlen (by decide)
  exact ⟨t, ht, htl, hs, he⟩

end Distinct

end CLangProject
