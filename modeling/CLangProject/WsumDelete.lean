import CLangProject.WsumTree

/-!
# Deleting a key from the weighted-sum tree

`delete` of `ch4/wsum_tree.c` moves the sibling of the leaf into the node above
the two: its key, its links and its height, but not its summand. So the numbers
of the sibling lose that summand, and the other sums are kept only if it is 0
(`delete_keeps_iff`). `NEGINFTY` is a key like the others here: numbers below it
go to its leaf, and once it is deleted to the one of the next key.
-/

namespace CLangProject.WsumTree

open LeafTree HeightTree List

variable {κ ο : Type}

/-! ## The code -/

/-- `upper_node` with the contents of `other_node`. -/
def merged (upper : Frame Tag κ ο) : LeafTree Tag κ ο :=
  upper.other.paint { upper.other.tag with summand := upper.tag.summand }

theorem mapTag_merged {upper : Frame Tag κ ο} :
    (merged upper).mapTag Tag.height = upper.other.mapTag Tag.height := by
  unfold merged
  cases upper.other <;> rfl

def delete [LinearOrder κ] : Root Tag κ ο → κ → Option (Root Tag κ ο × Option ο)
  | none, _ => some (none, none)
  | some t, k =>
    match descend k t [] with
    | (leaf _ k' o, []) => if k' = k then some (none, some o) else some (some t, none)
    | (leaf c k' o, upper :: stack) =>
      if pathStack < (upper :: stack).length then none
      else if k' ≠ k then
        (variant.rebalance stack (upper.fill (leaf c k' o))).map fun t => (some t, none)
      else (variant.rebalance stack (merged upper)).map fun t => (some t, some o)
    | (node .., _) => none

/-! ## What is left out -/

section Value

variable [LinearOrder κ] {t : LeafTree Tag κ ο} {fs stack : Context Tag κ ο}
  {upper : Frame Tag κ ο} {c : Tag} {k x y lo : κ} {o : ο}

/-- `x` is not one of the numbers from `k` up to the next larger key. -/
def Outside (t : LeafTree Tag κ ο) (k x : κ) : Prop := x < k ∨ ∃ p ∈ t.toList, k < p.1 ∧ p.1 ≤ x

/-- The summand that gets lost is 0, and numbers below the first key `lo` find the same
sum at the next one. -/
def Spares (lo : κ) (t : LeafTree Tag κ ο) (k : κ) : Prop :=
  match descend k t [] with
  | (s, []) => s.tag.summand = 0
  | (s, upper :: _) => upper.other.tag.summand = 0 ∧
      (k = lo → evaluateSum (some upper.other) k = s.tag.summand)

theorem value_merged :
    value (merged upper) x + upper.other.tag.summand = upper.tag.summand + value upper.other x := by
  unfold merged
  cases upper.other with
  | leaf => rfl
  | node =>
    simp only [paint, value, tag_node]
    omega

/-- The sum at `x` depends on the subtree at a place if the search leads there. -/
theorem value_at (fs : Context Tag κ ο) (x : κ) :
    (Guides x fs ∧ ∃ w, ∀ t, value (plug fs t) x = w + value t x) ∨
      ¬ Guides x fs ∧ ∀ t t', value (plug fs t) x = value (plug fs t') x := by
  induction fs with
  | nil => exact .inl ⟨by simp [Guides], 0, fun t => (Int.zero_add _).symm⟩
  | cons f fs ih =>
    rcases ih with ⟨hg, w, hw⟩ | ⟨hg, hsame⟩
    · by_cases hf : OnSide f.dir f.key x
      · refine .inl ⟨hg.cons hf, w + f.tag.summand, fun t => ?_⟩
        rw [plug, hw, Frame.fill, value_join, if_pos (toward_eq_iff.2 hf), Int.add_assoc]
      · refine .inr ⟨fun h => hf (forall_mem_cons.1 h).1, fun t t' => ?_⟩
        simp only [plug, hw, Frame.fill, value_join, toward_eq_iff, hf, if_false]
    · exact .inr ⟨fun h => hg (forall_mem_cons.1 h).2, fun t t' => hsame _ _⟩

/-- The sums after `delete`, before the loop that goes up. -/
theorem value_delete (fs : Context Tag κ ο) (upper : Frame Tag κ ο) (c : Tag) (k : κ) (o : ο)
    (x : κ) :
    (¬ Guides x fs ∧ value (plug fs (merged upper)) x = value (plug (upper :: fs) (leaf c k o)) x) ∨
    (Guides x fs ∧ ¬ OnSide upper.dir upper.key x ∧
      value (plug fs (merged upper)) x + upper.other.tag.summand =
        value (plug (upper :: fs) (leaf c k o)) x) ∨
    Guides x (upper :: fs) ∧
      value (plug fs (merged upper)) x + upper.other.tag.summand + c.summand =
        value (plug (upper :: fs) (leaf c k o)) x + value upper.other x := by
  have hmerged : value (merged upper) x + _ = _ := value_merged
  rcases value_at fs x with ⟨hg, w, hw⟩ | ⟨hg, hsame⟩
  · rw [plug, hw, hw, Frame.fill, value_join]
    by_cases hf : OnSide upper.dir upper.key x
    · refine .inr (.inr ⟨hg.cons hf, ?_⟩)
      rw [if_pos (toward_eq_iff.2 hf), value]
      omega
    · refine .inr (.inl ⟨hg, hf, ?_⟩)
      rw [if_neg fun h => hf (toward_eq_iff.1 h)]
      omega
  · exact .inl ⟨hg, hsame _ _⟩

theorem value_least (ht : t.Search) (hx : ∀ p ∈ t.toList, x ≤ p.1) (hy : ∀ p ∈ t.toList, y ≤ p.1) :
    value t x = value t y := by
  induction t with
  | leaf => rfl
  | node c k l r ihl _ =>
    obtain ⟨hl, -, hsl, -⟩ := ht
    obtain ⟨p, hp⟩ := l.toList_ne_nil
    have hleft : ∀ q ∈ l.toList, q ∈ (node c k l r).toList := fun q hq => by simp [toList, hq]
    have hpk := hl p hp
    rw [value, value, if_pos ((hx p (hleft p hp)).trans_lt hpk),
      if_pos ((hy p (hleft p hp)).trans_lt hpk),
      ihl hsl (fun q hq => hx q (hleft q hq)) fun q hq => hy q (hleft q hq)]

/-- A tree in which a leaf has the numbers from its key on, except that the first
one, `lo`, has those below, too. -/
structure Covers (lo : κ) (t : LeafTree Tag κ ο) : Prop where
  search : t.Search
  floor : ∀ x, lo ≤ x → reach t x ≤ x
  least : ∀ p ∈ t.toList, lo ≤ p.1

/-- The numbers that the leaf gives up, apart from its own, are below all keys. -/
theorem Covers.eq_lo (h : Covers lo (plug fs (leaf c k o))) (hk : Guides k fs) (hx : Guides x fs)
    (hout : Outside (plug fs (leaf c k o)) k x) : x < lo ∧ k = lo := by
  have hreach : ∀ y, Guides y fs → reach (plug fs (leaf c k o)) y = k := fun y hy =>
    reach_guided hy
  have hle : lo ≤ k := h.least (k, o) (mem_plug.2 (.inl (by simp [toList])))
  rcases hout with hlt | ⟨p, hp, hkp, hpx⟩
  · have hxlo : x < lo := by
      by_contra hlo
      exact absurd (h.floor x (not_lt.1 hlo)) (by rw [hreach x hx]; exact not_le_of_gt hlt)
    have hlok := h.floor lo le_rfl
    rw [hreach lo (hx.between hk hxlo.le hle)] at hlok
    exact ⟨hxlo, le_antisymm hlok hle⟩
  · have hstored := h.search.reach_eq.2 ⟨p.2, hp⟩
    rw [hreach p.1 (hk.between hx hkp.le hpx)] at hstored
    exact absurd hstored hkp.ne

/-- Below all keys, the search leads to the first leaf. -/
theorem Covers.guides (h : Covers lo (plug fs t)) (hlo : Guides lo fs) (hx : x < lo) :
    Guides x fs := by
  intro f hf
  have hside := hlo f hf
  obtain ⟨p, hp⟩ := f.other.toList_ne_nil
  have hother := (h.search.sides hf).2 p hp
  have hple := h.least p (mem_plug.2 (.inr ⟨f, hf, hp⟩))
  cases hd : f.dir with
  | left =>
    rw [hd] at hside
    exact hx.trans hside
  | right =>
    rw [hd] at hside hother
    exact absurd (lt_of_lt_of_le hother hside) (not_lt_of_ge hple)

theorem search_merged : (merged upper).Search ↔ upper.other.Search := search_paint

/-- The loop that goes up has a result, and changes no sum. -/
theorem rebalance_merged [Fintype κ] (hκ : Fintype.card κ ≤ 2 ^ 32)
    (hplaced : Placed k t.toList (upper :: stack) (leaf c k o)) {n : Nat}
    (hn : Avl ((plug (upper :: stack) (leaf c k o)).mapTag Tag.height) n) :
    ∃ t', variant.rebalance stack (merged upper) = some t' ∧
      ∀ x, value t' x = value (plug stack (merged upper)) x := by
  rw [← plug_mapTag] at hn
  obtain ⟨s, hs, -⟩ := (plain_lawful hκ).delete ⟨n, hn⟩
  have hmap : (variant.rebalance stack (merged upper)).map (mapTag Tag.height) = some s := by
    rw [← rebalance_mapTag variant_hom, mapTag_merged]
    exact hs
  obtain ⟨t', ht', -⟩ := Option.map_eq_some_iff.1 hmap
  refine ⟨t', ht', fun x => ?_⟩
  have hsearch : (plug stack (merged upper)).Search :=
    hplaced.up.replace (search_merged.2 hplaced.search_other) fun p hp =>
      .inl (mem_toList_join.2 (.inr (by simpa [merged] using hp)))
  exact ((rebalance_rel isCongr_same same_setHeight same_rotation ht').2 hsearch x).1

/-- Numbers of the sibling show the lost summand, numbers below all keys the sum of
the next leaf. -/
theorem spares_iff (h : Covers lo (plug (upper :: stack) (leaf c k o)))
    (hk : Guides k (upper :: stack)) (hlo : ∃ x, x < lo) :
    (∀ x, Outside (plug (upper :: stack) (leaf c k o)) k x → value (plug stack (merged upper)) x =
      value (plug (upper :: stack) (leaf c k o)) x) ↔
    upper.other.tag.summand = 0 ∧ (k = lo → value upper.other k = c.summand) := by
  have hmem : ∀ p ∈ upper.other.toList, p ∈ (plug (upper :: stack) (leaf c k o)).toList :=
    fun p hp => mem_plug.2 (.inr ⟨upper, mem_cons_self, hp⟩)
  have hbelow : ∀ x < lo, k = lo → value upper.other x = value upper.other k := by
    rintro x hx rfl
    have hle : ∀ p ∈ upper.other.toList, k ≤ p.1 := fun p hp => h.least p (hmem p hp)
    exact value_least (search_join.1 (Search.of_plug (t := upper.fill (leaf c k o)) h.search)).2.2.2
      (fun p hp => hx.le.trans (hle p hp)) hle
  constructor
  · intro hkeep
    have hsummand : upper.other.tag.summand = 0 := by
      obtain ⟨p, hp⟩ := upper.other.toList_ne_nil
      have hside := (h.search.sides mem_cons_self).2 p hp
      have hout : Outside (plug (upper :: stack) (leaf c k o)) k p.1 := by
        rcases lt_or_gt_of_ne (hk.other_ne h.search mem_cons_self hp) with hlt | hlt
        · exact .inl hlt
        · exact .inr ⟨p, hmem p hp, hlt, le_rfl⟩
      have hstack : Guides p.1 stack := fun f hf =>
        (Search.sides (t := upper.fill (leaf c k o)) h.search hf).1 p (mem_toList_join.2 (.inr hp))
      have hsame := hkeep p.1 hout
      rcases value_delete stack upper c k o p.1 with ⟨hg, -⟩ | ⟨-, -, hv⟩ | ⟨hg, -⟩
      · exact absurd hstack hg
      · omega
      · exact absurd rfl ((hg upper mem_cons_self).ne_of_flip hside)
    refine ⟨hsummand, ?_⟩
    intro hklo
    obtain ⟨x, hx⟩ := hlo
    have hguides := h.guides (hklo ▸ hk) hx
    have hsame := hkeep x (.inl (hklo ▸ hx))
    rw [← hbelow x hx hklo]
    rcases value_delete stack upper c k o x with ⟨hg, -⟩ | ⟨-, hg, -⟩ | ⟨-, hv⟩
    · exact absurd (forall_mem_cons.1 hguides).2 hg
    · exact absurd (forall_mem_cons.1 hguides).1 hg
    · omega
  · rintro ⟨hsummand, hfirst⟩ x hout
    rcases value_delete stack upper c k o x with ⟨-, hv⟩ | ⟨-, -, hv⟩ | ⟨hg, hv⟩
    · exact hv
    · omega
    · obtain ⟨hx, hklo⟩ := h.eq_lo hk hg hout
      have := hfirst hklo
      rw [← hbelow x hx hklo] at this
      omega

/-- The only leaf goes with all sums. -/
theorem spares_leaf (h : Covers lo (leaf c k o)) (hlo : ∃ x, x < lo) :
    (∀ x, Outside (leaf c k o) k x → evaluateSum (none : Root Tag κ ο) x =
      evaluateSum (some (leaf c k o)) x) ↔ c.summand = 0 := by
  constructor
  · intro hkeep
    obtain ⟨x, hx⟩ := hlo
    exact (hkeep x (.inl (hx.trans_le (h.least (k, o) (by simp [toList]))))).symm
  · intro hc x _
    exact hc.symm

theorem delete_ok [Fintype κ] (hκ : Fintype.card κ ≤ 2 ^ 32) (hlo : ∃ x, x < lo) (h : Covers lo t)
    (hn : ∃ n, Avl (t.mapTag Tag.height) n) (hk : (k, o) ∈ t.toList) :
    ∃ t', delete (some t) k = some (t', some o) ∧
      ((∀ x, Outside t k x → evaluateSum t' x = evaluateSum (some t) x) ↔ Spares lo t k) := by
  obtain ⟨n, hn⟩ := hn
  obtain ⟨c, k', o', fs, hd⟩ := descend_eq k t []
  have hplaced := (h.search.placed k).descend
  have hplug := plug_descend k t []
  have hlen := hn.stack_ok hκ (search_mapTag.2 h.search) (k := k)
  rw [hd] at hplaced hplug
  rw [show ([] : Context Int κ ο) = ([] : Context Tag κ ο).map (Frame.mapTag Tag.height) from rfl,
    descend_mapTag, hd, length_map] at hlen
  have hleaf := hplaced.mem_iff.1 hk
  obtain ⟨rfl, rfl⟩ : k = k' ∧ o = o' := by simpa [toList] using hleaf
  obtain rfl : plug fs (leaf c k o) = t := hplug
  cases fs with
  | nil =>
    refine ⟨none, by simp [delete, hd], ?_⟩
    rw [Spares, hd]
    exact spares_leaf h hlo
  | cons upper stack =>
    obtain ⟨t', ht', hvalue⟩ := rebalance_merged hκ hplaced hn
    refine ⟨some t', by
      simp only [delete, hd, if_neg (not_lt_of_ge hlen), ne_eq, not_true_eq_false, if_false, ht',
        Option.map_some], ?_⟩
    rw [Spares, hd]
    simp only [evaluateSum_eq, hvalue]
    exact spares_iff h hplaced.guides hlo

end Value

/-- After any calls of `insert_interval` and for every key in the tree: a deletion leaves
the sums outside of the numbers of the key alone if and only if nothing gets lost. -/
theorem delete_keeps_iff (l : List Interval) (hl : ∀ i ∈ l, negInfty ≤ i.a ∧ negInfty ≤ i.b) :
    ∃ t0 t, createTree = some t0 ∧ insertAll t0 l = some (some t) ∧ ∀ k, (k, ()) ∈ t.toList →
      ∃ t', delete (some t) k = some (t', some ()) ∧
        ((∀ x, Outside t k x → evaluateSum t' x = evaluateSum (some t) x) ↔
          Spares negInfty t k) := by
  obtain ⟨t, ht, hs, hmem⟩ := insertAll_ok sums_first l
  refine ⟨_, t, rfl, ht, ?_⟩
  intro k hk
  refine delete_ok (le_of_eq card_key) ⟨⟨-1001, by decide⟩, by decide⟩
    ⟨hs.search, hs.floor, fun p hp => ?_⟩ hs.balanced hk
  rcases hmem p hp with hp | ⟨i, hi, hp | hp⟩
  · obtain rfl : p = (negInfty, ()) := by simpa [toList] using hp
    exact le_rfl
  · exact hp ▸ (hl i hi).1
  · exact hp ▸ (hl i hi).2

/-- An interval from 0 to 10. -/
def oneInterval : List Interval := [⟨smallKey 0, smallKey 10, 5⟩]

theorem delete_keeps_iff_oneInterval :
    ∃ t0 t, createTree = some t0 ∧ insertAll t0 oneInterval = some (some t) ∧
      ∀ k, (k, ()) ∈ t.toList → ∃ t', delete (some t) k = some (t', some ()) ∧
        ((∀ x, Outside t k x → evaluateSum t' x = evaluateSum (some t) x) ↔ Spares negInfty t k) :=
  delete_keeps_iff oneInterval (by decide)

/-- Without its right end, the interval has no weight any more. -/
theorem delete_loses_weight : ∃ t t', createTree.bind (insertAll · oneInterval) = some (some t) ∧
    delete (some t) ⟨10, by decide⟩ = some (t', some ()) ∧
      Outside t ⟨10, by decide⟩ ⟨0, by decide⟩ ∧ evaluateSum (some t) ⟨0, by decide⟩ = 5 ∧
        evaluateSum t' ⟨0, by decide⟩ = 0 :=
  ⟨_, _, rfl, rfl, .inl (by decide), rfl, rfl⟩

end CLangProject.WsumTree
