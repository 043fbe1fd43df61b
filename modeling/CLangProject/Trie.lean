import Mathlib

/-!
# Tries in a store

A node has at most one child for every symbol, `kids a c`; walking along a
string `s` from the root leads to at most one node. `Spans kids root N` says that the
nodes so reached are `N`, each of them by one string only. A key is a string
whose node has an object, and a trie is `Pruned` if every node other than the root
lies on the way to a key.

Two changes are described for all strings at once: a new leaf (`Spans.leaf`), and a
link that is cut together with everything below it (`Spans.walk_cut`). A string `p` with
`Sole s p` has no key below it other than `s`; below it the trie is a single path.
-/

namespace CLangProject

open List Option Function

variable {α σ ο : Type*} {kids kids' : α → σ → Option α} {obj obj' : α → Option ο}
  {root a b x : α} {s t p key : List σ} {c : σ} {N N' : List α}

/-- The characters include 0. -/
instance neZero256 : NeZero (256 : Nat) := ⟨by decide⟩

/-! ## Walks -/

def walk (kids : α → σ → Option α) : α → List σ → Option α
  | a, [] => some a
  | a, c :: s => (kids a c).bind fun b => walk kids b s

theorem walk_append (s t : List σ) :
    walk kids a (s ++ t) = (walk kids a s).bind fun b => walk kids b t := by
  induction s generalizing a with
  | nil => rfl
  | cons c s ih =>
    rw [cons_append, walk, walk, bind_assoc]
    exact congrArg _ (funext fun b => ih)

theorem walk_concat (s : List σ) (c : σ) :
    walk kids a (s ++ [c]) = (walk kids a s).bind (kids · c) := by
  rw [walk_append]
  exact congrArg _ (funext fun b => bind_fun_some _)

theorem walk_concat_of (h : walk kids root s = some a) : walk kids root (s ++ [c]) = kids a c := by
  rw [walk_concat, h, bind_some]

theorem exists_walk_of_prefix (h : walk kids root t = some x) (hs : s <+: t) :
    ∃ a, walk kids root s = some a := by
  obtain ⟨r, rfl⟩ := hs
  rw [walk_append] at h
  obtain ⟨a, ha, -⟩ := bind_eq_some_iff.1 h
  exact ⟨a, ha⟩

/-- A string on the way to `s ++ c :: t` that does not pass `c` leads to `s`. -/
theorem prefix_of_not_prefix (hp : p <+: s ++ c :: t) (hnot : ¬ s ++ [c] <+: p) : p <+: s := by
  have hs : s ++ [c] <+: s ++ c :: t := ⟨t, by rw [append_assoc]; rfl⟩
  rcases prefix_or_prefix_of_prefix hp hs with hps | hsp
  · rcases prefix_concat_iff.1 hps with rfl | hps
    · exact (hnot prefix_rfl).elim
    · exact hps
  · exact (hnot hsp).elim

theorem not_concat_prefix_self : ¬ s ++ [c] <+: s := fun h => by
  have := h.length_le
  rw [length_append, length_singleton] at this
  omega

/-- The object stored under a string. -/
def look (kids : α → σ → Option α) (obj : α → Option ο) (root : α) (s : List σ) : Option ο :=
  (walk kids root s).bind obj

theorem look_of_walk (h : walk kids root s = some a) : look kids obj root s = obj a := by
  rw [look, h, bind_some]

theorem exists_walk_of_look (h : look kids obj root s ≠ none) : ∃ a, walk kids root s = some a := by
  refine ne_none_iff_exists'.1 fun hnone => h ?_
  rw [look, hnone, bind_none]

theorem walk_single (hkids : ∀ c, kids root c = none) : walk kids root s = some a ↔ s = [] ∧
    a = root := by
  cases s with
  | nil => simp [walk, eq_comm]
  | cons c s => simp [walk, hkids]

theorem look_single (hkids : ∀ c, kids root c = none) (ho : obj root = none) (s : List σ) :
    look kids obj root s = none := by
  cases s with
  | nil => exact ho
  | cons c s => simp [look, walk, hkids]

/-- The nodes after the root on the way along `s`, the last one first. -/
inductive Trail (kids : α → σ → Option α) (root : α) : List σ → List α → Prop
  | nil : Trail kids root [] []
  | snoc {s : List σ} {l : List α} {c : σ} {a : α} (h : Trail kids root s l)
      (ha : walk kids root (s ++ [c]) = some a) : Trail kids root (s ++ [c]) (a :: l)

/-! ## Trees -/

/-- The nodes that are reached from `root` are `N`. -/
structure Spans (kids : α → σ → Option α) (root : α) (N : List α) : Prop where
  mem_iff : ∀ a, a ∈ N ↔ ∃ s, walk kids root s = some a
  unique : ∀ s t a, walk kids root s = some a → walk kids root t = some a → s = t
  nodup : N.Nodup

namespace Spans

section

variable (h : Spans kids root N)
include h

theorem mem (hs : walk kids root s = some a) : a ∈ N := (h.mem_iff a).2 ⟨s, hs⟩

end

theorem single (hkids : ∀ c, kids root c = none) : Spans kids root [root] := by
  refine ⟨fun a => ?_, fun s t a hs ht => ?_, nodup_singleton root⟩
  · simp [walk_single hkids]
  · rw [((walk_single hkids).1 hs).1, ((walk_single hkids).1 ht).1]

section

variable (h : Spans kids root N)
include h

/-- A new node `b` becomes a child of the node at `s`. -/
theorem walk_leaf [DecidableEq σ] (hs : walk kids root s = some a) (hc : kids a c = none)
    (hlink : kids' a c = some b) (hkids : ∀ x ∈ N, ∀ d, x ≠ a ∨ d ≠ c → kids' x d = kids x d)
    (hb : ∀ d, kids' b d = none) (t : List σ) :
    walk kids' root t = if t = s ++ [c] then some b else walk kids root t := by
  induction t using List.reverseRecOn with
  | nil => rw [if_neg (by simp)]; rfl
  | append_singleton u d ih =>
    rw [walk_concat, ih]
    by_cases hu : u = s ++ [c]
    · -- there was nothing below the new node
      subst hu
      rw [if_pos rfl, bind_some, hb, if_neg (by simp), walk_concat, walk_concat_of hs,
        hc, bind_none]
    · rw [if_neg hu]
      by_cases hud : u = s ∧ d = c
      · obtain ⟨rfl, rfl⟩ := hud
        rw [if_pos rfl, hs, bind_some, hlink]
      · rw [if_neg (by simpa using hud), walk_concat]
        cases hx : walk kids root u with
        | none => rfl
        | some x =>
          refine hkids x (h.mem hx) d ?_
          by_cases hxa : x = a
          · subst hxa
            exact .inr fun hd => hud ⟨h.unique u s x hx hs, hd⟩
          · exact .inl hxa

theorem leaf [DecidableEq σ] (hb : b ∉ N)
    (hwalk : ∀ t, walk kids' root t = if t = s ++ [c] then some b else walk kids root t)
    (hnew : walk kids root (s ++ [c]) = none) : Spans kids' root (b :: N) := by
  refine ⟨fun x => ?_, fun t u x ht hu => ?_, nodup_cons.2 ⟨hb, h.nodup⟩⟩
  · rw [mem_cons, h.mem_iff]
    constructor
    · rintro (rfl | ⟨t, ht⟩)
      · exact ⟨s ++ [c], by rw [hwalk, if_pos rfl]⟩
      · refine ⟨t, ?_⟩
        rw [hwalk, if_neg, ht]
        rintro rfl
        rw [hnew] at ht
        cases ht
    · rintro ⟨t, ht⟩
      rw [hwalk] at ht
      split at ht
      · exact .inl (some.inj ht).symm
      · exact .inr ⟨t, ht⟩
  · rw [hwalk] at ht hu
    split at ht <;> split at hu
    next h1 h2 => rw [h1, h2]
    next => exact (hb (some.inj ht ▸ h.mem hu)).elim
    next => exact (hb (some.inj hu ▸ h.mem ht)).elim
    next => exact h.unique t u x ht hu

/-- The link of the node at `s` for the symbol `c` is cut; what happens to the
nodes below it does not matter. -/
theorem walk_cut [DecidableEq σ] (hs : walk kids root s = some a) (hcut : kids' a c = none)
    (hkids : ∀ u x, walk kids root u = some x → ¬ s ++ [c] <+: u →
      ∀ d, x ≠ a ∨ d ≠ c → kids' x d = kids x d) (t : List σ) :
    walk kids' root t = if s ++ [c] <+: t then none else walk kids root t := by
  induction t using List.reverseRecOn with
  | nil => rw [if_neg (by simp)]; rfl
  | append_singleton u d ih =>
    rw [walk_concat, ih, walk_concat]
    by_cases hu : s ++ [c] <+: u
    · rw [if_pos hu, if_pos (hu.trans (prefix_append u [d])), bind_none]
    · rw [if_neg hu]
      by_cases hud : u = s ∧ d = c
      · obtain ⟨rfl, rfl⟩ := hud
        rw [if_pos prefix_rfl, hs, bind_some, hcut]
      · rw [if_neg fun hpre => ?_]
        · cases hx : walk kids root u with
          | none => rfl
          | some x =>
            refine hkids u x hx hu d ?_
            by_cases hxa : x = a
            · subst hxa
              exact .inr fun hd => hud ⟨h.unique u s x hx hs, hd⟩
            · exact .inl hxa
        · rcases prefix_concat_iff.1 hpre with heq | hpre
          · exact hud (by simpa [eq_comm] using heq)
          · exact hu hpre

theorem walk_congr (hkids : ∀ x ∈ N, ∀ d, kids' x d = kids x d) (t : List σ) :
    walk kids' root t = walk kids root t := by
  induction t using List.reverseRecOn with
  | nil => rfl
  | append_singleton u d ih =>
    rw [walk_concat, walk_concat, ih]
    cases hx : walk kids root u with
    | none => rfl
    | some x => exact hkids x (h.mem hx) d

/-- The nodes at certain strings are no longer reached. -/
theorem restrict {P : List σ → Prop}
    (hwalk : ∀ t x, walk kids' root t = some x ↔ walk kids root t = some x ∧ ¬ P t)
    (hnodup : N'.Nodup) (hmem : ∀ u x, walk kids root u = some x → (x ∈ N' ↔ ¬ P u))
    (hsub : ∀ x ∈ N', x ∈ N) :
    Spans kids' root N' := by
  refine ⟨fun x => ⟨fun hx => ?_, fun ⟨t, ht⟩ => ?_⟩, fun t u x ht hu => ?_, hnodup⟩
  · obtain ⟨u, hu⟩ := (h.mem_iff x).1 (hsub x hx)
    exact ⟨u, (hwalk u x).2 ⟨hu, (hmem u x hu).1 hx⟩⟩
  · obtain ⟨ht, hp⟩ := (hwalk t x).1 ht
    exact (hmem t x ht).2 hp
  · exact h.unique t u x ((hwalk t x).1 ht).1 ((hwalk u x).1 hu).1

end

end Spans

/-! ## Keys -/

/-- A new node has no object. -/
theorem Spans.look_leaf [DecidableEq σ] (h : Spans kids root N)
    (hwalk : ∀ t, walk kids' root t = if t = s ++ [c] then some b else walk kids root t)
    (hnew : walk kids root (s ++ [c]) = none) (hobj : ∀ x ∈ N, obj' x = obj x)
    (hb : obj' b = none) :
    look kids' obj' root = look kids obj root := by
  funext t
  rw [look, hwalk, look]
  by_cases ht : t = s ++ [c]
  · rw [if_pos ht, ht, hnew, bind_some, hb, bind_none]
  · rw [if_neg ht]
    cases hx : walk kids root t with
    | none => rfl
    | some x => exact hobj x (h.mem hx)

theorem Spans.look_update [DecidableEq α] [DecidableEq σ] (h : Spans kids root N)
    (hs : walk kids root s = some a) (o : Option ο) :
    look kids (update obj a o) root = update (look kids obj root) s o := by
  funext t
  by_cases ht : t = s
  · rw [ht, update_self, look_of_walk hs, update_self]
  · rw [update_of_ne ht, look, look]
    cases hx : walk kids root t with
    | none => rfl
    | some x =>
      have hxa : x ≠ a := fun heq => ht (h.unique t s a (heq ▸ hx) hs)
      rw [bind_some, bind_some, update_of_ne hxa]

theorem Spans.look_congr (h : Spans kids root N) (hkids : ∀ x ∈ N, ∀ d, kids' x d = kids x d)
    (hobj : ∀ x ∈ N, obj' x = obj x) : look kids' obj' root = look kids obj root := by
  funext t
  rw [look, h.walk_congr hkids, look]
  cases hx : walk kids root t with
  | none => rfl
  | some x => exact hobj x (h.mem hx)

/-- Every node but the root is on the way to a key, or to `key`. -/
def PrunedBut (kids : α → σ → Option α) (obj : α → Option ο) (root : α) (key : List σ) : Prop :=
  ∀ p x, walk kids root p = some x → p ≠ [] → p <+: key ∨ ∃ t, p <+: t ∧ look kids obj root t ≠ none

def Pruned (kids : α → σ → Option α) (obj : α → Option ο) (root : α) : Prop :=
  ∀ p x, walk kids root p = some x → p ≠ [] → ∃ t, p <+: t ∧ look kids obj root t ≠ none

/-- There is no key below `p` other than `s`. -/
def Sole (kids : α → σ → Option α) (obj : α → Option ο) (root : α) (s p : List σ) : Prop :=
  ∀ t, p <+: t → look kids obj root t ≠ none → t = s

theorem Pruned.but (h : Pruned kids obj root) (key : List σ) : PrunedBut kids obj root key :=
  fun p x hx hp => .inr (h p x hx hp)

section

variable (h : PrunedBut kids obj root key)
include h

theorem PrunedBut.pruned (hkey : look kids obj root key ≠ none) :
    Pruned kids obj root := fun p x hx hp => by
  rcases h p x hx hp with hpre | hex
  · exact ⟨key, hpre, hkey⟩
  · exact hex

theorem PrunedBut.leaf [DecidableEq σ]
    (hwalk : ∀ t, walk kids' root t = if t = s ++ [c] then some b else walk kids root t)
    (hlook : look kids' obj' root = look kids obj root) (hkey : s ++ [c] <+: key) :
    PrunedBut kids' obj' root key := fun p x hx hp => by
  rw [hwalk] at hx
  rw [hlook]
  split at hx
  next heq => exact .inl (heq ▸ hkey)
  next => exact h p x hx hp

theorem PrunedBut.fill [DecidableEq σ] (hkids : kids' = kids) {o : ο}
    (hlook : look kids' obj' root = update (look kids obj root) key (some o)) :
    Pruned kids' obj' root := fun p x hx hp => by
  subst hkids
  rw [hlook]
  rcases h p x hx hp with hpk | ⟨t, hpt, ht⟩
  · exact ⟨key, hpk, by simp⟩
  · refine ⟨t, hpt, ?_⟩
    by_cases htk : t = key
    · simp [htk]
    · rwa [update_of_ne htk]

end

theorem Sole.mono {q : List σ} (h : Sole kids obj root s p) (hpq : p <+: q) :
    Sole kids obj root s q :=
  fun t hqt ht => h t (hpq.trans hqt) ht

/-- The only key below a link goes when the link is cut. -/
theorem Sole.look_cut [DecidableEq σ] (h : Sole kids obj root s p) (hps : p <+: s)
    (hwalk : ∀ t x, walk kids' root t = some x ↔ walk kids root t = some x ∧ ¬ p <+: t)
    (hobj : ∀ t x, walk kids' root t = some x → obj' x = obj x) :
    look kids' obj' root = update (look kids obj root) s none := by
  funext t
  by_cases hpt : p <+: t
  · have hnone : look kids' obj' root t = none := by
      rw [look, bind_eq_none_iff]
      exact fun x hx => (((hwalk t x).1 hx).2 hpt).elim
    rw [hnone]
    by_cases hts : t = s
    · rw [hts, update_self]
    · rw [update_of_ne hts]
      by_contra hne
      exact hts (h t hpt (Ne.symm hne))
  · have hts : t ≠ s := by
      rintro rfl
      exact hpt hps
    rw [update_of_ne hts, look, look]
    cases hx : walk kids' root t with
    | none =>
      cases hy : walk kids root t with
      | none => rfl
      | some y => rw [(hwalk t y).2 ⟨hy, hpt⟩] at hx; cases hx
    | some x =>
      rw [((hwalk t x).1 hx).1]
      exact hobj t x hx

/-- A node with a child off the way to `s` is on the way to another key. -/
theorem Pruned.not_sole_of_child (h : Pruned kids obj root) (ha : walk kids root p = some a)
    (hc : kids a c = some b) (hoff : ¬ p ++ [c] <+: s) : ¬ Sole kids obj root s p := fun hsole => by
  obtain ⟨t, hpt, ht⟩ := h (p ++ [c]) b ((walk_concat_of ha).trans hc) (by simp)
  exact hoff (hsole t ((prefix_append p [c]).trans hpt) ht ▸ hpt)

theorem not_sole_of_obj (ha : walk kids root p = some a) (hobj : obj a ≠ none) (hne : p ≠ s) :
    ¬ Sole kids obj root s p := fun hsole =>
  hne (hsole p prefix_rfl (by rwa [look_of_walk ha]))

/-- After a key has been removed, the nodes left on the way to it have other
keys below them. -/
theorem Pruned.delete (h : Pruned kids obj root)
    (hwalk : ∀ p x, walk kids' root p = some x → walk kids root p = some x)
    (hlook : ∀ t, t ≠ s → look kids' obj' root t = look kids obj root t)
    (hother : ∀ p x, walk kids' root p = some x → p ≠ [] → p <+: s → ¬ Sole kids obj root s p) :
    Pruned kids' obj' root := fun p x hx hp => by
  obtain ⟨t, hpt, ht⟩ := h p x (hwalk p x hx) hp
  by_cases hts : t = s
  · obtain ⟨u, hpu, hu, hus⟩ : ∃ u, p <+: u ∧ look kids obj root u ≠ none ∧ u ≠ s := by
      simpa [Sole] using hother p x hx hp (hts ▸ hpt)
    exact ⟨u, hpu, by rwa [hlook u hus]⟩
  · exact ⟨t, hpt, by rwa [hlook t hts]⟩

end CLangProject
