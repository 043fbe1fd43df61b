import CLangProject.Steps

/-!
# Forests of up-links

Every node has a link to its parent, or none if it is a root, and knows nothing
of its children. `Depth up n x r`: the root of `x` is `r`, and `n` links lead
there. A node has at most one root, at one depth.

Two changes are described for all nodes at once. A `Shortcut` lets nodes point
to nodes farther up and keeps every root. A change that `Merges` two trees gives
them one root and keeps all others. `Classes` relates the trees to the
equivalence that is generated by pairs of nodes.
-/

namespace CLangProject

open List Option Function

variable {α : Type*} {up up' up'' : α → Option α} {x y z r r' r1 r2 : α} {m n : Nat} {N : List α}

/-! ## Runs that stop -/

theorem RunN.snoc {a b c : α} (h : RunN up n a b) (hb : up b = some c) : RunN up (n + 1) a c :=
  h.trans (.step hb (.refl c))

/-- The last step of a run. -/
theorem RunN.last {a c : α} (h : RunN up (n + 1) a c) : ∃ b, RunN up n a b ∧ up b = some c := by
  induction n generalizing a with
  | zero =>
    cases h with
    | step hs h' =>
      cases h'
      exact ⟨a, .refl a, hs⟩
  | succ n ih =>
    cases h with
    | step hs h' =>
      obtain ⟨b, hb, hc⟩ := ih h'
      exact ⟨b, .step hs hb, hc⟩

def Depth (up : α → Option α) (n : Nat) (x r : α) : Prop := RunN up n x r ∧ up r = none

theorem depth_root (h : up r = none) : Depth up 0 r r := ⟨.refl r, h⟩

theorem Depth.step (hy : Depth up n y r) (h : up x = some y) : Depth up (n + 1) x r :=
  ⟨.step h hy.1, hy.2⟩

/-- A node on the way has the same root. -/
theorem Depth.rest (h : Depth up n x r) (hy : RunN up m x y) : ∃ k, n = m + k ∧ Depth up k y r := by
  obtain ⟨k, hk, hr⟩ := hy.rest h.1 h.2
  exact ⟨k, hk, hr, h.2⟩

theorem Depth.unique (h : Depth up n x r) (h' : Depth up m x r') : n = m ∧ r = r' := by
  obtain ⟨k, rfl, hk⟩ := h.rest h'.1
  cases hk.1 with
  | refl => exact ⟨rfl, rfl⟩
  | step hs => rw [h'.2] at hs; cases hs

theorem Depth.eq_zero_iff (h : Depth up n x r) : n = 0 ↔ x = r := by
  constructor
  · rintro rfl
    cases h.1
    rfl
  · rintro rfl
    exact (h.unique (depth_root h.2)).1

theorem Depth.parent (h : Depth up (n + 1) x r) : ∃ y, up x = some y ∧ Depth up n y r := by
  obtain ⟨hrun, hr⟩ := h
  cases hrun with
  | step hs h' => exact ⟨_, hs, h', hr⟩

/-- A way survives a change outside of the nodes that it leaves. -/
theorem RunN.congr {P : α → Prop} (h : RunN up n x r) (hx : P x)
    (hclosed : ∀ z y, P z → up z = some y → P y)
    (hsame : ∀ z k, P z → RunN up (k + 1) z r → up' z = up z) : RunN up' n x r := by
  induction n generalizing x with
  | zero =>
    cases h
    exact .refl _
  | succ n ih =>
    cases h with
    | step hs h' => exact .step ((hsame x n hx (.step hs h')).trans hs) (ih h' (hclosed _ _ hx hs))

theorem RunN.mem (hclosed : ∀ x ∈ N, ∀ y, up x = some y → y ∈ N) (h : RunN up n x y)
    (hx : x ∈ N) : y ∈ N := by
  induction h with
  | refl => exact hx
  | step hs _ ih => exact ih (hclosed _ hx _ hs)

/-- A way to a root has fewer links than there are nodes. -/
theorem Depth.lt_length (hN : ∀ x ∈ N, ∀ y, up x = some y → y ∈ N) (h : Depth up n x r)
    (hx : x ∈ N) : n < N.length := by
  have hway : ∃ l : List α, l.length = n + 1 ∧ l.Nodup ∧ l ⊆ N ∧
      ∀ z ∈ l, ∃ k ≤ n, Depth up k z r := by
    induction n generalizing x with
    | zero => exact ⟨[x], rfl, nodup_singleton x, by simpa using hx, by simpa using h⟩
    | succ n ih =>
      obtain ⟨y, hy, hd⟩ := h.parent
      obtain ⟨l, hlen, hnodup, hsub, hdepth⟩ := ih hd (hN x hx y hy)
      refine ⟨x :: l, by rw [length_cons, hlen], nodup_cons.2 ⟨fun hmem => ?_, hnodup⟩,
        cons_subset.2 ⟨hx, hsub⟩, fun z hz => ?_⟩
      · obtain ⟨k, hk, hd'⟩ := hdepth x hmem
        have := (h.unique hd').1
        omega
      · rcases mem_cons.1 hz with rfl | hz
        · exact ⟨n + 1, Nat.le_refl _, h⟩
        · obtain ⟨k, hk, hd'⟩ := hdepth z hz
          exact ⟨k, by omega, hd'⟩
  obtain ⟨l, hlen, hnodup, hsub, -⟩ := hway
  have := (hnodup.subperm hsub).length_le
  omega

/-! ## Shortcuts -/

/-- Links may lead farther up than before; the roots are the same. -/
structure Shortcut (up up' : α → Option α) : Prop where
  none_iff : ∀ x, up' x = none ↔ up x = none
  above : ∀ x y, up' x = some y → ∃ n, RunN up (n + 1) x y

theorem Shortcut.refl (up : α → Option α) : Shortcut up up :=
  ⟨fun _ => Iff.rfl, fun _ y h => ⟨0, .step h (.refl y)⟩⟩

theorem Shortcut.trans (h : Shortcut up up') (h' : Shortcut up' up'') : Shortcut up up'' := by
  refine ⟨fun x => (h'.none_iff x).trans (h.none_iff x), fun x y hy => ?_⟩
  obtain ⟨n, hn⟩ := h'.above x y hy
  clear hy
  induction n generalizing x with
  | zero =>
    cases hn with
    | step hs hr =>
      cases hr
      exact h.above x y hs
  | succ n ih =>
    cases hn with
    | step hs hr =>
      obtain ⟨j, hj⟩ := h.above _ _ hs
      obtain ⟨k, hk⟩ := ih _ hr
      exact ⟨j + 1 + k, hj.trans hk⟩

theorem Depth.shortcut (hs : Shortcut up up') (h : Depth up n x r) : ∃ m ≤ n, Depth up' m x r := by
  induction n using Nat.strongRecOn generalizing x with
  | ind n ih =>
    cases n with
    | zero =>
      obtain rfl := h.eq_zero_iff.1 rfl
      exact ⟨0, Nat.le_refl _, depth_root ((hs.none_iff x).2 h.2)⟩
    | succ n =>
      obtain ⟨y, hy, -⟩ := h.parent
      obtain ⟨y', hy'⟩ : ∃ y', up' x = some y' := by
        refine ne_none_iff_exists'.1 fun hnone => ?_
        rw [(hs.none_iff x).1 hnone] at hy
        cases hy
      obtain ⟨j, hj⟩ := hs.above x y' hy'
      obtain ⟨k, hk, hd⟩ := h.rest hj
      obtain ⟨m, hm, hd'⟩ := ih k (by omega) hd
      exact ⟨m + 1, by omega, hd'.step hy'⟩

/-- A node that is no root may point to its root. -/
theorem shortcut_update [DecidableEq α] (h : Depth up (n + 1) x r) :
    Shortcut up (update up x (some r)) := by
  refine ⟨fun z => ?_, fun z y hy => ?_⟩
  · by_cases hz : z = x
    · subst hz
      obtain ⟨y, hy, -⟩ := h.parent
      simp [hy]
    · simp [hz]
  · by_cases hz : z = x
    · subst hz
      rw [update_self] at hy
      obtain rfl := some.inj hy
      exact ⟨n, h.1⟩
    · rw [update_of_ne hz] at hy
      exact ⟨0, .step hy (.refl y)⟩

/-! ## Merging two trees -/

/-- The trees of `r1` and `r2` have one root now, and the others keep theirs. -/
def Merges [DecidableEq α] (up up' : α → Option α) (N : List α) (r1 r2 : α) : Prop :=
  ∃ s, (s = r1 ∨ s = r2) ∧ ∀ x ∈ N, ∀ n r, Depth up n x r →
    ∃ m, Depth up' m x (if r = r1 ∨ r = r2 then s else r)

section

variable (h1 : up r1 = none) (h2 : up r2 = none) (hne : r1 ≠ r2)
include h1 h2 hne

/-- One root is linked to another one. -/
theorem depth_link [DecidableEq α]
    (h : Depth up n x r) : Depth (update up r2 (some r1)) (if r = r2 then n + 1 else n) x
      (if r = r2 then r1 else r) := by
  have hrun : RunN (update up r2 (some r1)) n x r :=
    h.1.congr (P := fun _ => True) trivial (fun _ _ _ _ => trivial) fun z k _ hz => by
      refine update_of_ne ?_ ..
      rintro rfl
      cases hz with
      | step hs => rw [h2] at hs; cases hs
  split
  next heq =>
    subst heq
    exact ⟨hrun.snoc (update_self ..), by rw [update_of_ne hne, h1]⟩
  next hr => exact ⟨hrun, by rw [update_of_ne hr, h.2]⟩

theorem merges_link [DecidableEq α] : Merges up (update up r2 (some r1)) N r1 r2 := by
  refine ⟨r1, .inl rfl, fun x _ n r h => ⟨if r = r2 then n + 1 else n, ?_⟩⟩
  have hd := depth_link h1 h2 hne h
  by_cases hr : r = r2
  · simpa [hr] using hd
  · by_cases hr1 : r = r1
    · subst hr1
      simpa [hr] using hd
    · simpa [hr, hr1] using hd

end

theorem Merges.symm [DecidableEq α] (h : Merges up up' N r1 r2) : Merges up up' N r2 r1 := by
  obtain ⟨s, hs, h⟩ := h
  refine ⟨s, hs.symm, fun x hx n r hr => ?_⟩
  simpa only [or_comm] using h x hx n r hr

theorem Merges.shortcut [DecidableEq α] (h : Merges up up' N r1 r2) (hs : Shortcut up' up'') :
    Merges up up'' N r1 r2 := by
  obtain ⟨s, hr, h⟩ := h
  refine ⟨s, hr, fun x hx n r hd => ?_⟩
  obtain ⟨m, hm⟩ := h x hx n r hd
  obtain ⟨m', -, hd'⟩ := hm.shortcut hs
  exact ⟨m', hd'⟩

/-! ## Classes -/

/-- Two nodes are related by the equivalence that the pairs generate. -/
def Joined (ps : List (α × α)) : α → α → Prop := Relation.EqvGen fun x y => (x, y) ∈ ps

variable {ps : List (α × α)}

theorem Joined.mono {ps' : List (α × α)} (h : Joined ps x y) (hsub : ∀ p ∈ ps, p ∈ ps') :
    Joined ps' x y :=
  Relation.EqvGen.mono (fun u v (hp : (u, v) ∈ ps) => hsub (u, v) hp) x y h

/-- Nodes that are in no pair are only related to themselves. -/
theorem Joined.mem (hps : ∀ p ∈ ps, p.1 ∈ N ∧ p.2 ∈ N) (h : Joined ps x y) :
    x = y ∨ x ∈ N ∧ y ∈ N := by
  induction h with
  | rel x y hp => exact .inr (hps _ hp)
  | refl x => exact .inl rfl
  | symm x y _ ih => exact ih.imp Eq.symm And.symm
  | trans x y z _ _ ih1 ih2 =>
    rcases ih1 with rfl | h1
    · exact ih2
    · rcases ih2 with rfl | h2
      · exact .inr h1
      · exact .inr ⟨h1.1, h2.2⟩

/-- One more pair merges two classes. -/
theorem joined_cons {a b : α} : Joined ((a, b) :: ps) x y ↔ Joined ps x y ∨
    (Joined ps x a ∨ Joined ps x b) ∧ (Joined ps y a ∨ Joined ps y b) := by
  constructor
  · intro h
    induction h with
    | rel x y hp =>
      rcases mem_cons.1 hp with heq | hp
      · obtain ⟨rfl, rfl⟩ := Prod.mk.inj heq
        exact .inr ⟨.inl (.refl x), .inr (.refl y)⟩
      · exact .inl (.rel x y hp)
    | refl x => exact .inl (.refl x)
    | symm x y _ ih => exact ih.imp (.symm x y) And.symm
    | trans x y z _ _ ih1 ih2 =>
      rcases ih1 with h1 | h1
      · rcases ih2 with h2 | h2
        · exact .inl (.trans x y z h1 h2)
        · exact .inr ⟨h2.1.imp (.trans x y _ h1) (.trans x y _ h1), h2.2⟩
      · rcases ih2 with h2 | h2
        · have h2 := Relation.EqvGen.symm y z h2
          exact .inr ⟨h1.1, h1.2.imp (.trans z y _ h2) (.trans z y _ h2)⟩
        · exact .inr ⟨h1.1, h2.2⟩
  · have hab : Joined ((a, b) :: ps) a b := .rel a b mem_cons_self
    have hmono : ∀ {u v}, Joined ps u v → Joined ((a, b) :: ps) u v :=
      fun h => h.mono fun p hp => mem_cons_of_mem _ hp
    have htoA : ∀ {u}, Joined ps u a ∨ Joined ps u b → Joined ((a, b) :: ps) u a := fun {u} h => by
      rcases h with h | h
      · exact hmono h
      · exact .trans u b a (hmono h) (.symm a b hab)
    rintro (h | ⟨hx, hy⟩)
    · exact hmono h
    · exact .trans x a y (htoA hx) (.symm y a (htoA hy))

/-- The trees with the nodes `N` are the classes generated by `ps`. -/
structure Classes (up : α → Option α) (N : List α) (ps : List (α × α)) : Prop where
  rooted : ∀ x ∈ N, ∃ n r, Depth up n x r
  closed : ∀ x ∈ N, ∀ y, up x = some y → y ∈ N
  pairs : ∀ p ∈ ps, p.1 ∈ N ∧ p.2 ∈ N
  same : ∀ x ∈ N, ∀ y ∈ N, ∀ n m r r', Depth up n x r → Depth up m y r' → (r = r' ↔ Joined ps x y)

namespace Classes

theorem nil (up : α → Option α) : Classes up [] [] where
  rooted x hx := by cases hx
  closed x hx := by cases hx
  pairs p hp := by cases hp
  same x hx := by cases hx

/-- A new node, alone in its class. -/
theorem cons (h : Classes up N ps) (hx : x ∉ N) (hup : up' x = none)
    (hsame : ∀ z ∈ N, up' z = up z) : Classes up' (x :: N) ps := by
  have hdepth : ∀ {z n r}, z ∈ N → Depth up n z r → Depth up' n z r ∧ r ∈ N :=
    fun {z n r} hz hd => by
    have hr := hd.1.mem h.closed hz
    have hrun := hd.1.congr hz (fun z y hz => h.closed z hz y) fun z _ hz _ => hsame z hz
    exact ⟨⟨hrun, (hsame r hr).trans hd.2⟩, hr⟩
  have hroot : Depth up' 0 x x := depth_root hup
  refine ⟨fun z hz => ?_, fun z hz y hy => ?_, fun p hp => ?_, fun z hz y hy n m r r' hn hm => ?_⟩
  · rcases mem_cons.1 hz with rfl | hz
    · exact ⟨0, z, hroot⟩
    · obtain ⟨n, r, hd⟩ := h.rooted z hz
      exact ⟨n, r, (hdepth hz hd).1⟩
  · rcases mem_cons.1 hz with rfl | hz
    · rw [hup] at hy
      cases hy
    · rw [hsame z hz] at hy
      exact mem_cons_of_mem _ (h.closed z hz y hy)
  · exact (h.pairs p hp).imp (mem_cons_of_mem _) (mem_cons_of_mem _)
  · -- a node of `N` has its root in `N`, and so a root other than `x`
    have hold : ∀ {z n r}, z ∈ N → Depth up' n z r → r ∈ N ∧ ∃ k, Depth up k z r :=
      fun {z n r} hz hd => by
      obtain ⟨k, s, hk⟩ := h.rooted z hz
      obtain ⟨hk', hs⟩ := hdepth hz hk
      obtain ⟨-, rfl⟩ := hd.unique hk'
      exact ⟨hs, k, hk⟩
    rcases mem_cons.1 hz with rfl | hzN <;> rcases mem_cons.1 hy with rfl | hyN
    · obtain ⟨-, rfl⟩ := hroot.unique hn
      obtain ⟨-, rfl⟩ := hroot.unique hm
      exact iff_of_true rfl (.refl _)
    · obtain ⟨-, rfl⟩ := hroot.unique hn
      refine iff_of_false ?_ fun hj => ?_
      · rintro rfl
        exact hx (hold hyN hm).1
      · rcases hj.mem h.pairs with rfl | hj
        · exact hx hyN
        · exact hx hj.1
    · obtain ⟨-, rfl⟩ := hroot.unique hm
      refine iff_of_false ?_ fun hj => ?_
      · rintro rfl
        exact hx (hold hzN hn).1
      · rcases hj.mem h.pairs with rfl | hj
        · exact hx hzN
        · exact hx hj.2
    · obtain ⟨-, k, hk⟩ := hold hzN hn
      obtain ⟨-, k', hk'⟩ := hold hyN hm
      exact h.same z hzN y hyN _ _ _ _ hk hk'

theorem shortcut (h : Classes up N ps) (hs : Shortcut up up')
    (hclosed : ∀ x ∈ N, ∀ y, up' x = some y → y ∈ N) : Classes up' N ps := by
  refine ⟨fun x hx => ?_, hclosed, h.pairs, fun x hx y hy n m r r' hn hm => ?_⟩
  · obtain ⟨n, r, hd⟩ := h.rooted x hx
    obtain ⟨m, -, hd'⟩ := hd.shortcut hs
    exact ⟨m, r, hd'⟩
  · obtain ⟨k, s, hk⟩ := h.rooted x hx
    obtain ⟨k', s', hk'⟩ := h.rooted y hy
    obtain ⟨j, -, hj⟩ := hk.shortcut hs
    obtain ⟨j', -, hj'⟩ := hk'.shortcut hs
    obtain ⟨-, rfl⟩ := hj.unique hn
    obtain ⟨-, rfl⟩ := hj'.unique hm
    exact h.same x hx y hy _ _ _ _ hk hk'

theorem merge [DecidableEq α] {a b : α} {i j : Nat} (h : Classes up N ps) (ha : a ∈ N) (hb : b ∈ N)
    (hda : Depth up i a r1) (hdb : Depth up j b r2) (hm : Merges up up' N r1 r2)
    (hclosed : ∀ x ∈ N, ∀ y, up' x = some y → y ∈ N) : Classes up' N ((a, b) :: ps) := by
  obtain ⟨s, hs, hdepth⟩ := hm
  refine ⟨fun x hx => ?_, hclosed, fun p hp => ?_, fun x hx y hy n m r r' hn hm => ?_⟩
  · obtain ⟨n, r, hd⟩ := h.rooted x hx
    obtain ⟨m, hm⟩ := hdepth x hx n r hd
    exact ⟨m, _, hm⟩
  · rcases mem_cons.1 hp with rfl | hp
    · exact ⟨ha, hb⟩
    · exact h.pairs p hp
  · obtain ⟨k, t, hk⟩ := h.rooted x hx
    obtain ⟨k', t', hk'⟩ := h.rooted y hy
    obtain ⟨l, hl⟩ := hdepth x hx k t hk
    obtain ⟨l', hl'⟩ := hdepth y hy k' t' hk'
    obtain ⟨-, rfl⟩ := hn.unique hl
    obtain ⟨-, rfl⟩ := hm.unique hl'
    rw [joined_cons, ← h.same x hx y hy _ _ _ _ hk hk', ← h.same x hx a ha _ _ _ _ hk hda,
      ← h.same x hx b hb _ _ _ _ hk hdb, ← h.same y hy a ha _ _ _ _ hk' hda,
      ← h.same y hy b hb _ _ _ _ hk' hdb]
    by_cases ht : t = r1 ∨ t = r2 <;> by_cases ht' : t' = r1 ∨ t' = r2
    · rw [if_pos ht, if_pos ht']
      exact iff_of_true rfl (.inr ⟨ht, ht'⟩)
    · rw [if_pos ht, if_neg ht']
      refine iff_of_false ?_ ?_
      · rintro rfl
        exact ht' hs
      · rintro (rfl | hand)
        · exact ht' ht
        · exact ht' hand.2
    · rw [if_neg ht, if_pos ht']
      refine iff_of_false ?_ ?_
      · rintro rfl
        exact ht hs
      · rintro (rfl | hand)
        · exact ht ht'
        · exact ht hand.1
    · rw [if_neg ht, if_neg ht']
      simp [ht]

end Classes

end CLangProject
