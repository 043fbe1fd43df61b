import CLangProject.LiNDelete

/-!
# Tries with lists of siblings: runs

Whatever the calls, their answers are those of the dictionary, links from the root lead
to no node on the free list, and no character stands twice on a list of siblings.
-/

namespace CLangProject.LiNTrie

open List Option Function

variable {ο : Type} {m : Mem ο} {a b root fuel : Nat} {t : Trie ο} {d : Dict Key ο}

/-! ## Links -/

/-- The nodes that the links lead to from the root. -/
inductive Reach (m : Mem ο) (root : Nat) : Nat → Prop
  | root : Reach m root root
  | list {a b : Nat} (h : Reach m root a) (hb : m.list a = some b) : Reach m root b
  | next {a b : Nat} (h : Reach m root a) (hb : m.next a = some (.node b)) : Reach m root b

/-- The first node on a list of siblings. -/
inductive Heads (m : Mem ο) (root : Nat) : Nat → Prop
  | root : Heads m root root
  | next {a b : Nat} (h : Reach m root a) (hb : m.next a = some (.node b)) : Heads m root b

/-- No link leads to a free node, and the characters on every list of siblings are
distinct. -/
structure Sound (t : Trie ο) : Prop where
  live : ∀ a, Reach t.mem t.root a → a ∉ t.mem.freeList
  distinct : ∀ a, Heads t.mem t.root a →
    ∃ l, Path t.mem.list (some a) l none ∧ (l.map t.mem.thisChar).Nodup

namespace Sibs

variable {u : Sibs ο}

theorem Stored.links (h : Stored m u) (hw : u.Wf) (ha : a ∈ u.cells) :
    (∀ b, m.list a = some b → b ∈ u.cells) ∧ ∀ b, m.next a = some (.node b) → b ∈ u.cells ∧
      ∃ v, Stored m v ∧ v.Wf ∧ v.head = some b := by
  induction u with
  | nil => cases ha
  | cons x c o down rest ihd ihr =>
    obtain ⟨hn, hd, hr⟩ := h
    obtain ⟨-, -, -, hwd, hwr⟩ := hw
    have hdsub : down.cells ⊆ (cons x c o down rest).cells := fun z hz =>
      mem_cons_of_mem x (mem_append_left _ hz)
    have hrsub : rest.cells ⊆ (cons x c o down rest).cells := fun z hz =>
      mem_cons_of_mem x (mem_append_right _ hz)
    rcases mem_cons.1 ha with rfl | ha
    · rw [Mem.list, Mem.next, hn]
      refine ⟨fun b hb => hrsub (head_mem hb), fun b hb => ?_⟩
      cases o with
      | some o => cases hb
      | none =>
        obtain ⟨b', hb', heq⟩ := map_eq_some_iff.1 hb
        obtain rfl := Ref.node.inj heq
        exact ⟨hdsub (head_mem hb'), down, hd, hwd, hb'⟩
    · rcases mem_append.1 ha with ha | ha
      · obtain ⟨hlist, hnext⟩ := ihd hd hwd ha
        exact ⟨fun b hb => hdsub (hlist b hb), fun b hb => (hnext b hb).imp_left (hdsub ·)⟩
      · obtain ⟨hlist, hnext⟩ := ihr hr hwr ha
        exact ⟨fun b hb => hrsub (hlist b hb), fun b hb => (hnext b hb).imp_left (hrsub ·)⟩

theorem Stored.path (h : Stored m u) : ∃ l, Path m.list u.head l none ∧
    l.map m.thisChar = u.chars := by
  induction u with
  | nil => exact ⟨[], rfl, rfl⟩
  | cons x c o down rest _ ih =>
    obtain ⟨l, hl, hchars⟩ := ih h.2.2
    refine ⟨x :: l, ⟨rfl, ?_⟩, ?_⟩
    · rwa [Mem.list, h.1]
    · rw [map_cons, hchars, Mem.thisChar, h.1, chars]

end Sibs

theorem Shape.mem_of_reach {u : Sibs ο} (h : Shape m root u) (ha : Reach m root a) :
    a ∈ u.cells := by
  induction ha with
  | root => exact Sibs.head_mem h.head
  | list _ hb ih => exact (h.stored.links h.wf ih).1 _ hb
  | next _ hb ih => exact ((h.stored.links h.wf ih).2 _ hb).1

theorem Shape.sound {u : Sibs ο} (h : Shape t.mem t.root u) : Sound t where
  live a ha hfree := (nodup_append.1 h.holds.nodup).2.2 a hfree a (h.mem_of_reach ha) rfl
  distinct a ha := by
    have ⟨v, hv, hw, hhead⟩ : ∃ v, Sibs.Stored t.mem v ∧ v.Wf ∧ v.head = some a := by
      cases ha with
      | root => exact ⟨u, h.stored, h.wf, h.head⟩
      | next hr hb => exact ((h.stored.links h.wf (h.mem_of_reach hr)).2 a hb).2
    obtain ⟨l, hl, hchars⟩ := hv.path
    exact ⟨l, hhead ▸ hl, hchars ▸ hw.nodup⟩

/-! ## Runs -/

/-- The trie represents the dictionary. -/
def Rep (t : Trie ο) (d : Dict Key ο) : Prop := ∃ u, Shape t.mem t.root u ∧
    ∀ k : Key, u.look k.1 = d k

theorem Rep.shows (h : Rep t d) (hfuel : 256 ≤ fuel) : (store ο fuel).Shows t d := fun k => by
  obtain ⟨u, hshape, hlook⟩ := h
  rw [← hlook k]
  exact Sibs.find_ok hshape.stored hshape.wf hshape.head hfuel

theorem Rep.insert (h : Rep t d) (k : Key) (o : ο) (hfuel : 256 ≤ fuel) : ∃ t',
    (store ο fuel).step t (.insert k o) = some (t', (d.step (.insert k o)).2) ∧ Sound t' ∧
      Rep t' (d.step (.insert k o)).1 := by
  obtain ⟨u, hshape, hlook⟩ := h
  obtain ⟨m', u', r, heq, hshape', hentered⟩ := insert_ok o hshape k.2 hfuel
  obtain ⟨hanswer, hshows⟩ := hentered.step Subtype.val_injective hlook
  exact ⟨⟨t.root, m'⟩, by simp [Store.step, store, heq, hanswer], hshape'.sound, u',
    hshape', hshows⟩

theorem Rep.delete (h : Rep t d) (k : Key) (hfuel : 256 ≤ fuel) (hlen : k.1.length < fuel) : ∃ t',
    (store ο fuel).step t (.delete k) = some (t', (d.step (.delete k)).2) ∧ Sound t' ∧
      Rep t' (d.step (.delete k)).1 := by
  obtain ⟨u, hshape, hlook⟩ := h
  obtain ⟨m', u', hdelete, hshape', hlook'⟩ := delete_ok hshape k.2 hfuel hlen
  exact ⟨⟨t.root, m'⟩, by simp [Store.step, store, hdelete, Dict.step, hlook k],
    hshape'.sound, u', hshape', step_delete_of_update Subtype.val_injective hlook hlook'⟩

theorem shape_createTrie (node : Nat → Node ο) : Shape (createTrie ⟨node, [], 0⟩).mem
    (createTrie ⟨node, [], 0⟩).root (.cons 0 0 none .nil .nil) := by
  have hholds : Pool.Holds (⟨node, [], 0⟩ : Mem ο) [] := ⟨nodup_nil, nofun⟩
  refine ⟨⟨?_, trivial, trivial⟩, ⟨fun _ => rfl, fun h => (h rfl).elim, nofun, trivial, trivial⟩,
    hholds.getNode.of_eq rfl rfl, rfl, rfl⟩
  simp [createTrie, Pool.getNode, Mem.start, Mem.setNext, Sibs.ref, Sibs.head]

theorem rep_createTrie (node : Nat → Node ο) : Rep (createTrie ⟨node, [], 0⟩) Dict.empty :=
  ⟨_, shape_createTrie node, fun k => (look_cons k.2).trans (Sibs.look_of_get_none rfl)⟩

/-- The calls of a run have strings of bounded length. -/
theorem exists_length_lt (cs : List (Call Key ο)) : ∃ n, ∀ k, .delete k ∈ cs → k.1.length < n := by
  induction cs with
  | nil => exact ⟨0, nofun⟩
  | cons c cs ih =>
    obtain ⟨n, hn⟩ := ih
    cases c with
    | insert k o => exact ⟨n, fun k' hk => hn k' ((mem_cons.1 hk).resolve_left nofun)⟩
    | delete k =>
      refine ⟨n + k.1.length + 1, fun k' hk => ?_⟩
      rcases mem_cons.1 hk with heq | hk
      · rw [Call.delete.inj heq]
        omega
      · have := hn k' hk
        omega

/-- In every run the calls have the answers of the dictionary, and the links are
sound in every state. -/
theorem follows_dictionary (node : Nat → Node ο) (cs : List (Call Key ο)) :
    Sound (createTrie ⟨node, [], 0⟩) ∧ ∃ bound, ∀ fuel, bound ≤ fuel →
      (store ο fuel).Follows (fun _ _ t' => Sound t') (createTrie ⟨node, [], 0⟩) Dict.empty cs := by
  obtain ⟨n, hn⟩ := exists_length_lt cs
  refine ⟨(shape_createTrie node).sound, 256 + n, fun fuel hfuel => ?_⟩
  have hfuel' : 256 ≤ fuel := by omega
  refine Store.follows_of (R := Rep) (P := fun c => ∀ k, c = .delete k → k.1.length < fuel)
    (fun t d h => h.shows hfuel') (fun t d c hc h => ?_) (fun c hc k hk => ?_) (rep_createTrie node)
  · cases c with
    | insert k o => exact h.insert k o hfuel'
    | delete k => exact h.delete k hfuel' (hc k rfl)
  · have := hn k (hk ▸ hc)
    omega

end CLangProject.LiNTrie
