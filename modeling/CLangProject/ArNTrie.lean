import CLangProject.Dictionary
import CLangProject.Pool
import CLangProject.Trie

/-!
# Tries with an array in every node

`ar_n_trie.c` keeps in every node a pointer for each of the 256 characters. The
entry for the character 0, which ends a string, points to the object of the
string that leads to the node. A node that is given back to the pool gets the
link of the free list in the same entry.

`delete` puts the nodes on the way to the string on a stack, without the root, and
goes back from the last one: it clears the entry that led on and gives the node
back if all entries are NULL. The link from the root is cleared by nobody. When the
way to the string has no other keys, the root keeps a link to a node that has been
given back; the object of the empty string is never removed.
-/

namespace CLangProject.ArNTrie

open List Option Function

structure Node where
  next : Fin 256 → Option Nat

abbrev Mem := Pool Node

/-- A character inside of a string. -/
abbrev Sym := { c : Fin 256 // c ≠ 0 }

namespace Mem

def next (m : Mem) (a : Nat) : Fin 256 → Option Nat := (m.node a).next

def setNext (m : Mem) (a : Nat) (i : Fin 256) (p : Option Nat) : Mem :=
  Pool.modify m a fun n => { n with next := update n.next i p }

/-- `for ( i = 0; i < 256; i++ ) node->next[i] = NULL` -/
def clear (m : Mem) (a : Nat) : Mem := Pool.modify m a fun _ => ⟨fun _ => none⟩

def returnNode (m : Mem) (a : Nat) : Mem :=
  Pool.returnNode m (fun p n => { n with next := update n.next 0 p }) a

end Mem

/-- A trie, in the memory where it lives. -/
structure Trie where
  root : Nat
  mem : Mem

def createTrie (m : Mem) : Trie :=
  let (tmpNode, m) := Pool.getNode m
  ⟨tmpNode, Mem.clear m tmpNode⟩

def find (m : Mem) : (tmpNode : Nat) → List Sym → Option Nat
  | tmpNode, [] => m.next tmpNode 0
  | tmpNode, c :: rest =>
    match m.next tmpNode c with
    | none => none
    | some tmpNode => find m tmpNode rest

/-- The node for the next character, which is created if it is missing. -/
def descend (m : Mem) (tmpNode : Nat) (c : Sym) : Nat × Mem :=
  match m.next tmpNode c with
  | some tmpNode => (tmpNode, m)
  | none =>
    let (newNode, m) := Pool.getNode m
    (newNode, (Mem.clear m newNode).setNext tmpNode c (some newNode))

def insert (newObject : Nat) : (tmpNode : Nat) → List Sym → Mem → Mem × Int
  | tmpNode, [], m =>
    if (m.next tmpNode 0).isSome then (m, -1) else (m.setNext tmpNode 0 (some newObject), 0)
  | tmpNode, c :: rest, m =>
    let (tmpNode, m) := descend m tmpNode c
    insert newObject tmpNode rest m

/-- The node at the end of the string, and the stack of the nodes after the root;
`some none` if the string is not there, `none` if `node_stack[100]` overflows. -/
def collect (m : Mem) : (tmpNode : Nat) → List Sym → (nodeStack : List Nat) →
    Option (Option (Nat × List Nat))
  | tmpNode, [], nodeStack => some (some (tmpNode, nodeStack))
  | tmpNode, c :: rest, nodeStack =>
    match m.next tmpNode c with
    | none => some none
    | some tmpNode =>
      if nodeStack.length < 100 then collect m tmpNode rest (tmpNode :: nodeStack) else none

/-- Every node comes with the character at which `next_char` points when the node
is taken off the stack. -/
def prune : List (Nat × Fin 256) → Mem → Mem
  | [], m => m
  | (tmpNode, nextChar) :: rest, m =>
    let m := m.setNext tmpNode nextChar none
    if ∃ i, m.next tmpNode i ≠ none then m else prune rest (m.returnNode tmpNode)

/-- The characters that `next_char` passes on its way back. -/
def backwards (s : List Sym) : List (Fin 256) := 0 :: s.reverse.map Subtype.val

def delete (m : Mem) (trie : Nat) (s : List Sym) : Option (Mem × Option Nat) :=
  match collect m trie s [] with
  | none => none
  | some none => some (m, none)
  | some (some (tmpNode, nodeStack)) =>
    some (prune (nodeStack.zip (backwards s)) m, m.next tmpNode 0)

/-- Strings of fewer than 100 characters that are not negative as `char`. -/
abbrev Key := { s : List Sym // s.length < 100 ∧ ∀ c ∈ s, c.1 < 128 }

def store : Store Trie Key Nat where
  insert t k o :=
    let (m, r) := insert o t.root k.1 t.mem
    some (⟨t.root, m⟩, r)
  delete t k := (delete t.mem t.root k.1).map fun (m, o) => (⟨t.root, m⟩, o)
  find t k := some (find t.mem t.root k.1)

/-! ## Links and objects -/

variable {m m' : Mem} {a b root : Nat} {i j : Fin 256} {p : Option Nat} {c : Sym}
    {s t key : List Sym}
  {N N' : List Nat}

namespace Mem

def kids (m : Mem) (a : Nat) (c : Sym) : Option Nat := m.next a c

def obj (m : Mem) (a : Nat) : Option Nat := m.next a 0

theorem next_setNext_self : (m.setNext a i p).next a = update (m.next a) i p := by
  simp [next, setNext]

theorem next_setNext_ne (h : b ≠ a) : (m.setNext a i p).next b = m.next b := by
  simp [next, setNext, h]

theorem kids_setNext_zero : (m.setNext a 0 p).kids = m.kids := by
  funext b c
  by_cases hb : b = a
  · subst hb
    rw [kids, next_setNext_self, update_of_ne c.2]
    rfl
  · rw [kids, next_setNext_ne hb]
    rfl

theorem obj_setNext_ne {i : Fin 256} (hi : i ≠ 0) : (m.setNext a i p).obj = m.obj := by
  funext b
  by_cases hb : b = a
  · subst hb
    rw [obj, next_setNext_self, update_of_ne hi.symm]
    rfl
  · rw [obj, next_setNext_ne hb]
    rfl

theorem obj_setNext_zero : (m.setNext a 0 p).obj = update m.obj a p := by
  funext b
  by_cases hb : b = a
  · subst hb
    rw [obj, next_setNext_self, update_self, update_self]
  · rw [obj, next_setNext_ne hb, update_of_ne hb]
    rfl

end Mem

theorem find_eq_look : find m a s = look m.kids m.obj a s := by
  induction s generalizing a with
  | nil => rfl
  | cons c s ih =>
    rw [find, look, walk, Mem.kids]
    cases m.next a c with
    | none => rfl
    | some b => exact ih

/-! ## Insertion -/

/-- The trie with the nodes `N`. -/
structure Shape (m : Mem) (root : Nat) (N : List Nat) : Prop where
  holds : m.Holds N
  spans : Spans m.kids root N
  pruned : Pruned m.kids m.obj root

/-- The same while nodes for `key` are being added. -/
structure Grown (m : Mem) (root : Nat) (N : List Nat) (key : List Sym) : Prop where
  holds : m.Holds N
  spans : Spans m.kids root N
  pruned : PrunedBut m.kids m.obj root key

section

variable (h : Grown m root N key) (hs : walk m.kids root s = some a)
include h hs

/-- A new node `b` without entries becomes a child of the node at `s`. -/
theorem Grown.leaf (hc : m.next a c = none)
    (hkey : s ++ [c] <+: key) (hbN : b ∉ N) (hholds : m'.Holds (b :: N))
    (hnext : ∀ x ∈ N, x ≠ a → m'.next x = m.next x)
    (hnexta : m'.next a = update (m.next a) c (some b)) (hnextb : m'.next b = fun _ => none) :
      Grown m' root (b :: N) key ∧ walk m'.kids root (s ++ [c]) = some b ∧
        look m'.kids m'.obj root = look m.kids m.obj root := by
  have hkids : ∀ x ∈ N, ∀ d, x ≠ a ∨ d ≠ c → m'.kids x d = m.kids x d := fun x hx d hd => by
    by_cases hxa : x = a
    · subst hxa
      have hdc : d ≠ c := hd.resolve_left fun hne => hne rfl
      rw [Mem.kids, hnexta, update_of_ne fun heq => hdc (Subtype.ext heq)]
      rfl
    · rw [Mem.kids, hnext x hx hxa]
      rfl
  have hobj : ∀ x ∈ N, m'.obj x = m.obj x := fun x hx => by
    by_cases hxa : x = a
    · subst hxa
      rw [Mem.obj, hnexta, update_of_ne c.2.symm]
      rfl
    · rw [Mem.obj, hnext x hx hxa]
      rfl
  have hwalk : ∀ t, walk m'.kids root t = if t = s ++ [c] then some b else walk m.kids root t :=
    h.spans.walk_leaf hs hc (by rw [Mem.kids, hnexta, update_self]) hkids fun d => by
      rw [Mem.kids, hnextb]
  have hnew : walk m.kids root (s ++ [c]) = none := (walk_concat_of hs).trans hc
  have hlook := h.spans.look_leaf hwalk hnew hobj (by rw [Mem.obj, hnextb])
  refine ⟨⟨hholds, h.spans.leaf hbN hwalk hnew, h.pruned.leaf hwalk hlook hkey⟩, ?_, hlook⟩
  rw [hwalk, if_pos rfl]

theorem descend_ok (hkey : s ++ [c] <+: key) :
    ∃ b m' N', descend m a c = (b, m') ∧ Grown m' root N' key ∧
      walk m'.kids root (s ++ [c]) = some b ∧
        look m'.kids m'.obj root = look m.kids m.obj root := by
  unfold descend
  split
  next b hb => exact ⟨b, m, N, rfl, h, (walk_concat_of hs).trans hb, rfl⟩
  next hc =>
    have hbN : (Pool.getNode m).1 ∉ N := h.holds.fresh
    have hba : (Pool.getNode m).1 ≠ a := fun heq => hbN (heq ▸ h.spans.mem hs)
    refine ⟨(Pool.getNode m).1,
      (Mem.clear (Pool.getNode m).2 (Pool.getNode m).1).setNext a c (some (Pool.getNode m).1),
      (Pool.getNode m).1 :: N, rfl, h.leaf hs hc hkey hbN (h.holds.getNode.of_eq rfl rfl)
      (fun x hx hxa => ?_) ?_ ?_⟩
    · have hxb : x ≠ (Pool.getNode m).1 := fun heq => hbN (heq ▸ hx)
      rw [Mem.next_setNext_ne hxa]
      simp [Mem.next, Mem.clear, hxb]
    · rw [Mem.next_setNext_self]
      simp [Mem.next, Mem.clear, hba.symm]
    · rw [Mem.next_setNext_ne hba]
      simp [Mem.next, Mem.clear]

end

variable {r : List Sym}

theorem insert_ok (o : Nat) (h : Grown m root N key) (hs : walk m.kids root s = some a)
    (hr : s ++ r = key) : ∃ m' N' i, insert o a r m = (m', i) ∧ Shape m' root N' ∧
      Entered (look m.kids m.obj root) key o (look m'.kids m'.obj root) i := by
  induction r generalizing m a s N with
  | nil =>
    rw [append_nil] at hr
    subst hr
    have hlook : look m.kids m.obj root s = m.next a 0 := look_of_walk hs
    cases hobj : m.next a 0 with
    | some x =>
      have hne : look m.kids m.obj root s ≠ none := by rw [hlook, hobj]; exact nofun
      exact ⟨m, N, -1, by simp [insert, hobj], ⟨h.holds, h.spans, h.pruned.pruned hne⟩,
        .of_present hne⟩
    | none =>
      have hkids : (m.setNext a 0 (some o)).kids = m.kids := Mem.kids_setNext_zero
      have hlook' : look (m.setNext a 0 (some o)).kids (m.setNext a 0 (some o)).obj root =
          update (look m.kids m.obj root) s (some o) := by
        rw [hkids, Mem.obj_setNext_zero, h.spans.look_update hs]
      exact ⟨m.setNext a 0 (some o), N, 0, by simp [insert, hobj], ⟨h.holds.of_eq rfl rfl,
        by rw [hkids]; exact h.spans, h.pruned.fill hkids hlook'⟩,
        .of_absent (hlook.trans hobj) hlook'⟩
  | cons c r ih =>
    have hkey : s ++ [c] <+: key := ⟨r, by rw [← hr, append_assoc]; rfl⟩
    obtain ⟨b, m1, N1, hd, hg, hwalk, hlook⟩ := descend_ok h hs hkey
    simpa only [insert, hd, hlook] using ih hg hwalk (by rw [← hr, append_assoc]; rfl)

/-! ## Going back -/

theorem collect_ok {stack : List Nat} (hstack : Trail m.kids root s stack)
    (hs : walk m.kids root s = some a) (hlen : stack.length + r.length ≤ 100) :
    (walk m.kids root (s ++ r) = none ∧ collect m a r stack = some none) ∨
      ∃ b l, walk m.kids root (s ++ r) = some b ∧ Trail m.kids root (s ++ r) l ∧
        collect m a r stack = some (some (b, l)) := by
  induction r generalizing a s stack with
  | nil =>
    rw [append_nil]
    exact .inr ⟨a, stack, hs, hstack, rfl⟩
  | cons c r ih =>
    rw [length_cons] at hlen
    have happ : s ++ c :: r = s ++ [c] ++ r := by rw [append_assoc]; rfl
    have hwalk : walk m.kids root (s ++ [c]) = m.next a c := walk_concat_of hs
    rw [collect]
    cases hb : m.next a c with
    | none =>
      refine .inl ⟨?_, rfl⟩
      rw [happ, walk_append, hwalk, hb, bind_none]
    | some b =>
      rw [hb] at hwalk
      have := ih (hstack.snoc hwalk) hwalk (by rw [length_cons]; omega)
      rw [happ]
      simpa only [if_pos (show stack.length < 100 by omega)] using this

/-- The entry of the node at `s1` on the way to `s1 ++ s2`. -/
def entry : List Sym → Fin 256
  | [] => 0
  | c :: _ => c

/-- The strings that start with `s1` and the first symbol of `s2`. -/
def Below (s1 s2 u : List Sym) : Prop := ∃ c r, s2 = c :: r ∧ s1 ++ [c] <+: u

theorem not_below_self {s1 s2 : List Sym} : ¬ Below s1 s2 s1 := by
  rintro ⟨c, r, -, hpre⟩
  exact not_concat_prefix_self hpre

theorem not_below_nil {s u : List Sym} : ¬ Below s [] u := by
  rintro ⟨c, r, hnil, -⟩
  cases hnil

theorem below_cons {s r u : List Sym} {c : Sym} : Below s (c :: r) u ↔ s ++ [c] <+: u := by
  constructor
  · rintro ⟨d, r', heq, hpre⟩
    rwa [(List.cons.inj heq).1]
  · exact fun hpre => ⟨c, r, rfl, hpre⟩

/-- The nodes below `s1` on the way to `s1 ++ s2` have been given back. They were
on the way to no other key. -/
structure Peeled (m m' : Mem) (root : Nat) (N N' : List Nat) (s1 s2 : List Sym) : Prop where
  holds : m'.Holds N'
  mem_iff : ∀ u x, walk m.kids root u = some x → (x ∈ N' ↔ ¬ Below s1 s2 u)
  sub : ∀ x ∈ N', x ∈ N
  freed : ∀ x ∈ N, x ∉ N' → x ∈ m'.freeList
  same : ∀ x ∈ N', m'.next x = m.next x
  sole : ∀ t, Below s1 s2 t → look m.kids m.obj root t ≠ none → t = s1 ++ s2

theorem Shape.peeled (h : Shape m root N) (s : List Sym) : Peeled m m root N N s [] where
  holds := h.holds
  mem_iff _ _ hu := iff_of_true (h.spans.mem hu) not_below_nil
  sub _ hx := hx
  freed _ hx hnot := (hnot hx).elim
  same _ _ := rfl
  sole _ ht := (not_below_nil ht).elim

variable {s1 s2 : List Sym} {l : List Nat}

/-- A node whose other entries are NULL has only the way to `s1 ++ s2` below it. -/
theorem Peeled.below_of_empty (h : Peeled m m' root N N' s1 s2) (hs : walk m.kids root s1 = some a)
    (ha : a ∈ N') (hempty : ∀ i, (m'.setNext a (entry s2) none).next a i = none) {x : Nat}
    {u : List Sym} (hu : walk m.kids root u = some x) (hpre : s1 <+: u) : u = s1 ∨
    Below s1 s2 u := by
  obtain ⟨r, rfl⟩ := hpre
  cases r with
  | nil => exact .inl (append_nil s1)
  | cons c r =>
    refine .inr ?_
    obtain ⟨y, hy⟩ : ∃ y, m.next a c = some y := by
      obtain ⟨y, hy⟩ := exists_walk_of_prefix (s := s1 ++ [c]) hu ⟨r, by rw [append_assoc]; rfl⟩
      exact ⟨y, (walk_concat_of hs).symm.trans hy⟩
    have hentry : entry s2 = c := by
      by_contra hne
      have := hempty c
      rw [Mem.next_setNext_self, update_of_ne (Ne.symm hne), h.same a ha, hy] at this
      cases this
    cases s2 with
    | nil => exact (c.2 hentry.symm).elim
    | cons d s2 =>
      obtain rfl : d = c := Subtype.ext hentry
      exact ⟨d, s2, rfl, ⟨r, by rw [append_assoc]; rfl⟩⟩

theorem Peeled.step {d : Sym} (h : Peeled m m' root N N' (s ++ [d]) s2)
    (hspans : Spans m.kids root N) (hs : walk m.kids root (s ++ [d]) = some a)
    (hempty : ∀ i, (m'.setNext a (entry s2) none).next a i = none) :
    Peeled m ((m'.setNext a (entry s2) none).returnNode a) root N (N'.erase a) s (d :: s2) := by
  have ha : a ∈ N' := (h.mem_iff _ a hs).2 not_below_self
  have hbelow : ∀ {u x}, walk m.kids root u = some x →
      (Below s (d :: s2) u ↔ u = s ++ [d] ∨ Below (s ++ [d]) s2 u) := fun {u x} hu => by
    rw [below_cons]
    refine ⟨h.below_of_empty hs ha hempty hu, ?_⟩
    rintro (rfl | ⟨c, r, -, hpre⟩)
    · exact prefix_rfl
    · exact (prefix_append _ [c]).trans hpre
  have hnodup := h.holds.nodup_owned
  refine ⟨?_, fun u x hu => ?_, fun x hx => h.sub x (mem_of_mem_erase hx), fun x hx hxN => ?_,
    fun x hx => ?_, fun t ht hlook => ?_⟩
  · exact Pool.Holds.returnNode ((h.holds.perm (perm_cons_erase ha)).of_eq rfl rfl)
  · rw [hnodup.mem_erase_iff, h.mem_iff u x hu, hbelow hu, not_or]
    refine and_congr_left fun _ => not_congr ⟨?_, ?_⟩
    · rintro rfl
      exact hspans.unique u _ x hu hs
    · rintro rfl
      exact some.inj (hu.symm.trans hs)
  · by_cases hxa : x = a
    · exact hxa ▸ mem_cons_self
    · refine mem_cons_of_mem _ (h.freed x hx fun hx' => hxN ?_)
      exact (hnodup.mem_erase_iff).2 ⟨hxa, hx'⟩
  · obtain ⟨hxa, hx⟩ := hnodup.mem_erase_iff.1 hx
    rw [← h.same x hx]
    simp [Mem.next, Mem.returnNode, Mem.setNext, hxa]
  · obtain ⟨y, hy⟩ := exists_walk_of_look hlook
    rcases (hbelow hy).1 ht with rfl | ht
    · -- the node has an object, so its entry 0 is the one that has been cleared
      rw [look_of_walk hs] at hlook
      cases s2 with
      | nil => rfl
      | cons c s2 =>
        refine (hlook ?_).elim
        have := hempty 0
        rwa [Mem.next_setNext_self, entry, update_of_ne (Ne.symm c.2), h.same a ha] at this
    · rw [h.sole t ht hlook, append_assoc]
      rfl

/-- Where the loop stops: at a node with another entry, or at the root. -/
theorem prune_ok (hspans : Spans m.kids root N) (hl : Trail m.kids root s1 l)
    (h : Peeled m m' root N N' s1 s2) :
    (∃ p q a m1 N1, p ≠ [] ∧ p ++ q = s1 ++ s2 ∧ walk m.kids root p = some a ∧
        Peeled m m1 root N N1 p q ∧ (∃ i, (m1.setNext a (entry q) none).next a i ≠ none) ∧
        prune (l.zip (entry s2 :: s1.reverse.map Subtype.val)) m' = m1.setNext a (entry q) none) ∨
      ∃ N1, Peeled m (prune (l.zip (entry s2 :: s1.reverse.map Subtype.val)) m') root N N1 []
        (s1 ++ s2) := by
  induction hl generalizing m' N' s2 with
  | nil => exact .inr ⟨N', h⟩
  | @snoc s l d a hl ha ih =>
    have hzip : (a :: l).zip (entry s2 :: (s ++ [d]).reverse.map Subtype.val) =
        (a, entry s2) :: l.zip (entry (d :: s2) :: s.reverse.map Subtype.val) := by
      simp [entry]
    rw [hzip, prune]
    by_cases hex : ∃ i, (m'.setNext a (entry s2) none).next a i ≠ none
    · exact .inl ⟨s ++ [d], s2, a, m', N', by simp, rfl, ha, h, hex, if_pos hex⟩
    · have hempty : ∀ i, (m'.setNext a (entry s2) none).next a i = none := by simpa using hex
      have happ : s ++ [d] ++ s2 = s ++ d :: s2 := by rw [append_assoc]; rfl
      simp only [if_neg hex, happ]
      exact ih (h.step hspans ha hempty)

section Finish

variable {p q : List Sym}

section

variable (hp : Peeled m m' root N N' p q) (h : Shape m root N) (ha : walk m.kids root p = some a)
include hp h ha

/-- The node at which the loop stops is on the way to another key. -/
theorem Peeled.not_sole (hex : ∃ i, (m'.setNext a (entry q) none).next a i ≠ none) :
    ¬ Sole m.kids m.obj root (p ++ q) p := by
  obtain ⟨i, hi⟩ := hex
  have haN : a ∈ N' := (hp.mem_iff p a ha).2 not_below_self
  have hie : i ≠ entry q := by
    rintro rfl
    rw [Mem.next_setNext_self, update_self] at hi
    exact hi rfl
  rw [Mem.next_setNext_self, update_of_ne hie, hp.same a haN] at hi
  by_cases hi0 : i = 0
  · -- the node has an object of its own
    subst hi0
    refine not_sole_of_obj ha hi fun hpq => hie ?_
    obtain rfl : q = [] := by simpa using hpq
    rfl
  · obtain ⟨y, hy⟩ := ne_none_iff_exists'.1 hi
    refine h.pruned.not_sole_of_child (c := ⟨i, hi0⟩) ha hy ?_
    rintro ⟨r, hr⟩
    rw [append_assoc, append_cancel_left_eq] at hr
    subst hr
    exact hie rfl

omit hp ha in
theorem Peeled.same_of_nil (hp : Peeled m m' root N N' p []) (x : Nat) (hx : x ∈ N) :
    m'.next x = m.next x := by
  obtain ⟨u, hu⟩ := (h.spans.mem_iff x).1 hx
  exact hp.same x ((hp.mem_iff u x hu).2 not_below_nil)

theorem Peeled.walk_iff (t : List Sym) (x : Nat) :
    walk (m'.setNext a (entry q) none).kids root t = some x ↔
      walk m.kids root t = some x ∧ ¬ Below p q t := by
  have haN : a ∈ N' := (hp.mem_iff p a ha).2 not_below_self
  cases q with
  | nil =>
    have hkids : ∀ x ∈ N, ∀ d, m'.kids x d = m.kids x d :=
      fun x hx d => congrFun (hp.same_of_nil h x hx) d
    rw [entry, Mem.kids_setNext_zero, h.spans.walk_congr hkids]
    exact (and_iff_left not_below_nil).symm
  | cons c r =>
    have hcut : (m'.setNext a c none).kids a c = none := by
      rw [Mem.kids, Mem.next_setNext_self, update_self]
    have hkids : ∀ u y, walk m.kids root u = some y → ¬ p ++ [c] <+: u →
        ∀ d, y ≠ a ∨ d ≠ c → (m'.setNext a c none).kids y d = m.kids y d :=
      fun u y hy hpre d hd => by
      have hyN : y ∈ N' := (hp.mem_iff u y hy).2 fun hb => hpre (below_cons.1 hb)
      by_cases hya : y = a
      · subst hya
        have hdc : d ≠ c := hd.resolve_left fun hne => hne rfl
        rw [Mem.kids, Mem.next_setNext_self, update_of_ne fun heq => hdc (Subtype.ext heq),
          hp.same y hyN]
        rfl
      · rw [Mem.kids, Mem.next_setNext_ne hya, hp.same y hyN]
        rfl
    rw [entry, h.spans.walk_cut ha hcut hkids, below_cons]
    split <;> simp [*]

theorem Peeled.look_eq :
    look (m'.setNext a (entry q) none).kids (m'.setNext a (entry q) none).obj root =
      update (look m.kids m.obj root) (p ++ q) none := by
  cases q with
  | nil =>
    have hsame := hp.same_of_nil h
    rw [entry, append_nil, Mem.kids_setNext_zero, Mem.obj_setNext_zero, ← h.spans.look_update ha]
    refine h.spans.look_congr (fun x hx d => congrFun (hsame x hx) d) fun x hx => ?_
    rw [update_apply, update_apply, show m'.obj x = m.obj x from congrFun (hsame x hx) 0]
  | cons c r =>
    refine Sole.look_cut (p := p ++ [c]) (fun t ht => hp.sole t (below_cons.2 ht)) ⟨r, by simp⟩
      (fun t x => ?_)
      fun t x hx => ?_
    · rw [hp.walk_iff h ha, below_cons]
    · obtain ⟨hxt, hnot⟩ := (hp.walk_iff h ha t x).1 hx
      rw [entry, Mem.obj_setNext_ne c.2]
      exact congrFun (hp.same x ((hp.mem_iff t x hxt).2 hnot)) 0

theorem Peeled.shape (hex : ∃ i, (m'.setNext a (entry q) none).next a i ≠ none) :
    Shape (m'.setNext a (entry q) none) root N' := by
  refine ⟨hp.holds.of_eq rfl rfl,
    h.spans.restrict (hp.walk_iff h ha) hp.holds.nodup_owned hp.mem_iff hp.sub,
    h.pruned.delete (s := p ++ q) (fun u x hu => ((hp.walk_iff h ha u x).1 hu).1) (fun t ht => ?_)
      fun u x hu _ hpre hsole => ?_⟩
  · rw [hp.look_eq h ha, update_of_ne ht]
  · -- a string on the way that is not below `p` leads to `p`
    refine hp.not_sole h ha hex (hsole.mono ?_)
    cases q with
    | nil => rwa [append_nil] at hpre
    | cons c r =>
      exact prefix_of_not_prefix hpre fun hc => ((hp.walk_iff h ha u x).1 hu).2 ⟨c, r, rfl, hc⟩

end

end Finish

/-! ## Deletion -/

theorem delete_absent (hs : walk m.kids root s = none) (hlen : s.length ≤ 100) :
    delete m root s = some (m, none) := by
  rcases collect_ok (a := root) (r := s) .nil rfl (by simpa using hlen) with ⟨-, hc⟩ | ⟨b, l, hb, -⟩
  · rw [delete, hc]
  · rw [nil_append, hs] at hb
    cases hb

/-- The string leads to a node: either one node on the way keeps an entry, or all
of them are given back and the root is left as it is. -/
theorem delete_present (h : Shape m root N) (hs : walk m.kids root s = some b)
    (hlen : s.length ≤ 100) :
    ∃ m', delete m root s = some (m', look m.kids m.obj root s) ∧
      ((∃ N' p, Shape m' root N' ∧
            look m'.kids m'.obj root = update (look m.kids m.obj root) s none ∧
          p ≠ [] ∧ p <+: s ∧ ¬ Sole m.kids m.obj root s p) ∨
        ∃ N', Peeled m m' root N N' [] s) := by
  rcases collect_ok (a := root) (r := s) .nil rfl (by simpa using hlen) with ⟨hnone, -⟩ | ⟨b',
    l, hb, hl, hc⟩
  · rw [nil_append, hs] at hnone
    cases hnone
  · rw [nil_append] at hb hl
    obtain rfl : b = b' := some.inj (hs.symm.trans hb)
    refine ⟨_, by rw [delete, hc, look_of_walk hs]; rfl, ?_⟩
    rcases prune_ok h.spans hl (h.peeled s) with ⟨p, q, a, m1, N1, hp, hpq, ha, hpeel, hex,
      heq⟩ | ⟨N1, hpeel⟩
    · rw [append_nil] at hpq
      subst hpq
      have heq : prune (l.zip (backwards (p ++ q))) m = m1.setNext a (entry q) none := heq
      refine .inl ⟨N1, p, ?_, ?_, hp, prefix_append p q, hpeel.not_sole h ha hex⟩
      · rw [heq]
        exact hpeel.shape h ha hex
      · rw [heq]
        exact hpeel.look_eq h ha
    · rw [append_nil] at hpeel
      exact .inr ⟨N1, hpeel⟩

/-! ## Runs -/

/-- No link that is reached from the root leads to a node that has been given
back. -/
def NoReturned (t : Trie) : Prop := ∀ s a, walk t.mem.kids t.root s = some a → a ∉ t.mem.freeList

/-- The key is present, and no other key starts with the same character. For the
empty string this says that it is present. -/
def Strands (t : Trie) : Call Key Nat → Prop
  | .insert _ _ => False
  | .delete k => find t.mem t.root k.1 ≠ none ∧
      ∀ k' : Key, k' ≠ k → k'.1.head? = k.1.head? → find t.mem t.root k'.1 = none

structure Rep (t : Trie) (d : Dict Key Nat) : Prop where
  shape : ∃ N, Shape t.mem t.root N
  shows : ∀ k : Key, look t.mem.kids t.mem.obj t.root k.1 = d k
  valid : ∀ s, look t.mem.kids t.mem.obj t.root s ≠ none → s.length < 100 ∧ ∀ c ∈ s, c.1 < 128

variable {t : Trie} {d : Dict Key Nat} {k : Key}

theorem Shape.noReturned (h : Shape m root N) : NoReturned ⟨root, m⟩ := fun _ a hs hfree =>
  (nodup_append.1 h.holds.nodup).2.2 a hfree a (h.spans.mem hs) rfl

theorem Rep.shows_find (h : Rep t d) : store.Shows t d := fun k => by
  rw [← h.shows k, ← find_eq_look]
  rfl

theorem Rep.insert (h : Rep t d) (k : Key) (o : Nat) : ∃ t',
    store.step t (.insert k o) = some (t', (d.step (.insert k o)).2) ∧ NoReturned t' ∧
      Rep t' (d.step (.insert k o)).1 := by
  obtain ⟨N, hN⟩ := h.shape
  have hgrown : Grown t.mem t.root N k.1 := ⟨hN.holds, hN.spans, hN.pruned.but k.1⟩
  obtain ⟨m', N', r, heq, hshape, hentered⟩ := insert_ok o (s := []) hgrown rfl rfl
  obtain ⟨hanswer, hshows⟩ := hentered.step Subtype.val_injective h.shows
  refine ⟨⟨t.root, m'⟩, by simp [Store.step, store, heq, hanswer], hshape.noReturned,
    ⟨N', hshape⟩, hshows,
    fun s hs => ?_⟩
  rcases hentered.of_ne_none hs with hs | rfl
  · exact h.valid s hs
  · exact k.2

/-- `Sole` for a key in terms of the other keys. -/
theorem Rep.sole_iff (h : Rep t d) (hk : k.1 = c :: r) : Sole t.mem.kids t.mem.obj t.root k.1 [c] ↔
      ∀ k' : Key, k' ≠ k → k'.1.head? = k.1.head? → find t.mem t.root k'.1 = none := by
  have hhead : ∀ u : List Sym, [c] <+: u ↔ u.head? = some c := fun u => by
    cases u <;> simp [eq_comm]
  rw [hk]
  constructor
  · intro hsole k' hne hk'
    by_contra hfind
    rw [find_eq_look] at hfind
    exact hne (Subtype.ext ((hsole k'.1 ((hhead _).2 hk') hfind).trans hk.symm))
  · intro hall u hu hlook
    by_contra hne
    refine hlook ?_
    rw [← find_eq_look]
    refine hall ⟨u, h.valid u hlook⟩ (fun heq => hne ?_) ((hhead u).1 hu)
    rw [← hk, ← heq]

theorem Peeled.sole_head (hp : Peeled m m' root N N' [] (c :: r)) :
    Sole m.kids m.obj root (c :: r) [c] := fun u hu hlook => hp.sole u ⟨c, r, rfl, hu⟩ hlook

section

variable (h : Rep t d)
include h

theorem Rep.removed (hshape : Shape m' t.root N')
    (hlook : look m'.kids m'.obj t.root = update (look t.mem.kids t.mem.obj t.root) k.1 none) :
    Rep ⟨t.root, m'⟩ (d.step (.delete k)).1 := by
  refine ⟨⟨N', hshape⟩, step_delete_of_update Subtype.val_injective h.shows hlook,
    fun s hs => h.valid s ?_⟩
  rw [hlook, update_apply] at hs
  split at hs
  · exact (hs rfl).elim
  · exact hs

theorem Rep.step_delete
    (heq : ArNTrie.delete t.mem t.root k.1 = some (m', look t.mem.kids t.mem.obj t.root k.1)) :
    store.step t (.delete k) = some (⟨t.root, m'⟩, (d.step (.delete k)).2) := by
  simp [Store.step, store, heq, Dict.step, h.shows k]

/-- The key is not there. -/
theorem Rep.delete_absent (hnone : look t.mem.kids t.mem.obj t.root k.1 = none)
    (heq : ArNTrie.delete t.mem t.root k.1 = some (t.mem, none)) : ∃ t',
    store.step t (.delete k) = some (t', (d.step (.delete k)).2) ∧ NoReturned t' ∧
      Rep t' (d.step (.delete k)).1 := by
  obtain ⟨N, hN⟩ := h.shape
  refine ⟨t, h.step_delete (by rw [heq, hnone]), hN.noReturned, h.removed hN ?_⟩
  rw [← hnone, update_eq_self]

theorem Rep.delete (hk : ¬ Strands t (.delete k)) : ∃ t',
    store.step t (.delete k) = some (t', (d.step (.delete k)).2) ∧ NoReturned t' ∧
      Rep t' (d.step (.delete k)).1 := by
  obtain ⟨N, hN⟩ := h.shape
  obtain ⟨s, hs⟩ : ∃ s, k.1 = s := ⟨_, rfl⟩
  cases s with
  | nil =>
    have hnone : find t.mem t.root k.1 = none := by
      by_contra hfind
      refine hk ⟨hfind, fun k' hne hhead => (hne (Subtype.ext ?_)).elim⟩
      rw [hs, List.head?_nil, List.head?_eq_none_iff] at hhead
      rw [hhead, hs]
    refine h.delete_absent (find_eq_look.symm.trans hnone) ?_
    rw [← hnone, hs]
    rfl
  | cons c r =>
    cases hb : walk t.mem.kids t.root k.1 with
    | none =>
      exact h.delete_absent (by rw [look, hb, bind_none])
        (ArNTrie.delete_absent hb (Nat.le_of_lt k.2.1))
    | some b =>
      obtain ⟨m', heq, hcases⟩ := delete_present hN hb (Nat.le_of_lt k.2.1)
      rcases hcases with ⟨N', -, hshape, hlook, -⟩ | ⟨N', hpeel⟩
      · exact ⟨⟨t.root, m'⟩, h.step_delete heq, hshape.noReturned, h.removed hshape hlook⟩
      · -- all nodes have been given back: there is no other key
        have hsole : Sole t.mem.kids t.mem.obj t.root k.1 [c] := by
          rw [hs] at hpeel ⊢
          exact hpeel.sole_head
        obtain ⟨u, hku, hu⟩ := hN.pruned k.1 b hb (by simp [hs])
        have hcu : [c] <+: u := (show [c] <+: k.1 by simp [hs]).trans hku
        refine (hk ⟨?_, (h.sole_iff hs).1 hsole⟩).elim
        rw [find_eq_look, ← hsole u hcu hu]
        exact hu

/-- The root keeps a link to a node that has been given back, or the object of the
empty string. -/
theorem Rep.breaks (hk : Strands t (.delete k)) {t' : Trie}
    (hstep : store.step t (.delete k) = some (t', (d.step (.delete k)).2)) (hgood : NoReturned t') :
    ¬ store.Shows t' (d.step (.delete k)).1 := by
  obtain ⟨N, hN⟩ := h.shape
  obtain ⟨hfind, hother⟩ := hk
  rw [find_eq_look] at hfind
  obtain ⟨b, hb⟩ := exists_walk_of_look hfind
  obtain ⟨s, hs⟩ : ∃ s, k.1 = s := ⟨_, rfl⟩
  cases s with
  | nil =>
    have heq :
        ArNTrie.delete t.mem t.root k.1 = some (t.mem, look t.mem.kids t.mem.obj t.root k.1) := by
      rw [hs]
      rfl
    rw [h.step_delete heq] at hstep
    obtain rfl := congrArg Prod.fst (some.inj hstep)
    intro hshows
    have := hshows k
    rw [show store.find ⟨t.root, t.mem⟩ k = some (find t.mem t.root k.1) from rfl,
      find_eq_look] at this
    simp [Dict.step, hfind] at this
  | cons c r =>
    obtain ⟨m', heq, hcases⟩ := delete_present hN hb (Nat.le_of_lt k.2.1)
    rw [h.step_delete heq] at hstep
    obtain rfl := congrArg Prod.fst (some.inj hstep)
    rcases hcases with ⟨N', p, -, -, hp, hpk, hsole⟩ | ⟨N', hpeel⟩
    · refine (hsole (((h.sole_iff hs).2 hother).mono ?_)).elim
      obtain ⟨e, p, rfl⟩ := exists_cons_of_ne_nil hp
      rw [hs] at hpk
      simpa [eq_comm] using (cons_prefix_cons.1 hpk).1
    · rw [hs] at hpeel hb
      obtain ⟨a, ha⟩ := exists_walk_of_prefix (s := [c]) hb (by simp)
      have haN : a ∉ N' := fun hmem => (hpeel.mem_iff [c] a ha).1 hmem ⟨c, r, rfl, prefix_rfl⟩
      have hroot : t.root ∈ N' := (hpeel.mem_iff [] t.root rfl).2 not_below_self
      refine (hgood [c] a ?_ (hpeel.freed a (hN.spans.mem ha) haN)).elim
      have hkids : m'.kids t.root c = t.mem.kids t.root c := congrFun (hpeel.same t.root hroot) c.1
      rw [walk, hkids]
      exact ha

end

theorem rep_createTrie (node : Nat → Node) : Rep (createTrie ⟨node, [], 0⟩) Dict.empty := by
  obtain ⟨m, hm⟩ : ∃ m, createTrie ⟨node, [], 0⟩ = ⟨0, m⟩ := ⟨_, rfl⟩
  have hnext : m.next 0 = fun _ => none := by
    obtain rfl := congrArg Trie.mem hm
    simp [Mem.next, Mem.clear, createTrie, Pool.getNode]
  have hkids : ∀ c, m.kids 0 c = none := fun c => congrFun hnext c
  have hlook : ∀ s, look m.kids m.obj 0 s = none := look_single hkids (congrFun hnext 0)
  rw [hm]
  refine ⟨⟨[0], ?_, .single hkids, fun p x hx hp => (hp ((walk_single hkids).1 hx).1).elim⟩,
    fun k => hlook k.1,
    fun s hs => (hs (hlook s)).elim⟩
  obtain rfl := congrArg Trie.mem hm
  have hnone : Pool.Holds (⟨node, [], 0⟩ : Mem) [] := ⟨nodup_nil, by simp⟩
  exact hnone.getNode.of_eq rfl rfl

/-- The calls have the answers of the dictionary, and no link leads to a node that
has been given back, exactly in the runs where `delete` is never called for a
key without another one that starts with the same character. -/
theorem follows_iff_avoids_strands (node : Nat → Node) (cs : List (Call Key Nat)) :
    NoReturned (createTrie ⟨node, [], 0⟩) ∧
      (store.Follows (fun _ _ t' => NoReturned t') (createTrie ⟨node, [], 0⟩) Dict.empty cs ↔
        store.Avoids Strands (createTrie ⟨node, [], 0⟩) cs) := by
  have hrep := rep_createTrie node
  obtain ⟨N, hN⟩ := hrep.shape
  refine ⟨hN.noReturned, Store.follows_iff_of_breaks (R := Rep) (fun t d h =>
    h.shows_find) ?_ ?_ hrep⟩
  · intro t d c h hc
    cases c with
    | insert k o => exact h.insert k o
    | delete k => exact h.delete hc
  · intro t d c h hc t' hstep hgood
    cases c with
    | insert k o => exact hc.elim
    | delete k => exact h.breaks hc hstep hgood

/-- The strings "a" and "b". -/
def keyA : Key := ⟨[⟨97, by simp⟩], by simp⟩

def keyB : Key := ⟨[⟨98, by simp⟩], by simp⟩

/-- The node that "a" has given back is used for "b", and the root still links
to it under "a". -/
theorem not_follows_keyA_keyB :
    ¬ store.Follows (fun _ _ _ => True) (createTrie ⟨fun _ => ⟨fun _ => none⟩, [], 0⟩)
    Dict.empty [.insert keyA 7, .delete keyA, .insert keyB 9] := by
  rintro ⟨-, t1, h1, -, -, t2, h2, -, -, t3, h3, -, hshows⟩
  have hrun : store.run (createTrie ⟨fun _ => ⟨fun _ => none⟩, [], 0⟩)
      [.insert keyA 7, .delete keyA, .insert keyB 9] = some t3 := by simp [Store.run, h1, h2, h3]
  have hfind : (store.run (createTrie ⟨fun _ => ⟨fun _ => none⟩, [], 0⟩)
      [.insert keyA 7, .delete keyA, .insert keyB 9]).bind (store.find · keyA) = some (some
      9) := by decide +kernel
  rw [hrun, bind_some, hshows keyA] at hfind
  exact absurd hfind (by decide)

end CLangProject.ArNTrie
