import CLangProject.Key
import CLangProject.LeafStore

/-!
# Height-balanced leaf trees

`ch3/h_bl_tree.c`, `ch4/wsum_tree.c` and `ch4/wsmx_tree.c` keep leaf trees
height-balanced with the same code. They differ in what a node records beside
its height, and with it in the rotations and in the new leaves; a `Variant`
collects these differences. `plain` is the variant in which a node records
nothing else: its tag is its height.

Forgetting a part of the tags maps the code of one variant to the code of
another (`Variant.Hom`, `insert_mapTag`), and forgetting all but the height maps
it to the code of `plain`. So it is enough to prove for `plain` that a tree
stays balanced: `Avl t n` says that the heights recorded in `t` are right,
that those of siblings differ by at most one, and that the height is `n`. In the
loop that goes up, the subtree may have a height that differs by one from the
one its context was made for (`Fits`).
-/

namespace CLangProject.HeightTree

open LeafTree List

variable {τ κ ο : Type}

variable {p : List Dir} {t t' : LeafTree τ κ ο}

/-! ## The code -/

structure Variant (τ κ ο : Type) where
  height : τ → Int
  setHeight : Int → τ → τ
  /-- The tag of the first leaf of a tree. -/
  first : τ
  /-- The tag of the two new leaves below a leaf with the given tag. -/
  split : τ → τ
  rotation : Dir → LeafTree τ κ ο → Option (LeafTree τ κ ο)

def plain : Variant Int κ ο where
  height := id
  setHeight h _ := h
  first := 0
  split _ := 0
  rotation := LeafTree.rotation

namespace Variant

variable (v : Variant τ κ ο)

def heightAt (p : List Dir) (t : LeafTree τ κ ο) : Option Int := (t.tagAt p).map v.height

def putHeight (p : List Dir) (h : Int) (t : LeafTree τ κ ο) : Option (LeafTree τ κ ο) :=
  t.modify (fun t => some (t.paint (v.setHeight h t.tag))) p

/-- The rotations when the child of `tmp_node` on side `d` is too high by two. -/
def repair (d : Dir) (tmp : LeafTree τ κ ο) : Option (LeafTree τ κ ο) := do
  if (← v.heightAt [d, d] tmp) - (← v.heightAt [d.flip] tmp) = 1 then
    let tmp ← v.rotation d.flip tmp
    let tmp ← v.putHeight [d.flip] ((← v.heightAt [d.flip, d] tmp) + 1) tmp
    v.putHeight [] ((← v.heightAt [d.flip] tmp) + 1) tmp
  else
    let tmp ← tmp.modify (v.rotation d) [d]
    let tmp ← v.rotation d.flip tmp
    let tmpHeight ← v.heightAt [d, d] tmp
    let tmp ← v.putHeight [d] (tmpHeight + 1) tmp
    let tmp ← v.putHeight [d.flip] (tmpHeight + 1) tmp
    v.putHeight [] (tmpHeight + 2) tmp

/-- The body of the loop that goes up. -/
def balance (tmp : LeafTree τ κ ο) : Option (LeafTree τ κ ο) := do
  let left ← v.heightAt [.left] tmp
  let right ← v.heightAt [.right] tmp
  if left - right = 2 then v.repair .left tmp
  else if left - right = -2 then v.repair .right tmp
  else if left > right then v.putHeight [] (left + 1) tmp
  else v.putHeight [] (right + 1) tmp

/-- The loop `while ( path_st_p > 0 && !finished )`: the first argument is the
stack, the second the subtree below its top. -/
def rebalance : Context τ κ ο → LeafTree τ κ ο → Option (LeafTree τ κ ο)
  | [], t => some t
  | f :: fs, t =>
    (v.balance (f.fill t)).bind fun tmp =>
      if v.height tmp.tag = v.height f.tag then some (plug fs tmp) else rebalance fs tmp

/-- The parts of `insert` and `delete`. -/
def method : Method τ κ ο where
  limit := pathStack
  first := v.first
  split := v.split
  grow := v.setHeight 1
  rebalance := v.rebalance

/-- Insert a key, unless it is there. All keys have the same object: the
programs use the tree itself as a pointer that is not NULL. -/
def enter [LinearOrder κ] (v : Variant τ κ Unit) (t : Root τ κ Unit) (k : κ) :
    Option (Root τ κ Unit) :=
  if (t.find k).isSome then some t else (v.method.insert t k ()).map Prod.fst

end Variant

/-! ## Forgetting a part of the tags -/

/-- The map `f` takes the code of `v` to the code of `u`. -/
structure Variant.Hom {τ' : Type} (v : Variant τ κ ο) (u : Variant τ' κ ο) (f : τ → τ') : Prop where
  height : ∀ c, u.height (f c) = v.height c
  setHeight : ∀ h c, u.setHeight h (f c) = f (v.setHeight h c)
  first : u.first = f v.first
  split : ∀ c, u.split (f c) = f (v.split c)
  rotation : ∀ d t, u.rotation d (t.mapTag f) = (v.rotation d t).map (mapTag f)

section Forget

variable {τ' : Type} {v : Variant τ κ ο} {u : Variant τ' κ ο} {f : τ → τ'}

theorem heightAt_mapTag (hf : v.Hom u f) : u.heightAt p (t.mapTag f) = v.heightAt p t := by
  simp [Variant.heightAt, Function.comp_def, hf.height]

theorem putHeight_mapTag (hf : v.Hom u f) {h : Int} :
    u.putHeight p h (t.mapTag f) = (v.putHeight p h t).map (mapTag f) := by
  refine modify_mapTag (fun t => ?_) p
  cases t <;> simp [paint, mapTag, hf.setHeight]

theorem repair_mapTag (hf : v.Hom u f) {d : Dir} :
    u.repair d (t.mapTag f) = (v.repair d t).map (mapTag f) := by
  have hmod := modify_mapTag (t := t) (hf.rotation d) [d]
  simp only [Variant.repair, Option.bind_eq_bind, heightAt_mapTag hf, hf.rotation, hmod,
    Option.bind_map, Option.map_bind, Function.comp_def, putHeight_mapTag hf,
    apply_ite (Option.map (mapTag f))]

theorem balance_mapTag (hf : v.Hom u f) :
    u.balance (t.mapTag f) = (v.balance t).map (mapTag f) := by
  simp only [Variant.balance, Option.bind_eq_bind, heightAt_mapTag hf, Option.map_bind,
    Function.comp_def, repair_mapTag hf, putHeight_mapTag hf, apply_ite (Option.map (mapTag f))]

theorem rebalance_mapTag (hf : v.Hom u f) {fs : Context τ κ ο} :
    u.rebalance (fs.map (Frame.mapTag f)) (t.mapTag f) = (v.rebalance fs t).map (mapTag f) := by
  induction fs generalizing t with
  | nil => rfl
  | cons e fs ih =>
    simp only [map_cons, Variant.rebalance, Frame.fill_mapTag, balance_mapTag hf,
      Option.bind_map, Option.map_bind, Function.comp_def, plug_mapTag, ih, tag_mapTag,
      Frame.tag_mapTag, hf.height, apply_ite (Option.map (mapTag f)), Option.map_some]

theorem splitLeaf_mapTag [LinearOrder κ] (hf : v.Hom u f) {c : τ} {k' k : κ} {o' o : ο} :
    u.method.splitLeaf (f c) k' o' k o = (v.method.splitLeaf c k' o' k o).mapTag f := by
  unfold Method.splitLeaf
  split <;> simp [mapTag, Variant.method, hf.setHeight, hf.split]

/-- `insert` commutes with the map. -/
theorem insert_mapTag [LinearOrder κ] (hf : v.Hom u f) (t : Root τ κ ο) (k : κ) (o : ο) :
    u.method.insert (t.map (mapTag f)) k o =
      (v.method.insert t k o).map fun (t', r) => (t'.map (mapTag f), r) := by
  cases t with
  | none => simp [Method.insert, Variant.method, hf.first]
  | some t =>
    obtain ⟨c, k', o', stack, hd⟩ := descend_eq k t []
    have hd' : descend k (t.mapTag f) [] = (leaf (f c) k' o', stack.map (Frame.mapTag f)) := by
      simpa [hd] using descend_mapTag (f := f) k t []
    have hreb : u.method.rebalance (stack.map (Frame.mapTag f))
        (u.method.splitLeaf (f c) k' o' k o) =
          (v.method.rebalance stack (v.method.splitLeaf c k' o' k o)).map (mapTag f) := by
      rw [splitLeaf_mapTag hf]
      exact rebalance_mapTag hf
    have hlimit : ∀ {τ : Type} (v : Variant τ κ ο), v.method.limit = pathStack := fun _ => rfl
    simp only [Option.map_some, Method.insert, hd, hd', length_map, hreb, hlimit]
    split
    · rfl
    split
    · rfl
    · simp [Function.comp_def]

theorem enter_mapTag [LinearOrder κ] {v : Variant τ κ Unit} {u : Variant τ' κ Unit}
    (hf : v.Hom u f) (t : Root τ κ Unit) (k : κ) :
    u.enter (t.map (mapTag f)) k = (v.enter t k).map (Option.map (mapTag f)) := by
  have hfind : Root.find (t.map (mapTag f)) k = t.find k := by
    cases t with
    | none => rfl
    | some t => exact findIn_mapTag
  unfold Variant.enter
  rw [hfind, insert_mapTag hf]
  split
  · rfl
  · simp [Function.comp_def]

end Forget

/-! ## What the rotations keep, the loop keeps -/

section Keep

variable {v : Variant τ κ ο} {R : LeafTree τ κ ο → LeafTree τ κ ο → Prop}

section

variable {h : Int} (hR : IsCongr R) (hheight : ∀ h t, R t (t.paint (v.setHeight h t.tag)))
include hR hheight

theorem putHeight_rel (ht' : v.putHeight p h t = some t') : R t t' :=
  hR.modify (fun t _ ht => Option.some.inj ht ▸ hheight h t) ht'

theorem repair_rel (hrot : ∀ d t t', v.rotation d t = some t' → R t t') {d : Dir}
    (ht' : v.repair d t = some t') : R t t' := by
  simp only [Variant.repair, Option.bind_eq_bind, Option.bind_eq_some_iff] at ht'
  obtain ⟨a, -, b, -, ht'⟩ := ht'
  split at ht'
  · simp only [Option.bind_eq_some_iff] at ht'
    obtain ⟨t1, h1, x, -, t2, h2, y, -, h3⟩ := ht'
    exact hR.trans (hrot _ _ _ h1) (hR.trans (putHeight_rel hR hheight h2)
      (putHeight_rel hR hheight h3))
  · simp only [Option.bind_eq_some_iff] at ht'
    obtain ⟨t1, h1, t2, h2, x, -, t3, h3, t4, h4, h5⟩ := ht'
    exact hR.trans (hR.modify (hrot d) h1) (hR.trans (hrot _ _ _ h2)
      (hR.trans (putHeight_rel hR hheight h3) (hR.trans (putHeight_rel hR hheight h4)
        (putHeight_rel hR hheight h5))))

theorem balance_rel (hrot : ∀ d t t', v.rotation d t = some t' → R t t')
    (ht' : v.balance t = some t') : R t t' := by
  simp only [Variant.balance, Option.bind_eq_bind, Option.bind_eq_some_iff] at ht'
  obtain ⟨a, -, b, -, ht'⟩ := ht'
  split at ht'
  · exact repair_rel hR hheight hrot ht'
  split at ht'
  · exact repair_rel hR hheight hrot ht'
  split at ht'
  · exact putHeight_rel hR hheight ht'
  · exact putHeight_rel hR hheight ht'

/-- A congruence that contains the rotations and the changes of heights
relates the tree before the loop to the tree after it. -/
theorem rebalance_rel (hrot : ∀ d t t', v.rotation d t = some t' → R t t') {fs : Context τ κ ο}
    (ht' : v.rebalance fs t = some t') : R (plug fs t) t' := by
  induction fs generalizing t with
  | nil => exact Option.some.inj ht' ▸ hR.refl t
  | cons f fs ih =>
    obtain ⟨t1, h1, h2⟩ := Option.bind_eq_some_iff.1 ht'
    have hstep : R (plug (f :: fs) t) (plug fs t1) := hR.plug (balance_rel hR hheight hrot h1) fs
    split at h2
    · exact Option.some.inj h2 ▸ hstep
    · exact hR.trans hstep (ih h2)

end

/-- What a variant of `plain` rotates keeps its entries and its order. -/
theorem Variant.Hom.keeps_rotation [LinearOrder κ] {f : τ → Int} (hf : v.Hom plain f) {d : Dir}
    (h : v.rotation d t = some t') : Keeps t t' := by
  have hrot : LeafTree.rotation d (t.mapTag f) = some (t'.mapTag f) := by
    have := hf.rotation d t
    rwa [h] at this
  exact keeps_mapTag.1 (Keeps.rotation hrot)

theorem rebalance_keeps [LinearOrder κ] {fs : Context Int κ ο} {t t' : LeafTree Int κ ο}
    (h : plain.rebalance fs t = some t') : Keeps (plug fs t) t' :=
  rebalance_rel isCongr_keeps (fun h t => Keeps.paint h t) (fun _ _ _ => Keeps.rotation) h

end Keep

/-! ## Balance -/

/-- The recorded heights are right, siblings differ by at most one in height,
and `n` is the height of the tree. -/
def Avl : LeafTree Int κ ο → Nat → Prop
  | leaf h _ _, n => n = 0 ∧ h = 0
  | node h _ l r, n => h = n ∧ ∃ a b, Avl l a ∧ Avl r b ∧ a ≤ b + 1 ∧ b ≤ a + 1 ∧ n = max a b + 1

section Balance

variable {d : Dir} {h : Int} {k : κ} {x y t : LeafTree Int κ ο} {a b n : Nat}

theorem avl_join : Avl (join d h k x y) n ↔
    h = n ∧ ∃ a b, Avl x a ∧ Avl y b ∧ a ≤ b + 1 ∧ b ≤ a + 1 ∧ n = max a b + 1 := by
  cases d with
  | left => exact Iff.rfl
  | right =>
    refine and_congr_right fun _ => ⟨?_, ?_⟩
    all_goals
      rintro ⟨a, b, hx, hy, hab, hba, rfl⟩
      exact ⟨b, a, hy, hx, hba, hab, by rw [max_comm]⟩

theorem Avl.tag (ht : Avl t n) : t.tag = n := by
  cases t with
  | leaf => exact ht.2.trans (by rw [ht.1]; rfl)
  | node => exact ht.1

theorem Avl.join (hx : Avl x a) (hy : Avl y b) (hab : a ≤ b + 1) (hba : b ≤ a + 1)
    (hn : n = max a b + 1) (hh : h = n) : Avl (join d h k x y) n :=
  avl_join.2 ⟨hh, a, b, hx, hy, hab, hba, hn⟩

/-- A tree that is not of height 0 is a node. -/
theorem Avl.exists_join (ht : Avl t (n + 1)) (d : Dir) :
    ∃ h k x y a b, t = LeafTree.join d h k x y ∧ Avl x a ∧ Avl y b ∧ a ≤ b + 1 ∧ b ≤ a + 1 ∧
      n = max a b := by
  rcases leaf_or_join d t with ⟨c, k, o, rfl⟩ | ⟨c, k, x, y, rfl⟩
  · exact absurd ht.1 (by omega)
  · obtain ⟨-, a, b, hx, hy, hab, hba, hn⟩ := avl_join.1 ht
    exact ⟨c, k, x, y, a, b, rfl, hx, hy, hab, hba, by omega⟩

@[simp] theorem heightAt_nil : plain.heightAt [] t = some t.tag := rfl

@[simp] theorem heightAt_join : plain.heightAt (d :: p) (join d h k x y) = plain.heightAt p x := by
  simp [Variant.heightAt, tagAt]

@[simp] theorem heightAt_join_flip :
    plain.heightAt (d.flip :: p) (join d h k x y) = plain.heightAt p y := by
  simp [Variant.heightAt, tagAt]

@[simp] theorem putHeight_nil {h' : Int} : plain.putHeight [] h' t = some (t.paint h') := by
  simp [Variant.putHeight, plain]

@[simp] theorem putHeight_join {h' : Int} : plain.putHeight (d :: p) h' (join d h k x y) =
    (plain.putHeight p h' x).map (join d h k · y) := by
  simp [Variant.putHeight]

@[simp] theorem putHeight_join_flip {h' : Int} : plain.putHeight (d.flip :: p) h' (join d h k x y) =
      (plain.putHeight p h' y).map (join d h k x ·) := by
  simp [Variant.putHeight]

@[simp] theorem plain_rotation : (plain : Variant Int κ ο).rotation = LeafTree.rotation := rfl

/-- A rotation, or two, make good a difference of two. -/
theorem repair_ok (hx : Avl x (b + 2)) (hy : Avl y b) :
    ∃ t n, plain.repair d (join d h k x y) = some t ∧ Avl t n ∧ (n = b + 2 ∨ n = b + 3) := by
  obtain ⟨hx0, kx, x1, x2, a1, a2, rfl, hx1, hx2, h12, h21, hmax⟩ := hx.exists_join d
  by_cases hout : a1 = b + 1
  · have hrep : plain.repair d (join d h k (join d hx0 kx x1 x2) y) =
        some (join d ((a2 : Int) + 2) kx x1 (join d ((a2 : Int) + 1) k x2 y)) := by
      simp [Variant.repair, hx1.tag, hx2.tag, hy.tag, hout, Int.add_assoc]
    refine ⟨_, a2 + 2, hrep, ?_, by omega⟩
    exact hx1.join (hx2.join hy (by omega) (by omega) rfl (by omega)) (by omega) (by omega)
      (by omega) (by simp)
  · have ha2 : a2 = b + 1 := by omega
    subst ha2
    obtain ⟨hm, km, p, q, ap, aq, rfl, hp, hq, hpq, hqp, hpqmax⟩ := hx2.exists_join d
    have ha1 : a1 = b := by omega
    have hrep : plain.repair d (join d h k (join d hx0 kx x1 (join d hm km p q)) y) =
        some (join d ((b : Int) + 2) km (join d ((b : Int) + 1) kx x1 p)
          (join d ((b : Int) + 1) k q y)) := by
      simp [Variant.repair, hx1.tag, hy.tag, ha1]
    refine ⟨_, b + 2, hrep, ?_, .inl rfl⟩
    exact (hx1.join hp (by omega) (by omega) rfl (by omega)).join
      (hq.join hy (by omega) (by omega) rfl (by omega)) (by omega) (by omega) (by omega) (by simp)

theorem balance_join : plain.balance (join d h k x y) =
    if x.tag - y.tag = 2 then plain.repair d (join d h k x y)
    else if y.tag - x.tag = 2 then plain.repair d.flip (join d h k x y)
    else some (join d (max x.tag y.tag + 1) k x y) := by
  have hl : plain.heightAt [.left] (join d h k x y) =
      some (if d = .left then x.tag else y.tag) := by cases d <;> rfl
  have hr : plain.heightAt [.right] (join d h k x y) =
      some (if d = .left then y.tag else x.tag) := by cases d <;> rfl
  simp only [Variant.balance, hl, hr, Option.bind_eq_bind, Option.bind_some, putHeight_nil,
    paint_join]
  cases d with
  | left =>
    simp only [if_true, Dir.flip]
    split_ifs <;> first | rfl | omega | simp only [Option.some.injEq]; congr 1; omega
  | right =>
    simp only [reduceCtorEq, if_false, Dir.flip]
    split_ifs <;> first | rfl | omega | simp only [Option.some.injEq]; congr 1; omega

/-- One iteration: a difference of two becomes at most one, and a node that is
in order stays as it is. -/
theorem balance_ok (hx : Avl x a) (hy : Avl y b) (hab : a ≤ b + 2) (hba : b ≤ a + 2) :
    ∃ t n, plain.balance (join d h k x y) = some t ∧ Avl t n ∧
      (a ≤ b + 1 → b ≤ a + 1 → n = max a b + 1 ∧ t = join d (n : Int) k x y) ∧
      (n = max a b + 1 ∨ n = max a b) := by
  rw [balance_join, hx.tag, hy.tag]
  by_cases h1 : a = b + 2
  · subst h1
    obtain ⟨t, n, hr, ht, hn⟩ := repair_ok (d := d) (h := h) (k := k) hx hy
    exact ⟨t, n, by rw [if_pos (by omega), hr], ht, by omega, by omega⟩
  by_cases h2 : b = a + 2
  · subst h2
    obtain ⟨t, n, hr, ht, hn⟩ := repair_ok (d := d.flip) (h := h) (k := k) hy hx
    refine ⟨t, n, ?_, ht, by omega, by omega⟩
    rw [if_neg (by omega), if_pos (by omega), ← hr, join_flip]
  · refine ⟨_, max a b + 1, by rw [if_neg (by omega), if_neg (by omega)],
      hx.join hy (by omega) (by omega) rfl (by omega), fun _ _ => ⟨rfl, ?_⟩, .inl rfl⟩
    congr 1
    omega

/-- The context of a subtree of height `n` in a balanced tree. -/
def Fits : Context Int κ ο → Nat → Prop
  | [], _ => True
  | f :: fs, n => ∃ b, Avl f.other b ∧ n ≤ b + 1 ∧ b ≤ n + 1 ∧ f.tag = (max n b + 1 : Nat) ∧
      Fits fs (max n b + 1)

variable {fs : Context Int κ ο}

theorem Avl.of_plug (ht : Avl (plug fs t) n) : ∃ m, Avl t m ∧ Fits fs m := by
  induction fs generalizing t with
  | nil => exact ⟨n, ht, trivial⟩
  | cons f fs ih =>
    obtain ⟨m, hm, hf⟩ := ih ht
    obtain ⟨hh, a, b, hx, hy, hab, hba, rfl⟩ := avl_join.1 hm
    exact ⟨a, hx, b, hy, hab, hba, hh, hf⟩

theorem Fits.plug (hf : Fits fs n) (ht : Avl t n) : ∃ m, Avl (plug fs t) m := by
  induction fs generalizing t n with
  | nil => exact ⟨n, ht⟩
  | cons f fs ih =>
    obtain ⟨b, hb, hnb, hbn, hh, hf⟩ := hf
    exact ih hf (ht.join hb hnb hbn rfl hh)

theorem rebalance_cons {f : Frame Int κ ο} {tmp : LeafTree Int κ ο}
    (hbal : plain.balance (f.fill t) = some tmp) : plain.rebalance (f :: fs) t =
      if tmp.tag = f.tag then some (LeafTree.plug fs tmp) else plain.rebalance fs tmp := by
  rw [Variant.rebalance, hbal]
  rfl

/-- The loop restores the balance of a tree in which the height of one subtree
has changed by one. -/
theorem rebalance_ok {n0 : Nat} (hf : Fits fs n0) (ht : Avl t n) (h1 : n ≤ n0 + 1)
    (h2 : n0 ≤ n + 1) : ∃ t' m, plain.rebalance fs t = some t' ∧ Avl t' m := by
  induction fs generalizing t n n0 with
  | nil => exact ⟨t, n, rfl, ht⟩
  | cons f fs ih =>
    obtain ⟨b, hb, hnb, hbn, hh, hf⟩ := hf
    obtain ⟨tmp, m, hbal, htmp, hsame, hm⟩ :=
      balance_ok (d := f.dir) (h := f.tag) (k := f.key) ht hb (by omega) (by omega)
    rw [rebalance_cons hbal]
    by_cases hfin : tmp.tag = f.tag
    · rw [htmp.tag, hh, Nat.cast_inj] at hfin
      obtain ⟨m', hm'⟩ := hf.plug (hfin ▸ htmp)
      exact ⟨_, m', if_pos (by rw [htmp.tag, hh, hfin]), hm'⟩
    · rw [if_neg hfin]
      exact ih hf htmp (by omega) (by omega)

/-- In a balanced tree the loop stops at once. -/
theorem rebalance_idle (hf : Fits fs n) (ht : Avl t n) :
    plain.rebalance fs t = some (plug fs t) := by
  cases fs with
  | nil => rfl
  | cons f fs =>
    obtain ⟨b, hb, hnb, hbn, hh, hf⟩ := hf
    obtain ⟨tmp, m, hbal, -, hsame, -⟩ :=
      balance_ok (d := f.dir) (h := f.tag) (k := f.key) ht hb (by omega) (by omega)
    obtain ⟨rfl, rfl⟩ := hsame hnb hbn
    rw [rebalance_cons hbal, if_pos (by rw [tag_join, hh]), LeafTree.plug, Frame.fill, hh]

theorem Avl.two_pow_le (ht : Avl t n) : 2 ^ (n / 2) ≤ t.toList.length := by
  induction t generalizing n with
  | leaf h k o => simp [ht.1, toList]
  | node h k l r ihl ihr =>
    obtain ⟨-, a, b, hl, hr, hab, hba, rfl⟩ := ht
    have hl := ihl hl
    have hr := ihr hr
    have hpow : ∀ m, m ≤ a / 2 → m ≤ b / 2 → 2 ^ m + 2 ^ m ≤ (node h k l r).toList.length :=
      fun m ha hb => by
        have ha := Nat.pow_le_pow_right (by decide : 0 < 2) ha
        have hb := Nat.pow_le_pow_right (by decide : 0 < 2) hb
        simp only [toList, length_append]
        omega
    rcases Nat.eq_zero_or_pos ((max a b + 1) / 2) with hz | hz
    · rw [hz]
      have := hpow 0 (Nat.zero_le _) (Nat.zero_le _)
      omega
    · obtain ⟨m, hm⟩ := Nat.exists_eq_succ_of_ne_zero hz.ne'
      rw [hm, Nat.pow_succ, Nat.mul_two]
      exact hpow m (by omega) (by omega)

theorem Avl.length_descend [LinearOrder κ] (ht : Avl t n) (fs : Context Int κ ο) :
    (LeafTree.descend k t fs).2.length ≤ fs.length + n := by
  fun_induction LeafTree.descend k t fs generalizing n with
  | case1 => exact Nat.le_add_right _ _
  | case2 c k' l r fs hk ih =>
    obtain ⟨-, a, b, hl, -, -, -, rfl⟩ := ht
    have := ih hl
    simp only [length_cons] at this
    omega
  | case3 c k' l r fs hk ih =>
    obtain ⟨-, a, b, -, hr, -, -, rfl⟩ := ht
    have := ih hr
    simp only [length_cons] at this
    omega

/-- The path stack is long enough for all keys of a machine integer. -/
theorem Avl.stack_ok [LinearOrder κ] [Fintype κ] (hκ : Fintype.card κ ≤ 2 ^ 32) (ht : Avl t n)
    (hs : t.Search) : (LeafTree.descend k t []).2.length ≤ pathStack := by
  have hpow : 2 ^ (n / 2) ≤ 2 ^ 32 := ht.two_pow_le.trans (hs.length_le_card.trans hκ)
  have hle : n / 2 ≤ 32 := (Nat.pow_le_pow_iff_right (by decide)).1 hpow
  have hlen := ht.length_descend (k := k) []
  simp only [length_nil, pathStack] at hlen ⊢
  omega

end Balance

/-! ## The plain tree -/

section Plain

variable [LinearOrder κ]

theorem avl_splitLeaf {c : Int} {k' k : κ} {o' o : ο} :
    Avl (plain.method.splitLeaf c k' o' k o) 1 := by
  unfold Method.splitLeaf
  split <;> simp [plain, Variant.method, Avl]

/-- The loop keeps a plain tree balanced. -/
theorem plain_lawful [Fintype κ] (hκ : Fintype.card κ ≤ 2 ^ 32) :
    (plain : Variant Int κ ο).method.Lawful (fun t => ∃ n, Avl t n) fun _ => True where
  stack k := fun ⟨n, hn⟩ hs => hn.stack_ok hκ hs
  first k o := ⟨0, rfl, rfl⟩
  insert k o := fun ⟨n, hn⟩ _ => by
    obtain ⟨m, hm, hf⟩ := hn.of_plug
    obtain rfl := hm.1
    obtain ⟨t, m, ht, hm⟩ := rebalance_ok hf avl_splitLeaf (by omega) (by omega)
    exact ⟨t, ht, ⟨m, hm⟩, rebalance_keeps ht⟩
  delete := fun ⟨n, hn⟩ => by
    obtain ⟨m, hm, b, hb, h1, h2, -, hf⟩ := hn.of_plug
    obtain rfl := hm.1
    obtain ⟨t, m, ht, hm⟩ := rebalance_ok hf hb (by omega) (by omega)
    exact ⟨t, ht, ⟨m, hm⟩, rebalance_keeps ht⟩
  idle := fun ⟨n, hn⟩ => by
    obtain ⟨m, hm, b, hb, h1, h2, htag, hf⟩ := hn.of_plug
    exact rebalance_idle hf (hm.join hb h1 h2 rfl htag)

/-- An insertion into a balanced tree of any variant. -/
theorem insert_ok [Fintype κ] (hκ : Fintype.card κ ≤ 2 ^ 32) {v : Variant τ κ ο} {f : τ → Int}
    (hf : v.Hom plain f) (hs : t.Search) {n : Nat} (hn : Avl (t.mapTag f) n)
    (k : κ) (o : ο) : ∃ t' r m, v.method.insert (some t) k o = some (some t', r) ∧ t'.Search ∧
      Avl (t'.mapTag f) m ∧ Inserted t.toList k o t'.toList r := by
  have hsound : Method.Sound (fun t => ∃ n, Avl t n) (some (t.mapTag f)) := by
    rintro s ⟨⟩
    exact ⟨search_mapTag.2 hs, n, hn⟩
  obtain ⟨t1, r, hins, hsound', hspec, -⟩ :=
    Method.insert_ok (plain_lawful hκ) _ hsound k o (by simp)
  have hmap : (v.method.insert (some t) k o).map (fun (t', r) => (t'.map (mapTag f), r)) =
      some (t1, r) := (insert_mapTag hf (some t) k o).symm.trans hins
  obtain ⟨⟨t', r'⟩, hins', heq⟩ := Option.map_eq_some_iff.1 hmap
  obtain ⟨rfl, rfl⟩ := Prod.mk.inj heq
  obtain ⟨s, rfl⟩ : ∃ s, t' = some s := by
    rcases Method.insert_cases hins' with h | ⟨-, -, -, -, s, -, -, -, h⟩
    · exact ⟨t, h⟩
    · exact ⟨s, h⟩
  obtain ⟨hs', m, hm⟩ := hsound' _ rfl
  refine ⟨s, r', m, hins', search_mapTag.1 hs', hm, ?_⟩
  simpa [Root.entries] using hspec

end Plain

end CLangProject.HeightTree
