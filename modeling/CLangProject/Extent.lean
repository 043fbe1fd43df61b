import Mathlib

/-!
# Address ranges and `malloc`

An `Extent` is the range of addresses `[base, base + size)`. `Separate` is
the state of an allocator as far as addresses go: the extents of the used
indices are not empty, lie inside the rooms, and do not overlap. It is kept
by making extents smaller and by adding an extent in free space; the back
that is cut off an extent is such free space.

`Malloc` stands for the C library's `malloc`: any choice of addresses, made
anew at every call, that keeps a returned region apart from the regions
still held.
-/

namespace CLangProject

open List

structure Extent where
  base : Nat
  size : Nat
deriving Repr, DecidableEq

namespace Extent

def Apart (a b : Extent) : Prop := a.base + a.size ≤ b.base ∨ b.base + b.size ≤ a.base

def Within (a b : Extent) : Prop := b.base ≤ a.base ∧ a.base + a.size ≤ b.base + b.size

instance (a b : Extent) : Decidable (a.Apart b) := inferInstanceAs (Decidable (_ ∨ _))

instance (a b : Extent) : Decidable (a.Within b) := inferInstanceAs (Decidable (_ ∧ _))

/-- What is left of `a` when `n` bytes are cut off its back. -/
def front (n : Nat) (a : Extent) : Extent := ⟨a.base, a.size - n⟩

/-- The last `n` bytes of `a`. -/
def back (n : Nat) (a : Extent) : Extent := ⟨a.base + (a.size - n), n⟩

theorem Within.refl (a : Extent) : a.Within a := ⟨Nat.le_refl _, Nat.le_refl _⟩

variable {a b : Extent}

theorem Within.trans {c : Extent} (h1 : a.Within b) (h2 : b.Within c) : a.Within c := by
  unfold Within at *; omega

theorem Apart.symm (h : a.Apart b) : b.Apart a := Or.symm h

theorem Apart.mono {a' b' : Extent} (h : a.Apart b) (ha : a'.Within a) (hb : b'.Within b) :
    a'.Apart b' := by
  unfold Apart Within at *; omega

theorem front_within (n : Nat) (a : Extent) : (a.front n).Within a := by
  unfold front Within; dsimp only; omega

theorem back_within {n : Nat} (h : n ≤ a.size) : (a.back n).Within a := by
  unfold back Within; dsimp only; omega

theorem front_apart_back (n : Nat) (a : Extent) : (a.front n).Apart (a.back n) := by
  unfold front back Apart; dsimp only; omega

end Extent

/-! ## Separate extents -/

structure Separate {ι : Type*} (room : List Extent) (used : ι → Prop) (ext : ι → Extent) :
    Prop where
  pos : ∀ i, used i → 0 < (ext i).size
  inside : ∀ i, used i → ∃ r ∈ room, (ext i).Within r
  apart : ∀ i j, used i → used j → i ≠ j → (ext i).Apart (ext j)

namespace Separate

variable {ι : Type*} {room : List Extent} {used : ι → Prop} {ext : ι → Extent}

variable {i j : ι} {ext' : ι → Extent} {n : Nat}

section

variable (h : Separate room used ext)
include h

/-- No two used extents start at the same address. -/
theorem base_inj (hi : used i) (hj : used j) (hb : (ext i).base = (ext j).base) : i = j := by
  by_contra hne
  have hap := h.apart i j hi hj hne
  have := h.pos i hi
  have := h.pos j hj
  unfold Extent.Apart at hap
  omega

theorem shrink (hsub : ∀ i, used i → 0 < (ext' i).size ∧ (ext' i).Within (ext i)) :
    Separate room used ext' where
  pos i hi := (hsub i hi).1
  inside i hi := by
    obtain ⟨r, hr, hin⟩ := h.inside i hi
    exact ⟨r, hr, (hsub i hi).2.trans hin⟩
  apart i j hi hj hne := (h.apart i j hi hj hne).mono (hsub i hi).2 (hsub j hj).2

/-- A new index `k` whose extent is apart from all the others. -/
theorem insert {used' : ι → Prop} {room' : List Extent} {k : ι}
    (hroom : room ⊆ room') (hused : ∀ i, used' i ↔ used i ∨ i = k)
    (hold : ∀ i, used i → ext' i = ext i) (hpos : 0 < (ext' k).size)
    (hin : ∃ r ∈ room', (ext' k).Within r) (hap : ∀ i, used i → (ext i).Apart (ext' k)) :
    Separate room' used' ext' where
  pos i hi := by
    rcases (hused i).mp hi with hi | rfl
    · rw [hold i hi]; exact h.pos i hi
    · exact hpos
  inside i hi := by
    rcases (hused i).mp hi with hi | rfl
    · obtain ⟨r, hr, hwithin⟩ := h.inside i hi
      exact ⟨r, hroom hr, by rwa [hold i hi]⟩
    · exact hin
  apart i j hi hj hne := by
    rcases (hused i).mp hi with hi | rfl <;> rcases (hused j).mp hj with hj | rfl
    · rw [hold i hi, hold j hj]; exact h.apart i j hi hj hne
    · rw [hold i hi]; exact hap i hi
    · rw [hold j hj]; exact (hap j hj).symm
    · exact absurd rfl hne

/-- Cutting `n` bytes off the back of the extent at `i`, without using them
up. -/
theorem cut (hlt : n < (ext i).size)
    (hfront : ext' i = (ext i).front n) (hold : ∀ j, j ≠ i → ext' j = ext j) :
    Separate room used ext' := by
  refine h.shrink fun j hj => ?_
  by_cases hji : j = i
  · subst hji
    rw [hfront]
    exact ⟨Nat.sub_pos_of_lt hlt, Extent.front_within n _⟩
  · rw [hold j hji]
    exact ⟨h.pos j hj, Extent.Within.refl _⟩

/-- The bytes cut off are apart from everything used. -/
theorem apart_back (hi : used i) (hlt : n < (ext i).size)
    (hfront : ext' i = (ext i).front n) (hold : ∀ j, j ≠ i → ext' j = ext j) (hj : used j) :
    (ext' j).Apart ((ext i).back n) := by
  by_cases hji : j = i
  · subst hji
    rw [hfront]
    exact Extent.front_apart_back n _
  · rw [hold j hji]
    exact (h.apart j i hj hi hji).mono (Extent.Within.refl _)
      (Extent.back_within (Nat.le_of_lt hlt))

end

end Separate

/-! ## The C heap -/

/-- `malloc` of the C library. `pick` gets the number of the call, the
regions held and the size; `none` is NULL. -/
structure Malloc where
  pick : Nat → List Extent → Nat → Option Nat
  sound : ∀ {t held n a}, pick t held n = some a →
    0 < a ∧ 16 ∣ a ∧ a + n ≤ 2 ^ 64 ∧ ∀ r ∈ held, (Extent.mk a n).Apart r

/-- The first multiple of 16 behind all regions. -/
def bumpBase (held : List Extent) : Nat :=
  (held.foldr (fun r top => max (r.base + r.size) top) 16 + 15) / 16 * 16

theorem le_bumpBase {held : List Extent} {r : Extent} (hr : r ∈ held) :
    r.base + r.size ≤ bumpBase held := by
  have htop : r.base + r.size ≤ held.foldr (fun r top => max (r.base + r.size) top) 16 := by
    induction held with
    | nil => cases hr
    | cons a held ih =>
      rcases mem_cons.mp hr with rfl | hr
      · exact Nat.le_max_left _ _
      · exact Nat.le_trans (ih hr) (Nat.le_max_right _ _)
  unfold bumpBase
  omega

theorem bumpBase_pos (held : List Extent) : 0 < bumpBase held := by
  have htop : 16 ≤ held.foldr (fun r top => max (r.base + r.size) top) 16 := by
    induction held with
    | nil => exact Nat.le_refl _
    | cons a held ih => exact Nat.le_trans ih (Nat.le_max_right _ _)
  unfold bumpBase
  omega

/-- A `malloc` that always goes on behind the last region. -/
def Malloc.bump : Malloc where
  pick _ held n := if bumpBase held + n ≤ 2 ^ 64 then some (bumpBase held) else none
  sound {t held n a} h := by
    split_ifs at h with hle
    obtain rfl := Option.some.inj h
    exact ⟨bumpBase_pos held, Nat.dvd_mul_left _ _, hle, fun r hr => Or.inr (le_bumpBase hr)⟩

/-- The regions held and the number of calls made so far. -/
structure CHeap where
  held : List Extent
  calls : Nat

def CHeap.init : CHeap := ⟨[], 0⟩

def Malloc.malloc (M : Malloc) (n : Nat) (H : CHeap) : Option Nat × CHeap :=
  match M.pick H.calls H.held n with
  | some a => (some a, ⟨⟨a, n⟩ :: H.held, H.calls + 1⟩)
  | none => (none, ⟨H.held, H.calls + 1⟩)

/-- `free` gives back the region that was handed out last at `p`. -/
def CHeap.free (p : Nat) (H : CHeap) : CHeap :=
  { H with held := H.held.eraseP fun r => r.base == p }

theorem Malloc.malloc_cases (M : Malloc) (n : Nat) (H : CHeap) :
    (∃ a, M.malloc n H = (some a, ⟨⟨a, n⟩ :: H.held, H.calls + 1⟩) ∧ 0 < a ∧ 16 ∣ a
        ∧ a + n ≤ 2 ^ 64 ∧ ∀ r ∈ H.held, (Extent.mk a n).Apart r)
      ∨ M.malloc n H = (none, ⟨H.held, H.calls + 1⟩) := by
  unfold Malloc.malloc
  cases hp : M.pick H.calls H.held n with
  | none => exact Or.inr rfl
  | some a => exact Or.inl ⟨a, rfl, M.sound hp⟩

/-- The addresses that are in no region held. -/
def CHeap.unheld (H : CHeap) : Finset Nat :=
  (Finset.range (2 ^ 64)).filter fun a => ∀ r ∈ H.held, a < r.base ∨ r.base + r.size ≤ a

/-- The number of bytes that `malloc` may still hand out. -/
def CHeap.room (H : CHeap) : Nat := H.unheld.card

/-- A region handed out is taken from the room that there was. -/
theorem Malloc.room_malloc (M : Malloc) {n a : Nat} {H H' : CHeap}
    (h : M.malloc n H = (some a, H')) :
    H'.room + n ≤ H.room := by
  rcases M.malloc_cases n H with ⟨b, hb, -, -, hle, hap⟩ | hb <;> rw [hb] at h <;> cases h
  have hdisj : Disjoint (CHeap.unheld ⟨⟨a, n⟩ :: H.held, H.calls + 1⟩) (Finset.Ico a (a + n)) := by
    refine Finset.disjoint_left.2 fun x hx hy => ?_
    have hx := (Finset.mem_filter.1 hx).2 ⟨a, n⟩ mem_cons_self
    have hy := Finset.mem_Ico.1 hy
    simp only at hx
    omega
  have hsub : CHeap.unheld ⟨⟨a, n⟩ :: H.held, H.calls + 1⟩ ∪ Finset.Ico a (a + n) ⊆ H.unheld := by
    refine Finset.union_subset (fun x hx => ?_) fun x hx => ?_
    · obtain ⟨hx, hr⟩ := Finset.mem_filter.1 hx
      exact Finset.mem_filter.2 ⟨hx, fun r hmem => hr r (mem_cons_of_mem _ hmem)⟩
    · have hx := Finset.mem_Ico.1 hx
      refine Finset.mem_filter.2 ⟨Finset.mem_range.2 (by omega), fun r hr => ?_⟩
      have := hap r hr
      unfold Extent.Apart at this
      simp only at this
      omega
  have hcard := Finset.card_le_card hsub
  rw [Finset.card_union_of_disjoint hdisj, Nat.card_Ico, Nat.add_sub_cancel_left] at hcard
  exact hcard

end CLangProject
